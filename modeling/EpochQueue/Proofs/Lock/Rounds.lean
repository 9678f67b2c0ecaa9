/-
  EpochQueue.Proofs.Lock.Rounds — threads that take turns all get through.

  A section costs what its accesses cost, wherever it stands: `owed` is what all threads together have
  before them. A turn never adds to it, and takes something off unless it is a swap or a load of the flag
  that finds the lock held, or the load after which a thread swaps again. As the holder of a lock has
  a turn in every round, a round that takes nothing off found the lock free and everybody watching;
  after it nobody watches any more, so the next one takes something off (`Enough.round`). That is
  enough for `Contention.run` to let every section run (`run_eq_iterate`).

  `Serial` gathers what the lock is for: threads exclude each other, and no section's update is lost.
-/

import EpochQueue.Proofs.Lock.Exclusion
import Mathlib.Data.Nat.SuccPred

namespace EpochQueue.Lock

variable {σ : Type}

namespace Stage

/-- What a section has before it. -/
def load : Stage σ → Nat
  | outside => 0
  | swap _ _ | watch _ => 8
  | read _ => 6
  | write _ _ => 4
  | unlock => 2

def watches : Stage σ → Bool
  | watch _ => true
  | _ => false

end Stage

namespace Contention

/-- What the threads from `t` on have before them, where `left` says with how many sections each of
    them has still to come. -/
def owed (c : Contention σ) : Nat → List Nat → Nat
  | _, [] => 0
  | t, l :: rest => 8 * l + (c.stage t).load + c.owed (t + 1) rest

theorem owed_congr {c c' : Contention σ} {t : Nat} {left : List Nat} (h : ∀ u, t ≤ u → c'.stage u = c.stage u) :
    c'.owed t left = c.owed t left := by
  induction left generalizing t with
  | nil => rfl
  | cons l rest ih => rw [owed, owed, h t (Nat.le_refl t), ih fun u hu => h u (Nat.le_of_succ_le hu)]

theorem owed_of_outside {c : Contention σ} (h : ∀ u, c.stage u = .outside) (t : Nat) (left : List Nat) :
    c.owed t left = 8 * left.sum := by
  induction left generalizing t with
  | nil => rfl
  | cons l rest ih => rw [owed, ih, h, List.sum_cons, Stage.load]; omega

theorem all_outside_iff (c : Contention σ) : c.stages.toList.all Stage.isOutside = true ↔ ∀ t, c.stage t = .outside := by
  rw [List.all_eq_true]
  refine ⟨fun h t => ?_, fun h s hs => ?_⟩
  · unfold stage Table.get
    cases hs : c.stages.cells[t]? with
    | none => rfl
    | some s => exact Stage.isOutside_iff.mp (h s (Array.mem_toList_iff.mpr (Array.mem_of_getElem? hs)))
  · obtain ⟨t, hget⟩ := Array.getElem?_of_mem (Array.mem_toList_iff.mp hs)
    have := h t
    rw [stage, Table.get, hget] at this
    exact Stage.isOutside_iff.mpr this

theorem rounds_succ (work : σ → σ) (n : Nat) (left : List Nat) (c : Contention σ) :
    rounds work (n + 1) left c = if left.all (· == 0) && c.stages.toList.all Stage.isOutside then c
      else rounds work n (round work 0 left c).1 (round work 0 left c).2 := by
  rw [rounds]
  refine if_congr (iff_of_eq (congrArg (· = true) (congrArg (_ && ·) (congrArg c.stages.toList.all ?_)))) rfl rfl
  funext s
  cases s <;> rfl

end Contention

namespace Logbook

variable {init : σ} {work : σ → σ} {b b' b'' : Logbook σ} {t l : Nat} {left left' : List Nat}

/-- What a step leaves its thread to do. -/
theorem load_step (b : Logbook σ) (t : Nat) : (∀ u, u ≠ t → (b.step t).stage u = b.stage u) ∧
    (((b.step t).stage t).load + 2 ≤ (b.stage t).load ∨
      ((b.step t).stage t).load = (b.stage t).load ∧ (b.stage t).holds = false ∧
        (b.lock.locked = false → (b.step t).lock.locked = false ∧ ((b.step t).stage t).watches = false ∧
          ((b.stage t).watches = true ∨ b.stage t = .outside))) := by
  have hdoes := does_step b t
  generalize b.step t = b' at hdoes
  have hself : ∀ (c : Contention σ) s, (c.setStage t s).stage t = s := fun c s => c.stage_setStage_same t s
  have hothers : ∀ (l : Guarded σ) s u, u ≠ t →
      (({ b.toContention with lock := l } : Contention σ).setStage t s).stage u = b.stage u := fun l s u hu =>
    Contention.stage_setStage_of_ne _ _ hu
  cases hdoes with
  | rests hs hidle =>
    refine ⟨fun _ _ => rfl, Or.inr ⟨rfl, hs, fun hfree => ⟨hfree, ?_, Or.inr (hidle hfree)⟩⟩⟩
    rw [hidle hfree]
    rfl
  | retries f hs hfree =>
    refine ⟨hothers _ _, Or.inr ?_⟩
    dsimp only
    rw [hself, hs]
    exact ⟨rfl, rfl, fun _ => ⟨hfree, rfl, Or.inl rfl⟩⟩
  | misses patient f hs hheld =>
    refine ⟨hothers _ _, ?_⟩
    dsimp only
    rw [hself, hs]
    cases patient with
    | true => exact Or.inr ⟨rfl, rfl, fun hfree => by rw [hheld] at hfree; cases hfree⟩
    | false => exact Or.inl (Nat.le_of_ble_eq_true rfl)
  | gets patient f hs | reads f hs | writes f seen hs | leaves hs =>
    refine ⟨hothers _ _, Or.inl ?_⟩
    dsimp only
    rw [hself, hs]
    exact Nat.le_refl _

/-- The threads from `t` on have had a turn each, which led from `b` to `b'` and took nothing off what they
    owe. If the lock was free then, it is free still, and whoever watched it has noticed. -/
structure Stalled (t : Nat) (left left' : List Nat) (b b' : Logbook σ) : Prop where
  owed : b'.owed t left' = b.owed t left
  unheld : ∀ u, t ≤ u → u < t + left.length → (b.stage u).holds = false
  free : b.lock.locked = false → b'.lock.locked = false
  noticed : b.lock.locked = false → ∀ u, t ≤ u → u < t + left.length → (b'.stage u).watches = false
  cause : b.lock.locked = false → (∃ u, (b.stage u).watches = true) ∨
    left.all (· == 0) = true ∧ ∀ u, t ≤ u → u < t + left.length → b.stage u = .outside

/-- The threads from `t` on have had a turn each, which led from `b` to `b'`; `left` and `left'` say with
    how many sections they had and have still to come. -/
structure Played (init : σ) (work : σ → σ) (t : Nat) (left left' : List Nat) (b b' : Logbook σ) : Prop where
  reach : b'.Reach init
  brought : ∀ v ∈ b'.came, v.patient = true ∧ v.work = work
  came : b'.came.length + left'.sum = b.came.length + left.sum
  length : left'.length = left.length
  others : ∀ u, u < t ∨ t + left.length ≤ u → b'.stage u = b.stage u
  lighter : b'.owed t left' + 2 ≤ b.owed t left ∨ Stalled t left left' b b'

theorem Stalled.cons (h₁ : Stalled t [l] [l'] b b') (h₂ : Stalled (t + 1) left left' b' b'')
    (hothers₁ : ∀ u, u ≠ t → b'.stage u = b.stage u) (hself : b''.stage t = b'.stage t) :
    Stalled t (l :: left) (l' :: left') b b'' := by
  have howed := h₁.owed
  have hself₁ : ∀ {P : Nat → Prop}, (∀ u, t ≤ u → u < t + [l].length → P u) → P t := fun h =>
    h t (Nat.le_refl t) (Nat.lt_succ_self t)
  have hpast : ∀ u, t ≤ u → u ≠ t → u < t + (l :: left).length → t + 1 ≤ u ∧ u < t + 1 + left.length :=
    fun u _ _ h => by rw [List.length_cons] at h; omega
  simp only [Contention.owed, Nat.add_zero] at howed
  refine ⟨?_, fun u hu hlt => ?_, fun hfree => h₂.free (h₁.free hfree), fun hfree u hu hlt => ?_, fun hfree => ?_⟩
  · rw [Contention.owed, Contention.owed, h₂.owed, hself, howed,
      Contention.owed_congr fun u hu => hothers₁ u (Nat.ne_of_gt hu)]
  · by_cases e : u = t
    · exact e ▸ hself₁ h₁.unheld
    · obtain ⟨hu', hlt'⟩ := hpast u hu e hlt
      exact hothers₁ u e ▸ h₂.unheld u hu' hlt'
  · by_cases e : u = t
    · rw [e, hself]
      exact hself₁ (h₁.noticed hfree)
    · obtain ⟨hu', hlt'⟩ := hpast u hu e hlt
      exact h₂.noticed (h₁.free hfree) u hu' hlt'
  · obtain hwatch | ⟨hzero, hout⟩ := h₁.cause hfree
    · exact Or.inl hwatch
    · obtain ⟨u, hwatch⟩ | ⟨hzeros, houts⟩ := h₂.cause (h₁.free hfree)
      · -- it is not `t` that watches afterwards
        have hne : u ≠ t := fun e => by
          rw [e, hself₁ (h₁.noticed hfree)] at hwatch
          cases hwatch
        exact Or.inl ⟨u, hothers₁ u hne ▸ hwatch⟩
      · refine Or.inr ⟨?_, fun u hu hlt => ?_⟩
        · rw [List.all_cons, hzeros, Bool.and_true]
          simpa using hzero
        · by_cases e : u = t
          · exact e ▸ hself₁ hout
          · obtain ⟨hu', hlt'⟩ := hpast u hu e hlt
            exact hothers₁ u e ▸ houts u hu' hlt'

theorem Played.cons (h₁ : Played init work t [l] [l'] b b') (h₂ : Played init work (t + 1) left left' b' b'') :
    Played init work t (l :: left) (l' :: left') b b'' := by
  have hothers₁ : ∀ u, u ≠ t → b'.stage u = b.stage u := fun u hu =>
    h₁.others u (by rw [List.length_singleton]; omega)
  have hself : b''.stage t = b'.stage t := h₂.others t (Or.inl (Nat.lt_succ_self t))
  have hrest : b'.owed (t + 1) left = b.owed (t + 1) left :=
    Contention.owed_congr fun u hu => hothers₁ u (Nat.ne_of_gt hu)
  refine ⟨h₂.reach, h₂.brought, ?_, congrArg (· + 1) h₂.length, fun u hu => ?_, ?_⟩
  · have hcame₁ := h₁.came
    have hcame₂ := h₂.came
    simp only [List.sum_cons, List.sum_nil] at hcame₁ ⊢
    omega
  · rw [List.length_cons] at hu
    rw [h₂.others u (by omega), hothers₁ u (by omega)]
  · obtain hless | hstalled := h₁.lighter
    · refine Or.inl ?_
      have hle : b''.owed (t + 1) left' ≤ b'.owed (t + 1) left :=
        h₂.lighter.elim (fun h => by omega) fun h => Nat.le_of_eq h.owed
      simp only [Contention.owed, Nat.add_zero] at hless ⊢
      rw [hself]
      omega
    · refine h₂.lighter.imp (fun hless => ?_) fun h => hstalled.cons h hothers₁ hself
      have howed := hstalled.owed
      simp only [Contention.owed, Nat.add_zero] at howed ⊢
      rw [hself]
      omega

/-- A thread that does not stand outside makes an access. -/
theorem played_step (h : b.Reach init) (hall : ∀ v ∈ b.came, v.patient = true ∧ v.work = work)
    (hin : b.stage t ≠ .outside) (l : Nat) : Played init work t [l] [l] b (b.step t) := by
  obtain ⟨hothers, hload⟩ := b.load_step t
  have honly : ∀ u, t ≤ u → u < t + [l].length → u = t := fun u hu hlt => by
    rw [List.length_singleton] at hlt; omega
  refine ⟨h.step t, hall, rfl, rfl, fun u hu => hothers u (by rw [List.length_singleton] at hu; omega),
    hload.imp (fun hless => ?_) fun ⟨hsame, hholds, hfree⟩ => ⟨?_, fun u hu hlt => ?_, fun h => (hfree h).1,
      fun h u hu hlt => ?_, fun h => Or.inl ⟨t, ?_⟩⟩⟩
  · simp only [Contention.owed]
    omega
  · simp only [Contention.owed, hsame]
  · exact honly u hu hlt ▸ hholds
  · exact honly u hu hlt ▸ (hfree h).2.1
  · exact (hfree h).2.2.resolve_right hin

/-- A thread that stands outside comes with its next section, and swaps. -/
theorem played_enter (h : b.Reach init) (hall : ∀ v ∈ b.came, v.patient = true ∧ v.work = work)
    (hs : b.stage t = .outside) (l : Nat) :
    Played init work t [l + 1] [l] b ((b.enter ⟨t, true, work⟩).step t) := by
  have hswap : (b.enter ⟨t, true, work⟩).stage t = .swap true work := by simp [Logbook.enter, Contention.enter, hs]
  have hothers : ∀ u, u ≠ t → (b.enter ⟨t, true, work⟩).stage u = b.stage u := fun u hu => by
    simp only [Logbook.enter, Contention.enter, hs]
    exact Contention.stage_setStage_of_ne _ _ hu
  have hcame : (b.enter ⟨t, true, work⟩).came = b.came ++ [⟨t, true, work⟩] := by
    simp [Logbook.enter, hs, Stage.isOutside]
  have hlock : (b.enter ⟨t, true, work⟩).lock = b.lock := by simp [Logbook.enter, Contention.enter, hs]
  have howed : (b.enter ⟨t, true, work⟩).owed t [l] = b.owed t [l + 1] := by
    simp only [Contention.owed, hswap, hs, Stage.load]
    omega
  have hbrought : ∀ v ∈ (b.enter ⟨t, true, work⟩).came, v.patient = true ∧ v.work = work := by
    rw [hcame]
    simpa [or_imp, forall_and] using hall
  have hplayed := played_step (h.enter ⟨t, true, work⟩) hbrought (fun hout => by rw [hswap] at hout; cases hout) l
  refine ⟨hplayed.reach, hplayed.brought, ?_, rfl, fun u hu => ?_, hplayed.lighter.imp (fun hless => howed ▸ hless)
    fun hstalled => ⟨hstalled.owed.trans howed, fun u hu hlt => ?_, hlock ▸ hstalled.free, hlock ▸ hstalled.noticed,
      fun hfree => Or.inl ?_⟩⟩
  · have := hplayed.came
    rw [hcame, List.length_append] at this
    simp only [List.length_singleton, List.sum_cons, List.sum_nil] at this ⊢
    omega
  · rw [hplayed.others u hu, hothers u (by rw [List.length_singleton] at hu; omega)]
  · obtain rfl : u = t := by rw [List.length_singleton] at hlt; omega
    rw [hs]
    rfl
  · -- its swap would have got the lock, so it was somebody else who watched
    obtain ⟨u, hwatch⟩ | ⟨-, hout⟩ := hstalled.cause (hlock ▸ hfree)
    · have hne : u ≠ t := fun e => by
        rw [e, hswap] at hwatch
        cases hwatch
      exact ⟨u, hothers u hne ▸ hwatch⟩
    · have := hout t (Nat.le_refl t) (Nat.lt_succ_self t)
      rw [hswap] at this
      cases this

theorem played_turn (h : b.Reach init) (hall : ∀ v ∈ b.came, v.patient = true ∧ v.work = work) (t l : Nat) :
    ∃ l' b', Contention.turn work t l b.toContention = (l', b'.toContention) ∧ Played init work t [l] [l'] b b' := by
  cases hs : b.stage t with
  | outside =>
    cases l with
    | zero =>
      have honly : ∀ u, t ≤ u → u < t + [0].length → u = t := fun u hu hlt => by
        rw [List.length_singleton] at hlt; omega
      refine ⟨0, b, by simp [Contention.turn, hs], h, hall, rfl, rfl, fun _ _ => rfl, Or.inr ⟨rfl, fun u hu hlt => ?_,
        id, fun _ u hu hlt => ?_, fun _ => Or.inr ⟨rfl, fun u hu hlt => honly u hu hlt ▸ hs⟩⟩⟩
      all_goals
        rw [honly u hu hlt, hs]
        rfl
    | succ l =>
      refine ⟨l, (b.enter ⟨t, true, work⟩).step t, ?_, played_enter h hall hs l⟩
      simp [Contention.turn, hs, Logbook.enter, Logbook.step]
  | _ =>
    refine ⟨l, b.step t, by simp [Contention.turn, hs, Logbook.step], played_step h hall (fun hout => by rw [hs] at hout; cases hout) l⟩

theorem played_round (h : b.Reach init) (hall : ∀ v ∈ b.came, v.patient = true ∧ v.work = work) (t : Nat)
    (left : List Nat) : ∃ left' b', Contention.round work t left b.toContention = (left', b'.toContention) ∧
      Played init work t left left' b b' := by
  induction left generalizing b t with
  | nil =>
    exact ⟨[], b, rfl, h, hall, rfl, rfl, fun _ _ => rfl, Or.inr ⟨rfl, fun u hu hlt => absurd hlt (Nat.not_lt.mpr hu),
      id, fun _ u hu hlt => absurd hlt (Nat.not_lt.mpr hu),
      fun _ => Or.inr ⟨rfl, fun u hu hlt => absurd hlt (Nat.not_lt.mpr hu)⟩⟩⟩
  | cons l left ih =>
    obtain ⟨l', b₁, hturn, h₁⟩ := played_turn h hall t l
    obtain ⟨left', b₂, hround, h₂⟩ := ih h₁.reach h₁.brought (t + 1)
    exact ⟨l' :: left', b₂, by simp only [Contention.round, hturn, hround], h₁.cons h₂⟩

/-! ## Enough rounds -/

/-- As many rounds are enough: each takes something off what is owed, but for those in which the watchers of
    a free lock notice that it is free. -/
structure Enough (n : Nat) (left : List Nat) (b : Logbook σ) : Prop where
  outside : ∀ u, left.length ≤ u → b.stage u = .outside
  owed : b.owed 0 left < n
  watched : ∀ u, (b.stage u).watches = true → b.owed 0 left + 1 < n

theorem Enough.round {n : Nat} (h : b.Reach init) (henough : Enough (n + 1) left b)
    (hplayed : Played init work 0 left left' b b')
    (hnot : ¬ (left.all (· == 0) = true ∧ ∀ u, b.stage u = .outside)) : Enough n left' b' := by
  have howed := henough.owed
  have hin : ∀ u, ¬ left.length ≤ u → u < 0 + left.length := fun u hu => by omega
  have hout : ∀ u, left.length ≤ u → b'.stage u = .outside := fun u hu => by
    rw [hplayed.others u (Or.inr (by rwa [Nat.zero_add]))]
    exact henough.outside u hu
  have houtside : ∀ u, left'.length ≤ u → b'.stage u = .outside := fun u hu => hout u (hplayed.length ▸ hu)
  obtain hless | hstalled := hplayed.lighter
  · exact ⟨houtside, by omega, fun _ _ => by omega⟩
  · have hfree : b.lock.locked = false := h.orderly.sole.free.mpr fun u => by
      by_cases hu : left.length ≤ u
      · rw [henough.outside u hu]
        rfl
      · exact hstalled.unheld u (Nat.zero_le u) (hin u hu)
    have hunwatched : ∀ u, (b'.stage u).watches = false := fun u => by
      by_cases hu : left.length ≤ u
      · rw [hout u hu]
        rfl
      · exact hstalled.noticed hfree u (Nat.zero_le u) (hin u hu)
    refine ⟨houtside, ?_, fun u hu => absurd hu (by rw [hunwatched u]; nofun)⟩
    obtain ⟨u, hwatch⟩ | ⟨hzero, houts⟩ := hstalled.cause hfree
    · have := henough.watched u hwatch
      rw [hstalled.owed]
      omega
    · refine absurd ⟨hzero, fun u => ?_⟩ hnot
      by_cases hu : left.length ≤ u
      · exact henough.outside u hu
      · exact houts u (Nat.zero_le u) (hin u hu)

/-- With enough rounds all get through. -/
theorem rounds_finish {n : Nat} (h : b.Reach init) (hall : ∀ v ∈ b.came, v.patient = true ∧ v.work = work)
    (henough : Enough n left b) : ∃ b' : Logbook σ, Contention.rounds work n left b.toContention = b'.toContention ∧
      b'.Reach init ∧ (∀ v ∈ b'.came, v.patient = true ∧ v.work = work) ∧ (∀ u, b'.stage u = .outside) ∧
      b'.came.length = b.came.length + left.sum := by
  induction n generalizing left b with
  | zero => exact absurd henough.owed (Nat.not_lt_zero _)
  | succ n ih =>
    rw [Contention.rounds_succ]
    split
    next hdone =>
      obtain ⟨hzero, hout⟩ := Bool.and_eq_true_iff.mp hdone
      have hsum : left.sum = 0 := List.sum_eq_zero_iff_forall_eq_nat.mpr (by simpa using hzero)
      exact ⟨b, rfl, h, hall, b.all_outside_iff.mp hout, by rw [hsum, Nat.add_zero]⟩
    next hnot =>
      rw [Bool.and_eq_true, b.all_outside_iff] at hnot
      obtain ⟨left', b₁, hround, hplayed⟩ := played_round h hall 0 left
      obtain ⟨b', hrounds, hreach, hbrought, hout, hcame⟩ := ih hplayed.reach hplayed.brought (henough.round h hplayed hnot)
      exact ⟨b', by rw [hround]; exact hrounds, hreach, hbrought, hout, hcame.trans hplayed.came⟩

end Logbook

/-- Threads that take turns at a section end with the value to which as many sections in a row lead. -/
theorem Contention.run_eq_iterate (work : σ → σ) (init : σ) (threads times : Nat) :
    Contention.run work init threads times = work^[threads * times] init := by
  have hout : ∀ u, Contention.stage { lock := { value := init } } u = Stage.outside := fun u => Table.get_empty u
  have hsum : (List.replicate threads times).sum = threads * times := by simp
  have henough : Logbook.Enough (8 * (threads * times + 1)) (List.replicate threads times)
      ({ lock := { value := init } } : Logbook σ) := by
    refine ⟨fun u _ => hout u, ?_, fun u hu => ?_⟩
    · rw [Contention.owed_of_outside hout, hsum]
      omega
    · rw [hout] at hu
      cases hu
  have hall : ∀ v ∈ ({ lock := { value := init } } : Logbook σ).came, v.patient = true ∧ v.work = work := nofun
  obtain ⟨b, hrounds, hreach, hbrought, houts, hcame⟩ := Logbook.rounds_finish .start hall henough
  rw [Contention.run, hrounds, hreach.value_eq_iterate hbrought houts, hcame, hsum]
  exact congrArg (fun n => work^[n] init) (Nat.zero_add _)

/-! ## One after another -/

namespace Logbook

variable {init : σ} {b : Logbook σ}

/-- Threads exclude each other, and what the value comes to is what their sections make of it one after
    another. -/
structure Serial (init : σ) (b : Logbook σ) : Prop where
  /-- At most one thread has the lock at a time, -/
  exclusive : ∀ t u, (b.stage t).holds = true → (b.stage u).holds = true → t = u
  /-- and the flag is up just while one has it. -/
  flag : b.lock.locked = true ↔ ∃ t, (b.stage t).holds = true
  /-- A swap gets the lock just when nobody has it. -/
  swap : ∀ t patient f, b.stage t = .swap patient f →
    ((b.step t).stage t = .read f ↔ ∀ u, (b.stage u).holds = false)
  /-- Otherwise it changes nothing: the patient thread goes to watch the flag, and the other leaves. -/
  refused : ∀ t patient f, b.stage t = .swap patient f → (∃ u, (b.stage u).holds = true) →
    b.step t = { b with toContention := b.setStage t (if patient then .watch f else .outside) }
  /-- While the lock is free, all sections that were begun are over, and they have made the value what it is
      in the order in which the lock was taken. -/
  free : b.lock.locked = false → b.left = b.taken.map (·.thread) ∧ b.lock.value = applied init b.taken
  /-- When so many threads have run the same section so many times each, in whatever way their accesses
      fell, it has been applied as often as that; -/
  total : ∀ f threads times,
    b.came.Perm ((List.range threads).flatMap fun t => List.replicate times ⟨t, true, f⟩) →
      (∀ t, b.stage t = .outside) → b.lock.value = f^[threads * times] init
  /-- if it adds one to what is counted, that has gone up by their product. -/
  increments : ∀ (count : σ → Nat) f threads times, (∀ x, count (f x) = count x + 1) →
    b.came.Perm ((List.range threads).flatMap fun t => List.replicate times ⟨t, true, f⟩) →
      (∀ t, b.stage t = .outside) → count b.lock.value = count init + threads * times
  /-- Threads that take turns do all get through. -/
  turns : ∀ f threads times, Contention.run f init threads times = f^[threads * times] init

theorem Reach.total (h : b.Reach init) {f : σ → σ} {threads times : Nat}
    (hcame : b.came.Perm ((List.range threads).flatMap fun t => List.replicate times ⟨t, true, f⟩))
    (hout : ∀ t, b.stage t = .outside) : b.lock.value = f^[threads * times] init := by
  have hall : ∀ v ∈ b.came, v.patient = true ∧ v.work = f := fun v hv => by
    obtain ⟨t, -, hv⟩ := List.mem_flatMap.mp (hcame.subset hv)
    obtain rfl := List.eq_of_mem_replicate hv
    exact ⟨rfl, rfl⟩
  have hlength : b.came.length = threads * times := by
    rw [hcame.length_eq, List.length_flatMap]
    simp [List.map_const']
  rw [h.value_eq_iterate hall hout, hlength]

theorem Reach.serial (h : b.Reach init) : b.Serial init where
  exclusive := h.orderly.sole.unique
  flag := h.orderly.sole.locked
  swap := fun t patient f hs => by
    rw [← h.orderly.sole.free]
    have hdoes := does_step b t
    generalize b.step t = b' at hdoes
    cases hdoes with
    | rests _ hidle =>
      refine ⟨fun hr => ?_, fun hfree => ?_⟩
      · rw [hs] at hr
        cases hr
      · rw [hidle hfree] at hs
        cases hs
    | misses _ _ _ hheld =>
      dsimp only
      rw [Contention.stage_setStage_same, hheld]
      refine ⟨fun hr => ?_, nofun⟩
      split at hr <;> cases hr
    | gets _ g hg hfree =>
      dsimp only
      rw [Contention.stage_setStage_same]
      obtain ⟨rfl, rfl⟩ : _ ∧ g = f := by simpa [hs, eq_comm] using hg
      exact ⟨fun _ => hfree, fun _ => rfl⟩
    | retries _ hg | reads _ hg | writes _ _ hg | leaves hg =>
      rw [hs] at hg
      cases hg
  refused := fun t patient f hs hheld => by
    rw [← h.orderly.sole.locked] at hheld
    simp [Logbook.step, Contention.step, takes, Logbook.leaves, hs, hheld, Guarded.tryLock_of_locked]
  free := fun hfree => by
    obtain ⟨ended, hleft, ⟨-, rfl, hvalue⟩ | ⟨v, -, hv⟩⟩ := h.orderly.sections
    · exact ⟨hleft, hvalue⟩
    · have := h.orderly.sole.free.mp hfree v.thread
      rw [hv.holds] at this
      cases this
  total := fun f threads times => h.total
  increments := fun count f threads times hcount hcame hout => by
    have hsemi : Function.Semiconj count f Nat.succ := hcount
    rw [h.total hcame hout, (hsemi.iterate_right _).eq, Nat.succ_iterate]
  turns := fun f threads times => Contention.run_eq_iterate f init threads times

/-- Two threads add one each. The second has come while the first has the lock, and a third, which does not
    wait, is turned away. -/
theorem serial_of_two : ∃ b c : Logbook Nat,
    (b.Reach 0 ∧ b.lock.locked = true ∧ b.stage 1 = .watch (· + 1) ∧ b.stage 2 = .swap false (· + 1) ∧
      (b.stage 0).holds = true ∧ ((b.step 2).stage 2 = .outside) ∧ b.Serial 0) ∧
    (c.Reach 0 ∧ c.left = [0, 1] ∧ c.lock.value = 2) := by
  have hwait := ((((Reach.start : Reach (0 : Nat) _).enter ⟨0, true, (· + 1)⟩).step 0).enter ⟨1, true, (· + 1)⟩).step 1
  have hthree := hwait.enter ⟨2, false, (· + 1)⟩
  have hboth := (((((((hwait.step 0).step 0).step 0).step 1).step 1).step 1).step 1).step 1
  refine ⟨_, _, ⟨hthree, rfl, rfl, rfl, rfl, ?_, hthree.serial⟩, hboth, rfl, ?_⟩
  · rw [hthree.serial.refused 2 false (· + 1) rfl ⟨0, rfl⟩]
    rfl
  · exact hboth.serial.increments id (· + 1) 2 1 (fun _ => rfl) (.refl _) (Contention.all_outside_iff _ |>.mp rfl)

end Logbook

end EpochQueue.Lock
