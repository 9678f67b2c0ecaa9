/-
  EpochQueue.Proofs.Lock.Exclusion — one thread at a time has the lock, and no section is lost.

  `Guarded.Sole` says what the flag is worth: it is up just while one of the parties has the lock,
  and then no other has it. A swap keeps that, whether it gets the lock or not, and so does letting go.

  A `Logbook` is a contention with its history: who came for the lock, whose swaps got it, and who has
  let it go, each in order. The value is what the sections that are over have made of the first one, in
  the order in which the lock was taken, with the section under way on top once it has written
  (`Orderly`). Whoever came patiently has had his section run, or is still after the lock
  (`Attended`).
-/

import EpochQueue.Lock.Contention
import Mathlib.Logic.Function.Iterate

namespace EpochQueue.Lock

variable {σ : Type}

/-! ## The flag -/

theorem Guarded.tryLock_of_locked {l : Guarded σ} (h : l.locked = true) : l.tryLock = (false, l) := by
  cases l
  cases h
  rfl

/-- The lock is held just while one of the parties has it, and only one of them has. -/
structure Guarded.Sole (l : Guarded σ) (holds : Nat → Bool) : Prop where
  locked : l.locked = true ↔ ∃ t, holds t = true
  unique : ∀ t u, holds t = true → holds u = true → t = u

namespace Guarded.Sole

variable {l l' : Guarded σ} {holds holds' : Nat → Bool} {t : Nat}

theorem free (h : l.Sole holds) : l.locked = false ↔ ∀ t, holds t = false := by
  rw [← Bool.not_eq_true, h.locked, not_exists]
  exact forall_congr' fun t => Bool.eq_false_iff.symm

theorem keep (h : l.Sole holds) (hl : l'.locked = l.locked) (hh : ∀ u, holds' u = holds u) : l'.Sole holds' := by
  obtain rfl : holds' = holds := funext hh
  exact ⟨hl ▸ h.locked, h.unique⟩

/-- The swap of a party that has not got the lock. -/
theorem tryLock (h : l.Sole holds) (ht : holds t = false) (ht' : holds' t = l.tryLock.1)
    (hh : ∀ u, u ≠ t → holds' u = holds u) : l.tryLock.2.Sole holds' := by
  cases hl : l.locked with
  | true =>
    -- it was held, so nothing changes
    refine h.keep hl.symm fun u => ?_
    by_cases e : u = t
    · subst e; rw [ht', ht, Guarded.tryLock, hl]; rfl
    · exact hh u e
  | false =>
    have hnone := h.free.mp hl
    have hself : holds' t = true := by rw [ht', Guarded.tryLock, hl]; rfl
    have honly : ∀ u, holds' u = true → u = t := fun u hu => Classical.by_contradiction fun e => by
      rw [hh u e, hnone u] at hu
      cases hu
    exact ⟨⟨fun _ => ⟨t, hself⟩, fun _ => rfl⟩, fun u v hu hv => (honly u hu).trans (honly v hv).symm⟩

theorem unlock (h : l.Sole holds) (ht : holds t = true) (ht' : holds' t = false)
    (hh : ∀ u, u ≠ t → holds' u = holds u) : l.unlock.Sole holds' := by
  have hnone : ∀ u, ¬ holds' u = true := fun u hu => by
    by_cases e : u = t
    · subst e; rw [ht'] at hu; cases hu
    · exact e (h.unique u t (hh u e ▸ hu) ht)
  exact ⟨⟨nofun, fun ⟨u, hu⟩ => absurd hu (hnone u)⟩, fun u _ hu => absurd hu (hnone u)⟩

end Guarded.Sole

/-! ## Stages -/

namespace Stage

def isOutside : Stage σ → Bool
  | outside => true
  | _ => false

/-- The section with which the thread is after the lock. -/
def awaits : Stage σ → List (σ → σ)
  | swap _ f | watch f => [f]
  | _ => []

/-- How far the section `f` has come that began with the value `before`, when the value is `now`. -/
def During (f : σ → σ) (before now : σ) : Stage σ → Prop
  | read g => g = f ∧ now = before
  | write g seen => g = f ∧ seen = before ∧ now = before
  | unlock => now = f before
  | _ => False

theorem During.holds {f : σ → σ} {before now : σ} {s : Stage σ} (h : s.During f before now) : s.holds = true := by
  cases s <;> first | rfl | exact h.elim

theorem isOutside_iff {s : Stage σ} : s.isOutside = true ↔ s = .outside := by
  cases s <;> simp [isOutside]

end Stage

namespace Contention

variable (c : Contention σ) (t : Nat) (s : Stage σ)

theorem stage_setStage (u : Nat) : (c.setStage t s).stage u = if u = t then s else c.stage u := Table.get_set _ _ _ _

@[simp] theorem stage_setStage_same : (c.setStage t s).stage t = s := Table.get_set_same _ _ _

theorem stage_setStage_of_ne {t u : Nat} (h : u ≠ t) : (c.setStage t s).stage u = c.stage u := Table.get_set_ne _ _ h

@[simp] theorem lock_setStage : (c.setStage t s).lock = c.lock := rfl

end Contention

/-! ## The logbook -/

/-- Someone who comes for the lock. -/
structure Visit (σ : Type) where
  thread : Nat
  patient : Bool
  work : σ → σ

structure Logbook (σ : Type) extends Contention σ where
  /-- All who came. -/
  came : List (Visit σ) := []
  /-- Those whose swap got the lock. -/
  taken : List (Visit σ) := []
  /-- The threads that let the lock go. -/
  left : List Nat := []

/-- What sections make of a value, one after another. -/
def applied (init : σ) (vs : List (Visit σ)) : σ := vs.foldl (fun x v => v.work x) init

@[simp] theorem applied_append_singleton (init : σ) (vs : List (Visit σ)) (v : Visit σ) :
    applied init (vs ++ [v]) = v.work (applied init vs) := by
  simp [applied]

namespace Logbook

def enter (b : Logbook σ) (v : Visit σ) : Logbook σ :=
  { b with
    toContention := b.toContention.enter v.thread v.patient v.work
    came := if (b.stage v.thread).isOutside then b.came ++ [v] else b.came }

/-- Who takes the lock by the next step of `t`. -/
def takes (b : Logbook σ) (t : Nat) : List (Visit σ) :=
  match b.stage t with
  | .swap patient f => if b.lock.locked then [] else [⟨t, patient, f⟩]
  | _ => []

/-- Who lets it go. -/
def leaves (b : Logbook σ) (t : Nat) : List Nat :=
  match b.stage t with
  | .unlock => [t]
  | _ => []

def step (b : Logbook σ) (t : Nat) : Logbook σ :=
  { b with
    toContention := b.toContention.step t
    taken := b.taken ++ b.takes t
    left := b.left ++ b.leaves t }

/-- What threads can bring a free lock around `init` to, access by access in any order. -/
inductive Reach (init : σ) : Logbook σ → Prop
  | start : Reach init { lock := { value := init } }
  | enter {b : Logbook σ} (v : Visit σ) : Reach init b → Reach init (b.enter v)
  | step {b : Logbook σ} (t : Nat) : Reach init b → Reach init (b.step t)

/-- What a step of `t` does, by the stage that it has reached. -/
inductive Does (b : Logbook σ) (t : Nat) : Logbook σ → Prop
  | rests (h : (b.stage t).holds = false) (idle : b.lock.locked = false → b.stage t = .outside) : Does b t b
  | retries (f : σ → σ) (h : b.stage t = .watch f) (free : b.lock.locked = false) :
      Does b t { b with toContention := b.setStage t (.swap true f) }
  | misses (patient : Bool) (f : σ → σ) (h : b.stage t = .swap patient f) (held : b.lock.locked = true) :
      Does b t { b with toContention := b.setStage t (if patient then .watch f else .outside) }
  | gets (patient : Bool) (f : σ → σ) (h : b.stage t = .swap patient f) (free : b.lock.locked = false) :
      Does b t { b with
        toContention := { b.toContention with lock := b.lock.tryLock.2 }.setStage t (.read f)
        taken := b.taken ++ [⟨t, patient, f⟩] }
  | reads (f : σ → σ) (h : b.stage t = .read f) :
      Does b t { b with toContention := b.setStage t (.write f b.lock.value) }
  | writes (f : σ → σ) (seen : σ) (h : b.stage t = .write f seen) :
      Does b t { b with
        toContention := { b.toContention with lock := { b.lock with value := f seen } }.setStage t .unlock }
  | leaves (h : b.stage t = .unlock) :
      Does b t { b with
        toContention := { b.toContention with lock := b.lock.unlock }.setStage t .outside
        left := b.left ++ [t] }

theorem does_step (b : Logbook σ) (t : Nat) : Does b t (b.step t) := by
  have hsame : b.toContention.step t = b.toContention → b.takes t = [] → b.leaves t = [] → b.step t = b := by
    intro h₁ h₂ h₃
    rw [step, h₁, h₂, h₃, List.append_nil, List.append_nil]
  cases hs : b.stage t with
  | outside =>
    rw [hsame (by simp [Contention.step, hs]) (by simp [takes, hs]) (by simp [Logbook.leaves, hs])]
    exact .rests (by rw [hs]; rfl) fun _ => hs
  | swap patient f =>
    cases hl : b.lock.locked with
    | true =>
      have := Does.misses patient f hs hl
      simpa [step, Contention.step, takes, Logbook.leaves, hs, hl, Guarded.tryLock_of_locked hl] using this
    | false =>
      have := Does.gets patient f hs hl
      simpa [step, Contention.step, takes, Logbook.leaves, hs, hl, Guarded.tryLock] using this
  | watch f =>
    cases hl : b.lock.locked with
    | true =>
      rw [hsame (by simp [Contention.step, hs, hl]) (by simp [takes, hs]) (by simp [Logbook.leaves, hs])]
      exact .rests (by rw [hs]; rfl) fun h => by rw [hl] at h; cases h
    | false =>
      have := Does.retries f hs hl
      simpa [step, Contention.step, takes, Logbook.leaves, hs, hl] using this
  | read f =>
    have := Does.reads f hs
    simpa [step, Contention.step, takes, Logbook.leaves, hs] using this
  | write f seen =>
    have := Does.writes f seen hs
    simpa [step, Contention.step, takes, Logbook.leaves, hs] using this
  | unlock =>
    have := Does.leaves hs
    simpa [step, Contention.step, takes, Logbook.leaves, hs] using this

/-! ## Sections -/

/-- The sections that are over, and the one under way, if there is one, have made the value what it is. -/
structure Orderly (init : σ) (b : Logbook σ) : Prop where
  sole : b.lock.Sole fun t => (b.stage t).holds
  sections : ∃ ended, b.left = ended.map (·.thread) ∧
    (b.lock.locked = false ∧ b.taken = ended ∧ b.lock.value = applied init ended ∨
      ∃ v, b.taken = ended ++ [v] ∧ (b.stage v.thread).During v.work (applied init ended) b.lock.value)

namespace Orderly

variable {init : σ} {b b' : Logbook σ} {t : Nat}

theorem start : Orderly init { lock := { value := init } } := by
  have hout : ∀ t, Contention.stage { lock := { value := init } } t = Stage.outside := fun t => Table.get_empty t
  refine ⟨⟨⟨nofun, fun ⟨t, ht⟩ => ?_⟩, fun t _ ht => ?_⟩, [], rfl, Or.inl ⟨rfl, rfl, rfl⟩⟩
  all_goals
    dsimp only at ht
    rw [hout] at ht
    cases ht

/-- A thread that does not hold the lock goes to another stage at which it does not. -/
theorem moved (h : b.Orderly init) {s : Stage σ} (ht : (b.stage t).holds = false) (hs : s.holds = false)
    (came : List (Visit σ)) : Orderly init { b with toContention := b.setStage t s, came } := by
  obtain ⟨ended, hleft, hover⟩ := h.sections
  refine ⟨h.sole.keep rfl fun u => ?_, ended, hleft, hover.imp_right fun ⟨v, htaken, hv⟩ => ⟨v, htaken, ?_⟩⟩
  · dsimp only
    rw [Contention.stage_setStage]
    split
    · subst u; rw [ht, hs]
    · rfl
  · have hne : v.thread ≠ t := by
      rintro rfl
      rw [hv.holds] at ht
      cases ht
    dsimp only
    rwa [Contention.stage_setStage_of_ne _ _ hne]

theorem enter (h : b.Orderly init) (v : Visit σ) : (b.enter v).Orderly init := by
  cases hs : b.stage v.thread with
  | outside =>
    have := h.moved (t := v.thread) (s := .swap v.patient v.work) (by rw [hs]; rfl) rfl (b.came ++ [v])
    simpa [Logbook.enter, Contention.enter, hs, Stage.isOutside] using this
  | _ => simpa [Logbook.enter, Contention.enter, hs, Stage.isOutside] using h

/-- Whoever holds the lock is in the last section that was begun. -/
theorem under_way (h : b.Orderly init) (ht : (b.stage t).holds = true) : ∃ ended v, v.thread = t ∧
    b.left = ended.map (·.thread) ∧ b.taken = ended ++ [v] ∧
    (b.stage t).During v.work (applied init ended) b.lock.value := by
  obtain ⟨ended, hleft, ⟨hfree, -, -⟩ | ⟨v, htaken, hv⟩⟩ := h.sections
  · rw [h.sole.free.mp hfree t] at ht
    cases ht
  · obtain rfl := h.sole.unique v.thread t hv.holds ht
    exact ⟨ended, v, rfl, hleft, htaken, hv⟩

/-- The holder goes on in its section. -/
theorem went (h : b.Orderly init) (ht : (b.stage t).holds = true) {s : Stage σ} {l : Guarded σ}
    (hl : l.locked = b.lock.locked) (hs : ∀ f before, (b.stage t).During f before b.lock.value →
      s.During f before l.value) : Orderly init { b with toContention := { b.toContention with lock := l }.setStage t s } := by
  obtain ⟨ended, v, rfl, hleft, htaken, hv⟩ := h.under_way ht
  have hself := hs _ _ hv
  refine ⟨h.sole.keep hl fun u => ?_, ended, hleft, Or.inr ⟨v, htaken, ?_⟩⟩
  · dsimp only
    rw [Contention.stage_setStage]
    split
    · subst u; rw [ht, hself.holds]
    · rfl
  · dsimp only
    rwa [Contention.stage_setStage_same]

theorem step (h : b.Orderly init) (t : Nat) : (b.step t).Orderly init := by
  have hdoes := does_step b t
  generalize b.step t = b' at hdoes
  cases hdoes with
  | rests => exact h
  | retries f hs => exact h.moved (by rw [hs]; rfl) rfl b.came
  | misses patient f hs => exact h.moved (by rw [hs]; rfl) (by cases patient <;> rfl) b.came
  | gets patient f hs hfree =>
    obtain ⟨ended, hleft, ⟨-, htaken, hvalue⟩ | ⟨v, -, hv⟩⟩ := h.sections
    · refine ⟨h.sole.tryLock (t := t) (by rw [hs]; rfl) ?_ fun u hu => ?_, ended, hleft, Or.inr ⟨_, by rw [htaken], ?_⟩⟩
      · rw [Contention.stage_setStage_same, Guarded.tryLock, hfree]
        rfl
      · dsimp only
        rw [Contention.stage_setStage_of_ne _ _ hu]
        rfl
      · dsimp only
        rw [Contention.stage_setStage_same]
        exact ⟨rfl, hvalue⟩
    · have hno := h.sole.free.mp hfree v.thread
      rw [hv.holds] at hno
      cases hno
  | reads f hs => exact h.went (by rw [hs]; rfl) rfl fun g before hg => by rw [hs] at hg; exact ⟨hg.1, hg.2, hg.2⟩
  | writes f seen hs =>
    exact h.went (by rw [hs]; rfl) rfl fun g before hg => by rw [hs] at hg; exact hg.1 ▸ hg.2.1 ▸ rfl
  | leaves hs =>
    have hholds : (b.stage t).holds = true := by rw [hs]; rfl
    obtain ⟨ended, v, rfl, hleft, htaken, hv⟩ := h.under_way hholds
    rw [hs] at hv
    refine ⟨h.sole.unlock hholds ?_ fun u hu => ?_, b.taken, ?_, Or.inl ⟨rfl, rfl, ?_⟩⟩
    · rw [Contention.stage_setStage_same]
      rfl
    · dsimp only
      rw [Contention.stage_setStage_of_ne _ _ hu]
      rfl
    · rw [htaken, List.map_append, ← hleft]
      rfl
    · rw [htaken, applied_append_singleton]
      exact hv

end Orderly

theorem Reach.orderly {init : σ} {b : Logbook σ} (h : b.Reach init) : b.Orderly init := by
  induction h with
  | start => exact .start
  | enter v _ ih => exact ih.enter v
  | step t _ ih => exact ih.step t

/-! ## Visits -/

/-- The sections that a thread has among these, in order. -/
def sectionsOf (t : Nat) (vs : List (Visit σ)) : List (σ → σ) := (vs.filter (·.thread == t)).map (·.work)

theorem sectionsOf_snoc (t : Nat) (vs : List (Visit σ)) (v : Visit σ) :
    sectionsOf t (vs ++ [v]) = sectionsOf t vs ++ if v.thread = t then [v.work] else [] := by
  unfold sectionsOf
  rw [List.filter_append, List.map_append]
  by_cases h : v.thread = t <;> simp [h]

/-- As long as all are patient, a thread has had the sections run that it came with, in that order, but
    for the one with which it is after the lock. -/
structure Attended (b : Logbook σ) : Prop where
  patient : ∀ t f, b.stage t ≠ .swap false f
  served : ∀ t, sectionsOf t b.came = sectionsOf t b.taken ++ (b.stage t).awaits

namespace Attended

variable {b : Logbook σ} {t : Nat}

/-- A thread goes to a stage at which it is after the lock with the same section, or with none as before. -/
theorem moved (h : b.Attended) {s : Stage σ} {l : Guarded σ} (hs : s.awaits = (b.stage t).awaits)
    (hp : ∀ f, s ≠ .swap false f) (left : List Nat) :
    Attended { b with toContention := { b.toContention with lock := l }.setStage t s, left } := by
  refine ⟨fun u f => ?_, fun u => ?_⟩
  all_goals
    dsimp only
    rw [Contention.stage_setStage]
    split
  · exact hp f
  · exact h.patient u f
  · subst u; rw [hs]; exact h.served t
  · exact h.served u

theorem enter (h : b.Attended) {v : Visit σ} (hv : b.stage v.thread = .outside → v.patient = true) :
    (b.enter v).Attended := by
  cases hs : b.stage v.thread with
  | outside =>
    have hcame : (b.enter v).came = b.came ++ [v] := by simp [Logbook.enter, hs, Stage.isOutside]
    have hstage : ∀ u, (b.enter v).stage u = if u = v.thread then .swap true v.work else b.stage u := fun u => by
      simp only [Logbook.enter, Contention.enter, hs, hv hs]
      exact Contention.stage_setStage _ _ _ u
    refine ⟨fun u f => ?_, fun u => ?_⟩
    · rw [hstage]
      split
      · nofun
      · exact h.patient u f
    · rw [hcame, hstage, sectionsOf_snoc, h.served u]
      by_cases e : u = v.thread
      · subst u; rw [hs, if_pos rfl, if_pos rfl]; simp [Stage.awaits]; rfl
      · rw [if_neg e, if_neg (Ne.symm e), List.append_nil]; rfl
  | _ => simpa [Logbook.enter, Contention.enter, hs, Stage.isOutside] using h

theorem step (h : b.Attended) (t : Nat) : (b.step t).Attended := by
  have hdoes := does_step b t
  generalize b.step t = b' at hdoes
  cases hdoes with
  | rests => exact h
  | retries f hs => exact h.moved (by rw [hs]; rfl) (by nofun) b.left
  | misses patient f hs =>
    cases patient with
    | true => exact h.moved (by rw [hs]; rfl) (by nofun) b.left
    | false => exact absurd hs (h.patient t f)
  | gets patient f hs =>
    refine ⟨fun u g => ?_, fun u => ?_⟩
    all_goals
      dsimp only
      rw [Contention.stage_setStage]
    · split
      · nofun
      · exact h.patient u g
    · rw [sectionsOf_snoc, h.served u]
      by_cases e : u = t
      · subst u; rw [hs, if_pos rfl, if_pos rfl]; exact (List.append_nil _).symm
      · rw [if_neg e, if_neg (Ne.symm e), List.append_nil]; rfl
  | reads f hs => exact h.moved (by rw [hs]; rfl) (by nofun) b.left
  | writes f seen hs => exact h.moved (by rw [hs]; rfl) (by nofun) b.left
  | leaves hs => exact h.moved (by rw [hs]; rfl) (by nofun) (b.left ++ [t])

end Attended

theorem mem_came_enter {b : Logbook σ} {v w : Visit σ} (hw : w ∈ b.came) : w ∈ (b.enter v).came := by
  unfold Logbook.enter
  dsimp only
  split
  · exact List.mem_append_left _ hw
  · exact hw

theorem Reach.attended {init : σ} {b : Logbook σ} (h : b.Reach init) (hall : ∀ v ∈ b.came, v.patient = true) :
    b.Attended := by
  induction h with
  | start =>
    have hout : ∀ t, Contention.stage { lock := { value := init } } t = Stage.outside := fun t => Table.get_empty t
    exact ⟨fun t f => by dsimp only; rw [hout]; nofun, fun t => by dsimp only; rw [hout]; rfl⟩
  | @enter b v _ ih =>
    refine (ih fun w hw => hall w (mem_came_enter hw)).enter fun hs => hall v ?_
    simp [Logbook.enter, hs, Stage.isOutside]
  | step t _ ih => exact (ih hall).step t

/-! ## When all have come out -/

section

variable {b : Logbook σ}

theorem length_sectionsOf (t : Nat) (vs : List (Visit σ)) :
    (sectionsOf t vs).length = (vs.map (·.thread)).count t := by
  rw [sectionsOf, List.length_map, ← List.countP_eq_length_filter, List.count, List.countP_map]
  rfl

/-- All sections that were brought have been run, each once. -/
theorem Attended.length_taken (h : b.Attended) (hout : ∀ t, b.stage t = .outside) :
    b.taken.length = b.came.length := by
  have hperm : (b.taken.map (·.thread)).Perm (b.came.map (·.thread)) := List.perm_iff_count.mpr fun t => by
    rw [← length_sectionsOf, ← length_sectionsOf, h.served t, hout]
    exact congrArg List.length (List.append_nil _).symm
  simpa using hperm.length_eq

theorem Attended.work_of_taken (h : b.Attended) {f : σ → σ} (hall : ∀ v ∈ b.came, v.work = f) :
    ∀ v ∈ b.taken, v.work = f := fun v hv => by
  have hmem : v.work ∈ sectionsOf v.thread b.taken :=
    List.mem_map_of_mem (List.mem_filter.mpr ⟨hv, by simp⟩)
  have hcame := h.served v.thread ▸ List.mem_append_left _ hmem
  obtain ⟨w, hw, hwork⟩ := List.mem_map.mp hcame
  exact hwork ▸ hall w (List.mem_filter.mp hw).1

theorem applied_eq_iterate {f : σ → σ} {vs : List (Visit σ)} (h : ∀ v ∈ vs, v.work = f) (init : σ) :
    applied init vs = f^[vs.length] init := by
  induction vs generalizing init with
  | nil => rfl
  | cons v vs ih =>
    obtain ⟨hv, hvs⟩ := List.forall_mem_cons.mp h
    show applied (v.work init) vs = _
    rw [hv, ih hvs, List.length_cons, Function.iterate_succ_apply]

/-- All came patiently and with the same section: it has been run as often as somebody came. -/
theorem Reach.value_eq_iterate {init : σ} (h : b.Reach init) {f : σ → σ}
    (hall : ∀ v ∈ b.came, v.patient = true ∧ v.work = f) (hout : ∀ t, b.stage t = .outside) :
    b.lock.value = f^[b.came.length] init := by
  have hattended := h.attended fun v hv => (hall v hv).1
  have hworks := hattended.work_of_taken fun v hv => (hall v hv).2
  obtain ⟨ended, -, ⟨-, rfl, hvalue⟩ | ⟨v, -, hv⟩⟩ := h.orderly.sections
  · rw [hvalue, applied_eq_iterate hworks, hattended.length_taken hout]
  · rw [hout] at hv
    exact hv.elim

end

end Logbook

end EpochQueue.Lock
