/-
  EpochQueue.Proofs.Contest.Exchange — nobody reads what was destroyed, and all is destroyed in the end.

  Each turn of an agent that is not done is one turn less, so the rounds that a contest allows itself are
  enough (`contend_isDone`), and so are the steps and flushes of the thread that cleans up
  (`exchange_complete`). Nobody has read what was destroyed, as long as the epoch has not overflowed
  (`exchange_eq`).
-/

import EpochQueue.Proofs.Contest.Rounds
import EpochQueue.Proofs.Contest.Swaps

namespace EpochQueue.Contest

open Reclaim (Call Domain)
open Reclaim.Domain (Completes)

namespace Exchange

variable {s s' : Exchange} {n t u : Nat}

/-! ## The contest as a whole -/

/-- The turns that all agents have yet to take, and the objects that wait to be destroyed. -/
def turnsLeft (n : Nat) (s : Exchange) : Nat := (Finset.range n).sum s.load + s.waiting

theorem Played.turnsLeft_lt (h : Played n t s s') (ht : t < n) : s'.turnsLeft n < s.turnsLeft n := by
  have hload := sum_range_of_ne (f := s.load) (g := s'.load) ht fun u hu => by
    unfold load
    rw [h.agent u hu, h.thread u hu]
  have hless := h.less
  unfold turnsLeft
  omega

/-- What holds of a contest between `n` threads as long as they take turns, if there are `size` turns to take
    and `total` objects to be made in all. -/
structure InStep (n size total : Nat) (s : Exchange) : Prop extends Sound n s where
  told : s.domain.story.length + s.turnsLeft n ≤ size
  made : (Finset.range n).sum s.toSwap + s.allocated = total

theorem InStep.played {size total : Nat} (h : s.InStep n size total) (ht : t < n) (hp : Played n t s s') :
    s'.InStep n size total where
  toSound := hp.sound
  told := by
    have hlt := hp.turnsLeft_lt ht
    have htold := hp.told
    have hsize := h.told
    omega
  made := by
    have hswaps := sum_range_of_ne (f := s.toSwap) (g := s'.toSwap) ht fun u hu => by
      unfold toSwap
      rw [hp.agent u hu]
    have hmade := hp.made
    have hall := h.made
    omega

/-- Every turn of an agent that is not done is one turn less. -/
theorem proceeds (n size total : Nat) : Proceeds turn (isDone n) n (InStep n size total) (turnsLeft n)
    (fun s t _ => (s.agent t).isDone = false) 0 where
  keeps s t ht h := by
    cases hdone : (s.agent t).isDone with
    | true => rw [turn_of_isDone hdone]; exact h
    | false => exact h.played ht (h.turn ht hdone)
  le s t ht h := by
    cases hdone : (s.agent t).isDone with
    | true => rw [turn_of_isDone hdone]
    | false => exact Nat.le_of_lt ((h.turn ht hdone).turnsLeft_lt ht)
  own s t _ ht h hdone := Or.inl ((h.turn ht hdone).turnsLeft_lt ht)
  others s t u k hu hne h hbusy := by
    refine Or.inr ⟨k, Nat.le_refl k, ?_⟩
    cases hdone : (s.agent u).isDone with
    | true => rw [turn_of_isDone hdone]; exact hbusy
    | false => rw [(h.turn hu hdone).agent t (Ne.symm hne)]; exact hbusy
  somebody s _ hdone := by
    obtain ⟨t, ht, hbusy⟩ := List.all_eq_false.mp hdone
    exact ⟨t, 0, List.mem_range.mp ht, Nat.le_refl 0, Bool.not_eq_true _ ▸ hbusy⟩

theorem agent_start (threads swaps readers t : Nat) : (start threads swaps readers).agent t =
    if t < threads + readers then { swaps := t < threads, left := swaps } else {} := by
  unfold agent start Table.get
  by_cases h : t < threads + readers
  · simp [h]
  · simp [h, default]

theorem sound_start (threads swaps readers : Nat) : (start threads swaps readers).Sound (threads + readers) where
  reached := .start
  objects := ⟨fun x => ⟨nofun, fun ⟨hlt, hne⟩ => absurd (congrArg some (Nat.lt_one_iff.mp hlt).symm) hne⟩,
    fun x hx => Option.some.inj hx ▸ Nat.one_pos, fun x => ⟨fun hx => (by cases hx), nofun⟩, rfl⟩
  filled := rfl
  stands t := by
    rw [agent_start]
    split <;> exact ⟨rfl, rfl⟩
  strangers t ht := by
    rw [agent_start, if_neg (Nat.not_lt.mpr ht)]
    exact ⟨rfl, rfl⟩
  reads _ _ _ _ hx := nomatch hx
  good _ := rfl

theorem turnsLeft_start (threads swaps readers : Nat) : (start threads swaps readers).turnsLeft (threads + readers) =
    turnsEnough * (swaps * (threads + readers)) := by
  have hload : ∀ t ∈ Finset.range (threads + readers), (start threads swaps readers).load t = turnsEnough * swaps := by
    intro t ht
    unfold load
    rw [agent_start, if_pos (Finset.mem_range.mp ht)]
    rfl
  unfold turnsLeft
  rw [Finset.sum_const_nat hload, Finset.card_range]
  show _ + 0 = _
  rw [Nat.add_zero, Nat.mul_comm, Nat.mul_assoc]

theorem toSwap_start (threads swaps readers : Nat) :
    (Finset.range (threads + readers)).sum (start threads swaps readers).toSwap = threads * swaps := by
  have hswap : ∀ t, (start threads swaps readers).toSwap t = if t < threads then swaps else 0 := fun t => by
    unfold toSwap
    rw [agent_start]
    split
    · simp [Stage.swapsLeft]
    · rename_i h
      rw [if_neg (fun hlt => h (Nat.lt_of_lt_of_le hlt (Nat.le_add_right _ _)))]
      rfl
  rw [Finset.sum_congr rfl fun t _ => hswap t, ← Finset.sum_filter, Finset.sum_const_nat fun _ _ => rfl]
  congr 1
  rw [show (Finset.range (threads + readers)).filter (· < threads) = Finset.range threads from
    Finset.ext fun t => by simp only [Finset.mem_filter, Finset.mem_range]; omega, Finset.card_range]

/-- All turns that are to be taken, and all objects that are to be made. -/
theorem inStep_start (threads swaps readers : Nat) : (start threads swaps readers).InStep (threads + readers)
    (turnsEnough * (swaps * (threads + readers))) (threads * swaps + 1) where
  toSound := sound_start threads swaps readers
  told := by
    rw [turnsLeft_start]
    exact Nat.le_of_eq (Nat.zero_add _)
  made := congrArg (· + 1) (toSwap_start threads swaps readers)

/-- The rounds are enough: in the end every agent has come to the cell as often as it should. -/
theorem contend_isDone (threads swaps readers : Nat) : (contend threads swaps readers).InStep (threads + readers)
      (turnsEnough * (swaps * (threads + readers))) (threads * swaps + 1) ∧
    isDone (threads + readers) (contend threads swaps readers) = true :=
  (proceeds _ _ _).ends (inStep_start threads swaps readers)
    (Nat.le_of_eq ((Nat.mul_one _).trans (turnsLeft_start threads swaps readers)))

/-! ## The end -/

/-- Only `t` is left, and nothing is in the cell. -/
structure Closing (t : Nat) (s : Exchange) : Prop where
  reach : s.domain.Reach
  objects : s.Objects
  empty : s.cell = none
  deserted : s.domain.Deserted t

/-- The thread brings its call to its end, and does nothing else. -/
theorem finish_of_completes {d d' : Domain Nat Unit} {k fuel : Nat} {a : Reclaim.Answer} (hrun : Completes t k d d' a)
    (hd : s.domain = d) (hobj : s.Objects) (hk : k ≤ fuel) : (finish t fuel s).domain = d' ∧ (finish t fuel s).Objects ∧
    (finish t fuel s).cell = s.cell ∧ (finish t fuel s).allocated = s.allocated ∧
    (finish t fuel s).badReads = s.badReads := by
  induction hrun generalizing s fuel with
  | returned h =>
    obtain ⟨fuel, rfl⟩ : ∃ f, fuel = f + 1 := ⟨fuel - 1, by omega⟩
    obtain ⟨hsignal, hdom, -, hcell, halloc, hbad⟩ := s.stepDomain_frame t
    have hobj := hobj.step t
    rw [hd, h] at hsignal hdom
    unfold finish
    generalize s.stepDomain t = r at *
    obtain ⟨signal, s₁⟩ := r
    cases hsignal
    exact ⟨hdom, hobj, hcell, halloc, hbad⟩
  | quiet h _ ih | freed h _ ih =>
    obtain ⟨fuel, rfl⟩ : ∃ f, fuel = f + 1 := ⟨fuel - 1, by omega⟩
    obtain ⟨hsignal, hdom, -, hcell, halloc, hbad⟩ := s.stepDomain_frame t
    have hobj := hobj.step t
    rw [hd, h] at hsignal hdom
    unfold finish
    generalize s.stepDomain t = r at *
    obtain ⟨signal, s₁⟩ := r
    cases hsignal
    obtain ⟨hdom', hobj', hcell', halloc', hbad'⟩ := ih hdom hobj (Nat.le_of_succ_le_succ hk)
    exact ⟨hdom', hobj', hcell'.trans hcell, halloc'.trans halloc, hbad'.trans hbad⟩

/-- What is due after a call was opened is not more than the patience of `t`. -/
theorem due_le_patience {d : Domain Nat Unit} {c : Call Nat Unit} (h : s.Objects) (hr : s.domain.Reach)
    (hd : s.domain = d) (hc : (d.thread t).calls = [c]) : d.due t ≤ s.patience := by
  have hle := c.phase.left_le
  have hret := h.length_retirements_le hr
  unfold Domain.due patience
  subst hd
  rw [hc]
  simp only [Domain.callsLeft]
  omega

/-- A flush destroys what has expired, and what it leaves is one epoch older. -/
theorem Closing.flush (h : s.Closing t) : ∃ s', finish t (patience s) { s with domain := s.domain.flush t () } = s' ∧
    s'.Closing t ∧ s.domain.Sifted t s'.domain ∧ s'.allocated = s.allocated ∧ s'.badReads = s.badReads := by
  obtain ⟨k, d', a, hk, hrun, hdeserted, hsifted⟩ := h.deserted.flushes h.reach ()
  have hstory := (Reclaim.Domain.flush_frame s.domain t ()).2.2.2
  obtain ⟨hret, hfree⟩ := books_of_same hstory
  have hreach : (s.domain.flush t ()).Reach :=
    h.reach.move t (.flush ()) (mayCall_of_calls (h.deserted.calls t))
  have hobj : Objects { s with domain := s.domain.flush t () } := h.objects.congr hret hfree rfl rfl rfl rfl
  have hc := (Reclaim.Domain.flush_opens s.domain t ()).1
  rw [h.deserted.calls t] at hc
  have hdue := Nat.le_trans hk (due_le_patience hobj hreach rfl hc)
  obtain ⟨hdom, hobj', hcell, halloc, hbad⟩ := finish_of_completes hrun (s := { s with domain := s.domain.flush t () }) rfl
    hobj hdue
  exact ⟨_, rfl, ⟨hdom ▸ hrun.follows.reach hreach, hobj', hcell.trans h.empty, hdom ▸ hdeserted⟩, hdom ▸ hsifted, halloc,
    hbad⟩

/-- When as many flushes are left as it takes, nothing waits at the end. -/
theorem Closing.flushAll {k j : Nat} (h : s.Closing t) (ha : s.domain.Aged t j) (hj : j ≤ 2) (hk : 3 ≤ j + k) :
    ∃ s', flushAll t k s = s' ∧ s'.Closing t ∧ (s'.domain.pending t).1 = 0 ∧ s'.domain.orphans = [] ∧
      s'.allocated = s.allocated ∧ s'.badReads = s.badReads := by
  induction k generalizing s j with
  | zero => omega
  | succ k ih =>
    obtain ⟨s₁, hflush, h₁, hsifted, halloc, hbad⟩ := h.flush
    obtain ⟨hdeserted, hreg, hoard, horphans, hstory⟩ := h₁.deserted.asks
    obtain ⟨hret, hfree⟩ := books_of_same hstory
    have hold := ha.sifted (hsifted.congr hreg hoard horphans)
    have hpending : ((s₁.domain.pending t).2.pending t).1 = (s₁.domain.pending t).1 := by
      rw [Reclaim.Domain.pending_fst, Reclaim.Domain.pending_fst, hoard]
    have h₂ : Closing t { s₁ with domain := (s₁.domain.pending t).2 } :=
      ⟨h₁.reach.move t .pending (mayCall_of_calls (h₁.deserted.calls t)), h₁.objects.congr hret hfree rfl rfl rfl rfl,
        h₁.empty, hdeserted⟩
    unfold Exchange.flushAll
    dsimp only
    rw [hflush]
    by_cases h0 : (s₁.domain.pending t).1 = 0
    · rw [if_pos h0]
      exact ⟨_, rfl, h₂, hpending.trans h0, horphans.trans hsifted.orphans, halloc, hbad⟩
    · rw [if_neg h0]
      have hnot : j + 1 ≠ 3 := fun e => h0 (hpending ▸ (e ▸ hold).nothing)
      obtain ⟨s', hs', hrest, hnothing, hno, halloc', hbad'⟩ := ih h₂ hold (by omega) (by omega)
      exact ⟨s', hs', hrest, hnothing, hno, halloc'.trans halloc, hbad'.trans hbad⟩

/-- When nothing is pending any more, every object that was allocated has been destroyed. -/
theorem Closing.dropped (h : s.Closing t) (hpending : (s.domain.pending t).1 = 0) (horphans : s.domain.orphans = []) :
    s.dropped = s.allocated := by
  have hperm := h.reach.balanced.perm
  rw [h.deserted.books h.reach horphans hpending, List.append_nil] at hperm
  rw [h.objects.dropped, ← hperm.length_eq, h.objects.length_retirements h.reach h.empty]

/-- Once all agents are done, the last thread destroys what there is. -/
theorem Sound.cleanUp (h : s.Sound n) (hdone : isDone n s = true) : (s.cleanUp n).dropped = s.allocated ∧
    (s.cleanUp n).allocated = s.allocated ∧ (s.cleanUp n).badReads = s.badReads := by
  -- nothing is under way anywhere
  have hrest : ∀ u, (s.domain.thread u).calls = [] ∧ (s.domain.thread u).guards = [] := fun u => by
    have hstands := h.stands u
    have hout : (s.agent u).stage = .outside := by
      rcases Nat.lt_or_ge u n with hlt | hge
      · exact (Exchanger.of_isDone (List.all_eq_true.mp hdone u (List.mem_range.mpr hlt))).2
      · rw [(h.strangers u hge).1]
    rw [hout] at hstands
    exact hstands
  have hcalls := fun u => (hrest u).1
  obtain ⟨hreach, hstory, -⟩ := h.reach.exits hcalls (List.range n)
  have hdeserted := h.reach.deserted_exits hcalls (fun u => (hrest u).2) fun u hu => (h.strangers u hu).2
  obtain ⟨hret, hfree⟩ := books_of_same hstory
  have heq : s.cleanUp n = flushAll n 3 (finish n
      ({ s with domain := (List.range n).foldl Domain.exit s.domain, cell := none }.retire n s.cell).patience
      ({ s with domain := (List.range n).foldl Domain.exit s.domain, cell := none }.retire n s.cell)) := rfl
  generalize (List.range n).foldl Domain.exit s.domain = d at hreach hdeserted hret hfree heq
  -- the last object is retired
  have hobj : Objects { s with domain := d } := h.objects.congr hret hfree rfl rfl rfl rfl
  obtain ⟨m, hcell⟩ := Option.isSome_iff_exists.mp h.filled
  have hm : d.may n (.retire m ()) := ⟨hdeserted.mayCall, hobj.not_retired hcell⟩
  obtain ⟨q, hpin, -, -, hc, hg, hstory'⟩ := Reclaim.Domain.retire_opens d n m ()
  rw [hdeserted.calls n] at hc
  obtain ⟨k, d', a, hk, hrun, hdeserted'⟩ := hdeserted.completes hreach hm nofun hc hpin hg
  obtain ⟨hret', hfree'⟩ := books_of_story hstory'
  replace hobj : Objects { s with domain := d.retire n m (), cell := none } :=
    hobj.replaced hcell hret' (hfree'.trans (List.append_nil _)) (fun n => ⟨fun hn => ⟨hn, (Option.some_ne_none n).symm⟩, And.left⟩)
      (fun n hn => by cases hn) rfl rfl
  have hreach' := hreach.move n _ hm
  have hdue := Nat.le_trans hk (due_le_patience hobj hreach' rfl hc)
  obtain ⟨hdom, hobj', hcell', halloc, hbad⟩ := finish_of_completes hrun
    (s := { s with domain := d.retire n m (), cell := none }) rfl hobj hdue
  -- and three flushes are enough
  have hclosing : Closing n (finish n (patience { s with domain := d.retire n m (), cell := none })
      { s with domain := d.retire n m (), cell := none }) :=
    ⟨hdom ▸ hrun.follows.reach hreach', hobj', hcell', hdom ▸ hdeserted'⟩
  obtain ⟨s', hs', hend, hpending, horphans, halloc', hbad'⟩ := hclosing.flushAll (j := 0) trivial (Nat.zero_le _)
    (k := 3) (Nat.le_refl 3)
  have hall : s.cleanUp n = s' := by
    rw [heq, hcell]
    exact hs'
  rw [hall]
  exact ⟨(hend.dropped hpending horphans).trans (halloc'.trans halloc), halloc'.trans halloc, hbad'.trans hbad⟩

end Exchange

/-- However many threads swap, and however many read: as many objects are made as are to be made, and
    every one of them is destroyed, once. -/
theorem exchange_complete (threads swaps readers : Nat) :
    (exchange threads swaps readers).allocated = threads * swaps + 1 ∧
      (exchange threads swaps readers).dropped = threads * swaps + 1 := by
  obtain ⟨h, hdone⟩ := Exchange.contend_isDone threads swaps readers
  obtain ⟨hdropped, halloc, -⟩ := h.cleanUp hdone
  have hmade : (Exchange.contend threads swaps readers).allocated = threads * swaps + 1 := by
    have hall := h.made
    rwa [Finset.sum_eq_zero fun t ht => ?_, Nat.zero_add] at hall
    obtain ⟨hleft, hout⟩ :=
      Exchanger.of_isDone (List.all_eq_true.mp hdone t (List.mem_range.mpr (Finset.mem_range.mp ht)))
    rw [Exchange.toSwap, hleft, hout]
    exact ite_self 0
  unfold exchange
  dsimp only
  exact ⟨halloc.trans hmade, hdropped.trans hmade⟩

/-- And no read is bad, as long as there are too few turns for the epoch to overflow. -/
theorem exchange_eq (threads swaps readers : Nat)
    (hsize : Exchange.turnsEnough * (swaps * (threads + readers)) < UInt64.size - 1) :
    exchange threads swaps readers =
      { allocated := threads * swaps + 1, dropped := threads * swaps + 1, badReads := 0 } := by
  obtain ⟨h, hdone⟩ := Exchange.contend_isDone threads swaps readers
  obtain ⟨halloc, hdropped⟩ := exchange_complete threads swaps readers
  have hlen : (Exchange.contend threads swaps readers).domain.story.length < UInt64.size - 1 :=
    Nat.lt_of_le_of_lt (Nat.le_of_add_right_le h.told) hsize
  have hbad := (h.cleanUp hdone).2.2.trans (h.good (h.reach.not_wrapped_of_story hlen).1)
  unfold exchange at halloc hdropped ⊢
  dsimp only at halloc hdropped ⊢
  rw [halloc, hdropped, hbad]

end EpochQueue.Contest
