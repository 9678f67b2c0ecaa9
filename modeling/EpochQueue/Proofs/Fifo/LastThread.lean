/-
  EpochQueue.Proofs.Fifo.LastThread — what the last thread that is left brings to its end.

  `World.Last` says that nothing is under way and that nobody but `t` has a handle, while the queue is still
  there. Then every operation on the queue ends after so few steps as there are links to destroy and 19
  more (`Last.operates`), and so does a flush, which ages by one epoch what it does not destroy
  (`Last.flushes`). When nothing is pending any more, the queue counts its sentinel alone
  (`Last.live_eq_one`).
-/

import EpochQueue.Proofs.Fifo.Census
import EpochQueue.Proofs.Fifo.Engaged
import EpochQueue.Proofs.Fifo.SingleUser
import EpochQueue.Proofs.Reclaim.Completion

namespace EpochQueue.Fifo

open Reclaim (Call Domain)

variable {α : Type}

/-- Something is over with this step. -/
def Signal.isEnd : Signal α → Bool
  | .finished _ | .answered _ => true
  | _ => false

namespace World

variable {w w' : World α} {t u q n : Nat} {m : Move α} {x : Signal α} {r : Outcome α} {o : Operation α}
  {c : Option (Call Garbage (Option (Operation α)))}

/-! ## Steps of one thread -/

/-- So many steps of `t`, with something over in the last of them. -/
inductive Completes (t : Nat) : Nat → World α → World α → Signal α → Prop
  | ends {w : World α} {x : Signal α} (hm : ¬ w.rests t) (h : (w.step t).2 = x) (hx : x.isEnd = true) :
      Completes t 1 w (w.step t).1 x
  | goesOn {n : Nat} {w w' : World α} {x : Signal α} (hm : ¬ w.rests t) (h : (w.step t).2.isEnd = false)
      (hrest : Completes t n (w.step t).1 w' x) : Completes t (n + 1) w w' x

namespace Completes

theorem reach (h : Completes t n w w' x) (hr : w.Reach) : w'.Reach := by
  induction h with
  | @ends w _ hm => exact hr.move _ .step hm
  | @goesOn _ w _ _ hm _ _ ih => exact ih (hr.move _ .step hm)

theorem linksOnly (h : Completes t n w w' x) (hr : w.Reach) (hlinks : w.LinksOnly) : w'.LinksOnly := by
  induction h with
  | ends hm => exact hlinks.step hr hm
  | goesOn hm _ _ ih => exact ih (hr.move _ .step hm) (hlinks.step hr hm)

theorem follows (h : Completes t n w w' x) (hr : w.Reach) : w.domain.Follows t w'.domain := by
  have hstep : ∀ {v : World α}, v.Reach → ¬ v.rests t → v.domain.Follows t (v.step t).1.domain := fun hr hm => by
    obtain ⟨lay, hk⟩ := hr.kept
    exact follows_use (q := 0) hk (m := .step) hm (Or.inl rfl)
  induction h with
  | ends hm => exact hstep hr hm
  | goesOn hm _ _ ih => exact (hstep hr hm).trans (ih (hr.move _ .step hm))

theorem operation_of_ne (h : Completes t n w w' x) (hu : u ≠ t) : w'.operation u = w.operation u := by
  induction h with
  | ends => exact (move_of_ne hu .step).1
  | goesOn _ _ _ ih => exact ih.trans (move_of_ne hu .step).1

theorem finishes (h : Completes t n w w' (.finished r)) : Finishes t w r w' := by
  generalize hx : Signal.finished r = x at h
  induction h with
  | ends _ h => exact .ends (h.trans hx.symm)
  | goesOn _ h _ ih => exact .goesOn (fun r e => by rw [e] at h; cases h) (ih hx)

end Completes

/-- Whoever works on an operation gets done with it, when nobody else moves. -/
theorem Engaged.completes (h : w.Engaged t o c) (hr : w.Reach) (hlinks : w.LinksOnly) :
    ∃ n w' r, n ≤ w.load t + w.linksLeft ∧ Completes t n w w' (.finished r) ∧ w'.Idle t ∧
      w'.store.isOpen o.queue = true := by
  generalize hleft : w.load t + w.linksLeft = b
  induction b using Nat.strongRecOn generalizing w o c with
  | ind b ih =>
    have hm := h.not_rests
    have hr' : (w.step t).1.Reach := hr.move t .step hm
    have hlinks' := hlinks.step hr hm
    have hopen : (w.step t).1.store.isOpen o.queue = true := h.stays_open hr (m := .step) hm
    have hless : ∀ {w' : World α}, Eased t w w' → w'.load t + w'.linksLeft < b := fun {w'} he => by
      rcases he with ⟨hload, hlinks⟩ | ⟨hload, hlinks⟩ <;> omega
    have hworked := h.worked hr hlinks
    generalize hsignal : (w.step t).2 = signal at hworked
    cases hworked with
    | goesOn o' c' _ hc' hq _ hfinished hanswered heased =>
      obtain ⟨n, w', r, hn, hrun, hidle, hopen'⟩ := ih _ (hless heased) hc' hr' hlinks' rfl
      have hlt := hless heased
      refine ⟨n + 1, w', r, by omega, .goesOn hm ?_ hrun, hidle, hq ▸ hopen'⟩
      rw [hsignal]
      cases signal with
      | finished r => exact absurd rfl (hfinished r)
      | answered a => exact absurd rfl (hanswered a)
      | _ => rfl
    | finished r _ hidle _ heased =>
      have hlt := hless heased
      exact ⟨1, _, r, by omega, .ends hm hsignal rfl, hidle, hopen⟩

/-- A step of a call leaves the queue there, and what it holds. -/
theorem Reach.opened_step (hr : w.Reach) (ho : w.operation t = none) (hm : ¬ w.rests t) (hopen : w.store.isOpen q = true) :
    (w.step t).1.store.isOpen q = true ∧ (w.step t).1.store.values q = w.store.values q := by
  obtain ⟨lay, hk⟩ := hr.kept
  obtain ⟨hlt, hf⟩ := Store.isOpen_iff.mp hopen
  have hl := hk.opsFit.laid q hlt
  rw [step_of_none ho]
  refine ⟨?_, (laid_stepCall hl).2⟩
  obtain ⟨c, rest, hc⟩ := List.exists_cons_of_ne_nil fun hc => hm ⟨ho, hc⟩
  have hwanes := Domain.step_wanes hc
  rw [stepCall_eq]
  generalize (w.domain.step t).1 = d, (w.domain.step t).2 = signal at hwanes
  cases hwanes with
  | on => exact hopen
  | pinned g => cases c.ticket <;> exact hopen
  | returned a => cases c.ticket <;> exact hopen
  | freed p x todo freed hp =>
    cases x with
    | object i => exact hopen
    | link n =>
      -- what is destroyed was retired, and so the head has passed it
      have hret := hk.reach.accounted.todo t (.link n) (by rw [Reclaim.Thread.todo, hc]; simp [hp, Reclaim.Phase.todo])
      refine Store.isOpen_iff.mpr ⟨hlt, ?_⟩
      dsimp only
      rw [Store.head_free, Store.link_free, if_neg]
      · exact hf
      · rintro rfl
        exact Nat.lt_irrefl _ (hk.lt_head hlt hl.head hret)

/-- A call that does not return goes on, and so does whoever waits for it. -/
theorem stepCall_goesOn {d : Domain Garbage (Option (Operation α))} {y : Reclaim.Signal Garbage (Option (Operation α))}
    (h : w.domain.step t = (d, y)) (hy : ∀ k a, y ≠ .returned k a) :
    (w.stepCall t).1.domain = d ∧ (w.stepCall t).1.operation t = w.operation t ∧ (w.stepCall t).2.isEnd = false := by
  rw [stepCall_eq', h]
  rcases y with _ | _ | ⟨n | i⟩ | ⟨k, a⟩
  · exact ⟨rfl, rfl, rfl⟩
  · exact ⟨rfl, rfl, rfl⟩
  · exact ⟨rfl, rfl, rfl⟩
  · exact ⟨rfl, rfl, rfl⟩
  · exact absurd rfl (hy k a)

/-- A call for which nobody waits completes as the domain says. -/
theorem completes_of_domain {d d' : Domain Garbage (Option (Operation α))} {a : Reclaim.Answer}
    (hrun : Domain.Completes t n d d' a) (hd : w.domain = d) (hr : w.Reach) (ho : w.operation t = none)
    {p : Reclaim.Phase Garbage} (hc : (w.domain.thread t).calls = [⟨none, p⟩]) (hopen : w.store.isOpen q = true) :
    ∃ w', Completes t n w w' (.answered a) ∧ w'.domain = d' ∧ w'.operation t = none ∧
      w'.store.isOpen q = true ∧ w'.store.values q = w.store.values q := by
  have hbusy : ∀ {v : World α} {p}, (v.domain.thread t).calls = [⟨none, p⟩] → ¬ v.rests t := fun hc hrests => by
    rw [hrests.2] at hc
    cases hc
  induction hrun generalizing w p with
  | @returned d d' k a h =>
    subst hd
    have hstep : w.step t = ({ w with domain := d' }, .answered a) := by
      have hwanes := Domain.step_wanes hc
      rw [h] at hwanes
      rw [step_of_none ho, stepCall_eq', h]
      cases hwanes <;> rfl
    have hkept := hr.opened_step ho (hbusy hc) hopen
    have hends := Completes.ends (hbusy hc) (congrArg Prod.snd hstep) rfl
    rw [hstep] at hkept hends
    exact ⟨_, hends, rfl, ho, hkept⟩
  | quiet h _ ih | freed h _ ih =>
    subst hd
    have hwanes := Domain.step_wanes hc
    obtain ⟨hopen', hvals⟩ := hr.opened_step ho (hbusy hc) hopen
    have hr' : (w.step t).1.Reach := hr.move t .step (hbusy hc)
    obtain ⟨hd, ho', hend⟩ := stepCall_goesOn h nofun
    rw [← step_of_none ho] at hd ho' hend
    rw [h, ← hd] at hwanes
    obtain ⟨p', hc'⟩ : ∃ p', ((w.step t).1.domain.thread t).calls = [⟨none, p'⟩] := by
      cases hwanes
      exact ⟨_, ‹_›⟩
    obtain ⟨w', hrun, hd', hop, hopen'', hvals'⟩ := ih hd hr' (ho'.trans ho) hc' hopen'
    exact ⟨w', .goesOn (hbusy hc) hend hrun, hd', hop, hopen'', hvals'.trans hvals⟩

/-! ## The last thread -/

/-- Only `t` is left, nothing is under way, and nobody has torn `q` down. -/
structure Last (w : World α) (t q : Nat) : Prop where
  reach : w.Reach
  linksOnly : w.LinksOnly
  opened : w.store.isOpen q = true
  deserted : w.domain.Deserted t
  rests : ∀ u, w.operation u = none

namespace Last

variable (h : w.Last t q)

include h

theorem idle : w.Idle t := ⟨⟨h.rests t, h.deserted.calls t⟩, h.deserted.guards t⟩

theorem isQuiet : w.isQuiet q := fun u o ho => by
  rw [World.operations, h.rests u, h.deserted.calls u] at ho
  cases ho

/-- It gets done with whatever it begins, and is still the last one then. -/
theorem operates (hb : Begun w t q o 0 (w.move t m)) (hm : w.may t m) (huse : m.uses q)
    (hfinishes : Finishes t (w.move t m) r w') :
    ∃ n, n ≤ w.store.nextLink + 19 ∧ Completes t n (w.move t m) w' (.finished r) ∧ w'.Last t q := by
  obtain ⟨c, hc⟩ := hb.engaged
  obtain ⟨n, w', r, hn, hrun, hidle, hopen⟩ := hc.completes hb.reach hb.linksOnly
  obtain ⟨rfl, rfl⟩ := hfinishes.unique hrun.finishes
  obtain ⟨lay, hk⟩ := h.reach.kept
  have hfollows := (follows_use hk hm (Or.inr ⟨h.idle.rests, huse⟩)).trans (hrun.follows hb.reach)
  have hothers : ∀ u, u ≠ t → w'.domain.thread u = w.domain.thread u := fun u hu => hfollows.thread_of_ne hu
  refine ⟨n, ?_, hrun, hrun.reach hb.reach, hrun.linksOnly hb.reach hb.linksOnly, hb.queue ▸ hopen,
    ⟨fun u => ?_, fun u => ?_, hfollows.handle h.deserted.handle, fun u hu => ?_⟩, fun u => ?_⟩
  · have hload := hc.load_le
    have hleft := hb.linksLeft
    have hlinks : w.linksLeft ≤ w.store.nextLink := Nat.sub_le _ _
    omega
  · by_cases e : u = t
    · exact e ▸ hidle.rests.2
    · rw [hothers u e, h.deserted.calls u]
  · by_cases e : u = t
    · exact e ▸ hidle.guards
    · rw [hothers u e, h.deserted.guards u]
  · rw [hothers u hu]
    exact h.deserted.others u hu
  · by_cases e : u = t
    · exact e ▸ hidle.rests.1
    · rw [hrun.operation_of_ne e, (move_of_ne e m).1, h.rests u]

/-- Nothing is found in an empty queue. -/
theorem dequeues (hnil : w.store.values q = []) : ∃ n w', n ≤ w.store.nextLink + 19 ∧
    Completes t n (w.dequeue t q) w' (.finished (.dequeued none)) ∧ w'.Last t q ∧ w'.store.values q = [] := by
  obtain ⟨o, hb, -⟩ := h.idle.dequeue h.reach h.linksOnly h.opened
  obtain ⟨lay, hk⟩ := h.reach.kept
  obtain ⟨w', hfinishes, -, -, hvals⟩ := Finishes.dequeue h.idle.mayBegin (hk.opsFit.laid q (Store.isOpen_lt h.opened))
  obtain ⟨n, hn, hrun, hlast⟩ := h.operates (m := .dequeue q) hb ⟨h.idle.mayBegin, h.opened⟩ rfl hfinishes
  rw [hnil] at hrun hvals
  exact ⟨n, w', hn, hrun, hlast, hvals⟩

theorem asksEmpty (hnil : w.store.values q = []) : ∃ n w', n ≤ w.store.nextLink + 19 ∧
    Completes t n (w.isEmpty t q) w' (.finished (.emptiness true)) ∧ w'.Last t q ∧ w'.store.values q = [] := by
  obtain ⟨o, hb, -⟩ := h.idle.isEmpty h.reach h.linksOnly h.opened
  obtain ⟨lay, hk⟩ := h.reach.kept
  obtain ⟨w', hfinishes, hvals⟩ := Finishes.isEmpty h.idle.mayBegin (hk.opsFit.laid q (Store.isOpen_lt h.opened))
  obtain ⟨n, hn, hrun, hlast⟩ := h.operates (m := .isEmpty q) hb ⟨h.idle.mayBegin, h.opened⟩ rfl hfinishes
  rw [hnil] at hrun hvals
  exact ⟨n, w', hn, hrun, hlast, hvals⟩

/-- No more has been retired than links were allocated. -/
theorem length_retirements_le : w.domain.retirements.length ≤ w.store.nextLink := by
  obtain ⟨lay, hk⟩ := h.reach.kept
  have hsub : w.domain.retirements ⊆ (List.range w.store.nextLink).map Garbage.link := fun g hg => by
    have hret := (Domain.mem_story rfl).mpr (Domain.mem_retirements.mp hg)
    cases g with
    | link n => exact List.mem_map_of_mem (List.mem_range.mpr (hk.retired_lt hret))
    | object i => exact absurd hret (h.linksOnly i)
  have hle := (List.subperm_of_subset hk.reach.balanced.nodup hsub).length_le
  rwa [List.length_map, List.length_range] at hle

/-- A flush comes to its end, and what it does not destroy is one epoch older then. -/
theorem flushes : ∃ n w' a, n ≤ w.store.nextLink + 19 ∧ Completes t n (w.flush t) w' (.answered a) ∧ w'.Last t q ∧
    Domain.Sifted w.domain t w'.domain ∧ w'.store.values q = w.store.values q := by
  obtain ⟨lay, hk⟩ := h.reach.kept
  obtain ⟨n, d', a, hn, hrun, hdeserted, hsifted⟩ := h.deserted.flushes hk.reach none
  have hr : (w.flush t).Reach := h.reach.move t .flush h.idle.mayBegin
  have hstory := (Domain.flush_frame w.domain t (none : Option (Operation α))).2.2.2
  have hlinks : (w.flush t).LinksOnly := fun i => by
    rw [show (w.flush t).domain.story = w.domain.story from hstory]
    exact h.linksOnly i
  have hc := (Domain.flush_opens w.domain t (none : Option (Operation α))).1
  rw [h.deserted.calls t] at hc
  obtain ⟨w', hcompletes, hd, ho, hopen, hvals⟩ := completes_of_domain hrun (w := w.flush t) rfl hr (h.rests t) hc h.opened
  refine ⟨n, w', a, ?_, hcompletes, ⟨hcompletes.reach hr, hcompletes.linksOnly hr hlinks, hopen, hd ▸ hdeserted,
    fun u => ?_⟩, hd ▸ hsifted, hvals⟩
  · have hle := h.length_retirements_le
    unfold Domain.due at hn
    rw [hc, Domain.retirements_eq, hstory, ← Domain.retirements_eq] at hn
    simp only [Domain.callsLeft, Reclaim.Phase.left] at hn
    omega
  · by_cases e : u = t
    · exact e ▸ ho
    · exact (hcompletes.operation_of_ne e).trans (h.rests u)

/-- Asking what is pending changes nothing of account. -/
theorem asks : (w.pending t).2.Last t q ∧ (w.pending t).2.domain.registry = w.domain.registry ∧
    ((w.pending t).2.domain.thread t).hoard = (w.domain.thread t).hoard ∧
    (w.pending t).2.domain.orphans = w.domain.orphans := by
  obtain ⟨hdeserted, hreg, hoard, horphans, hstory⟩ := h.deserted.asks
  refine ⟨⟨h.reach.move t .pending h.idle.mayBegin, fun i => ?_, h.opened, hdeserted, h.rests⟩, hreg, hoard, horphans⟩
  rw [show (w.pending t).2.domain.story = w.domain.story from hstory]
  exact h.linksOnly i

/-- When nothing is pending any more, and nobody has left anything behind, the queue has its sentinel alone. -/
theorem live_eq_one (hnil : w.store.values q = []) (hpending : (w.domain.pending t).1 = 0)
    (horphans : w.domain.orphans = []) : (w.store.queue q).live = 1 := by
  obtain ⟨lay, hk⟩ := h.reach.kept
  refine (h.reach.census (Store.isOpen_lt h.opened)).drained h.opened h.isQuiet hnil fun n _ hret => ?_
  have hcleared := h.deserted.cleared hk.reach horphans hpending
  refine Domain.mem_frees.mp (List.count_pos_iff.mp ?_)
  rw [hcleared.once _ hret]
  exact Nat.one_pos

end Last

/-! ## All others exit -/

theorem foldl_exit (w : World α) (us : List Nat) :
    us.foldl exit w = { w with domain := us.foldl Domain.exit w.domain } := by
  induction us generalizing w with
  | nil => rfl
  | cons u us ih => exact ih (w.exit u)

theorem Reach.exits (hr : w.Reach) (hrests : ∀ u, w.rests u) (us : List Nat) : (us.foldl exit w).Reach := by
  induction us generalizing w with
  | nil => exact hr
  | cons v us ih =>
    refine ih (hr.move v .exit (hrests v)) fun u => ⟨(hrests u).1, ?_⟩
    by_cases e : u = v
    · rw [e]
      exact (Domain.calls_exit w.domain v).1.trans (hrests v).2
    · exact (congrArg Reclaim.Thread.calls (move_of_ne e .exit).2).trans (hrests u).2

/-- Once all of those below `t` have exited, with nothing under way, only `t` is left. -/
theorem Reach.last_exits (hr : w.Reach) (hlinks : w.LinksOnly) (hopen : w.store.isOpen q = true) (hidle : ∀ u, w.Idle u)
    (hunused : ∀ u, t ≤ u → (w.domain.thread u).tenure = .unused) : ((List.range t).foldl exit w).Last t q := by
  obtain ⟨lay, hk⟩ := hr.kept
  have hreach := hr.exits (fun u => (hidle u).rests) (List.range t)
  obtain ⟨-, hstory, -⟩ := hk.reach.exits (fun u => (hidle u).rests.2) (List.range t)
  have hdeserted := hk.reach.deserted_exits (fun u => (hidle u).rests.2) (fun u => (hidle u).guards) hunused
  rw [foldl_exit] at hreach ⊢
  refine ⟨hreach, fun i => ?_, hopen, hdeserted, fun u => (hidle u).rests.1⟩
  rw [hstory]
  exact hlinks i

end World

end EpochQueue.Fifo
