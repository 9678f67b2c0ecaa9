/-
  EpochQueue.Proofs.Contest.Flow — where the wares are.

  The wares that have left the queue, in the order in which they did, those in it and those that a
  producer has yet to put there are all the wares of that producer, in order; and what has left the queue
  some consumer has got, or is about to (`Flow`). A move of a thread passes one ware on at most, from the
  hand of its producer to the queue or from there to the hand of a consumer, and keeps that
  (`Moved.flow`).
-/

import EpochQueue.Proofs.Contest.Wares
import EpochQueue.Proofs.Fifo.Engaged

namespace EpochQueue.Contest

open Fifo (Move Operation World)

/-- The stages of an enqueue. -/
def Sends : Fifo.Stage Ware → Prop
  | .waiting _ | .linked => True
  | _ => False

/-- The stages of a dequeue. -/
def Gets : Fifo.Stage Ware → Prop
  | .looking | .unfound | .taking _ | .taken _ => True
  | _ => False

namespace Agent

def consumes : Agent → Bool
  | .consumer _ _ => true
  | .producer _ _ => false

/-- Its thread has an operation under way. -/
def waits : Agent → Bool
  | .producer _ waiting | .consumer _ waiting => waiting

/-- The stages of its operations. -/
def Does : Agent → Fifo.Stage Ware → Prop
  | .producer _ _ => Sends
  | .consumer _ _ => Gets

/-- How many wares it has got. -/
def received : Agent → Nat
  | .consumer got _ => got.length
  | .producer _ _ => 0

/-- Where the thread of an agent is: at nothing between its operations, and otherwise at one of its kind. -/
def Stands (w : World Ware) (t q : Nat) (a : Agent) : Prop :=
  match a.waits with
  | true => ∃ o c, w.Engaged t o c ∧ o.queue = q ∧ a.Does o.point.stage
  | false => w.Idle t

variable {w : World Ware} {t u q : Nat} {a : Agent}

theorem Stands.of_ne (h : a.Stands w t q) (hu : t ≠ u) (m : Move Ware) : a.Stands (w.move u m) t q := by
  unfold Stands at h ⊢
  cases hw : a.waits <;> rw [hw] at h
  · exact h.of_ne hu m
  · obtain ⟨o, c, hc, hq, hst⟩ := h
    exact ⟨o, c, hc.of_ne hu m, hq, hst⟩

/-- Agents work on the one queue only. -/
theorem Stands.queue_of_operation (h : a.Stands w t q) {o : Operation Ware} (ho : w.operation t = some o) :
    o.queue = q := by
  unfold Stands at h
  cases hw : a.waits <;> rw [hw] at h
  · rw [h.rests.1] at ho
    cases ho
  · obtain ⟨o', c, hc, hq, -⟩ := h
    have hop := hc.operation.symm.trans ho
    split at hop
    · cases hop
    · exact Option.some.inj hop ▸ hq

/-- No agent has more steps to take than an operation can need. -/
theorem Stands.load_le (h : a.Stands w t q) : w.load t ≤ 19 := by
  unfold Stands at h
  cases hw : a.waits <;> rw [hw] at h
  · exact Nat.le_trans (Nat.le_of_eq h.load) (Nat.zero_le _)
  · obtain ⟨o, c, hc, -⟩ := h
    exact hc.load_le

end Agent

namespace Traffic

variable {producers consumers per n t u : Nat} {s s' : Traffic} {gone : List Ware}

theorem agent_setAgent (s : Traffic) (t : Nat) (a : Agent) (u : Nat) :
    (s.setAgent t a).agent u = if u = t then a else s.agent u := Table.get_set _ _ _ _

/-! ## Where the wares are -/

/-- What the queue holds. -/
def held (s : Traffic) : List Ware := s.world.store.values s.queue

/-- What a producer has not yet put into the queue. -/
def unsent (s : Traffic) (t : Nat) : List Ware :=
  match s.agent t with
  | .producer todo _ => s.world.inHand t ++ todo
  | .consumer _ _ => []

/-- What a consumer has taken out of the queue, the oldest first. -/
def taken (s : Traffic) (t : Nat) : List Ware :=
  match s.agent t with
  | .producer _ _ => []
  | .consumer got _ => got.reverse ++ s.world.inHand t

/-- Where the wares are, when those that are `gone` have left the queue. -/
structure Flow (producers n per : Nat) (s : Traffic) (gone : List Ware) : Prop where
  sent : ∀ p, (gone ++ s.held).filter (·.1 == p) ++ s.unsent p = if p < producers then wares per p else []
  came : ((List.range n).flatMap s.taken).Perm gone
  order : ∀ t, (s.taken t).Sublist gone

/-- Thread `t` has made a move, and nobody else has. -/
structure Moved (t : Nat) (s s' : Traffic) : Prop where
  world : ∃ m, s.world.may t m ∧ s'.world = s.world.move t m
  linksOnly : s'.world.LinksOnly
  opened : s'.world.store.isOpen s.queue = true
  agents : ∀ u, u ≠ t → s'.agent u = s.agent u
  queue : s'.queue = s.queue
  total : s'.total = s.total

/-- At most one ware has moved on, through thread `t`. -/
inductive Passed (t : Nat) (s s' : Traffic) : Prop
  | none (held : s'.held = s.held) (unsent : s'.unsent t = s.unsent t) (taken : s'.taken t = s.taken t)
  | linked (v : Ware) (held : s'.held = s.held ++ [v]) (unsent : s.unsent t = v :: s'.unsent t)
      (taken : s'.taken t = s.taken t)
  | swung (v : Ware) (held : s.held = v :: s'.held) (unsent : s'.unsent t = s.unsent t)
      (taken : s'.taken t = s.taken t ++ [v])

namespace Moved

variable (h : Moved t s s') (hr : s.world.Reach)

include h hr

theorem inHand (hu : u ≠ t) : s'.world.inHand u = s.world.inHand u := by
  obtain ⟨m, hm, he⟩ := h.world
  rw [he]
  exact hr.inHand_of_ne hm hu

theorem unsent_of_ne (hu : u ≠ t) : s'.unsent u = s.unsent u := by
  unfold unsent
  rw [h.agents u hu, h.inHand hr hu]

theorem taken_of_ne (hu : u ≠ t) : s'.taken u = s.taken u := by
  unfold taken
  rw [h.agents u hu, h.inHand hr hu]

theorem unsent_eq (ht : s'.unsent t = s.unsent t) : s'.unsent = s.unsent := funext fun u => by
  by_cases e : u = t
  · subst e; exact ht
  · exact h.unsent_of_ne hr e

theorem taken_eq (ht : s'.taken t = s.taken t) : s'.taken = s.taken := funext fun u => by
  by_cases e : u = t
  · subst e; exact ht
  · exact h.taken_of_ne hr e

/-- Wherever a ware has moved to, all of them are somewhere. -/
theorem flow (hf : Flow producers n per s gone) (ht : t < n) (hp : Passed t s s') : ∃ gone, Flow producers n per s' gone := by
  cases hp with
  | none hheld hunsent htaken =>
    have htk := h.taken_eq hr htaken
    exact ⟨gone, fun p => by rw [hheld, h.unsent_eq hr hunsent]; exact hf.sent p, htk ▸ hf.came, fun u => htk ▸ hf.order u⟩
  | linked v hheld hunsent htaken =>
    have htk := h.taken_eq hr htaken
    have hfst : v.1 = t := by
      have hsent := hf.sent t
      rw [hunsent] at hsent
      split at hsent
      · exact fst_of_mem_wares (hsent ▸ List.mem_append_right _ List.mem_cons_self)
      · cases (List.append_eq_nil_iff.mp hsent).2
    refine ⟨gone, fun p => ?_, htk ▸ hf.came, fun u => htk ▸ hf.order u⟩
    rw [← hf.sent p, hheld, ← List.append_assoc, List.filter_append, List.append_assoc]
    refine (List.append_right_inj _).mpr ?_
    by_cases e : p = t
    · subst e
      rw [hunsent]
      simp [hfst]
    · rw [h.unsent_of_ne hr e]
      simp [hfst, Ne.symm e]
  | swung v hheld hunsent htaken =>
    refine ⟨gone ++ [v], fun p => ?_, ?_, fun u => ?_⟩
    · rw [h.unsent_eq hr hunsent, ← hf.sent p, hheld, List.append_assoc]
      rfl
    · have hrest : ∀ u, u ≠ t → s'.taken u = s.taken u := fun u hu => h.taken_of_ne hr hu
      obtain ⟨rest, hold, hnew⟩ := exists_rest_range ht hrest
      rw [htaken, List.append_assoc] at hnew
      have hgone := hf.came.symm.trans hold
      refine hnew.trans (List.Perm.trans ?_ (hgone.symm.append_right [v]))
      rw [List.append_assoc]
      exact List.perm_append_comm.append_left _
    · by_cases e : u = t
      · subst e
        rw [htaken]
        exact (hf.order u).append (List.Sublist.refl [v])
      · rw [h.taken_of_ne hr e]
        exact (hf.order u).trans (List.sublist_append_left _ _)

end Moved

end Traffic

end EpochQueue.Contest
