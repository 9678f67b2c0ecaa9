/-
  EpochQueue.Proofs.Fifo.Errands — what one thread does to the world, whoever is in its way.

  `Onward t w w'` says that `t` has brought `w` to `w'` and has not exited on the way: everything is
  in its place still, and the others are where they were. `Opens` is a call that is opened, with
  what it costs; `Onward.step` is a step of what is under way.

  Here a thread takes no heed: it begins an operation on any queue that was ever made, and takes
  from a queue or tears it down whoever works on it.
-/

import EpochQueue.Proofs.Fifo.Loads

namespace EpochQueue.Fifo

open Reclaim (Guard Notice Domain Call)

variable {α : Type}

namespace World

/-- `t` has brought `w` to `w'`. -/
structure Onward (t : Nat) (w w' : World α) : Prop where
  queueInv : ∃ lay, QueueInv w' lay
  follows : w.domain.Follows t w'.domain
  others : ∀ u, u ≠ t → w'.operation u = w.operation u
  queues : w.store.nextQueue ≤ w'.store.nextQueue

/-- `t` opens the call `c`, which adds `x` to the story; with the link that it brings it costs `n`
    at most. -/
structure Opens (t : Nat) (c : Call Garbage (Option (Operation α))) (x : List (Notice Garbage)) (n : Nat)
    (w w' : World α) : Prop extends Onward t w w' where
  operation : w'.operation t = none
  calls : (w'.domain.thread t).calls = c :: (w.domain.thread t).calls
  guards : (w'.domain.thread t).guards = (w.domain.thread t).guards
  ticketed : Ticketed c
  gripless : c.ticket.bind (·.guard) = none
  story : w'.domain.story = w.domain.story ++ x
  cost : callLoad c + w'.linksLeft ≤ n + w.linksLeft

section

variable {w w' w'' : World α} {lay : Nat → Layout} {t : Nat}

theorem Onward.refl (hs : QueueInv w lay) : Onward t w w := ⟨⟨lay, hs⟩, .refl, fun _ _ => rfl, Nat.le_refl _⟩

theorem Onward.trans (h : Onward t w w') (h' : Onward t w' w'') : Onward t w w'' :=
  ⟨h'.queueInv, h.follows.trans h'.follows, fun u hu => (h'.others u hu).trans (h.others u hu),
    Nat.le_trans h.queues h'.queues⟩

/-! ## Links -/

theorem linksLeft_le (w w' : World α) {x : List (Notice Garbage)} {k : Nat}
    (hst : w'.domain.story = w.domain.story ++ x) (hx : (x.filterMap (·.freed?)).filterMap (·.link?) = [])
    (hn : w'.store.nextLink ≤ w.store.nextLink + k) : w'.linksLeft ≤ w.linksLeft + k := by
  have hfrees : w'.domain.frees.filterMap (·.link?) = w.domain.frees.filterMap (·.link?) := by
    rw [Domain.frees_eq, Domain.frees_eq, hst, List.filterMap_append, List.filterMap_append, hx, List.append_nil]
  unfold linksLeft
  rw [hfrees]
  omega

/-- A link that is destroyed is one less. -/
theorem linksLeft_lt (w w' : World α) {n : Nat} (hs : ∃ lay, QueueInv w' lay)
    (hst : w'.domain.story = w.domain.story ++ [.freed (.link n)]) (hn : w'.store.nextLink = w.store.nextLink) :
    w'.linksLeft < w.linksLeft := by
  obtain ⟨lay, hs⟩ := hs
  have hle := hs.links_le
  have hfrees : w'.domain.frees.filterMap (·.link?) = w.domain.frees.filterMap (·.link?) ++ [n] := by
    rw [Domain.frees_eq, Domain.frees_eq, hst, List.filterMap_append, List.filterMap_append]
    rfl
  unfold linksLeft
  rw [hfrees, List.length_append, List.length_singleton] at hle ⊢
  omega

/-! ## Calls that are opened -/

/-- A move of the domain that leaves the links alone. -/
theorem Onward.called (hs : QueueInv w lay) (ho : w.operation t = none)
    {m : Reclaim.Move Garbage (Option (Operation α))} (hm : w.domain.may t m) (hexit : m ≠ .exit)
    (hk : ∀ w' : World α, w'.operation t = none → w'.domain = w.domain.move t m → w'.stack t = w.stack t)
    (hret : ∀ n, .retired (.link n) ∈ (w.domain.move t m).story → .retired (.link n) ∈ w.domain.story) :
    Onward t w { w with domain := w.domain.move t m } := by
  have hstack : ∀ u, ({ w with domain := w.domain.move t m } : World α).stack u = w.stack u := fun u => by
    by_cases e : u = t
    · subst e; exact hk _ ho rfl
    · exact stack_congr rfl (by rw [show _ = w.domain.thread u from Domain.thread_move_of_ne e m])
  exact ⟨⟨lay, hs.called (.move t m hs.reach hm) hstack hret⟩, .one hm hexit, fun _ _ => rfl, Nat.le_refl _⟩

theorem opens_pin (hs : QueueInv w lay) (hm : w.mayBegin t = true) :
    ∃ c, c.ticket = none ∧ Opens t c [] 4 w (w.pin t) := by
  obtain ⟨ho, hmay⟩ := mayBegin_iff.mp hm
  obtain ⟨q, hq, hf, hc, hg⟩ := Domain.pin_opens w.domain t (none : Option (Operation α))
  have hst := (Domain.pin_frame w.domain t (none : Option (Operation α))).2.2
  have hk : ∀ w' : World α, w'.operation t = none → w'.domain = w.domain.pin t none → w'.stack t = w.stack t :=
    fun w' ho' hd => stack_push (k := none) ho ho' (hd ▸ hc)
  refine ⟨⟨none, q⟩, rfl, .called hs ho (m := .pin none) hmay nofun hk fun n hn => hst ▸ hn, ho, hc, hg, nofun, rfl,
    hst.trans (List.append_nil _).symm, ?_⟩
  exact Nat.add_le_add (Nat.add_le_add q.left_le (Nat.le_refl 0))
    (linksLeft_le _ _ (x := []) (k := 0) (hst.trans (List.append_nil _).symm) rfl (Nat.le_refl _))

theorem opens_flush (hs : QueueInv w lay) (hm : w.mayBegin t = true) :
    Opens t ⟨none, .advance .flush⟩ [] 3 w (w.flush t) := by
  obtain ⟨ho, hmay⟩ := mayBegin_iff.mp hm
  obtain ⟨hc, hg⟩ := Domain.flush_opens w.domain t (none : Option (Operation α))
  have hst := (Domain.flush_frame w.domain t (none : Option (Operation α))).2.2.2
  have hk : ∀ w' : World α, w'.operation t = none → w'.domain = w.domain.flush t none → w'.stack t = w.stack t :=
    fun w' ho' hd => stack_push (k := none) ho ho' (hd ▸ hc)
  refine ⟨.called hs ho (m := .flush none) hmay nofun hk fun n hn => hst ▸ hn, ho, hc, hg, nofun, rfl,
    hst.trans (List.append_nil _).symm, ?_⟩
  exact Nat.add_le_add (Nat.le_refl 3)
    (linksLeft_le _ _ (x := []) (k := 0) (hst.trans (List.append_nil _).symm) rfl (Nat.le_refl _))

theorem opens_retire (hs : QueueInv w lay) (hm : w.mayBegin t = true) {i : Nat}
    (hnew : .retired (.object i) ∉ w.domain.story) :
    ∃ c, c.ticket = none ∧ Opens t c [.retired (.object i)] 3 w (w.retire t i) := by
  obtain ⟨ho, hmay⟩ := mayBegin_iff.mp hm
  obtain ⟨q, hq, hf, hleft, hc, hg, hst⟩ := Domain.retire_opens w.domain t (.object i) (none : Option (Operation α))
  have hk : ∀ w' : World α, w'.operation t = none → w'.domain = w.domain.retire t (.object i) none →
      w'.stack t = w.stack t := fun w' ho' hd => stack_push (k := none) ho ho' (hd ▸ hc)
  refine ⟨⟨none, q⟩, rfl, .called hs ho (m := .retire (.object i) none)
    ⟨hmay, fun h => hnew ((Domain.mem_story rfl).mpr h)⟩ nofun hk fun n hn => ?_, ho, hc, hg, nofun, rfl, hst, ?_⟩
  · dsimp only [Domain.move] at hn
    rw [hst] at hn
    exact (List.mem_append.mp hn).resolve_right (by simp)
  · exact Nat.add_le_add (Nat.add_le_add hleft (Nat.le_refl 0)) (linksLeft_le _ _ (k := 0) hst rfl (Nat.le_refl _))

/-- An operation begins on a queue that was made at some time. -/
theorem opens_begin (hs : QueueInv w lay) (hm : w.mayBegin t = true) {s : Store α} {q : Nat} {spot : Spot}
    {r : Request α} (hst : ∀ b, Starts w.store s ⟨q, none, b, .access spot⟩ r) (hq : q < w.store.nextQueue)
    (hstart : (Point.access spot : Point α).isStart = true)
    (hqueue : s.nextQueue = w.store.nextQueue) (hlink : s.nextLink ≤ w.store.nextLink + 1) :
    ∃ c, (∃ o, c.ticket = some o) ∧ Opens t c [] 20 w (World.beginAt { w with store := s } t q spot) := by
  obtain ⟨ho, hmay⟩ := mayBegin_iff.mp hm
  generalize hop : (⟨q, none, { limits := (s.queue q).limits }, .access spot⟩ : Operation α) = o
  have hbegin : World.beginAt { w with store := s } t q spot =
      { w with store := s, domain := w.domain.pin t (some o) } := by
    rw [← hop]; rfl
  obtain ⟨ph, hph, hf, hc, hg⟩ := Domain.pin_opens w.domain t (some o)
  have hstory := (Domain.pin_frame w.domain t (some o)).2.2
  have hreach : (w.domain.pin t (some o)).Reach := .move t (.pin (some o)) hs.reach hmay
  have hwait : o.wait = 15 := Operation.wait_of_start (hop ▸ hstart)
  have hlinks := linksLeft_le w { w with store := s, domain := w.domain.pin t (some o) } (x := [])
    (hstory.trans (List.append_nil _).symm) rfl hlink
  rw [hbegin]
  refine ⟨⟨some o, ph⟩, ⟨o, rfl⟩, ⟨⟨lay, hs.began (t := t) hreach (fun u hu => ?_) (hop ▸ hst _) (hop ▸ hq) ?_ hstory⟩,
    .one (m := .pin (some o)) hmay nofun, fun _ _ => rfl, Nat.le_of_eq hqueue.symm⟩, ho, hc, hg, ?_,
    by rw [← hop]; rfl, hstory.trans (List.append_nil _).symm, ?_⟩
  · exact stack_congr rfl (by dsimp only; rw [Domain.thread_pin_of_ne hu])
  · have ho' : ({ w with store := s, domain := w.domain.pin t (some o) } : World α).operation t = none := ho
    refine (stack_push (k := some o) ho ho' hc).trans ?_
    rw [hph]
    rfl
  · intro o' ho'
    cases ho'
    exact ⟨hf, by rw [if_pos hph, ← hop]; exact ⟨rfl, hstart⟩⟩
  · have hleft := ph.left_le
    simp only [callLoad, Option.map_some, Option.getD_some, hwait]
    omega

theorem opens_enqueue (hs : QueueInv w lay) (hm : w.mayBegin t = true) {q : Nat} (hq : q < w.store.nextQueue) (v : α) :
    ∃ c, (∃ o, c.ticket = some o) ∧ Opens t c [] 20 w (w.enqueue t q v) :=
  opens_begin hs hm (fun b => .enqueue q v b) hq rfl rfl (Nat.le_refl _)

theorem opens_dequeue (hs : QueueInv w lay) (hm : w.mayBegin t = true) {q : Nat} (hq : q < w.store.nextQueue) :
    ∃ c, (∃ o, c.ticket = some o) ∧ Opens t c [] 20 w (w.dequeue t q) :=
  opens_begin hs hm (fun b => .dequeue q b) hq rfl rfl (Nat.le_succ _)

theorem opens_isEmpty (hs : QueueInv w lay) (hm : w.mayBegin t = true) {q : Nat} (hq : q < w.store.nextQueue) :
    ∃ c, (∃ o, c.ticket = some o) ∧ Opens t c [] 20 w (w.isEmpty t q) :=
  opens_begin hs hm (fun b => .isEmpty q b) hq rfl rfl (Nat.le_succ _)

/-! ## What is over at once -/

theorem onward_pending (hs : QueueInv w lay) (hm : w.mayBegin t = true) : Onward t w (w.pending t).2 := by
  obtain ⟨ho, hmay⟩ := mayBegin_iff.mp hm
  have hst := (Domain.pending_frame w.domain t).2.2.2
  exact .called hs ho (m := .pending) hmay nofun
    (fun w' ho' hd => stack_congr (ho'.trans ho.symm) (by rw [hd]; exact (Domain.calls_pending w.domain t).1))
    fun n hn => hst ▸ hn

theorem onward_unpin (hs : QueueInv w lay) (hm : w.mayBegin t = true) {g : Guard}
    (hg : g ∈ (w.domain.thread t).guards) : Onward t w (w.unpin t g) := by
  obtain ⟨ho, hmay⟩ := mayBegin_iff.mp hm
  refine .called hs ho (m := .unpin g) ⟨hmay, hg⟩ nofun
    (fun w' ho' hd => stack_congr (ho'.trans ho.symm) (by rw [hd]; exact (Domain.calls_unpin w.domain t g).1))
    fun n hn => ?_
  dsimp only [Domain.move] at hn
  rw [(Domain.unpin_frame w.domain t g).2.2] at hn
  exact (List.mem_append.mp hn).resolve_right (by simp)

/-- The store changes, and nothing else. -/
theorem Onward.stored {s : Store α} (hs : ∃ lay, QueueInv { w with store := s } lay)
    (hq : w.store.nextQueue ≤ s.nextQueue) : Onward t w { w with store := s } := ⟨hs, .refl, fun _ _ => rfl, hq⟩

theorem onward_newQueue (hs : QueueInv w lay) (hm : w.mayBegin t = true) (limits : Limits) :
    Onward t w (w.newQueue limits).2 := by
  obtain ⟨lay', hd⟩ := hs.opsFit.did (m := .newQueue limits) hm
  exact .stored ⟨lay', hs.did hd hs.reach fun u e => stack_of_ne e (.newQueue limits)⟩ (Nat.le_succ _)

theorem onward_pop (hs : QueueInv w lay) {q : Nat} (hq : q < w.store.nextQueue) : Onward t w (w.pop q).2 :=
  .stored (hs.popped hq) (Nat.le_of_eq (Store.next_pop w.store q).1.symm)

theorem onward_drain (hs : QueueInv w lay) {q : Nat} (hq : q < w.store.nextQueue) : Onward t w (w.drain q).2 :=
  .stored (hs.drained hq) (Nat.le_of_eq (Store.next_popAll q w.store.nextLink w.store).1.symm)

theorem onward_tearDown (hs : QueueInv w lay) {q : Nat} (hq : q < w.store.nextQueue) : Onward t w (w.tearDown q).2 :=
  .stored (hs.tornDown hq) (Nat.le_of_eq (Store.next_tearDown w.store q).1.symm)

/-! ## Steps -/

theorem onward_step (hs : QueueInv w lay) (hrest : ¬ w.rests t)
    (hact : ∀ o, w.operation t = some o → w.domain.mayCall t = true ∧
      ∀ g, o.guard = some g → g ∈ (w.domain.thread t).guards) : Onward t w (w.step t).1 := by
  obtain ⟨hinv, hfollows⟩ := step_queueInv hs hrest hact
  obtain ⟨lay', hd⟩ := hs.opsFit.did (m := .step) hrest
  exact ⟨hinv, hfollows, fun u hu => (move_of_ne hu .step).1, hd.nextQueue_le⟩

end

end World

end EpochQueue.Fifo
