/-
  EpochQueue.Proofs.Fifo.Loads — how much a thread has under way.

  `World.load` counts the steps that the operation and the calls of a thread still take by
  themselves, the destruction of nodes apart; `linksLeft` counts the links that can still be
  destroyed. `step_moves` lists what a step of a thread does to its operation, its calls and its
  guards.
-/

import EpochQueue.Proofs.Fifo.Alone
import EpochQueue.Proofs.Reclaim.Books
import EpochQueue.Proofs.Reclaim.Ways

namespace EpochQueue.Fifo

open Reclaim (Guard Domain Call Phase)

variable {α : Type}

/-! ## Tickets -/

/-- Nothing was read yet. -/
def Point.isStart : Point α → Bool
  | .access (.enqueue _ .loadTail) | .access (.dequeue .loadHead) | .access (.isEmpty .loadHead) => true
  | _ => false

/-- The steps that an operation which waits for a call takes after it. -/
def Operation.wait (o : Operation α) : Nat :=
  match o.point with
  | .leave _ => 1
  | _ => 15

/-- An operation waits for its guard before it starts, and else to leave. -/
def Ticketed (c : Call Garbage (Option (Operation α))) : Prop :=
  ∀ o, c.ticket = some o → c.phase.isFlush = false ∧
    if c.phase.pin?.isSome then o.guard = none ∧ o.point.isStart = true else ∃ r, o.point = .leave r

/-- A call that goes on does so for the operation that waits for it. -/
theorem Ticketed.goesOn {c : Call Garbage (Option (Operation α))} (h : Ticketed c) {q : Phase Garbage}
    (hflush : q.isFlush = c.phase.isFlush) (hpin : q.pin? = c.phase.pin?) : Ticketed { c with phase := q } :=
  fun o ho => by
    have h := h o ho
    rw [← hflush, ← hpin] at h
    exact h

theorem Operation.left_of_start {o : Operation α} (h : o.point.isStart = true) (s : Store α) : o.left s ≤ 15 := by
  have he := s.enqueueLeft_mem o.queue
  have hd := s.dequeueLeft_mem o.queue
  unfold Operation.left
  unfold Point.isStart at h
  split at h <;> simp_all only [Spot.left, Spot.after, EnqueueAt.left, DequeueAt.left]
  · omega
  · omega
  · decide
  · cases h

theorem Operation.wait_of_start {o : Operation α} (h : o.point.isStart = true) : o.wait = 15 := by
  unfold Operation.wait
  cases hp : o.point with
  | leave r => rw [hp] at h; cases h
  | _ => rfl

theorem Operation.wait_of_leave {o : Operation α} {r : Outcome α} (h : o.point = .leave r) : o.wait = 1 := by
  unfold Operation.wait
  rw [h]

theorem Operation.left_of_leave {o : Operation α} {r : Outcome α} (h : o.point = .leave r) (s : Store α) :
    o.left s = 1 := by
  unfold Operation.left
  rw [h]

/-- The steps of a call, and of the operation that waits for it. -/
def callLoad (c : Call Garbage (Option (Operation α))) : Nat := c.phase.left + (c.ticket.map (·.wait)).getD 0

def callsLoad : List (Call Garbage (Option (Operation α))) → Nat
  | [] => 0
  | c :: calls => callLoad c + callsLoad calls

/-- The guards of the operations that wait for these calls, and of the one under way. -/
def gripsOf (o : Option (Operation α)) (calls : List (Call Garbage (Option (Operation α)))) : List Guard :=
  (o.bind (·.guard)).toList ++ calls.filterMap fun c => c.ticket.bind (·.guard)

theorem gripsOf_cons (c : Call Garbage (Option (Operation α))) (calls) :
    gripsOf none (c :: calls) = (c.ticket.bind (·.guard)).toList ++ gripsOf none calls := by
  simp only [gripsOf, Option.bind_none, Option.toList_none, List.nil_append]
  exact filterMap_cons_toList _ _ _

theorem gripsOf_some (o : Operation α) (calls : List (Call Garbage (Option (Operation α)))) :
    gripsOf (some o) calls = o.guard.toList ++ gripsOf none calls := rfl

namespace World

def opLoad (w : World α) (t : Nat) : Nat := ((w.operation t).map (·.left w.store)).getD 0

/-- The steps that `t` has to take for what it has under way, the destruction of nodes apart. -/
def load (w : World α) (t : Nat) : Nat := w.opLoad t + callsLoad (w.domain.thread t).calls

theorem load_eq {w : World α} {t : Nat} {o : Option (Operation α)} {calls : List (Call Garbage (Option (Operation α)))}
    (ho : w.operation t = o) (hc : (w.domain.thread t).calls = calls) :
    w.load t = (o.map (·.left w.store)).getD 0 + callsLoad calls := by
  subst ho hc
  rfl

/-! ## Links -/

end World

def Garbage.link? : Garbage → Option Nat
  | .link n => some n
  | .object _ => none

namespace World

/-- The links that can still be destroyed. -/
def linksLeft (w : World α) : Nat := w.store.nextLink - (w.domain.frees.filterMap (·.link?)).length

end World

/-- Links are destroyed once, and only ones that were allocated. -/
theorem QueueInv.links_le {w : World α} {lay : Nat → Layout} (hs : QueueInv w lay) :
    (w.domain.frees.filterMap (·.link?)).length ≤ w.store.nextLink := by
  have hb := hs.reach.balanced
  have hnodup : w.domain.frees.Nodup := (List.nodup_append.mp (hb.perm.nodup_iff.mp hb.nodup)).1
  have hlinks : (w.domain.frees.filterMap (·.link?)).Nodup := by
    refine List.Nodup.filterMap (fun a b n ha hb => ?_) hnodup
    cases a <;> cases ha
    cases b <;> cases hb
    rfl
  have hsub : w.domain.frees.filterMap (·.link?) ⊆ List.range w.store.nextLink := fun n hn => by
    obtain ⟨g, hg, hlink⟩ := List.mem_filterMap.mp hn
    cases g <;> cases hlink
    have hret : Garbage.link n ∈ w.domain.retirements := hb.perm.mem_iff.mpr (List.mem_append_left _ hg)
    exact List.mem_range.mpr (hs.retired_lt ((Domain.mem_story rfl).mpr (Domain.mem_retirements.mp hret)))
  have hlen := hlinks.length_le_of_subset hsub
  rwa [List.length_range] at hlen

/-! ## Steps -/

namespace Store

@[simp] theorem nextLink_casTail (s : Store α) (q seen new : Nat) : (s.casTail q seen new).2.nextLink = s.nextLink := by
  unfold casTail
  split <;> rfl

@[simp] theorem nextLink_casHead (s : Store α) (q seen new : Nat) : (s.casHead q seen new).2.nextLink = s.nextLink := by
  unfold casHead
  split <;> rfl

@[simp] theorem nextLink_casNext (s : Store α) (n new : Nat) : (s.casNext n new).2.nextLink = s.nextLink := by
  unfold casNext
  split <;> rfl

/-- Accesses allocate nothing. -/
theorem nextLink_access (s : Store α) (o : Operation α) (spot : Spot) :
    (s.access o spot).store.nextLink = s.nextLink := by
  rcases spot with ⟨node, place⟩ | place | place
  · cases place <;> simp only [access, accessEnqueue, nextLink_casTail]
    split <;> simp only [nextLink_casNext]
  · cases place <;> simp only [access, accessDequeue, nextLink_casTail]
    split <;> simp only [nextLink_casHead]
  · cases place <;> rfl

end Store

/-- What a step of `t` does to its operation, its calls and its guards. -/
inductive Moves (w : World α) (t : Nat) (w' : World α) : Signal α → Prop
  | accessed (o o' : Operation α) (a : Access) (pause : Option Pause) (hop : w.operation t = some o)
      (hop' : w'.operation t = some o') (hleft : o'.left w'.store < o.left w.store) (hguard : o'.guard = o.guard)
      (hd : w'.domain = w.domain) (hs : w'.store.nextLink = w.store.nextLink) : Moves w t w' (.accessed a pause)
  | took (o : Operation α) (r : Outcome α) (q : Phase Garbage) (head : Nat) (hop : w.operation t = some o)
      (hop' : w'.operation t = none) (hleft : o.left w.store = 5) (hq : q.left ≤ 3) (hpin : q.pin? = none)
      (hflush : q.isFlush = false)
      (hc : (w'.domain.thread t).calls = ⟨some (o.leave r), q⟩ :: (w.domain.thread t).calls)
      (hg : (w'.domain.thread t).guards = (w.domain.thread t).guards)
      (hst : w'.domain.story = w.domain.story ++ [.retired (.link head)])
      (hs : w'.store.nextLink = w.store.nextLink) : Moves w t w' .quiet
  | left (o : Operation α) (r : Outcome α) (hop : w.operation t = some o) (hop' : w'.operation t = none)
      (hleft : o.left w.store = 1) (hc : (w'.domain.thread t).calls = (w.domain.thread t).calls)
      (hg : (w'.domain.thread t).guards = match o.guard with
        | some g => (w.domain.thread t).guards.erase g
        | none => (w.domain.thread t).guards)
      (hst : w'.domain.story = w.domain.story ∨ ∃ g, w'.domain.story = w.domain.story ++ [.unpinned g])
      (hs : w'.store.nextLink = w.store.nextLink) : Moves w t w' (.finished r)
  | on (c : Call Garbage (Option (Operation α))) (rest : List (Call Garbage (Option (Operation α))))
      (q : Phase Garbage) (hop : w.operation t = none) (hop' : w'.operation t = none)
      (hold : (w.domain.thread t).calls = c :: rest) (hc : (w'.domain.thread t).calls = { c with phase := q } :: rest)
      (hleft : q.left < c.phase.left) (hflush : q.isFlush = c.phase.isFlush) (hpin : q.pin? = c.phase.pin?)
      (hg : (w'.domain.thread t).guards = (w.domain.thread t).guards)
      (hst : w'.domain.story = w.domain.story ∨ ∃ e, w'.domain.story = w.domain.story ++ [.advanced e])
      (hs : w'.store.nextLink = w.store.nextLink) : Moves w t w' .quiet
  | freed (c : Call Garbage (Option (Operation α))) (rest : List (Call Garbage (Option (Operation α))))
      (p : Reclaim.Purpose) (n : Garbage) (todo : List Garbage) (freed : Nat) (signal : Signal α)
      (hop : w.operation t = none) (hop' : w'.operation t = none)
      (hold : (w.domain.thread t).calls = c :: rest) (hphase : c.phase = .free p (n :: todo) freed)
      (hc : (w'.domain.thread t).calls = { c with phase := .free p todo (freed + 1) } :: rest)
      (hsignal : signal = match n with
        | .link _ => .quiet
        | .object i => .freed i)
      (hg : (w'.domain.thread t).guards = (w.domain.thread t).guards)
      (hst : w'.domain.story = w.domain.story ++ [.freed n]) (hs : w'.store.nextLink = w.store.nextLink) :
      Moves w t w' signal
  | resumed (c : Call Garbage (Option (Operation α))) (rest : List (Call Garbage (Option (Operation α))))
      (o : Operation α) (g : Guard) (hop : w.operation t = none)
      (hop' : w'.operation t = some { o with guard := some g })
      (hold : (w.domain.thread t).calls = c :: rest) (hc : (w'.domain.thread t).calls = rest)
      (hticket : c.ticket = some o) (hpin : c.phase.pin?.isSome = true)
      (hg : (w'.domain.thread t).guards = g :: (w.domain.thread t).guards)
      (hst : w'.domain.story = w.domain.story ++ [.pinned g]) (hs : w'.store = w.store) : Moves w t w' .quiet
  | back (c : Call Garbage (Option (Operation α))) (rest : List (Call Garbage (Option (Operation α))))
      (o : Operation α) (hop : w.operation t = none) (hop' : w'.operation t = some o)
      (hold : (w.domain.thread t).calls = c :: rest) (hc : (w'.domain.thread t).calls = rest)
      (hticket : c.ticket = some o) (hpin : c.phase.pin? = none)
      (hg : (w'.domain.thread t).guards = (w.domain.thread t).guards)
      (hst : w'.domain.story = w.domain.story) (hs : w'.store = w.store) : Moves w t w' .quiet
  | pinned (c : Call Garbage (Option (Operation α))) (rest : List (Call Garbage (Option (Operation α))))
      (g : Guard) (hop : w.operation t = none) (hop' : w'.operation t = none)
      (hold : (w.domain.thread t).calls = c :: rest) (hc : (w'.domain.thread t).calls = rest)
      (hticket : c.ticket = none) (hflush : c.phase.isFlush = false)
      (hg : (w'.domain.thread t).guards = g :: (w.domain.thread t).guards)
      (hst : w'.domain.story = w.domain.story ++ [.pinned g]) (hs : w'.store = w.store) :
      Moves w t w' (.answered (.guard g))
  | answered (c : Call Garbage (Option (Operation α))) (rest : List (Call Garbage (Option (Operation α))))
      (a : Reclaim.Answer) (ha : ∀ g, a ≠ .guard g) (hop : w.operation t = none) (hop' : w'.operation t = none)
      (hold : (w.domain.thread t).calls = c :: rest) (hc : (w'.domain.thread t).calls = rest)
      (hticket : c.ticket = none) (hflush : c.phase.isFlush = true → ∃ n, a = .flushed n)
      (hg : (w'.domain.thread t).guards = (w.domain.thread t).guards)
      (hst : w'.domain.story = w.domain.story) (hs : w'.store = w.store) : Moves w t w' (.answered a)

namespace World

variable {w : World α} {lay : Nat → Layout} {t : Nat}

theorem stepCall_eq' (w : World α) (t : Nat) : w.stepCall t = match (w.domain.step t).2 with
    | .idle => ({ w with domain := (w.domain.step t).1 }, .idle)
    | .quiet => ({ w with domain := (w.domain.step t).1 }, .quiet)
    | .freed (.link n) => ({ w with domain := (w.domain.step t).1, store := w.store.free n }, .quiet)
    | .freed (.object i) => ({ w with domain := (w.domain.step t).1 }, .freed i)
    | .returned (some o) a =>
      ({ w with domain := (w.domain.step t).1, active := w.active.set t (some (o.resume a)) }, .quiet)
    | .returned none a => ({ w with domain := (w.domain.step t).1 }, .answered a) := by
  unfold stepCall
  obtain ⟨d, signal⟩ := w.domain.step t
  rcases signal with _ | _ | ⟨n | i⟩ | ⟨_ | o, a⟩ <;> rfl

theorem domain_stepCall (w : World α) (t : Nat) : (w.stepCall t).1.domain = (w.domain.step t).1 := by
  rw [stepCall_eq']
  rcases (w.domain.step t).2 with _ | _ | ⟨n | i⟩ | ⟨_ | o, a⟩ <;> rfl

theorem step_of_none (ho : w.operation t = none) : w.step t = w.stepCall t := by
  unfold step
  rw [ho]

theorem step_of_some {o : Operation α} (ho : w.operation t = some o) : w.step t = w.stepOperation t o := by
  unfold step
  rw [ho]

theorem moves_call (ho : w.operation t = none) (hc : (w.domain.thread t).calls ≠ []) :
    Moves w t (w.step t).1 (w.step t).2 := by
  obtain ⟨c, rest, hc⟩ := List.exists_cons_of_ne_nil hc
  have hw := Domain.step_wanes hc
  rw [step_of_none ho, stepCall_eq']
  generalize (w.domain.step t).2 = sig at hw ⊢
  cases hw with
  | on q hc' hleft hflush hpin hg hs => exact .on c rest q ho ho hc hc' hleft hflush hpin hg hs rfl
  | freed p n todo freed hp hc' hg hs =>
    cases n with
    | link n => exact .freed c rest p _ todo freed _ ho ho hc hp hc' rfl hg hs rfl
    | object i => exact .freed c rest p _ todo freed _ ho ho hc hp hc' rfl hg hs rfl
  | pinned g hp _ hflush hc' hg hs =>
    cases hk : c.ticket with
    | none => exact .pinned c rest g ho ho hc hc' hk hflush hg hs rfl
    | some o => exact .resumed c rest o g ho (operation_of_set rfl) hc hc' hk (by rw [hp]; rfl) hg hs rfl
  | returned a ha hp _ hflush hc' hg hs =>
    cases hk : c.ticket with
    | none => exact .answered c rest a ha ho ho hc hc' hk hflush hg hs rfl
    | some o =>
      have hres : o.resume a = o := by
        cases a with
        | guard g => exact absurd rfl (ha g)
        | _ => rfl
      exact .back c rest o ho ((operation_of_set rfl).trans (congrArg some hres)) hc hc' hk hp hg hs rfl

theorem moves_operation (hs : QueueInv w lay) {o : Operation α} (ho : w.operation t = some o) :
    Moves w t (w.step t).1 (w.step t).2 := by
  have hmem : (o, false) ∈ w.stack t := stack_active ho ▸ List.mem_cons_self
  have hsits := hs.opsFit.sits t (o, false) hmem
  rw [step_of_some ho]
  unfold stepOperation
  cases hp : o.point with
  | access spot =>
    have hl := hs.opsFit.laid o.queue hsits.queue
    have hf : spot.Fits (lay o.queue) 0 := by simpa only [hp, Point.Fits] using hsits.fits
    have hn : ∀ node t', spot = .enqueue node (.link t') →
        node ∉ (lay o.queue).nodes ∧ ∃ v, w.store.Waits o.queue node v := by
      rintro node t' rfl
      exact hsits.brought node (by rw [hp]; rfl)
    obtain ⟨L', hv, -⟩ := hl.access hf hn
    exact .accessed o _ _ _ ho (operation_of_set rfl)
      (Operation.left_access hl (hs.taut _ hsits.queue) hp hf) hv.guard rfl (w.store.nextLink_access o spot)
  | take head next =>
    dsimp only
    have hleft : o.left w.store = 5 := by unfold Operation.left; rw [hp]
    generalize hr : Outcome.dequeued (w.store.takeValue next).1 = r
    obtain ⟨q, hpin, hflush, hq, hc, hg, hst⟩ := Domain.retire_opens w.domain t (.link head) (some (o.leave r))
    exact .took o r q head ho (operation_of_set rfl) hleft hq hpin hflush hc hg hst rfl
  | leave r =>
    have hleft : o.left w.store = 1 := Operation.left_of_leave hp _
    dsimp only
    cases hgo : o.guard with
    | none =>
      exact .left o r ho (operation_of_set rfl) hleft rfl (by rw [hgo]; rfl) (Or.inl rfl) rfl
    | some g =>
      obtain ⟨hc, hg⟩ := Domain.calls_unpin w.domain t g
      exact .left o r ho (operation_of_set rfl) hleft hc (by rw [hgo]; exact hg)
        (Or.inr ⟨g, (Domain.unpin_frame w.domain t g).2.2⟩) rfl

theorem step_moves (hs : QueueInv w lay) (hrest : ¬ w.rests t) : Moves w t (w.step t).1 (w.step t).2 := by
  cases ho : w.operation t with
  | some o => exact moves_operation hs ho
  | none => exact moves_call ho fun hc => hrest ⟨ho, hc⟩

/-- A step of a thread that holds the guards of its operations keeps all in its place. -/
theorem step_queueInv (hs : QueueInv w lay) (hrest : ¬ w.rests t)
    (hact : ∀ o, w.operation t = some o → w.domain.mayCall t = true ∧
      ∀ g, o.guard = some g → g ∈ (w.domain.thread t).guards) :
    (∃ lay', QueueInv (w.step t).1 lay') ∧ w.domain.Follows t (w.step t).1.domain := by
  have hfollows : w.domain.Follows t (w.step t).1.domain := by
    cases ho : w.operation t with
    | none =>
      have hc : (w.domain.thread t).calls ≠ [] := fun hc => hrest ⟨ho, hc⟩
      rw [step_of_none ho, domain_stepCall]
      exact .one (m := .step) hc nofun
    | some o =>
      obtain ⟨hmay, hheld⟩ := hact o ho
      have hmem : (o, false) ∈ w.stack t := stack_active ho ▸ List.mem_cons_self
      rw [step_of_some ho]
      cases hp : o.point with
      | access spot =>
        have hd : (w.stepOperation t o).1.domain = w.domain := by simp only [stepOperation, hp]
        exact hd ▸ .refl
      | take head next =>
        have hnew := hs.taking t _ hmem head next hp
        have hd : (w.stepOperation t o).1.domain = w.domain.move t
            (.retire (.link head) (some (o.leave (.dequeued (w.store.takeValue next).1)))) := by
          simp only [stepOperation, hp, Domain.move]
        exact hd ▸ .one ⟨hmay, fun h => hnew ((Domain.mem_story rfl).mpr h)⟩ fun e => by cases e
      | leave r =>
        cases hg : o.guard with
        | none =>
          have hd : (w.stepOperation t o).1.domain = w.domain := by simp only [stepOperation, hp, hg]; rfl
          exact hd ▸ .refl
        | some g =>
          have hd : (w.stepOperation t o).1.domain = w.domain.move t (.unpin g) := by
            simp only [stepOperation, hp, hg]; rfl
          exact hd ▸ .one ⟨hmay, hheld g hg⟩ fun e => by cases e
  refine ⟨?_, hfollows⟩
  obtain ⟨lay', hd⟩ := hs.opsFit.did (m := .step) hrest
  exact ⟨lay', hs.did hd (hfollows.reach hs.reach) fun u e => stack_of_ne e .step⟩

end World

end EpochQueue.Fifo
