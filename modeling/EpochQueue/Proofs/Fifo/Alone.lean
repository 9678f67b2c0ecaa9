/-
  EpochQueue.Proofs.Fifo.Alone — an operation that nobody disturbs gets through.

  `Spot.left` counts the shared accesses that an operation still makes if nobody else makes any.
  What it has read may be out of date; then it finds that out and starts over, and if the tail
  lags it is moved along once on the way. Every access leaves fewer of them (`left_access`), for
  the tail is never more than one link behind.
-/

import EpochQueue.Proofs.Fifo.Heedless

namespace EpochQueue.Fifo

variable {α : Type}

namespace Store

/-- The tail is not the last link. -/
def lags (s : Store α) (q : Nat) : Bool := (s.link (s.queue q).tail).next.isSome

/-- The accesses of an enqueue from its start on. -/
def enqueueLeft (s : Store α) (q : Nat) : Nat := if s.lags q then 9 else 5

/-- Those of a dequeue. -/
def dequeueLeft (s : Store α) (q : Nat) : Nat := if s.lags q then 10 else 5

theorem enqueueLeft_mem (s : Store α) (q : Nat) : 5 ≤ s.enqueueLeft q ∧ s.enqueueLeft q ≤ 9 := by
  unfold enqueueLeft
  split <;> decide

theorem dequeueLeft_mem (s : Store α) (q : Nat) : 5 ≤ s.dequeueLeft q ∧ s.dequeueLeft q ≤ 10 := by
  unfold dequeueLeft
  split <;> decide

variable {s : Store α} {q n : Nat}

theorem lags_of_next (h : (s.link (s.queue q).tail).next = some n) : s.enqueueLeft q = 9 ∧ s.dequeueLeft q = 10 := by
  simp [enqueueLeft, dequeueLeft, lags, h]

theorem not_lags_of_next (h : (s.link (s.queue q).tail).next = none) : s.enqueueLeft q = 5 ∧ s.dequeueLeft q = 5 := by
  simp [enqueueLeft, dequeueLeft, lags, h]

end Store

namespace EnqueueAt

/-- How many accesses an enqueue still makes on `q`. -/
def left (s : Store α) (q : Nat) : EnqueueAt → Nat
  | .loadTail => s.enqueueLeft q
  | .loadNext tail => if (s.queue q).tail = tail then s.enqueueLeft q - 1 else s.enqueueLeft q + 2
  | .reloadTail tail next =>
    if (s.queue q).tail = tail then
      if next.isSome then 7 else if s.lags q then s.enqueueLeft q + 2 else 3
    else s.enqueueLeft q + 1
  | .helpTail tail _ => if (s.queue q).tail = tail then 6 else s.enqueueLeft q + 1
  | .link tail => if (s.link tail).next.isSome then s.enqueueLeft q + 1 else 2
  | .swingTail _ => 1

end EnqueueAt

namespace DequeueAt

/-- How many accesses a dequeue still makes on `q`. -/
def left (s : Store α) (q : Nat) : DequeueAt → Nat
  | .loadHead => s.dequeueLeft q
  | .loadTail head => if (s.queue q).head = head then s.dequeueLeft q - 1 else s.dequeueLeft q + 3
  | .loadNext head tail =>
    if (s.queue q).head = head then
      if (s.queue q).tail = tail then s.dequeueLeft q - 2 else s.dequeueLeft q + 3
    else s.dequeueLeft q + 2
  | .reloadHead head tail next =>
    if (s.queue q).head = head then
      if next.isSome then
        if head = tail then if (s.queue q).tail = tail then 7 else s.dequeueLeft q + 2 else 2
      else 1
    else s.dequeueLeft q + 1
  | .helpTail tail _ => if (s.queue q).tail = tail then 6 else s.dequeueLeft q + 1
  | .swingHead head _ => if (s.queue q).head = head then 1 else s.dequeueLeft q + 1

end DequeueAt

namespace Spot

def left (s : Store α) (q : Nat) : Spot → Nat
  | .enqueue _ place => place.left s q
  | .dequeue place => place.left s q
  | .isEmpty .loadHead => 2
  | .isEmpty (.loadNext _) => 1

/-- The steps that follow the last access: a dequeue may have a link to retire, and every
    operation has a guard to drop. -/
def after : Spot → Nat
  | .dequeue _ => 5
  | .enqueue _ _ | .isEmpty _ => 1

end Spot

/-- The steps that an operation still takes, if nobody else takes any. -/
def Operation.left (s : Store α) (o : Operation α) : Nat :=
  match o.point with
  | .access spot => spot.left s o.queue + spot.after
  | .take _ _ => 5
  | .leave _ => 1

/-- More than that no operation takes, whatever it has read and whenever. -/
theorem Operation.left_le (s : Store α) (o : Operation α) : o.left s ≤ 18 := by
  have he := s.enqueueLeft_mem o.queue
  have hd := s.dequeueLeft_mem o.queue
  unfold Operation.left
  rcases o.point with spot | ⟨_, _⟩ | _
  · rcases spot with ⟨_, place⟩ | place | place <;> cases place <;>
      simp only [Spot.left, Spot.after, EnqueueAt.left, DequeueAt.left] <;> (repeat' split) <;> omega
  · exact (by decide : 5 ≤ 18)
  · exact (by decide : 1 ≤ 18)

section

variable {s : Store α} {o : Operation α} {L : Layout}

/-- Once the tail is moved along it is the last link. -/
theorem Laid.casTail_left (hl : Laid s o.queue L) (ht : L.Taut) {i tail next : Nat} (hi : L.nodes[i]? = some tail)
    (hn : L.nodes[i + 1]? = some next) (he : (s.queue o.queue).tail = tail) :
    (s.casTail o.queue tail next).2.enqueueLeft o.queue = 5 ∧
      (s.casTail o.queue tail next).2.dequeueLeft o.queue = 5 := by
  have hit : i = L.tail := hl.place hi (he ▸ hl.tail)
  have hend : L.nodes[i + 2]? = none := by
    rw [List.getElem?_eq_none_iff, hit]
    exact ht
  have hnext : (s.link next).next = none := (hl.next _ _ hn).trans hend
  refine Store.not_lags_of_next ?_
  unfold Store.casTail
  rw [if_pos he, Store.queue_modifyQueue, if_pos rfl, Store.link_modifyQueue, hnext]

theorem casTail_of_ne {q tail next : Nat} (h : (s.queue q).tail ≠ tail) : s.casTail q tail next = (false, s) := by
  unfold Store.casTail
  rw [if_neg h]

theorem Operation.left_goto (s : Store α) (o : Operation α) (spot : Spot) :
    (o.goto spot).left s = spot.left s o.queue + spot.after := rfl

theorem Operation.left_leave (s : Store α) (o : Operation α) (r : Outcome α) : (o.leave r).left s = 1 := rfl

namespace EnqueueAt

theorem left_access (hl : Laid s o.queue L) (ht : L.Taut) {b node : Nat} {place : EnqueueAt}
    (hf : Spot.Fits L b (.enqueue node place)) :
    (s.accessEnqueue o node place).op.left (s.accessEnqueue o node place).store < place.left s o.queue + 1 := by
  have hm := s.enqueueLeft_mem o.queue
  cases place with
  | loadTail =>
    show (o.goto (.enqueue node (.loadNext (s.queue o.queue).tail))).left s < s.enqueueLeft o.queue + 1
    rw [Operation.left_goto]
    simp only [Spot.left, Spot.after, left, if_true]
    omega
  | loadNext tail =>
    show (o.goto (.enqueue node (.reloadTail tail (s.link tail).next))).left s < _
    rw [Operation.left_goto]
    simp only [Spot.left, Spot.after, left]
    by_cases e : (s.queue o.queue).tail = tail
    · rw [if_pos e, if_pos e]
      subst e
      cases hn : (s.link (s.queue o.queue).tail).next with
      | some n =>
        rw [(Store.lags_of_next hn).1]
        exact (by decide : 7 + 1 < 9 - 1 + 1)
      | none =>
        rw [(Store.not_lags_of_next hn).1]
        simp [Store.lags, hn]
    · rw [if_neg e, if_neg e]
      omega
  | reloadTail tail next =>
    simp only [Store.accessEnqueue, left]
    by_cases e : (s.queue o.queue).tail = tail
    · rw [if_pos e, if_neg (not_not_intro e)]
      cases next with
      | some n =>
        rw [Operation.left_goto]
        simp only [Spot.left, Spot.after, left, if_pos e, Option.isSome_some, if_true]
        decide
      | none =>
        rw [Operation.left_goto]
        simp only [Spot.left, Spot.after, left, Option.isSome_none, Store.lags, e]
        split <;> simp
    · rw [if_neg e, if_pos e, Operation.left_goto]
      simp only [Spot.left, Spot.after, left]
      omega
  | helpTail tail next =>
    obtain ⟨i, hi, hn⟩ := hf
    show (o.goto (.enqueue node .loadTail)).left (s.casTail o.queue tail next).2 < _
    rw [Operation.left_goto]
    simp only [Spot.left, Spot.after, left]
    by_cases e : (s.queue o.queue).tail = tail
    · rw [if_pos e, (hl.casTail_left ht hi hn e).1]
      decide
    · rw [if_neg e, casTail_of_ne e]
      exact Nat.lt_succ_self _
  | link tail =>
    simp only [Store.accessEnqueue, left]
    cases hn : (s.link tail).next with
    | some n =>
      simp only [Store.casNext, hn, Bool.false_eq_true, if_false, Operation.left_goto, Spot.left, Spot.after,
        left, Option.isSome_some, if_true]
      exact Nat.lt_succ_self _
    | none =>
      simp [Store.casNext, hn, Operation.left_goto, Spot.left, Spot.after, left]
  | swingTail tail =>
    show (o.leave .enqueued).left _ < 2
    rw [Operation.left_leave]
    decide

end EnqueueAt

namespace DequeueAt

theorem left_access (hl : Laid s o.queue L) (ht : L.Taut) {b : Nat} {place : DequeueAt}
    (hf : Spot.Fits L b (.dequeue place)) : (s.accessDequeue o place).op.left (s.accessDequeue o place).store
      < place.left s o.queue + 5 := by
  have hm := s.dequeueLeft_mem o.queue
  cases place with
  | loadHead =>
    show (o.goto (.dequeue (.loadTail (s.queue o.queue).head))).left s < s.dequeueLeft o.queue + 5
    rw [Operation.left_goto]
    simp only [Spot.left, Spot.after, left, if_true]
    omega
  | loadTail head =>
    show (o.goto (.dequeue (.loadNext head (s.queue o.queue).tail))).left s < _
    rw [Operation.left_goto]
    simp only [Spot.left, Spot.after, left, if_true]
    split <;> omega
  | loadNext head tail =>
    show (o.goto (.dequeue (.reloadHead head tail (s.link head).next))).left s < _
    rw [Operation.left_goto]
    simp only [Spot.left, Spot.after, left]
    by_cases e : (s.queue o.queue).head = head
    · rw [if_pos e, if_pos e]
      cases hn : (s.link head).next with
      | none => simp only [Option.isSome_none, Bool.false_eq_true, if_false]; split <;> omega
      | some n =>
        simp only [Option.isSome_some, if_true]
        by_cases et : (s.queue o.queue).tail = tail
        · rw [if_pos et, if_pos et]
          split
          · -- the head is the tail, and something follows it
            have hlag : (s.link (s.queue o.queue).tail).next = some n := by
              rw [et, ← ‹head = tail›, hn]
            rw [(Store.lags_of_next hlag).2]
            decide
          · omega
        · rw [if_neg et, if_neg et]
          split <;> omega
    · rw [if_neg e, if_neg e]
      omega
  | reloadHead head tail next =>
    simp only [Store.accessDequeue, left]
    by_cases e : (s.queue o.queue).head = head
    · rw [if_pos e, if_neg (not_not_intro e)]
      cases next with
      | none =>
        rw [Operation.left_leave]
        simp
      | some n =>
        simp only [Option.isSome_some, if_true]
        by_cases eh : head = tail
        · rw [if_pos eh, if_pos eh, Operation.left_goto]
          simp only [Spot.left, Spot.after, left]
          split <;> omega
        · rw [if_neg eh, if_neg eh, Operation.left_goto]
          simp only [Spot.left, Spot.after, left, if_pos e]
          decide
    · rw [if_neg e, if_pos e, Operation.left_goto]
      simp only [Spot.left, Spot.after, left]
      omega
  | helpTail tail next =>
    obtain ⟨i, hi, hn⟩ := hf
    show (o.goto (.dequeue .loadHead)).left (s.casTail o.queue tail next).2 < _
    rw [Operation.left_goto]
    simp only [Spot.left, Spot.after, left]
    by_cases e : (s.queue o.queue).tail = tail
    · rw [if_pos e, (hl.casTail_left ht hi hn e).2]
      decide
    · rw [if_neg e, casTail_of_ne e]
      exact Nat.add_lt_add_right (Nat.lt_succ_self _) 5
  | swingHead head next =>
    simp only [Store.accessDequeue, left]
    by_cases e : (s.queue o.queue).head = head
    · simp [Store.casHead, e, Operation.left]
    · simp only [Store.casHead, if_neg e, Bool.false_eq_true, if_false, Operation.left_goto, Spot.left, Spot.after,
        left]
      omega

end DequeueAt

/-- Every access brings the operation nearer to its end. -/
theorem Operation.left_access (hl : Laid s o.queue L) (ht : L.Taut) {b : Nat} {spot : Spot}
    (hp : o.point = .access spot)
    (hf : spot.Fits L b) : (s.access o spot).op.left (s.access o spot).store < o.left s := by
  have hleft : o.left s = spot.left s o.queue + spot.after := by
    unfold Operation.left
    rw [hp]
  rw [hleft]
  rcases spot with ⟨node, place⟩ | place | place
  · exact EnqueueAt.left_access hl ht hf
  · exact DequeueAt.left_access hl ht hf
  · cases place with
    | loadHead => exact (by decide : 2 < 3)
    | loadNext head => exact (by decide : 1 < 2)

end

end EpochQueue.Fifo
