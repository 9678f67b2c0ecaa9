/-
  EpochQueue.Proofs.Fifo.Rounds — how often an operation still starts over.

  Enqueue and dequeue begin a round of their loop with the load of tail or head. `Spot.rounds`
  bounds how many rounds an operation still begins if nobody else wins a race on its queue: what it
  has read may be out of date, and that costs it one round at most; a tail that lags behind costs
  one more, since then it is moved along and stays the last link.

  Others can do little about that. While the list of links and the head stay as they are, all that
  can happen to a queue is that a tail that lags catches up (`Store.Eases`), and that begins no round
  for anybody (`Spot.rounds_eases`). An access of the operation itself leads to fewer rounds by the
  one that it begins (`Operation.rounds_access`).
-/

import EpochQueue.Proofs.Fifo.Loads

namespace EpochQueue.Fifo

variable {α : Type}

namespace Store

/-- One if the tail has to be moved along first. -/
def lag (s : Store α) (q : Nat) : Nat := if s.lags q then 1 else 0

/-- The same for a dequeue, which needs the tail out of its way only if it stands where the head does. -/
def knot (s : Store α) (q : Nat) : Nat := if (s.queue q).head = (s.queue q).tail then s.lag q else 0

theorem lag_le (s : Store α) (q : Nat) : s.lag q ≤ 1 := by
  unfold lag
  split <;> decide

theorem knot_le (s : Store α) (q : Nat) : s.knot q ≤ s.lag q := by
  unfold knot
  split
  · exact Nat.le_refl _
  · exact Nat.zero_le _

variable {s : Store α} {q n : Nat}

theorem lag_of_next (h : (s.link (s.queue q).tail).next = some n) : s.lag q = 1 := by simp [lag, lags, h]

theorem lag_of_next_none (h : (s.link (s.queue q).tail).next = none) : s.lag q = 0 := by simp [lag, lags, h]

theorem knot_of_ne (h : (s.queue q).head ≠ (s.queue q).tail) : s.knot q = 0 := if_neg h

end Store

namespace EnqueueAt

/-- The rounds that an enqueue begins from here on. -/
def rounds (s : Store α) (q : Nat) : EnqueueAt → Nat
  | .loadTail => 1 + s.lag q
  | .loadNext tail => if (s.queue q).tail = tail then s.lag q else 1 + s.lag q
  | .reloadTail tail next =>
    if (s.queue q).tail = tail then if next.isSome then 1 else 2 * s.lag q else 1 + s.lag q
  | .helpTail tail _ => if (s.queue q).tail = tail then 1 else 1 + s.lag q
  | .link tail => if (s.link tail).next.isSome then 1 + s.lag q else 0
  | .swingTail _ => 0

end EnqueueAt

namespace DequeueAt

/-- Those that a dequeue begins. -/
def rounds (s : Store α) (q : Nat) : DequeueAt → Nat
  | .loadHead => 1 + s.knot q
  | .loadTail head => if (s.queue q).head = head then s.knot q else 1 + s.knot q
  | .loadNext head tail =>
    if (s.queue q).head = head then
      if head = tail then if (s.queue q).tail = tail then s.lag q else 1 else 0
    else 1 + s.knot q
  | .reloadHead head tail next =>
    if (s.queue q).head = head then if next.isSome && head == tail then 1 else 0 else 1 + s.knot q
  | .helpTail tail _ => if (s.queue q).tail = tail then 1 else 1 + s.knot q
  | .swingHead head _ => if (s.queue q).head = head then 0 else 1 + s.knot q

end DequeueAt

namespace Spot

def rounds (s : Store α) (q : Nat) : Spot → Nat
  | .enqueue _ place => place.rounds s q
  | .dequeue place => place.rounds s q
  | .isEmpty .loadHead => 1
  | .isEmpty (.loadNext _) => 0

theorem rounds_le (s : Store α) (q : Nat) (spot : Spot) : spot.rounds s q ≤ 2 := by
  have hlag := s.lag_le q
  have hknot := s.knot_le q
  rcases spot with ⟨_, place⟩ | place | place <;> cases place <;>
    simp only [rounds, EnqueueAt.rounds, DequeueAt.rounds] <;> (repeat' split) <;> omega

end Spot

/-- The rounds that an operation begins from here on, if nobody else wins a race on its queue. -/
def Operation.rounds (s : Store α) (o : Operation α) : Nat :=
  match o.point with
  | .access spot => spot.rounds s o.queue
  | .take _ _ | .leave _ => 0

theorem Operation.rounds_le (s : Store α) (o : Operation α) : o.rounds s ≤ 2 := by
  unfold Operation.rounds
  split
  · exact Spot.rounds_le _ _ _
  · exact Nat.zero_le _
  · exact Nat.zero_le _

theorem Operation.rounds_of_access {o : Operation α} {spot : Spot} (h : o.point = .access spot) (s : Store α) :
    o.rounds s = spot.rounds s o.queue := by
  unfold Operation.rounds
  rw [h]

theorem Operation.rounds_of_leave {o : Operation α} {r : Outcome α} (h : o.point = .leave r) (s : Store α) :
    o.rounds s = 0 := by
  unfold Operation.rounds
  rw [h]

/-! ## What others do -/

/-- Links and head stay; a tail that lags may catch up. -/
structure Store.Eases (s s' : Store α) (q : Nat) (L : Layout) : Prop where
  head : (s'.queue q).head = (s.queue q).head
  tail : (s'.queue q).tail = (s.queue q).tail ∧ s'.lag q = s.lag q ∨ s.lag q = 1 ∧ s'.lag q = 0
  next : ∀ n ∈ L.nodes, (s'.link n).next = (s.link n).next

theorem Laid.eases {s s' : Store α} {q : Nat} {L L' : Layout} (hl : Laid s q L) (hl' : Laid s' q L')
    (hg : L.Grows L') (ht : L.Taut) (hnodes : L'.nodes = L.nodes) (hhead : L'.head = L.head) :
    s.Eases s' q L := by
  have hnext : ∀ n ∈ L.nodes, (s'.link n).next = (s.link n).next := fun n hn => by
    obtain ⟨i, hi⟩ := Laid.exists_place hn
    rw [hl.next i n hi, hl'.next i n (hnodes ▸ hi), hnodes]
  have hh := hl'.head
  rw [hhead, hnodes, hl.head] at hh
  refine ⟨(Option.some.inj hh).symm, ?_, hnext⟩
  by_cases e : L'.tail = L.tail
  · have htail := hl'.tail
    rw [e, hnodes, hl.tail] at htail
    have htail : (s'.queue q).tail = (s.queue q).tail := (Option.some.inj htail).symm
    refine Or.inl ⟨htail, ?_⟩
    unfold Store.lag Store.lags
    rw [htail, hnext _ (Laid.mem hl.tail)]
  · -- the tail moved, so it was one link behind and has reached the last one
    have hmoved := hg.tail
    have hlt := L'.lt_of_getElem? hl'.tail
    unfold Layout.Taut at ht
    rw [hnodes] at hlt
    have hlast : (s'.link (s'.queue q).tail).next = none := by
      rw [hl'.next _ _ hl'.tail, hnodes, List.getElem?_eq_none_iff]
      omega
    have hbehind : (s.link (s.queue q).tail).next = some L.nodes[L.tail + 1] := by
      rw [hl.next _ _ hl.tail, List.getElem?_eq_getElem (by omega)]
    exact Or.inr ⟨Store.lag_of_next hbehind, Store.lag_of_next_none hlast⟩

theorem Store.Eases.knot {s s' : Store α} {q : Nat} {L : Layout} (h : s.Eases s' q L) :
    (s'.queue q).tail = (s.queue q).tail ∧ s'.knot q = s.knot q ∨ s'.knot q = 0 := by
  rcases h.tail with ⟨htail, hlag⟩ | ⟨-, hlag⟩
  · exact Or.inl ⟨htail, by unfold Store.knot; rw [h.head, htail, hlag]⟩
  · exact Or.inr (Nat.le_zero.mp (hlag ▸ s'.knot_le q))

/-- Nobody has to begin more rounds for that. -/
theorem Spot.rounds_eases {s s' : Store α} {q b : Nat} {L : Layout} {spot : Spot} (h : s.Eases s' q L)
    (hf : spot.Fits L b) : spot.rounds s' q ≤ spot.rounds s q := by
  have hlag := s.lag_le q
  have htail := h.tail
  have hknot := h.knot
  rcases spot with ⟨node, place⟩ | place | place
  · cases place with
    | link tail =>
      obtain ⟨i, -, hi⟩ := hf
      simp only [rounds, EnqueueAt.rounds, h.next tail (Laid.mem hi)]
      split <;> omega
    | swingTail tail => exact Nat.le_refl _
    | loadTail => simp only [rounds, EnqueueAt.rounds]; omega
    | _ =>
      simp only [rounds, EnqueueAt.rounds]
      rcases htail with ⟨htail, hsame⟩ | ⟨hold, hnew⟩
      · rw [htail, hsame]
      · (repeat' split) <;> omega
  · cases place with
    | loadHead => simp only [rounds, DequeueAt.rounds]; omega
    | loadTail head => simp only [rounds, DequeueAt.rounds, h.head]; split <;> omega
    | loadNext head tail =>
      simp only [rounds, DequeueAt.rounds, h.head]
      rcases htail with ⟨htail, hsame⟩ | ⟨hold, hnew⟩
      · rw [htail, hsame]
        (repeat' split) <;> omega
      · (repeat' split) <;> omega
    | reloadHead head tail next => simp only [rounds, DequeueAt.rounds, h.head]; (repeat' split) <;> omega
    | helpTail tail next =>
      simp only [rounds, DequeueAt.rounds]
      rcases hknot with ⟨htail, hsame⟩ | hnone
      · rw [htail, hsame]
      · (repeat' split) <;> omega
    | swingHead head next => simp only [rounds, DequeueAt.rounds, h.head]; split <;> omega
  · cases place <;> exact Nat.le_refl _

/-! ## What the operation does itself -/

/-- One at the start of a round. -/
def Operation.begins (o : Operation α) : Nat := if o.point.isStart then 1 else 0

section

variable {s : Store α} {o : Operation α} {L : Layout}

theorem Operation.rounds_goto (s : Store α) (o : Operation α) (spot : Spot) :
    (o.goto spot).rounds s = spot.rounds s o.queue := rfl

/-- Once the tail is moved along it lags no more. -/
theorem Laid.lag_casTail (hl : Laid s o.queue L) (ht : L.Taut) {i tail next : Nat} (hi : L.nodes[i]? = some tail)
    (hn : L.nodes[i + 1]? = some next) (he : (s.queue o.queue).tail = tail) :
    (s.casTail o.queue tail next).2.lag o.queue = 0 := by
  have hleft := (hl.casTail_left ht hi hn he).1
  unfold Store.enqueueLeft at hleft
  unfold Store.lag
  split
  · rename_i h
    rw [if_pos h] at hleft
    cases hleft
  · rfl

namespace EnqueueAt

theorem rounds_access (hl : Laid s o.queue L) (ht : L.Taut) {b node : Nat} {place : EnqueueAt}
    (hf : Spot.Fits L b (.enqueue node place)) :
    (if place = .loadTail then 1 else 0) +
      (s.accessEnqueue o node place).op.rounds (s.accessEnqueue o node place).store ≤ place.rounds s o.queue := by
  cases place with
  | loadTail =>
    show 1 + (o.goto (.enqueue node (.loadNext (s.queue o.queue).tail))).rounds s ≤ 1 + s.lag o.queue
    rw [Operation.rounds_goto]
    simp only [Spot.rounds, rounds, if_true, Nat.le_refl]
  | loadNext tail =>
    show 0 + (o.goto (.enqueue node (.reloadTail tail (s.link tail).next))).rounds s ≤ _
    rw [Operation.rounds_goto]
    simp only [Spot.rounds, rounds, Nat.zero_add]
    by_cases e : (s.queue o.queue).tail = tail
    · rw [if_pos e, if_pos e]
      subst e
      cases hn : (s.link (s.queue o.queue).tail).next with
      | some n => rw [Store.lag_of_next hn]; exact Nat.le_refl 1
      | none => rw [Store.lag_of_next_none hn]; exact Nat.le_refl 0
    · rw [if_neg e, if_neg e]
  | reloadTail tail next =>
    simp only [Store.accessEnqueue, rounds]
    by_cases e : (s.queue o.queue).tail = tail
    · rw [if_pos e, if_neg (not_not_intro e)]
      cases next with
      | some n => rw [Operation.rounds_goto]; simp [Spot.rounds, rounds, e]
      | none =>
        rw [Operation.rounds_goto]
        subst e
        cases hn : (s.link (s.queue o.queue).tail).next with
        | some n => simp [Spot.rounds, rounds, hn, Store.lag_of_next hn]
        | none => simp [Spot.rounds, rounds, hn]
    · rw [if_neg e, if_pos e, Operation.rounds_goto]
      simp [Spot.rounds, rounds]
  | helpTail tail next =>
    obtain ⟨i, hi, hn⟩ := hf
    show 0 + (o.goto (.enqueue node .loadTail)).rounds (s.casTail o.queue tail next).2 ≤ _
    rw [Operation.rounds_goto]
    simp only [Spot.rounds, rounds]
    by_cases e : (s.queue o.queue).tail = tail
    · rw [if_pos e, hl.lag_casTail ht hi hn e]
    · rw [if_neg e, casTail_of_ne e, Nat.zero_add]
  | link tail =>
    simp only [Store.accessEnqueue, rounds]
    cases hn : (s.link tail).next with
    | some n => simp [Store.casNext, hn, Operation.rounds_goto, Spot.rounds, rounds]
    | none => simp [Store.casNext, hn, Operation.rounds_goto, Spot.rounds, rounds]
  | swingTail tail => exact Nat.le_refl 0

end EnqueueAt

namespace DequeueAt

theorem rounds_access (hl : Laid s o.queue L) (ht : L.Taut) {b : Nat} {place : DequeueAt}
    (hf : Spot.Fits L b (.dequeue place)) :
    (if place = .loadHead then 1 else 0) +
      (s.accessDequeue o place).op.rounds (s.accessDequeue o place).store ≤ place.rounds s o.queue := by
  cases place with
  | loadHead =>
    show 1 + (o.goto (.dequeue (.loadTail (s.queue o.queue).head))).rounds s ≤ 1 + s.knot o.queue
    rw [Operation.rounds_goto]
    simp only [Spot.rounds, rounds, if_true, Nat.le_refl]
  | loadTail head =>
    show 0 + (o.goto (.dequeue (.loadNext head (s.queue o.queue).tail))).rounds s ≤ _
    rw [Operation.rounds_goto]
    simp only [Spot.rounds, rounds, Nat.zero_add]
    by_cases e : (s.queue o.queue).head = head
    · rw [if_pos e, if_pos e]
      subst e
      simp only [Store.knot, if_true, Nat.le_refl]
    · rw [if_neg e, if_neg e]
  | loadNext head tail =>
    show 0 + (o.goto (.dequeue (.reloadHead head tail (s.link head).next))).rounds s ≤ _
    rw [Operation.rounds_goto]
    simp only [Spot.rounds, rounds, Nat.zero_add]
    by_cases e : (s.queue o.queue).head = head
    · rw [if_pos e, if_pos e]
      by_cases et : head = tail
      · rw [if_pos et]
        subst et
        cases hn : (s.link head).next with
        | none => exact Nat.zero_le _
        | some n =>
          by_cases eh : (s.queue o.queue).tail = head
          · rw [if_pos eh, Store.lag_of_next (eh ▸ hn)]; simp
          · rw [if_neg eh]; simp
      · simp [et]
    · rw [if_neg e, if_neg e]
  | reloadHead head tail next =>
    simp only [Store.accessDequeue, rounds]
    by_cases e : (s.queue o.queue).head = head
    · rw [if_pos e, if_neg (not_not_intro e)]
      cases next with
      | none => exact Nat.zero_le _
      | some n =>
        by_cases et : head = tail
        · simp only [if_pos et, Operation.rounds_goto, Spot.rounds, rounds]
          by_cases eh : (s.queue o.queue).tail = tail
          · simp [eh, et]
          · -- the tail has moved on from the head, so it is in nobody's way
            have hne : (s.queue o.queue).head ≠ (s.queue o.queue).tail := fun h => eh (h.symm.trans (e.trans et))
            simp [eh, et, Store.knot_of_ne hne]
        · simp [et, Operation.rounds_goto, Spot.rounds, rounds, e]
    · rw [if_neg e, if_pos e, Operation.rounds_goto]
      simp [Spot.rounds, rounds]
  | helpTail tail next =>
    obtain ⟨i, hi, hn⟩ := hf
    show 0 + (o.goto (.dequeue .loadHead)).rounds (s.casTail o.queue tail next).2 ≤ _
    rw [Operation.rounds_goto]
    simp only [Spot.rounds, rounds]
    by_cases e : (s.queue o.queue).tail = tail
    · have hlag := hl.lag_casTail ht hi hn e
      have hknot := (s.casTail o.queue tail next).2.knot_le o.queue
      rw [if_pos e]
      omega
    · rw [if_neg e, casTail_of_ne e, Nat.zero_add]
  | swingHead head next =>
    simp only [Store.accessDequeue, rounds]
    by_cases e : (s.queue o.queue).head = head
    · simp [Store.casHead, e, Operation.rounds]
    · simp [Store.casHead, e, Operation.rounds_goto, Spot.rounds, rounds]

end DequeueAt

/-- An access leads to fewer rounds by the one that it begins. -/
theorem Operation.rounds_access (hl : Laid s o.queue L) (ht : L.Taut) {b : Nat} {spot : Spot}
    (hp : o.point = .access spot) (hf : spot.Fits L b) :
    o.begins + (s.access o spot).op.rounds (s.access o spot).store ≤ o.rounds s := by
  rw [Operation.rounds_of_access hp]
  unfold Operation.begins
  rw [hp]
  rcases spot with ⟨node, place⟩ | place | place
  · refine Nat.le_trans (Nat.add_le_add_right ?_ _) (EnqueueAt.rounds_access hl ht hf)
    cases place <;> exact Nat.le_refl _
  · refine Nat.le_trans (Nat.add_le_add_right ?_ _) (DequeueAt.rounds_access hl ht hf)
    cases place <;> exact Nat.le_refl _
  · cases place <;> exact Nat.le_refl _

end

end EpochQueue.Fifo
