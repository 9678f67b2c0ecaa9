/-
  EpochQueue.Proofs.Fifo.History — what happens to queues, told as a list of deeds.

  `Annals` are a world with its history: every operation gets an id when it begins, and every
  move that means something to a caller adds a deed. Appending and removing are the accesses that
  win the race for a last link's next and for the head; a look is a dequeue's load of what follows
  the head it has seen. The annals follow the world without interfering with it
  (`World.Reach.annals`).

  `Deed.Alters` is the abstract queue: what a deed does to the list of values. `Holds q deeds l`
  says that the deeds, one after another, make it `l`.
-/

import EpochQueue.Fifo.Moves
import EpochQueue.Proofs.Fifo.Places
import EpochQueue.Proofs.Reclaim.Calls

namespace EpochQueue.Fifo

/-- What the caller of an operation asks for. -/
inductive Request (α : Type) where
  | enqueue (v : α)
  | dequeue
  | isEmpty

inductive Deed (α : Type) where
  | made (q : Nat)
  | began (id q : Nat) (r : Request α)
  | looked (id q : Nat)
  | appended (id q : Nat) (v : α)
  | removed (id q : Nat) (v : α)
  | ended (id : Nat) (r : Outcome α)
  /-- The only owner took the front value. -/
  | popped (q : Nat) (v : α)
  | tornDown (q : Nat)

variable {α : Type}

namespace Deed

/-- The deed changes what `q` holds. -/
def concerns (q : Nat) : Deed α → Bool
  | .appended _ p _ | .removed _ p _ | .popped p _ | .tornDown p => p == q
  | .made _ | .began _ _ _ | .looked _ _ | .ended _ _ => false

/-- The operation whose deed it is. -/
def author? : Deed α → Option Nat
  | .began id _ _ | .looked id _ | .appended id _ _ | .removed id _ _ | .ended id _ => some id
  | .made _ | .popped _ _ | .tornDown _ => none

def isLook : Deed α → Bool
  | .looked _ _ => true
  | _ => false

/-- The abstract queue. -/
inductive Alters (q : Nat) : Deed α → List α → List α → Prop
  | append (id : Nat) (v : α) (l : List α) : Alters q (.appended id q v) l (l ++ [v])
  | remove (id : Nat) (v : α) (l : List α) : Alters q (.removed id q v) (v :: l) l
  | pop (v : α) (l : List α) : Alters q (.popped q v) (v :: l) l
  | tearDown (l : List α) : Alters q (.tornDown q) l []
  | rest {d : Deed α} (l : List α) (h : d.concerns q = false) : Alters q d l l

end Deed

/-- After these deeds the abstract queue holds these values. -/
inductive Holds (q : Nat) : List (Deed α) → List α → Prop
  | nil : Holds q [] []
  | snoc {ds : List (Deed α)} {d : Deed α} {l l' : List α} (h : Holds q ds l) (hd : d.Alters q l l') :
      Holds q (ds ++ [d]) l'

/-- The deeds of one operation, looks left out. -/
def deedsOf (id : Nat) (ds : List (Deed α)) : List (Deed α) := ds.filter fun d => d.author? == some id && !d.isLook

/-- The last look of the dequeue, after it began, was at an empty queue. -/
def FoundEmpty (id q : Nat) (ds : List (Deed α)) : Prop :=
  ∃ before after, ds = before ++ .looked id q :: after ∧ .began id q .dequeue ∈ before ∧
    (∀ p, .looked id p ∉ after) ∧ Holds q before []

/-- What an operation that ended with `r` did from its beginning to its end. -/
def Account (id : Nat) (ds : List (Deed α)) : Outcome α → Prop
  | .enqueued => ∃ q v, deedsOf id ds = [.began id q (.enqueue v), .appended id q v, .ended id .enqueued]
  | .dequeued (some v) => ∃ q, deedsOf id ds =
      [.began id q .dequeue, .removed id q v, .ended id (.dequeued (some v))]
  | .dequeued none => ∃ q, deedsOf id ds = [.began id q .dequeue, .ended id (.dequeued none)] ∧ FoundEmpty id q ds
  | .emptiness b => ∃ q, deedsOf id ds = [.began id q .isEmpty, .ended id (.emptiness b)]

/-! ## Annals -/

/-- What an access means to callers. -/
def Spot.deed? (s : Store α) (o : Operation α) (id : Nat) (spot : Spot) : Option (Deed α) :=
  match spot with
  | .enqueue node (.link _) =>
    if (s.access o spot).access = .cas true then (s.link node).value.map (.appended id o.queue) else none
  | .dequeue (.swingHead _ next) =>
    if (s.access o spot).access = .cas true then (s.link next).value.map (.removed id o.queue) else none
  | .dequeue (.loadNext _ _) => some (.looked id o.queue)
  | _ => none

def Operation.deed? (s : Store α) (o : Operation α) (id : Nat) : Option (Deed α) :=
  match o.point with
  | .access spot => spot.deed? s o id
  | .take _ _ => none
  | .leave r => some (.ended id r)

/-- What the move of `t` will mean to callers, where `fresh` is the id of an operation that it
    begins, and `mine` that of the operation that `t` works on. -/
def World.deed? (w : World α) (t fresh mine : Nat) : Move α → Option (Deed α)
  | .newQueue _ => some (.made w.store.nextQueue)
  | .tryEnqueue q v true => some (.began fresh q (.enqueue v))
  | .dequeue q => some (.began fresh q .dequeue)
  | .isEmpty q => some (.began fresh q .isEmpty)
  | .pop q => (w.store.pop q).1.map (.popped q)
  | .tearDown q => some (.tornDown q)
  | .step => (w.operation t).bind (·.deed? w.store mine)
  | _ => none

structure Annals (α : Type) where
  world : World α := {}
  /-- The ids of the operations under way on each thread, the innermost first. -/
  ids : Nat → List Nat := fun _ => []
  nextId : Nat := 0
  deeds : List (Deed α) := []

namespace Annals

def deed? (a : Annals α) (t : Nat) (m : Move α) : Option (Deed α) :=
  a.world.deed? t a.nextId ((a.ids t).headD 0) m

/-- The ids of `t` after a deed of one of its operations. -/
def refile (a : Annals α) (t : Nat) : Option (Deed α) → List Nat
  | some (.began id _ _) => id :: a.ids t
  | some (.ended _ _) => (a.ids t).tail
  | _ => a.ids t

def move (a : Annals α) (t : Nat) (m : Move α) : Annals α where
  world := a.world.move t m
  ids u := if u = t then a.refile t (a.deed? t m) else a.ids u
  nextId := match a.deed? t m with
    | some (.began _ _ _) => a.nextId + 1
    | _ => a.nextId
  deeds := a.deeds ++ (a.deed? t m).toList

inductive Reach : Annals α → Prop
  | start : Reach {}
  | move {a : Annals α} (t : Nat) (m : Move α) : Reach a → a.world.may t m → Reach (a.move t m)

end Annals

/-- Every run of the world is written down in some annals. -/
theorem World.Reach.annals {w : World α} (h : w.Reach) : ∃ a : Annals α, a.Reach ∧ a.world = w := by
  induction h with
  | start => exact ⟨{}, .start, rfl⟩
  | move t m _ hm ih =>
    obtain ⟨a, ha, rfl⟩ := ih
    exact ⟨a.move t m, .move t m ha hm, rfl⟩

end EpochQueue.Fifo
