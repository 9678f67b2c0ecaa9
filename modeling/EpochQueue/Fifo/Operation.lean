/-
  EpochQueue.Fifo.Operation — enqueue, dequeue and is-empty, one shared access at a time.

  An operation in progress is a value: the queue it works on, the guard it is pinned by, its
  backoff, and the point it has reached, with the pointers it has read so far. `Store.access`
  makes the one access that stands next at a point and says where that leads.

  Enqueue reads the tail, what follows it, and the tail again; if the tail moved it starts
  over, if something follows the tail it swings the tail there and starts over, and else it
  tries to link its own link, the one access at which the value enters the queue. Dequeue reads
  the head, the tail, what follows the head, and the head again; it starts over if the head
  moved, ends if nothing follows, swings the tail first if head and tail are one, and else
  tries to swing the head, the one access at which the value leaves the queue. Whoever loses
  one of these two races backs off and starts over.
-/

import EpochQueue.Fifo.Store
import EpochQueue.Reclaim.Domain

namespace EpochQueue.Fifo

inductive EnqueueAt where
  | loadTail
  | loadNext (tail : Nat)
  | reloadTail (tail : Nat) (next : Option Nat)
  | helpTail (tail next : Nat)
  | link (tail : Nat)
  | swingTail (tail : Nat)
  deriving Repr, DecidableEq

inductive DequeueAt where
  | loadHead
  | loadTail (head : Nat)
  | loadNext (head tail : Nat)
  | reloadHead (head tail : Nat) (next : Option Nat)
  | helpTail (tail next : Nat)
  | swingHead (head next : Nat)
  deriving Repr, DecidableEq

inductive EmptyAt where
  | loadHead
  | loadNext (head : Nat)
  deriving Repr, DecidableEq

/-- Where an operation stands before a shared access. An enqueue has the link that it brings
    with it. -/
inductive Spot where
  | enqueue (node : Nat) (place : EnqueueAt)
  | dequeue (place : DequeueAt)
  | isEmpty (place : EmptyAt)
  deriving Repr, DecidableEq

/-- What an operation comes to. -/
inductive Outcome (α : Type) where
  | enqueued
  | dequeued (value : Option α)
  | emptiness (isEmpty : Bool)
  deriving Repr

inductive Point (α : Type) where
  | access (spot : Spot)
  /-- The head is swung: take the value out of the new sentinel and retire the old one. -/
  | take (head next : Nat)
  /-- Drop the guard and return. -/
  | leave (outcome : Outcome α)
  deriving Repr

structure Operation (α : Type) where
  queue : Nat
  /-- None until the pin that every operation begins with has returned. -/
  guard : Option Reclaim.Guard := none
  backoff : Backoff
  point : Point α
  deriving Repr

inductive AccessKind where
  | load
  | cas
  deriving Repr, DecidableEq

/-- An access that was made, and what came of it. -/
inductive Access where
  | load (null : Bool)
  | cas (ok : Bool)
  deriving Repr, DecidableEq

def Spot.kind : Spot → AccessKind
  | .enqueue _ (.helpTail _ _) | .enqueue _ (.link _) | .enqueue _ (.swingTail _) => .cas
  | .dequeue (.helpTail _ _) | .dequeue (.swingHead _ _) => .cas
  | _ => .load

/-- The shared access that comes next at a point, if it is one. -/
def Point.next? {α : Type} : Point α → Option AccessKind
  | .access spot => some spot.kind
  | .take _ _ | .leave _ => none

/-- The links whose fields an operation reads or writes in its next step. -/
def Point.touches {α : Type} : Point α → List Nat
  | .access (.enqueue _ (.loadNext tail)) | .access (.enqueue _ (.link tail)) => [tail]
  | .access (.dequeue (.loadNext head _)) => [head]
  | .access (.isEmpty (.loadNext head)) => [head]
  | .take _ next => [next]
  | _ => []

/-- An access together with its consequences. -/
structure Accessed (α : Type) where
  access : Access
  /-- The wait after a lost race. -/
  pause : Option Pause := none
  op : Operation α
  store : Store α

namespace Operation

variable {α : Type}

def goto (o : Operation α) (spot : Spot) : Operation α := { o with point := .access spot }

def leave (o : Operation α) (r : Outcome α) : Operation α := { o with point := .leave r }

/-- The operation has its guard now. -/
def resume (o : Operation α) : Reclaim.Answer → Operation α
  | .guard g => { o with guard := some g }
  | _ => o

end Operation

namespace Store

variable {α : Type}

def accessEnqueue (s : Store α) (o : Operation α) (node : Nat) : EnqueueAt → Accessed α
  | .loadTail =>
    { access := .load false, op := o.goto (.enqueue node (.loadNext (s.queue o.queue).tail)),
      store := s }
  | .loadNext tail =>
    let next := (s.link tail).next
    { access := .load next.isNone, op := o.goto (.enqueue node (.reloadTail tail next)), store := s }
  | .reloadTail tail next =>
    let place :=
      if (s.queue o.queue).tail ≠ tail then .loadTail
      else match next with
        | some next => .helpTail tail next
        | none => .link tail
    { access := .load false, op := o.goto (.enqueue node place), store := s }
  | .helpTail tail next =>
    let (ok, s) := s.casTail o.queue tail next
    { access := .cas ok, op := o.goto (.enqueue node .loadTail), store := s }
  | .link tail =>
    let (ok, s) := s.casNext tail node
    if ok then
      { access := .cas true, op := o.goto (.enqueue node (.swingTail tail)), store := s }
    else
      let (pause, backoff) := o.backoff.wait
      { access := .cas false, pause, op := { o with backoff }.goto (.enqueue node .loadTail),
        store := s }
  | .swingTail tail =>
    let (ok, s) := s.casTail o.queue tail node
    { access := .cas ok, op := o.leave .enqueued, store := s }

def accessDequeue (s : Store α) (o : Operation α) : DequeueAt → Accessed α
  | .loadHead =>
    { access := .load false, op := o.goto (.dequeue (.loadTail (s.queue o.queue).head)), store := s }
  | .loadTail head =>
    { access := .load false, op := o.goto (.dequeue (.loadNext head (s.queue o.queue).tail)),
      store := s }
  | .loadNext head tail =>
    let next := (s.link head).next
    { access := .load next.isNone, op := o.goto (.dequeue (.reloadHead head tail next)), store := s }
  | .reloadHead head tail next =>
    let op :=
      if (s.queue o.queue).head ≠ head then o.goto (.dequeue .loadHead)
      else match next with
        | none => o.leave (.dequeued none)
        | some next =>
          if head = tail then o.goto (.dequeue (.helpTail tail next))
          else o.goto (.dequeue (.swingHead head next))
    { access := .load false, op, store := s }
  | .helpTail tail next =>
    let (ok, s) := s.casTail o.queue tail next
    { access := .cas ok, op := o.goto (.dequeue .loadHead), store := s }
  | .swingHead head next =>
    let (ok, s) := s.casHead o.queue head next
    if ok then { access := .cas true, op := { o with point := .take head next }, store := s }
    else
      let (pause, backoff) := o.backoff.wait
      { access := .cas false, pause, op := { o with backoff }.goto (.dequeue .loadHead), store := s }

def accessEmpty (s : Store α) (o : Operation α) : EmptyAt → Accessed α
  | .loadHead =>
    { access := .load false, op := o.goto (.isEmpty (.loadNext (s.queue o.queue).head)), store := s }
  | .loadNext head =>
    let next := (s.link head).next
    { access := .load next.isNone, op := o.leave (.emptiness next.isNone), store := s }

/-- The shared access that the operation makes at `spot`. -/
def access (s : Store α) (o : Operation α) : Spot → Accessed α
  | .enqueue node place => s.accessEnqueue o node place
  | .dequeue place => s.accessDequeue o place
  | .isEmpty place => s.accessEmpty o place

end Store

end EpochQueue.Fifo
