/-
  EpochQueue.Fifo.World — queues on top of the reclamation domain, moved in single steps.

  A thread is doing one of two things: it works on an operation (`active`), or it has a call
  open in the domain. An operation pins before its first access and, when it removed a value,
  retires the old sentinel before it returns; while such a call runs, the operation is that
  call's ticket, and it becomes active again when the call returns. A call opened for its own
  sake has no operation as ticket, and its answer goes to the opener. So operations, calls and
  the destructors that run inside calls nest on one thread in any order.

  Garbage is either a link of a queue, which is freed without further ado, or an object of the
  user, whose destructor is for the user to run when `step` says that it was freed.
-/

import EpochQueue.Fifo.Exclusive
import EpochQueue.Fifo.Operation

namespace EpochQueue.Fifo

inductive Garbage where
  | link (n : Nat)
  | object (id : Nat)
  deriving Repr, DecidableEq

/-- What one step of a thread amounts to. -/
inductive Signal (α : Type) where
  /-- The thread has nothing under way. -/
  | idle
  | quiet
  /-- An operation made a shared access, and waited if it lost a race by it. -/
  | accessed (a : Access) (pause : Option Pause)
  /-- The destructor of this object runs now. -/
  | freed (object : Nat)
  /-- A call opened for its own sake returned. -/
  | answered (a : Reclaim.Answer)
  | finished (r : Outcome α)

structure World (α : Type) where
  domain : Reclaim.Domain Garbage (Option (Operation α)) := {}
  store : Store α := {}
  /-- The operation that each thread is working on. -/
  active : Table (Option (Operation α)) := {}

namespace World

variable {α : Type}

def operation (w : World α) (t : Nat) : Option (Operation α) := w.active.get t

def setActive (w : World α) (t : Nat) (o : Option (Operation α)) : World α :=
  { w with active := w.active.set t o }

/-- Nothing is under way on `t`, or a destructor is running: then it may begin something. -/
def mayBegin (w : World α) (t : Nat) : Bool := (w.operation t).isNone && w.domain.mayCall t

/-! ## Reclamation -/

def pin (w : World α) (t : Nat) : World α := { w with domain := w.domain.pin t none }

def unpin (w : World α) (t : Nat) (g : Reclaim.Guard) : World α :=
  { w with domain := w.domain.unpin t g }

def retire (w : World α) (t object : Nat) : World α :=
  { w with domain := w.domain.retire t (.object object) none }

def flush (w : World α) (t : Nat) : World α := { w with domain := w.domain.flush t none }

def pending (w : World α) (t : Nat) : Nat × World α :=
  let (n, domain) := w.domain.pending t
  (n, { w with domain })

def exit (w : World α) (t : Nat) : World α := { w with domain := w.domain.exit t }

/-- Leaves the innermost call of `t` where it stands, without an answer. What it was about to
    destroy is destroyed no more, and a pin that is left so keeps its slot pinned. Gives back
    the operation that waited for the call. -/
def abandon (w : World α) (t : Nat) : Option (Operation α) × World α :=
  match (w.domain.thread t).calls with
  | [] => (none, w)
  | c :: _ => (c.ticket, { w with domain := w.domain.closeCall t })

/-! ## Queues -/

def newQueue (w : World α) (limits : Limits) : Nat × World α :=
  let (q, store) := w.store.newQueue limits
  (q, { w with store })

/-- Every operation begins by asking for a guard. -/
def beginAt (w : World α) (t q : Nat) (spot : Spot) : World α :=
  let o : Operation α :=
    { queue := q, backoff := { limits := (w.store.queue q).limits }, point := .access spot }
  { w with domain := w.domain.pin t (some o) }

/-- The link is allocated before the pin. -/
def enqueue (w : World α) (t q : Nat) (v : α) : World α :=
  let (n, store) := w.store.alloc q (some v)
  { w with store }.beginAt t q (.enqueue n .loadTail)

/-- Enqueues if there is memory for a link. If there is none the value comes back, and nothing
    else has happened. -/
def tryEnqueue (w : World α) (t q : Nat) (v : α) (memory : Bool) : Option α × World α :=
  if memory then (none, w.enqueue t q v) else (some v, w)

def dequeue (w : World α) (t q : Nat) : World α := w.beginAt t q (.dequeue .loadHead)

def isEmpty (w : World α) (t q : Nat) : World α := w.beginAt t q (.isEmpty .loadHead)

def pop (w : World α) (q : Nat) : Option α × World α :=
  let (v, store) := w.store.pop q
  (v, { w with store })

def drain (w : World α) (q : Nat) : List α × World α :=
  let (vs, store) := w.store.drain q
  (vs, { w with store })

def tearDown (w : World α) (q : Nat) : List α × World α :=
  let (vs, store) := w.store.tearDown q
  (vs, { w with store })

/-! ## Steps -/

/-- One step of the operation that `t` works on. -/
def stepOperation (w : World α) (t : Nat) (o : Operation α) : World α × Signal α :=
  match o.point with
  | .access spot =>
    let r := w.store.access o spot
    ({ w with store := r.store, active := w.active.set t (some r.op) },
      .accessed r.access r.pause)
  | .take head next =>
    let (v, store) := w.store.takeValue next
    let ticket := some (o.leave (.dequeued v))
    ({ w with
        store
        active := w.active.set t none
        domain := w.domain.retire t (.link head) ticket }, .quiet)
  | .leave r =>
    let w := w.setActive t none
    (match o.guard with
      | some g => w.unpin t g
      | none => w, .finished r)

/-- One step of the innermost call that `t` has open. -/
def stepCall (w : World α) (t : Nat) : World α × Signal α :=
  let (domain, signal) := w.domain.step t
  let w := { w with domain }
  match signal with
  | .idle => (w, .idle)
  | .quiet => (w, .quiet)
  | .freed (.link n) => ({ w with store := w.store.free n }, .quiet)
  | .freed (.object i) => (w, .freed i)
  | .returned (some o) a => (w.setActive t (some (o.resume a)), .quiet)
  | .returned none a => (w, .answered a)

def step (w : World α) (t : Nat) : World α × Signal α :=
  match w.operation t with
  | some o => w.stepOperation t o
  | none => w.stepCall t

/-- The kind of the shared access that `t` is about to make, if it is at one. -/
def nextAccess? (w : World α) (t : Nat) : Option AccessKind :=
  (w.operation t).bind (·.point.next?)

end World

end EpochQueue.Fifo
