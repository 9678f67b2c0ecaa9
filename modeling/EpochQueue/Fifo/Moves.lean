/-
  EpochQueue.Fifo.Moves — everything that threads can do to queues and to the domain under
  them, in any order.

  A move is one thread's, as in the domain. `may` says what the callers promise: a thread
  begins nothing in the middle of an operation or call, except in a destructor; it drops only
  guards of its own, not those that its operations hold; it retires an object once; it exits
  only when it has nothing under way; it uses no queue that was torn down; and it takes from a
  queue as its only owner when no operation on it is under way.

  `Reach` allows the moves of different threads to alternate at will, access by access. In
  `ReachAlone` the calls into the domain happen one at a time, while the accesses of operations
  still alternate with them and with each other.
-/

import EpochQueue.Fifo.World
import EpochQueue.Reclaim.Moves

namespace EpochQueue.Fifo

inductive Move (α : Type) where
  | pin
  | unpin (g : Reclaim.Guard)
  | retire (object : Nat)
  | flush
  | pending
  | exit
  | newQueue (limits : Limits)
  | tryEnqueue (q : Nat) (v : α) (memory : Bool)
  | dequeue (q : Nat)
  | isEmpty (q : Nat)
  | pop (q : Nat)
  | tearDown (q : Nat)
  | step

namespace World

variable {α : Type}

/-- The operations of `t` that are under way, the innermost first: the one it works on, and
    those that wait for a call. -/
def operations (w : World α) (t : Nat) : List (Operation α) :=
  (w.operation t).toList ++ (w.domain.thread t).calls.filterMap (·.ticket)

/-- Nothing at all is under way on `t`. -/
def rests (w : World α) (t : Nat) : Prop :=
  w.operation t = none ∧ (w.domain.thread t).calls = []

/-- No operation on `q` is under way on any thread. -/
def isQuiet (w : World α) (q : Nat) : Prop := ∀ t, ∀ o ∈ w.operations t, o.queue ≠ q

def may (w : World α) (t : Nat) : Move α → Prop
  | .pin | .flush | .pending | .newQueue _ => w.mayBegin t
  | .unpin g =>
    w.mayBegin t ∧ g ∈ (w.domain.thread t).guards ∧ ∀ o ∈ w.operations t, o.guard ≠ some g
  | .retire i => w.mayBegin t ∧ ¬ w.domain.wasRetired (.object i)
  | .exit => w.rests t
  | .tryEnqueue q _ _ | .dequeue q | .isEmpty q => w.mayBegin t ∧ w.store.isOpen q
  | .pop q | .tearDown q => w.mayBegin t ∧ w.store.isOpen q ∧ w.isQuiet q
  | .step => ¬ w.rests t

def move (w : World α) (t : Nat) : Move α → World α
  | .pin => w.pin t
  | .unpin g => w.unpin t g
  | .retire i => w.retire t i
  | .flush => w.flush t
  | .pending => (w.pending t).2
  | .exit => w.exit t
  | .newQueue limits => (w.newQueue limits).2
  | .tryEnqueue q v memory => (w.tryEnqueue t q v memory).2
  | .dequeue q => w.dequeue t q
  | .isEmpty q => w.isEmpty t q
  | .pop q => (w.pop q).2
  | .tearDown q => (w.tearDown q).2
  | .step => (w.step t).1

/-- What threads can bring an empty world to, step by step in any order. -/
inductive Reach : World α → Prop
  | start : Reach {}
  | move {w : World α} (t : Nat) (m : Move α) : Reach w → w.may t m → Reach (w.move t m)

/-- Nobody else is in the middle of a call, or `t` only makes a shared access. -/
def inTurn (w : World α) (t : Nat) (m : Move α) : Prop :=
  w.domain.othersRest t ∨ m = .step ∧ (w.nextAccess? t).isSome

/-- What they can bring it to when their calls into the domain happen one at a time. -/
inductive ReachAlone : World α → Prop
  | start : ReachAlone {}
  | move {w : World α} (t : Nat) (m : Move α) :
      ReachAlone w → w.inTurn t m → w.may t m → ReachAlone (w.move t m)

theorem ReachAlone.reach {w : World α} (h : ReachAlone w) : Reach w := by
  induction h with
  | start => exact .start
  | move t m _ _ hm ih => exact .move t m ih hm

end World

end EpochQueue.Fifo
