/-
  EpochQueue.Reclaim.OrphanList — how orphans change hands between threads, one access a step.

  The orphans are in a list behind a lock, and beside the lock is a count of them, which can be
  read without it. Pushing waits for the lock, appends, adds to the count, and lets go.
  Adopting first glances at the count and leaves with nothing if it is zero; then it tries the
  lock once and leaves with nothing if somebody has it; else it takes the whole list,
  subtracts from the count, and lets go. The list and the count are never changed in one step.

  `Domain.orphan` and `Domain.adopt` are what the two come to when nobody interferes.
-/

import EpochQueue.Lock.Basic
import EpochQueue.Table

namespace EpochQueue.Reclaim

open EpochQueue.Lock (Guarded)

/-- What a thread is about to do to the orphans. -/
inductive OrphanStage (β : Type) where
  | outside
  /-- Pushing: swap the flag of the lock. -/
  | swap (bags : List β)
  /-- Pushing, but the lock was held: load its flag. -/
  | watch (bags : List β)
  | append (bags : List β)
  | raise (added : Nat)
  | leavePush
  /-- Adopting: load the count. -/
  | glance
  | tryLock
  | take
  | lower (adopted : List β)
  | leaveAdopt (adopted : List β)
  /-- An adoption is over; this is what it came to. -/
  | adopted (bags : List β)

instance {β : Type} : Inhabited (OrphanStage β) := ⟨.outside⟩

namespace OrphanStage

variable {β : Type}

/-- The thread has the lock. -/
def holds : OrphanStage β → Bool
  | append _ | raise _ | leavePush | take | lower _ | leaveAdopt _ => true
  | _ => false

/-- The thread can come for the orphans. -/
def isFree : OrphanStage β → Bool
  | outside | adopted _ => true
  | _ => false

end OrphanStage

structure OrphanList (β : Type) where
  lock : Guarded (List β) := { value := [] }
  count : Nat := 0
  stages : Table (OrphanStage β) := {}

namespace OrphanList

variable {β : Type}

def stage (o : OrphanList β) (t : Nat) : OrphanStage β := o.stages.get t

def setStage (o : OrphanList β) (t : Nat) (s : OrphanStage β) : OrphanList β :=
  { o with stages := o.stages.set t s }

def setBags (o : OrphanList β) (bags : List β) : OrphanList β :=
  { o with lock := { o.lock with value := bags } }

/-- A thread comes with bags, if it does nothing else to the orphans. -/
def push (o : OrphanList β) (t : Nat) (bags : List β) : OrphanList β :=
  if (o.stage t).isFree then o.setStage t (.swap bags) else o

/-- A thread comes to adopt. -/
def adopt (o : OrphanList β) (t : Nat) : OrphanList β :=
  if (o.stage t).isFree then o.setStage t .glance else o

/-- The one access that `t` is about to make. -/
def step (o : OrphanList β) (t : Nat) : OrphanList β :=
  match o.stage t with
  | .outside | .adopted _ => o
  | .swap bags =>
    let (got, lock) := o.lock.tryLock
    { o with lock }.setStage t (if got then .append bags else .watch bags)
  | .watch bags => if o.lock.locked then o else o.setStage t (.swap bags)
  | .append bags =>
    (o.setBags (o.lock.value ++ bags)).setStage t
      (if bags.isEmpty then .leavePush else .raise bags.length)
  | .raise added => { o with count := o.count + added }.setStage t .leavePush
  | .leavePush => { o with lock := o.lock.unlock }.setStage t .outside
  | .glance => o.setStage t (if o.count = 0 then .adopted [] else .tryLock)
  | .tryLock =>
    let (got, lock) := o.lock.tryLock
    { o with lock }.setStage t (if got then .take else .adopted [])
  | .take => (o.setBags []).setStage t (.lower o.lock.value)
  | .lower adopted =>
    { o with count := o.count - adopted.length }.setStage t (.leaveAdopt adopted)
  | .leaveAdopt adopted => { o with lock := o.lock.unlock }.setStage t (.adopted adopted)

end OrphanList

end EpochQueue.Reclaim
