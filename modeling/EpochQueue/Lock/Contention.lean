/-
  EpochQueue.Lock.Contention — threads that contend for a lock, one access a step.

  A thread that comes for the lock brings its critical section, a function on the value. A
  patient one (`lock`) swaps the flag; when the lock was held it watches the flag by plain
  loads until it reads false, and swaps again. An impatient one (`try_lock`) swaps once and
  leaves when the lock was held. Whoever has the lock reads the value in one step, writes it
  in the next, and lets go in a third.

  `run` lets the threads take turns, as often as each of them has sections left.
-/

import EpochQueue.Lock.Basic
import EpochQueue.Table

namespace EpochQueue.Lock

/-- What a thread is about to do. -/
inductive Stage (σ : Type) where
  | outside
  | swap (patient : Bool) (work : σ → σ)
  /-- Its swap found the lock held: load the flag. -/
  | watch (work : σ → σ)
  /-- It has the lock: read the value. -/
  | read (work : σ → σ)
  | write (work : σ → σ) (seen : σ)
  | unlock

namespace Stage

variable {σ : Type}

/-- The thread has a guard. -/
def holds : Stage σ → Bool
  | read _ | write _ _ | unlock => true
  | _ => false

end Stage

instance {σ : Type} : Inhabited (Stage σ) := ⟨.outside⟩

structure Contention (σ : Type) where
  lock : Guarded σ
  stages : Table (Stage σ) := {}

namespace Contention

variable {σ : Type}

def stage (c : Contention σ) (t : Nat) : Stage σ := c.stages.get t

def setStage (c : Contention σ) (t : Nat) (s : Stage σ) : Contention σ :=
  { c with stages := c.stages.set t s }

/-- A thread that stands outside comes for the lock. -/
def enter (c : Contention σ) (t : Nat) (patient : Bool) (work : σ → σ) : Contention σ :=
  match c.stage t with
  | .outside => c.setStage t (.swap patient work)
  | _ => c

/-- The one access that `t` is about to make. -/
def step (c : Contention σ) (t : Nat) : Contention σ :=
  match c.stage t with
  | .outside => c
  | .swap patient f =>
    let (got, lock) := c.lock.tryLock
    { c with lock }.setStage t
      (if got then .read f else if patient then .watch f else .outside)
  | .watch f => if c.lock.locked then c else c.setStage t (.swap true f)
  | .read f => c.setStage t (.write f c.lock.value)
  | .write f seen => { c with lock := { c.lock with value := f seen } }.setStage t .unlock
  | .unlock => { c with lock := c.lock.unlock }.setStage t .outside

/-- One turn of thread `t`, which has `left` more sections to run: it comes for the lock if it
    stands outside, and makes one access. -/
def turn (work : σ → σ) (t left : Nat) (c : Contention σ) : Nat × Contention σ :=
  match c.stage t with
  | .outside =>
    if left = 0 then (0, c) else (left - 1, (c.enter t true work).step t)
  | _ => (left, c.step t)

/-- Every thread has a turn; what is left to each of them afterwards. -/
def round (work : σ → σ) : Nat → List Nat → Contention σ → List Nat × Contention σ
  | _, [], c => ([], c)
  | t, left :: rest, c =>
    let (left, c) := turn work t left c
    let (rest, c) := round work (t + 1) rest c
    (left :: rest, c)

/-- So many rounds, or fewer if nobody has anything left to do. -/
def rounds (work : σ → σ) : Nat → List Nat → Contention σ → Contention σ
  | 0, _, c => c
  | n + 1, left, c =>
    if left.all (· == 0) && c.stages.toList.all (fun s => match s with
      | .outside => true
      | _ => false) then c
    else
      let (left, c) := round work 0 left c
      rounds work n left c

/-- The value after `threads` threads have run the section `times` times each, taking turns.
    A round in which some thread has the lock brings it one access on, and one in which nobody
    has it brings somebody into it, so five rounds a section, and one watched release each,
    are enough. -/
def run (work : σ → σ) (init : σ) (threads times : Nat) : σ :=
  (rounds work (8 * (threads * times + 1)) (List.replicate threads times)
    { lock := { value := init } }).lock.value

end Contention

end EpochQueue.Lock
