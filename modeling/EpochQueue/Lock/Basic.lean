/-
  EpochQueue.Lock.Basic — a test-and-set lock around a value.

  One flag says whether the lock is held. Taking the lock is one swap of the flag to true: the
  swap that finds it false has the lock, and every other changes nothing. Letting go stores
  false.
-/

namespace EpochQueue.Lock

structure Guarded (σ : Type) where
  locked : Bool := false
  value : σ
  deriving Repr, DecidableEq

namespace Guarded

variable {σ : Type}

/-- Sets the flag; whether this got the lock. -/
def tryLock (l : Guarded σ) : Bool × Guarded σ := (!l.locked, { l with locked := true })

def unlock (l : Guarded σ) : Guarded σ := { l with locked := false }

end Guarded

end EpochQueue.Lock
