/-
  EpochQueue.Fifo.Backoff — how an operation waits after it lost a race.

  The wait grows with a step that starts at 0 with the operation: up to `spin` it spins
  2^step times (the exponent stops at 31), and past it yields to the scheduler. The step grows
  by one at each wait until it reaches `yield`.
-/

namespace EpochQueue.Fifo

structure Limits where
  /-- The last step that spins. -/
  spin : UInt32
  /-- The step at which the backoff stops growing. -/
  yield : UInt32
  deriving Repr, DecidableEq, Inhabited

namespace Limits

/-- Limits with `yield` raised to `spin` if it is less. -/
def raised (spin yield : UInt32) : Limits := ⟨spin, if yield < spin then spin else yield⟩

def standard : Limits := raised 6 10

end Limits

inductive Pause where
  | spin (times : UInt32)
  | yield
  deriving Repr, DecidableEq

structure Backoff where
  limits : Limits
  step : UInt32 := 0
  deriving Repr, DecidableEq, Inhabited

namespace Backoff

/-- The exponent of a spinning wait never exceeds this. -/
def maxExponent : UInt32 := 31

def pause (b : Backoff) : Pause :=
  if b.step ≤ b.limits.spin then .spin (1 <<< min b.step maxExponent) else .yield

/-- One wait, and the backoff after it. -/
def wait (b : Backoff) : Pause × Backoff :=
  (b.pause, if b.step < b.limits.yield then { b with step := b.step + 1 } else b)

/-- So many waits in a row. -/
def waits : Nat → Backoff → List Pause
  | 0, _ => []
  | n + 1, b => let (p, b) := b.wait; p :: waits n b

end Backoff

end EpochQueue.Fifo
