/-
  EpochQueue.Reclaim.Bag — epochs, and bags of retired nodes stamped with one.

  The global epoch is a 64-bit word that starts at 1 and only grows; 0 is never an epoch and
  marks a slot that is outside every critical section. A bag is a sealed batch of retired
  nodes with the global epoch at which it was sealed. Whoever is pinned keeps the global epoch
  from growing by more than one, so what was sealed at `e` is out of everybody's reach once
  the global epoch is `e + 2`: the bag has expired.
-/

namespace EpochQueue.Reclaim

abbrev Epoch := UInt64

/-- What a slot holds while its owner is not pinned. -/
def quiescent : Epoch := 0

def firstEpoch : Epoch := 1

/-- Retirements that make a batch a full one, which is sealed at once. -/
def bagCapacity : Nat := 64

/-- Every so many outermost pins of a thread, a pin collects. -/
def collectEvery : Nat := 128

/-- A sealed batch. `nodes` has the most recently retired node first, and `len` is their
    number as counted while the batch grew. -/
structure Bag (ν : Type) where
  epoch : Epoch
  nodes : List ν
  len : Nat
  deriving Repr

namespace Bag

variable {ν : Type}

/-- Two epochs have passed since the bag was sealed, by the difference of the words: an epoch
    far behind the bag's counts as far ahead of it. -/
def isExpired (b : Bag ν) (global : Epoch) : Bool := 2 ≤ global - b.epoch

/-- A bag that holds nothing but one node. -/
def single (epoch : Epoch) (n : ν) : Bag ν := ⟨epoch, [n], 1⟩

/-- What is in a list of bags, in the order in which it is destroyed. -/
def contents (bs : List (Bag ν)) : List ν := bs.flatMap (·.nodes)

/-- How many nodes the bags say they hold. -/
def total : List (Bag ν) → Nat
  | [] => 0
  | b :: bs => b.len + total bs

theorem isExpired_iff (b : Bag ν) (g : Epoch) : b.isExpired g = true ↔ 2 ≤ (g - b.epoch).toNat := by
  simp [isExpired, UInt64.le_iff_toNat_le]

end Bag

end EpochQueue.Reclaim
