/-
  EpochQueue.Reclaim.Handle — what one thread keeps for reclamation.

  A handle has the id of its slot (none before its first pin), the number of its live guards,
  the outermost pins since it last collected, a batch of nodes retired and not yet sealed, and
  the bags sealed and not yet freed, its own and adopted ones, oldest first.

  `sealBatch` turns the batch into a bag, `sift` turns the bags round once and takes the expired
  ones out, `pending` counts what is still to be freed. Both parts of a sift keep their order
  (`sift_eq`).
-/

import EpochQueue.Reclaim.Bag

namespace EpochQueue.Reclaim

structure Handle (ν : Type) where
  slot : Option Nat := none
  pinCount : Nat := 0
  pinsSinceCollect : Nat := 0
  /-- The most recently retired node first. -/
  batch : List ν := []
  batchLen : Nat := 0
  bags : List (Bag ν) := []
  deriving Repr

namespace Handle

variable {ν : Type}

def retire (h : Handle ν) (n : ν) : Handle ν :=
  { h with batch := n :: h.batch, batchLen := h.batchLen + 1 }

def isFull (h : Handle ν) : Bool := bagCapacity ≤ h.batchLen

/-- The batch becomes the last bag; an empty batch does not. -/
def sealBatch (h : Handle ν) (epoch : Epoch) : Handle ν :=
  if h.batchLen = 0 then h
  else { h with batch := [], batchLen := 0, bags := h.bags ++ [⟨epoch, h.batch, h.batchLen⟩] }

/-- One bag a turn leaves the front: an expired one for the last place among those that are taken
    out, any other one for the back. -/
def rotate (global : Epoch) : Nat → List (Bag ν) → List (Bag ν) → List (Bag ν) × List (Bag ν)
  | 0, expired, bags => (expired, bags)
  | _ + 1, expired, [] => (expired, [])
  | turns + 1, expired, b :: bags =>
    if b.isExpired global then rotate global turns (expired ++ [b]) bags
    else rotate global turns expired (bags ++ [b])

/-- The adopted bags join the others, and all of them are turned round once. -/
def sift (h : Handle ν) (adopted : List (Bag ν)) (global : Epoch) : List (Bag ν) × Handle ν :=
  let bags := h.bags ++ adopted
  let (expired, waiting) := rotate global bags.length [] bags
  (expired, { h with bags := waiting })

def pending (h : Handle ν) : Nat := h.batchLen + Bag.total h.bags

/-- As many turns as there are bags in front bring them all past the test, in order, and `back`,
    which has passed it already, to the front. -/
theorem rotate_eq (global : Epoch) (front expired back : List (Bag ν)) :
    rotate global front.length expired (front ++ back) =
      (expired ++ front.filter (·.isExpired global), back ++ front.filter (!·.isExpired global)) := by
  induction front generalizing expired back with
  | nil => simp [rotate]
  | cons b front ih =>
    by_cases hb : b.isExpired global = true
    · simp [rotate, hb, ih]
    · simp [rotate, hb, List.append_assoc, ih]

theorem sift_eq (h : Handle ν) (adopted : List (Bag ν)) (global : Epoch) : h.sift adopted global =
    ((h.bags ++ adopted).filter (·.isExpired global),
      { h with bags := (h.bags ++ adopted).filter (!·.isExpired global) }) := by
  have hturned := rotate_eq global (h.bags ++ adopted) [] []
  rw [List.append_nil] at hturned
  simp only [sift, hturned, List.nil_append]

end Handle

end EpochQueue.Reclaim
