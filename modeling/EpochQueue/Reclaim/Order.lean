/-
  EpochQueue.Reclaim.Order — the memory orders of an access, and which access may have which.

  A load may not release and a store may not acquire; the failure order of a compare-and-swap
  is that of a load. A swap, and the success order of a compare-and-swap, are free.
-/

namespace EpochQueue.Reclaim

inductive Order where
  | relaxed
  | acquire
  | release
  | acqRel
  | seqCst
  deriving Repr, DecidableEq

/-- An access asked for in an order that it cannot have. -/
inductive Misorder where
  | releaseLoad
  | acqRelLoad
  | acquireStore
  | acqRelStore
  | releaseFailure
  | acqRelFailure
  deriving Repr, DecidableEq

namespace Order

def ofName? : String → Option Order
  | "relaxed" => some .relaxed
  | "acquire" => some .acquire
  | "release" => some .release
  | "acqrel" => some .acqRel
  | "seqcst" => some .seqCst
  | _ => none

def faultOfLoad? : Order → Option Misorder
  | .release => some .releaseLoad
  | .acqRel => some .acqRelLoad
  | _ => none

def faultOfStore? : Order → Option Misorder
  | .acquire => some .acquireStore
  | .acqRel => some .acqRelStore
  | _ => none

def faultOfFailure? : Order → Option Misorder
  | .release => some .releaseFailure
  | .acqRel => some .acqRelFailure
  | _ => none

end Order

def Misorder.message (m : Misorder) : String :=
  "there is no such thing as " ++ match m with
    | .releaseLoad => "a release load"
    | .acqRelLoad => "an acquire-release load"
    | .acquireStore => "an acquire store"
    | .acqRelStore => "an acquire-release store"
    | .releaseFailure => "a release failure ordering"
    | .acqRelFailure => "an acquire-release failure ordering"

end EpochQueue.Reclaim
