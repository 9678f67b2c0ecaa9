/-
  EpochQueue.Script.Result — what a command answers, and what a script's log says.

  `Refusal` has the reasons for which a command is not carried out at all, each under a short
  code word.
-/

import EpochQueue.Fifo.World
import EpochQueue.Reclaim.Order

namespace EpochQueue.Script

open EpochQueue.Fifo (Limits AccessKind Access Garbage)

inductive Refusal where
  | badOp
  | noGuard
  | noObject
  | noCell
  | noQueue
  | noIterator
  | badOrder
  | busy
  | idle
  | exited
  deriving Repr, DecidableEq

def Refusal.code : Refusal → String
  | .badOp => "bad-op"
  | .noGuard => "no-guard"
  | .noObject => "no-node"
  | .noCell => "no-cell"
  | .noQueue => "no-queue"
  | .noIterator => "no-iter"
  | .badOrder => "bad-order"
  | .busy => "busy"
  | .idle => "idle"
  | .exited => "exited"

/-- What a pointer that was loaded leads to. -/
inductive Loaded (α : Type) where
  | null
  | object (id : Nat) (value : α)
  | freed (id : Nat)

inductive Result (α : Type) where
  | null
  | bool (b : Bool)
  | number (n : Nat)
  | text (s : String)
  | list (rs : List (Result α))
  /-- The front value of a queue, if there was one. -/
  | front (value : Option α)
  | values (vs : List α)
  | limits (l : Limits)
  | loaded (x : Loaded α)
  | pointer (object : Option Nat)
  /-- A compare-and-swap, whether it swapped, and what it found. -/
  | compared (swapped : Bool) (found : Option Nat)
  | refused (r : Refusal)
  /-- An access was asked for in an order that it cannot have; the command ends there. -/
  | misordered (m : Reclaim.Misorder)
  /-- No memory for a link; the value comes back. -/
  | outOfMemory (value : α)

instance {α : Type} : Inhabited (Result α) := ⟨.null⟩

/-- What is shown of the error that gives a value back. -/
def outOfMemoryText : String := "failed to allocate a queue node"

def outOfMemoryShown : String := "AllocError \x7b .. \x7d"

inductive Event (α : Type) where
  | registered (tid : Nat)
  | released (tid : Nat)
  | detached (tid : Nat)
  | stray (tid guards : Nat)
  | advanced (epoch : Reclaim.Epoch)
  | orphaned (bags : Nat)
  | adopted (bags : Nat)
  /-- A queue was torn down with that many values in it. -/
  | queueDropped (remaining : Nat)
  | allocFailed
  /-- The destructor of an object runs. -/
  | freed (object : Nat)
  /-- The object's own way of giving its memory back was called. -/
  | deallocated (object : Nat)
  /-- The destructor of an object ran a command. -/
  | inside (object : Nat) (name : String) (result : Result α)
  | dropped (value : α)
  | yielded

/-- What the log says of the domain's doings; of guards and of retiring it says nothing, and
    an object's destructor has an entry of its own. -/
def Event.ofNotice? {α : Type} : Reclaim.Notice Garbage → Option (Event α)
  | .registered tid => some (.registered tid)
  | .released tid => some (.released tid)
  | .detached tid => some (.detached tid)
  | .stray tid guards => some (.stray tid guards)
  | .advanced epoch => some (.advanced epoch)
  | .orphaned bags => some (.orphaned bags)
  | .adopted bags => some (.adopted bags)
  | .pinned _ | .unpinned _ | .retired _ | .freed _ | .returned _ => none

end EpochQueue.Script
