/-
  EpochQueue.Reclaim.Moves — everything that threads can do to a domain, in any order.

  A move is one thread's: it opens a call, makes a step of the one it has open, or does what
  takes no step. `may` says what the callers of the domain promise: a thread opens nothing in
  the middle of a call, except in a destructor; it drops only guards that it holds; it exits
  only when it has nothing under way; and no node is retired twice.

  `Reach` allows the moves of different threads to alternate at will. `ReachAlone` does not let
  a thread move while another one has a call open: calls happen one at a time, with the
  destructors that run inside them.
-/

import EpochQueue.Reclaim.Domain

namespace EpochQueue.Reclaim

inductive Move (ν κ : Type) where
  | pin (ticket : κ)
  | unpin (g : Guard)
  | retire (n : ν) (ticket : κ)
  | flush (ticket : κ)
  | pending
  | exit
  | step

namespace Domain

variable {ν κ : Type}

/-- The node was handed over before. -/
def wasRetired (d : Domain ν κ) (n : ν) : Prop := .retired n ∈ d.trace

def may (d : Domain ν κ) (t : Nat) : Move ν κ → Prop
  | .pin _ | .flush _ | .pending => d.mayCall t
  | .unpin g => d.mayCall t ∧ g ∈ (d.thread t).guards
  | .retire n _ => d.mayCall t ∧ ¬ d.wasRetired n
  | .exit => (d.thread t).calls = []
  | .step => (d.thread t).calls ≠ []

def move (d : Domain ν κ) (t : Nat) : Move ν κ → Domain ν κ
  | .pin ticket => d.pin t ticket
  | .unpin g => d.unpin t g
  | .retire n ticket => d.retire t n ticket
  | .flush ticket => d.flush t ticket
  | .pending => (d.pending t).2
  | .exit => d.exit t
  | .step => (d.step t).1

/-- No thread but `t` has a call open. -/
def othersRest (d : Domain ν κ) (t : Nat) : Prop := ∀ u, u ≠ t → (d.thread u).calls = []

/-- What the threads can bring a fresh domain to, step by step in any order. -/
inductive Reach : Domain ν κ → Prop
  | start : Reach {}
  | move {d : Domain ν κ} (t : Nat) (m : Move ν κ) : Reach d → d.may t m → Reach (d.move t m)

/-- What they can bring it to when their calls happen one at a time. -/
inductive ReachAlone : Domain ν κ → Prop
  | start : ReachAlone {}
  | move {d : Domain ν κ} (t : Nat) (m : Move ν κ) :
      ReachAlone d → d.othersRest t → d.may t m → ReachAlone (d.move t m)

theorem ReachAlone.reach {d : Domain ν κ} (h : ReachAlone d) : Reach d := by
  induction h with
  | start => exact .start
  | move t m _ _ hm ih => exact .move t m ih hm

end Domain

end EpochQueue.Reclaim
