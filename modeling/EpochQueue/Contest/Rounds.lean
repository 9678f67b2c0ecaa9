/-
  EpochQueue.Contest.Rounds — threads that take turns until all of them are done.

  A contest is a state together with the turn that a thread has in it. In a round every thread has
  one turn.
-/

namespace EpochQueue.Contest

variable {σ : Type}

/-- Each of the threads has one turn, in order. -/
def round (turn : σ → Nat → σ) (threads : Nat) (s : σ) : σ := (List.range threads).foldl turn s

/-- Rounds until everybody is done, at most so many. -/
def rounds (turn : σ → Nat → σ) (isDone : σ → Bool) (threads : Nat) : Nat → σ → σ
  | 0, s => s
  | n + 1, s => if isDone s then s else rounds turn isDone threads n (round turn threads s)

end EpochQueue.Contest
