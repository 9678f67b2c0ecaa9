/-
  EpochQueue.Fifo.Exclusive — removal by an owner whom nobody disturbs.

  Whoever has the queue to himself pops without pinning or retiring: the old sentinel is freed
  on the spot, and a tail that still points at it moves along. Tearing a queue down pops what
  is left, front first, and frees the last sentinel.
-/

import EpochQueue.Fifo.Store

namespace EpochQueue.Fifo.Store

variable {α : Type}

def pop (s : Store α) (q : Nat) : Option α × Store α :=
  let head := (s.queue q).head
  match (s.link head).next with
  | none => (none, s)
  | some next =>
    let (value, s) := s.takeValue next
    let s := s.modifyQueue q fun x =>
      { x with head := next, tail := if x.tail = head then next else x.tail }
    (value, s.free head)

/-- Pops until nothing comes, at most `fuel` times. -/
def popAll (q : Nat) : Nat → Store α → List α × Store α
  | 0, s => ([], s)
  | fuel + 1, s =>
    match s.pop q with
    | (none, s) => ([], s)
    | (some v, s) =>
      let (vs, s) := popAll q fuel s
      (v :: vs, s)

/-- Every pop frees a link, so there are fewer of them than links. -/
def drain (s : Store α) (q : Nat) : List α × Store α := s.popAll q s.nextLink

/-- What was left in the queue, in order; none of its links is left after that. -/
def tearDown (s : Store α) (q : Nat) : List α × Store α :=
  let (vs, s) := s.drain q
  (vs, s.free (s.queue q).head)

end EpochQueue.Fifo.Store
