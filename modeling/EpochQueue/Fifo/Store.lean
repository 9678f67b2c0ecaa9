/-
  EpochQueue.Fifo.Store — the links of all queues, and where each queue begins and ends.

  A queue is a chain of links. It always starts with a sentinel, to which `head` points; the
  front value is in the link after it. `tail` points at the last link or, for a while, at the
  one before it. Links are numbered in the order of allocation, and a number is never used
  again, so a link that was freed stays known as freed. A queue counts the links allocated for
  it and not freed yet.

  The three compare-and-swaps change one pointer if it still is what the caller last saw.
-/

import EpochQueue.Fifo.Backoff
import EpochQueue.Table

namespace EpochQueue.Fifo

structure Link (α : Type) where
  /-- What the link carries; nothing in a sentinel. -/
  value : Option α := none
  next : Option Nat := none
  /-- The queue it was allocated for. -/
  home : Nat := 0
  /-- Links that were never allocated count as freed. -/
  freed : Bool := true
  deriving Repr

instance {α : Type} : Inhabited (Link α) := ⟨{}⟩

structure Queue where
  head : Nat := 0
  tail : Nat := 0
  limits : Limits := Limits.standard
  /-- Links allocated for this queue and not freed yet. -/
  live : Nat := 0
  deriving Repr, Inhabited

structure Store (α : Type) where
  links : Table (Link α) := {}
  /-- The number of the next link to be allocated. -/
  nextLink : Nat := 0
  queues : Table Queue := {}
  nextQueue : Nat := 0

namespace Store

variable {α : Type}

def link (s : Store α) (n : Nat) : Link α := s.links.get n

def queue (s : Store α) (q : Nat) : Queue := s.queues.get q

def modifyQueue (s : Store α) (q : Nat) (f : Queue → Queue) : Store α :=
  { s with queues := s.queues.modify q f }

/-- A new link of queue `q`. -/
def alloc (s : Store α) (q : Nat) (value : Option α) : Nat × Store α :=
  (s.nextLink,
    { s with links := s.links.set s.nextLink ⟨value, none, q, false⟩, nextLink := s.nextLink + 1 }
      |>.modifyQueue q fun x => { x with live := x.live + 1 })

/-- The link is given back. What it carries, if anything, is not dropped by that. -/
def free (s : Store α) (n : Nat) : Store α :=
  { s with links := s.links.modify n fun l => { l with freed := true } }.modifyQueue
    (s.link n).home fun x => { x with live := x.live - 1 }

/-- Moves the value out of a link. -/
def takeValue (s : Store α) (n : Nat) : Option α × Store α :=
  ((s.link n).value, { s with links := s.links.modify n fun l => { l with value := none } })

/-- An empty queue: a sentinel and nothing after it. -/
def newQueue (s : Store α) (limits : Limits) : Nat × Store α :=
  let q := s.nextQueue
  let s := { s with queues := s.queues.set q { limits }, nextQueue := q + 1 }
  let (n, s) := s.alloc q none
  (q, s.modifyQueue q fun x => { x with head := n, tail := n })

/-- The queue was made and not torn down yet: it still has its sentinel. -/
def isOpen (s : Store α) (q : Nat) : Bool :=
  q < s.nextQueue && !(s.link (s.queue q).head).freed

/-! ## Compare and swap -/

def casHead (s : Store α) (q seen new : Nat) : Bool × Store α :=
  if (s.queue q).head = seen then (true, s.modifyQueue q fun x => { x with head := new })
  else (false, s)

def casTail (s : Store α) (q seen new : Nat) : Bool × Store α :=
  if (s.queue q).tail = seen then (true, s.modifyQueue q fun x => { x with tail := new })
  else (false, s)

/-- Links `new` after `n` if nothing is linked there. -/
def casNext (s : Store α) (n new : Nat) : Bool × Store α :=
  match (s.link n).next with
  | none => (true, { s with links := s.links.modify n fun l => { l with next := some new } })
  | some _ => (false, s)

/-! ## The chain -/

/-- The links from `n` on, at most `fuel` of them. -/
def follow (s : Store α) : Nat → Option Nat → List Nat
  | 0, _ => []
  | _, none => []
  | fuel + 1, some n => n :: s.follow fuel (s.link n).next

/-- The sentinel of a queue and the links after it. -/
def chain (s : Store α) (q : Nat) : List Nat := s.follow s.nextLink (some (s.queue q).head)

/-- What the queue holds, the front first. -/
def values (s : Store α) (q : Nat) : List α := (s.chain q).tail.filterMap fun n => (s.link n).value

end Store

end EpochQueue.Fifo
