/-
  EpochQueue.Script.Command — what a thread of a script can be told to do.

  Values are whatever the script's author queues or stores, and no command looks into one.
  Objects, cells, queues and iterators are named by the number they were given when they were
  made. An object is made together with the commands that its destructor will run.

  `Command.weight` bounds how many tasks a command can lead to: each repetition counts its
  body anew, and an object counts what its destructor will do.
-/

import EpochQueue.Fifo.Backoff

namespace EpochQueue.Script

open EpochQueue.Fifo (Limits)

/-- The name of an object, or of none; one that was never given to an object names nothing. -/
abbrev ObjectName := Option Int

inductive Command (α : Type) where
  -- threads and reclamation
  | pin
  /-- Drops the guard of that number, or the newest. -/
  | unpin (guard : Option Nat)
  | pinTimes (n : Nat)
  | guardText
  | flush
  | pending
  | new (value : α) (custom : Bool) (onFree : List (Command α))
  | retire (object : ObjectName)
  | retireNew (n : Nat) (value : α) (custom : Bool) (onFree : List (Command α))
  | repeated (n : Nat) (body : List (Command α))
  -- cells; an order that is not named is the usual one
  | cell (object : ObjectName)
  | load (cell : Nat) (order : Option String)
  | store (cell : Nat) (object : ObjectName) (order : Option String)
  | swap (cell : Nat) (object : ObjectName) (order : Option String)
  | cas (cell : Nat) (current object : ObjectName) (order failOrder : Option String)
  /-- Reads the cell, and sets it if there is something to set it to. -/
  | getMut (cell : Nat) (object : Option ObjectName)
  | same (cell other : Nat)
  | cellText (cell : Nat)
  | sharedText (cell : Nat)
  -- queues
  | newQueue (limits : Limits) (values : List α)
  | enqueue (queue : Nat) (value : α)
  | enqueueMany (queue : Nat) (values : List α)
  | tryEnqueue (queue : Nat) (value : α) (outOfMemory : Bool)
  | dequeue (queue : Nat)
  | dequeueMany (queue n : Nat)
  | isEmpty (queue : Nat)
  | live (queue : Nat)
  | limits (queue : Nat)
  | queueText (queue : Nat) (alternate : Bool)
  | extend (queue : Nat) (values : List α)
  | dropQueue (queue : Nat)
  | iterate (queue : Nat)
  -- iterators
  | next (iterator : Nat) (n : Option Nat)
  | iteratorText (iterator : Nat) (alternate : Bool)
  | collect (iterator : Nat)
  | dropIterator (iterator : Nat)
  /-- Nothing that can be done, at least not here. -/
  | unknown (name : String)

instance {α : Type} : Inhabited (Command α) := ⟨.unknown ""⟩

namespace Command

variable {α : Type}

/-- The word that a script has for a command. -/
def name : Command α → String
  | .pin => "pin"
  | .unpin _ => "unpin"
  | .pinTimes _ => "pin_n"
  | .guardText => "guard_debug"
  | .flush => "flush"
  | .pending => "pending"
  | .new _ _ _ => "new"
  | .retire _ => "retire"
  | .retireNew _ _ _ _ => "retire_new"
  | .repeated _ _ => "repeat"
  | .cell _ => "cell"
  | .load _ _ => "load"
  | .store _ _ _ => "store"
  | .swap _ _ _ => "swap"
  | .cas _ _ _ _ _ => "cas"
  | .getMut _ _ => "get_mut"
  | .same _ _ => "same"
  | .cellText _ => "cell_debug"
  | .sharedText _ => "shared_debug"
  | .newQueue _ _ => "qnew"
  | .enqueue _ _ => "enqueue"
  | .enqueueMany _ _ => "enqueue_n"
  | .tryEnqueue _ _ _ => "try_enqueue"
  | .dequeue _ => "dequeue"
  | .dequeueMany _ _ => "dequeue_n"
  | .isEmpty _ => "is_empty"
  | .live _ => "live"
  | .limits _ => "backoff"
  | .queueText _ _ => "debug"
  | .extend _ _ => "extend"
  | .dropQueue _ => "qdrop"
  | .iterate _ => "into_iter"
  | .next _ _ => "next"
  | .iteratorText _ _ => "iter_debug"
  | .collect _ => "collect"
  | .dropIterator _ => "iter_drop"
  | .unknown name => name

/-- Commands that can be stopped before each of their shared accesses. -/
def steppable : Command α → Bool
  | .enqueue _ _ | .tryEnqueue _ _ _ | .dequeue _ | .isEmpty _ | .queueText _ _ => true
  | _ => false

/-- The queue that a command names. -/
def queue? : Command α → Option Nat
  | .enqueue q _ | .enqueueMany q _ | .tryEnqueue q _ _ | .dequeue q | .dequeueMany q _
  | .isEmpty q | .live q | .limits q | .queueText q _ | .extend q _ | .dropQueue q | .iterate q =>
    some q
  | _ => none

/-- The queue that a command needs for itself alone. -/
def exclusive? : Command α → Option Nat
  | .extend q _ | .dropQueue q | .iterate q => some q
  | _ => none

mutual
def weight : Command α → Nat
  | .pinTimes n => 1 + n
  | .new _ _ onFree => 1 + weights onFree
  | .retireNew n _ _ onFree => 1 + n * (1 + weights onFree)
  | .repeated n body => 1 + n * (1 + weights body)
  | .newQueue _ values | .enqueueMany _ values | .extend _ values => 1 + values.length
  | .dequeueMany _ n => 1 + n
  | _ => 1

def weights : List (Command α) → Nat
  | [] => 0
  | c :: rest => c.weight + weights rest
end

end Command

end EpochQueue.Script
