/-
  EpochQueue.Script.State — everything that the commands of a script work on.

  Beside the world there are the script's objects, its cells, the numbers of its queues and
  iterators, the log, and for each thread a worker. A worker has a stack of frames: the lowest
  is the command that the script gave it, the ones above are loops that a command unfolds into
  and destructors that run inside a call. The topmost frame either waits for the world, on
  whose behalf the thread has a call or an operation under way, or goes on with its next task.
-/

import EpochQueue.Script.Command
import EpochQueue.Script.Result

namespace EpochQueue.Script

open EpochQueue.Fifo (Limits World)
open EpochQueue.Reclaim (Guard)

/-- The unit of a frame's work: a command, or a part of what a command unfolds into. -/
inductive Task (α : Type) where
  | command (c : Command α)
  /-- Pins, and drops the guard at once. -/
  | touch
  /-- Makes an object and retires it at once. -/
  | plant (value : α) (custom : Bool) (onFree : List (Command α))
  | append (queue : Nat) (value : α)
  | take (queue : Nat)

def Task.weight {α : Type} : Task α → Nat
  | .command c => c.weight
  | .plant _ _ onFree => 1 + Command.weights onFree
  | _ => 1

def Task.weights {α : Type} : List (Task α) → Nat
  | [] => 0
  | task :: tasks => task.weight + Task.weights tasks

/-- What the answer of the world is turned into. -/
inductive Await where
  /-- The guard gets a number and stays. -/
  | namedGuard
  /-- The guard is dropped at once. -/
  | passingGuard
  | flushed
  /-- It is over, and that is all. -/
  | done
  /-- It is over; the answer is the object that was made for it. -/
  | planted (object : Nat)
  /-- The value was enqueued although it might not have been. -/
  | attempted
  | front
  | emptiness
  | queueText (limits : Limits) (alternate : Bool)
  | iteratorText (limits : Limits) (alternate : Bool)

/-- What the results of a frame's tasks are put together to. -/
inductive Gather where
  /-- The result of the only task. -/
  | sole
  | nothing
  | list
  /-- The queue gets its number now. -/
  | queue (id : Nat)

structure Frame (α : Type) where
  /-- The object whose destructor this is. -/
  object : Option Nat := none
  /-- Run by a destructor, at whatever depth. -/
  inside : Bool
  todo : List (Task α)
  /-- What comes when nothing is left to do, and how many more times. -/
  body : List (Task α) := []
  rounds : Nat := 0
  gather : Gather
  /-- The newest first. -/
  results : List (Result α) := []
  await : Option Await := none

structure Worker (α : Type) where
  /-- The topmost first. -/
  frames : List (Frame α) := []
  /-- The live guards that have a number, the newest first. -/
  guards : List (Nat × Guard) := []
  nextGuard : Nat := 0
  exited : Bool := false

instance {α : Type} : Inhabited (Worker α) := ⟨{}⟩

structure Object (α : Type) where
  value : α
  /-- It has a way of its own to give its memory back. -/
  custom : Bool
  onFree : List (Command α)
  retired : Bool := false
  freed : Bool := false

structure State (α : Type) where
  world : World α := {}
  objects : Array (Object α) := #[]
  cells : Array (Option Nat) := #[]
  /-- The world's queue under each number, none if the number is gone. -/
  queues : Array (Option Nat) := #[]
  iterators : Array (Option Nat) := #[]
  workers : Table (Worker α) := {}
  log : Array (Event α) := #[]
  /-- So much of the domain's trace has been put into the log. -/
  heard : Nat := 0

namespace State

variable {α : Type}

def worker (s : State α) (t : Nat) : Worker α := s.workers.get t

def modifyWorker (s : State α) (t : Nat) (f : Worker α → Worker α) : State α :=
  { s with workers := s.workers.modify t f }

def note (s : State α) (e : Event α) : State α := { s with log := s.log.push e }

/-- Lets the world change; what its domain notes on the way goes into the log. -/
def withWorld {β : Type} (s : State α) (f : World α → β × World α) : β × State α :=
  let (b, world) := f s.world
  let trace := world.domain.trace
  let log := trace.foldl
    (fun log n => match Event.ofNotice? n with
      | some e => log.push e
      | none => log) s.log s.heard trace.size
  (b, { s with world, log, heard := trace.size })

def onWorld (s : State α) (f : World α → World α) : State α :=
  (s.withWorld fun w => ((), f w)).2

/-- The object of that name, if the name was ever given to one. -/
def object? (s : State α) : Int → Option Nat
  | .ofNat i => if i < s.objects.size then some i else none
  | .negSucc _ => none

/-- What a name stands for: an object, or none; nothing at all if no object has it. -/
def resolve (s : State α) : ObjectName → Option (Option Nat)
  | none => some none
  | some i => (s.object? i).map some

def queue? (s : State α) (q : Nat) : Option Nat := (s.queues[q]?).join

def iterator? (s : State α) (i : Nat) : Option Nat := (s.iterators[i]?).join

def newObject (s : State α) (value : α) (custom : Bool) (onFree : List (Command α)) :
    Nat × State α :=
  (s.objects.size, { s with objects := s.objects.push { value, custom, onFree } })

def modifyObject (s : State α) (i : Nat) (f : Object α → Object α) : State α :=
  { s with objects := s.objects.modify i f }

/-- What a loaded pointer leads to. A pointer to an object that was freed is not followed. -/
def loaded (s : State α) : Option Nat → Loaded α
  | none => .null
  | some i => match s.objects[i]? with
    | some o => if o.freed then .freed i else .object i o.value
    | none => .freed i

/-- How a pointer is shown: by the object's number. -/
def pointerText (name : String) : Option Nat → String
  | none => name ++ "(0x0)"
  | some i => name ++ "(n" ++ toString i ++ ")"

/-- Pointers are one if they lead to the same object, or both nowhere. -/
def samePointer (a b : Option Nat) : Bool := a == b

/-! ## Frames -/

def pushFrame (s : State α) (t : Nat) (f : Frame α) : State α :=
  s.modifyWorker t fun w => { w with frames := f :: w.frames }

def popFrame (s : State α) (t : Nat) : State α :=
  s.modifyWorker t fun w => { w with frames := w.frames.tail }

def modifyTop (s : State α) (t : Nat) (f : Frame α → Frame α) : State α :=
  s.modifyWorker t fun w => match w.frames with
    | top :: rest => { w with frames := f top :: rest }
    | [] => w

/-- The topmost frame waits for what `f` sets going in the world. -/
def begin (s : State α) (t : Nat) (await : Await) (f : World α → World α) : State α :=
  (s.modifyTop t fun top => { top with await := some await }).onWorld f

/-- The task at hand has come to `r`. A command that a destructor ran is put down in the
    log. -/
def deliver (s : State α) (t : Nat) (r : Result α) : State α :=
  match (s.worker t).frames with
  | [] => s
  | top :: _ =>
    let s := match top.object, top.todo with
      | some i, .command c :: _ => s.note (.inside i c.name r)
      | _, _ => s
    s.modifyTop t fun top =>
      { top with
        todo := top.todo.tail
        await := none
        results := match top.gather with
          | .sole | .list => r :: top.results
          | .nothing | .queue _ => top.results }

/-- The destructor of an object begins. -/
def destroy (s : State α) (t i : Nat) : State α :=
  match s.objects[i]? with
  | none => s
  | some o =>
    let s := s.modifyObject i fun o => { o with freed := true }
    let s := if o.custom then s.note (.deallocated i) else s
    (s.note (.freed i)).pushFrame t
      { object := some i, inside := true, todo := o.onFree.map .command, gather := .nothing }

/-- A queue and all that is left in it are dropped. -/
def dropQueue (s : State α) (id : Nat) : State α :=
  let (vs, s) := s.withWorld fun w => w.tearDown id
  vs.foldl (fun s v => s.note (.dropped v)) s |>.note (.queueDropped vs.length)

/-! ## Giving up -/

/-- The call in which a destructor ran is given up, and with it the operation that waited for
    it: a value that was taken out of the queue is dropped, and then the guard. -/
def abandonCall (s : State α) (t : Nat) : State α :=
  match s.withWorld fun w => w.abandon t with
  | (none, s) => s
  | (some o, s) =>
    let s := match o.point with
      | .leave (.dequeued (some v)) => s.note (.dropped v)
      | _ => s
    match o.guard with
    | some g => s.onWorld fun w => w.unpin t g
    | none => s

/-- Leaves these frames of `t`, the topmost first: under a destructor is the call that it ran
    in, and a queue that was being filled is dropped. -/
def abandonFrames (t : Nat) : List (Frame α) → State α → State α
  | [], s => s
  | f :: below, s =>
    let s := match f.gather with
      | .queue id => s.dropQueue id
      | _ => s
    let s := if f.object.isSome then s.abandonCall t else s
    abandonFrames t below s

/-- Whatever `t` is in the middle of is given up, and `r` is the result of the command that
    it was given. What was done before stays done. -/
def giveUp (s : State α) (t : Nat) (r : Result α) : State α :=
  (abandonFrames t (s.worker t).frames s).modifyWorker t fun w =>
    { w with frames := [{ inside := false, todo := [], gather := .sole, results := [r] }] }

/-- A thread whose frames are not all done has been stopped in the middle of an operation. -/
def isPaused (s : State α) (t : Nat) : Bool := !(s.worker t).frames.isEmpty

end State

end EpochQueue.Script
