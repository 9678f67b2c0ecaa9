/-
  EpochQueue.Script.Session — a whole script, line by line, and the tidying up after it.

  A line names a thread, which is started by the first line that names it, and tells it to
  carry out a command, to begin an operation and stop before its first shared access, to go on
  with one so many accesses, to exit, or to end. Only one thread runs at a time.

  A thread that is stopped in an operation does nothing else until that is finished, and
  nobody gets a queue for himself alone while an operation on it is stopped.

  After the last line every thread still running finishes and ends, in the order of the names.
  Then one more thread drops what is left of iterators and queues and flushes until nothing
  is pending.
-/

import EpochQueue.Script.Run

namespace EpochQueue.Script

open EpochQueue.Fifo (Access AccessKind)

inductive Directive (α : Type) where
  | run (c : Command α)
  | begin (c : Command α)
  /-- So many shared accesses more. -/
  | step (n : Nat)
  | finish
  | exit
  | leave

structure Line (α : Type) where
  thread : Int
  directive : Directive α
  /-- The queue whose live links the line's record tells. -/
  queue : Option Nat

inductive Reply (α : Type) where
  | result (r : Result α)
  /-- An operation was begun. -/
  | began (ending : Ending α)
  /-- It made these accesses. -/
  | stepped (did : List Access) (ending : Ending α)

structure Record (α : Type) where
  /-- None for the thread that tidies up. -/
  thread : Option Int
  reply : Reply α
  epoch : Reclaim.Epoch
  log : List (Event α)
  live : Option Nat := none

structure Session (α : Type) where
  state : State α := {}
  /-- The threads that run, under their names. -/
  running : List (Int × Nat) := []
  nextThread : Nat := 0

structure Report (α : Type) where
  steps : List (Record α)
  ends : List (Record α)
  drain : Record α

namespace Session

variable {α : Type}

/-- The thread of that name, started if there is none. -/
def enter (s : Session α) (name : Int) : Nat × Session α :=
  match s.running.find? (·.1 == name) with
  | some (_, t) => (t, s)
  | none =>
    (s.nextThread,
      { s with running := (name, s.nextThread) :: s.running, nextThread := s.nextThread + 1 })

/-- Takes the log, and puts the record of what was done together. -/
def record (s : Session α) (name : Option Int) (queue : Option Nat) (reply : Reply α) :
    Record α × Session α :=
  let live := (queue.bind s.state.queue?).map fun id => (s.state.world.store.queue id).live
  ({ thread := name, reply, epoch := s.state.world.domain.registry.epoch,
     log := s.state.log.toList, live },
    { s with state := { s.state with log := #[] } })

/-- The queues on which an operation is stopped. -/
def stoppedQueues (s : Session α) : List Nat :=
  s.running.filterMap fun (_, t) =>
    match (s.state.worker t).frames.getLast? with
    | some { todo := .command c :: _, .. } => c.queue?
    | _ => none

/-- The command needs a queue for itself alone on which an operation is stopped. -/
def isBusy (s : Session α) : Directive α → Bool
  | .run c => c.exclusive?.any (s.stoppedQueues.contains ·)
  | _ => false

def runCommand (s : Session α) (t : Nat) (c : Command α) (grant : Option Nat) :
    Ending α × Session α :=
  let (state, _, ending) := (s.state.give t c).run t grant
  (ending, { s with state })

/-- Goes on with an operation that was stopped. -/
def resume (s : Session α) (t : Nat) (grant : Option Nat) : Reply α × Session α :=
  let (state, did, ending) := s.state.run t grant
  (.stepped did ending, { s with state })

def resultOf : Ending α → Result α
  | .done r => r
  | _ => .null

/-- The handle is destroyed, if there ever was one. -/
def exit (s : Session α) (t : Nat) : Result α × Session α :=
  if (s.state.worker t).exited then (.refused .exited, s)
  else
    let state := s.state.modifyWorker t fun w => { w with exited := true }
    (.null, { s with state := state.onWorld fun w => w.exit t })

/-- The thread's guards are dropped, the oldest first, and then its handle if there is one. -/
def leave (s : Session α) (t : Nat) : Session α :=
  let guards := (s.state.worker t).guards.reverse
  let state := guards.foldl (fun state g => state.onWorld fun w => w.unpin t g.2) s.state
  let state := state.modifyWorker t fun _ => {}
  { s with
    state := state.onWorld fun w => w.exit t
    running := s.running.filter (·.2 != t) }

def refuse (s : Session α) (r : Refusal) : Reply α × Session α := (.result (.refused r), s)

def perform (s : Session α) (t : Nat) (d : Directive α) : Reply α × Session α :=
  let stopped := s.state.isPaused t
  match d with
  | .step n => if stopped then s.resume t (some n) else s.refuse .idle
  | .finish => if stopped then s.resume t none else s.refuse .idle
  | _ =>
    if stopped || s.isBusy d then s.refuse .busy
    else match d with
      | .run c =>
        let (ending, s) := s.runCommand t c none
        (.result (resultOf ending), s)
      | .begin c =>
        if c.steppable then
          let (ending, s) := s.runCommand t c (some 0)
          (.began ending, s)
        else s.refuse .badOp
      | .exit => let (r, s) := s.exit t; (.result r, s)
      | .leave => (.result .null, s.leave t)
      | .step _ | .finish => s.refuse .idle

def line (s : Session α) (l : Line α) : Record α × Session α :=
  let (t, s) := s.enter l.thread
  let (reply, s) := s.perform t l.directive
  s.record (some l.thread) l.queue reply

def lines (s : Session α) : List (Line α) → List (Record α) × Session α
  | [] => ([], s)
  | l :: rest =>
    let (r, s) := s.line l
    let (rs, s) := s.lines rest
    (r :: rs, s)

/-- A thread finishes what it was stopped in, and ends. -/
def endOne (s : Session α) (name : Int) (t : Nat) : Record α × Session α :=
  let (reply, s) : Reply α × Session α :=
    if s.state.isPaused t then s.resume t none else (.result .null, s)
  (s.leave t).record (some name) none reply

def endAll (s : Session α) : List (Int × Nat) → List (Record α) × Session α
  | [] => ([], s)
  | (name, t) :: rest =>
    let (r, s) := s.endOne name t
    let (rs, s) := s.endAll rest
    (r :: rs, s)

/-- Everything in these tables is dropped, in the order of the numbers. -/
def dropAll (ids : Array (Option Nat)) (state : State α) : State α :=
  ids.foldl (fun state id => match id with
    | some id => state.dropQueue id
    | none => state) state

/-- Flushes until nothing is pending, once at least and at most `fuel` times. -/
def flushAll (t : Nat) : Nat → Session α → List (Result α) × Session α
  | 0, s => ([], s)
  | fuel + 1, s =>
    let (ending, s) := s.runCommand t .flush none
    let (n, state) := s.state.withWorld fun w => w.pending t
    let s := { s with state }
    if n = 0 then ([resultOf ending], s)
    else
      let (rs, s) := s.flushAll t fuel
      (resultOf ending :: rs, s)

/-- With nobody pinned three flushes in a row destroy something, if there is anything left to
    destroy, and the fuel counts all that there can ever be. -/
def flushesEnough (s : State α) : Nat := 3 * s.fuel

/-- What is left of iterators and queues is dropped. -/
def tidy (s : Session α) : Session α :=
  let state := dropAll s.state.queues (dropAll s.state.iterators s.state)
  { s with
    state := { state with
      queues := state.queues.map fun _ => none
      iterators := state.iterators.map fun _ => none } }

/-- One more thread tidies up, and flushes until nothing is pending. -/
def sweep (s : Session α) : List (Result α) × Session α :=
  let t := s.nextThread
  let s := { s with nextThread := t + 1 }.tidy
  s.flushAll t (flushesEnough s.state)

def drain (s : Session α) : Record α × Session α :=
  let t := s.nextThread
  let (rs, s) := s.sweep
  (s.leave t).record none none (.result (.list rs))

/-- All lines, from a session in which nothing has happened yet, and then the end of every thread
    that still runs. -/
def finish (ls : List (Line α)) : List (Record α) × List (Record α) × Session α :=
  let (steps, s) := ({} : Session α).lines ls
  let (ends, s) := s.endAll (s.running.mergeSort fun a b => a.1 ≤ b.1)
  (steps, ends, s)

/-- The whole script, and the session that is left after it. -/
def play (ls : List (Line α)) : Report α × Session α :=
  let (steps, ends, s) := finish ls
  let (drain, s) := s.drain
  ({ steps, ends, drain }, s)

def report (ls : List (Line α)) : Report α := (play ls).1

end Session

end EpochQueue.Script
