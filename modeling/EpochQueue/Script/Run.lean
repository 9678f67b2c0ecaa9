/-
  EpochQueue.Script.Run — carrying out a thread's commands, step by step.

  `step` is one step of a thread: of the call or operation that its topmost frame waits for, or
  of the frame itself. `run` goes on until the thread has done what it was told, or stands
  before a shared access that it was not granted. `fuel` is enough for that: it counts what the
  frames, the objects not yet freed and the queues' links can still lead to.
-/

import EpochQueue.Fifo.Text
import EpochQueue.Script.Exec

namespace EpochQueue.Script

open EpochQueue.Fifo (Access AccessKind)

/-- What one step of a worker amounts to. -/
inductive Progress (α : Type) where
  | idle
  | quiet
  | accessed (a : Access)
  /-- The lowest frame is done. -/
  | done (r : Result α)

/-- How a run ended. -/
inductive Ending (α : Type) where
  /-- Before an access that was not granted. -/
  | paused (next : AccessKind)
  | done (r : Result α)
  /-- There was nothing to run. -/
  | idle

/-- What is left to do in a frame. -/
def Frame.weight {α : Type} (f : Frame α) : Nat :=
  1 + Task.weights f.todo + f.rounds * (1 + Task.weights f.body)

namespace State

variable {α : Type}

/-! ## Steps -/

/-- The call that the topmost frame waits for has returned. -/
def answered (s : State α) (t : Nat) (await : Await) : Reclaim.Answer → State α
  | .guard g => match await with
    | .namedGuard =>
      let i := (s.worker t).nextGuard
      let s := s.modifyWorker t fun w =>
        { w with guards := (i, g) :: w.guards, nextGuard := i + 1 }
      s.deliver t (.number i)
    | _ => (s.onWorld fun w => w.unpin t g).deliver t .null
  | .retired => match await with
    | .planted i => s.deliver t (.number i)
    | _ => s.deliver t .null
  | .flushed n => s.deliver t (.number n)

/-- The operation that the topmost frame waits for is over. -/
def finished (s : State α) (t : Nat) (await : Await) : Fifo.Outcome α → State α
  | .enqueued => match await with
    | .attempted => s.deliver t (.text "ok")
    | _ => s.deliver t .null
  | .dequeued v => s.deliver t (.front v)
  | .emptiness b => match await with
    | .queueText limits alternate =>
      s.deliver t (.text ((Fifo.shownQueue b limits).render alternate))
    | .iteratorText limits alternate =>
      s.deliver t (.text ((Fifo.shownIterator b limits).render alternate))
    | _ => s.deliver t (.bool b)

/-- What a frame comes to when nothing is left of it. -/
def gathered (s : State α) (f : Frame α) : Result α × State α :=
  match f.gather with
  | .sole => (f.results.head?.getD .null, s)
  | .nothing => (.null, s)
  | .list => (.list f.results.reverse, s)
  | .queue id =>
    let (q, s) := s.nameQueue id
    (.number q, s)

/-- The topmost frame has nothing left to do: the next round begins, a destructor ends, or the
    result goes to the frame below. -/
def leaveFrame (s : State α) (t : Nat) (f : Frame α) (below : List (Frame α)) :
    State α × Progress α :=
  match f.rounds with
  | rounds + 1 => (s.modifyTop t fun top => { top with todo := top.body, rounds }, .quiet)
  | 0 => match f.object with
    | some _ => (s.popFrame t, .quiet)
    | none =>
      let (r, s) := (s.popFrame t).gathered f
      match below with
      | [] => (s, .done r)
      | _ :: _ => (s.deliver t r, .quiet)

def step (s : State α) (t : Nat) : State α × Progress α :=
  match (s.worker t).frames with
  | [] => (s, .idle)
  | f :: below =>
    match f.await with
    | some await =>
      let (signal, s) := s.withWorld fun w => let (w, signal) := w.step t; (signal, w)
      match signal with
      | .idle | .quiet => (s, .quiet)
      | .accessed a pause =>
        (if pause = some .yield then s.note .yielded else s, .accessed a)
      | .freed i => (s.destroy t i, .quiet)
      | .answered a => (s.answered t await a, .quiet)
      | .finished r => (s.finished t await r, .quiet)
    | none =>
      match f.todo with
      | task :: _ => (s.runTask t f.inside task, .quiet)
      | [] => s.leaveFrame t f below

/-! ## Runs -/

/-- The shared access that the thread's lowest frame is about to make, if it is at one. What
    destructors access is never stopped. -/
def nextAccess? (s : State α) (t : Nat) : Option AccessKind :=
  match (s.worker t).frames with
  | [_] => s.world.nextAccess? t
  | _ => none

/-- Runs `t` for at most `fuel` steps. `grant` is the number of shared accesses of the lowest
    frame that may be made, none if any may; `did` has those made so far, the newest first. -/
def runFor : Nat → Nat → Option Nat → List Access → State α → State α × List Access × Ending α
  | 0, _, _, did, s => (s, did.reverse, .idle)
  | fuel + 1, t, grant, did, s =>
    match s.nextAccess? t, grant with
    | some kind, some 0 => (s, did.reverse, .paused kind)
    | next, _ =>
      match s.step t with
      | (s, .idle) => (s, did.reverse, .idle)
      | (s, .done r) => (s, did.reverse, .done r)
      | (s, .quiet) => runFor fuel t grant did s
      | (s, .accessed a) =>
        if next.isSome then runFor fuel t (grant.map (· - 1)) (a :: did) s
        else runFor fuel t grant did s

/-- What is still to come, if everything that was made is also destroyed. -/
def weight (s : State α) : Nat :=
  s.workers.toList.foldl (fun n w => w.frames.foldl (fun n f => n + f.weight) n) 0
    + s.objects.foldl (fun n o => if o.freed then n else n + 1 + Command.weights o.onFree) 0
    + s.world.store.nextLink

/-- Steps that any one task takes, with the destruction of what it may have made. -/
def stepsPerTask : Nat := 64

def fuel (s : State α) : Nat := stepsPerTask * (s.weight + 1)

/-- Runs `t` until it is done or stands before an access that was not granted. -/
def run (s : State α) (t : Nat) (grant : Option Nat) : State α × List Access × Ending α :=
  runFor s.fuel t grant [] s

/-- Gives `t` a command to begin with. -/
def give (s : State α) (t : Nat) (c : Command α) : State α :=
  s.pushFrame t { inside := false, todo := [.command c], gather := .sole }

end State

end EpochQueue.Script
