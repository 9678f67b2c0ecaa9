/-
  EpochQueue.Contest.Exchange — threads that swap fresh objects into one cell and retire what
  they find there, while others read it.

  Every swap and every read is made under a guard, and the threads make one step each, in
  turn. A read is bad if the object was destroyed before it was looked at. In the end all threads
  exit, and one more thread empties the cell, retires its last object and flushes.
-/

import EpochQueue.Contest.Rounds
import EpochQueue.Reclaim.Domain

namespace EpochQueue.Contest

open EpochQueue.Reclaim (Domain Guard Signal)

/-- What an agent is about to do. -/
inductive Stage where
  | outside
  | pinning
  | pinned (g : Guard)
  /-- A reader has loaded the pointer and is about to follow it. -/
  | loaded (g : Guard) (object : Option Nat)
  | retiring (g : Guard)
  | leaving (g : Guard)

structure Exchanger where
  swaps : Bool := false
  /-- How often it comes to the cell again. -/
  left : Nat := 0
  stage : Stage := .outside

instance : Inhabited Exchanger := ⟨{}⟩

structure Exchange where
  domain : Domain Nat Unit := {}
  agents : Table Exchanger := {}
  cell : Option Nat := none
  allocated : Nat := 0
  /-- For each object, whether it was destroyed. -/
  freed : Table Bool := {}
  dropped : Nat := 0
  badReads : Nat := 0

namespace Exchanger

def isDone (a : Exchanger) : Bool :=
  a.left == 0 && match a.stage with
    | .outside => true
    | _ => false

end Exchanger

namespace Exchange

def agent (s : Exchange) (t : Nat) : Exchanger := s.agents.get t

def setStage (s : Exchange) (t : Nat) (stage : Stage) : Exchange :=
  { s with agents := s.agents.modify t fun a => { a with stage } }

/-- The agent comes to the cell once more, and asks for a guard. -/
def come (s : Exchange) (t : Nat) : Exchange :=
  { s with
    domain := s.domain.pin t ()
    agents := s.agents.modify t fun a => { a with left := a.left - 1, stage := .pinning } }

def stepDomain (s : Exchange) (t : Nat) : Signal Nat Unit × Exchange :=
  let (domain, signal) := s.domain.step t
  let s := { s with domain }
  match signal with
  | .freed n => (signal, { s with freed := s.freed.set n true, dropped := s.dropped + 1 })
  | _ => (signal, s)

/-- A step of the call that `t` has open; when it returns, `t` goes on in the stage that comes next. -/
def await (s : Exchange) (t : Nat) (next : Reclaim.Answer → Stage) : Exchange :=
  match s.stepDomain t with
  | (.returned _ a, s) => s.setStage t (next a)
  | (_, s) => s

/-- Retires what was found, if anything was. -/
def retire (s : Exchange) (t : Nat) (found : Option Nat) : Exchange :=
  match found with
  | some n => { s with domain := s.domain.retire t n () }
  | none => s

/-- A fresh object takes the place of the one in the cell, which is retired. -/
def swap (s : Exchange) (t : Nat) (g : Guard) : Exchange :=
  ({ s with cell := some s.allocated, allocated := s.allocated + 1 }.retire t s.cell).setStage t
    (if s.cell.isSome then .retiring g else .leaving g)

/-- Follows a pointer to an object. -/
def look (s : Exchange) (object : Option Nat) : Exchange :=
  if object.any (s.freed.get ·) then { s with badReads := s.badReads + 1 } else s

/-- One turn of thread `t`. -/
def turn (s : Exchange) (t : Nat) : Exchange :=
  match (s.agent t).stage with
  | .outside => if (s.agent t).left = 0 then s else s.come t
  | .pinning => s.await t fun
    | .guard g => .pinned g
    | _ => .outside
  | .pinned g => if (s.agent t).swaps then s.swap t g else s.setStage t (.loaded g s.cell)
  | .loaded g object => (s.look object).setStage t (.leaving g)
  | .retiring g => s.await t fun _ => .leaving g
  | .leaving g => { s with domain := s.domain.unpin t g }.setStage t .outside

def isDone (threads : Nat) (s : Exchange) : Bool := (List.range threads).all fun t => (s.agent t).isDone

/-- The turns that an agent has at most from when it comes to the cell until it is outside again, with
    one for the destruction of what it retires. -/
def turnsEnough : Nat := 11

/-- One object is in the cell, and all agents are outside, those that swap and those that read. -/
def start (threads swaps readers : Nat) : Exchange :=
  let agents : List Exchanger :=
    (List.range (threads + readers)).map fun t => { swaps := t < threads, left := swaps }
  { cell := some 0, allocated := 1, agents := ⟨agents.toArray⟩ }

/-- The agents take turns until each of them has come to the cell as often as it should. -/
def contend (threads swaps readers : Nat) : Exchange :=
  rounds turn (isDone (threads + readers)) (threads + readers)
    (turnsEnough * (swaps * (threads + readers))) (start threads swaps readers)

/-! ## The end -/

/-- Steps thread `t` until its call is over, at most so many times. -/
def finish (t : Nat) : Nat → Exchange → Exchange
  | 0, s => s
  | n + 1, s =>
    match s.stepDomain t with
    | (.returned _ _, s) | (.idle, s) => s
    | (_, s) => finish t n s

/-- Four steps bring a call to its end, besides one for each object that it destroys. -/
def patience (s : Exchange) : Nat := s.allocated + 4

/-- Flushes until nothing is pending any more, at most so many times. -/
def flushAll (t : Nat) : Nat → Exchange → Exchange
  | 0, s => s
  | n + 1, s =>
    let s := finish t s.patience { s with domain := s.domain.flush t () }
    let (left, domain) := s.domain.pending t
    let s := { s with domain }
    if left = 0 then s else flushAll t n s

/-- All threads below `t` exit, and `t` tidies up: what three flushes leave is none. -/
def cleanUp (s : Exchange) (t : Nat) : Exchange :=
  let s := { s with domain := (List.range t).foldl (fun d u => d.exit u) s.domain }
  let s := { s with cell := none }.retire t s.cell
  flushAll t 3 (finish t s.patience s)

end Exchange

structure ExchangeReport where
  allocated : Nat
  dropped : Nat
  badReads : Nat

/-- `threads` threads make `swaps` swaps each while `readers` threads read as often. -/
def exchange (threads swaps readers : Nat) : ExchangeReport :=
  let s := (Exchange.contend threads swaps readers).cleanUp (threads + readers)
  { allocated := s.allocated, dropped := s.dropped, badReads := s.badReads }

end EpochQueue.Contest
