/-
  EpochQueue.Contest.Traffic — producers and consumers on one queue, taking turns.

  Each producer enqueues its own numbered values in order; the consumers dequeue until every
  value has come through. The threads make one step each, in turn, so the operations overlap
  access by access. Afterwards all of them exit, and what came through is counted: what is
  missing, what came twice, and what a consumer saw out of its producer's order.
-/

import EpochQueue.Contest.Rounds
import EpochQueue.Fifo.World

namespace EpochQueue.Contest

open EpochQueue.Fifo (World Limits Signal)

/-- A value: its producer and its place among that producer's values. -/
abbrev Ware := Nat × Nat

inductive Agent where
  | producer (todo : List Ware) (waiting : Bool)
  /-- What the consumer got, the newest first. -/
  | consumer (got : List Ware) (waiting : Bool)

instance : Inhabited Agent := ⟨.producer [] false⟩

structure Traffic where
  world : World Ware := {}
  agents : Table Agent := {}
  queue : Nat := 0
  total : Nat := 0
  received : Nat := 0

namespace Traffic

def agent (s : Traffic) (t : Nat) : Agent := s.agents.get t

def setAgent (s : Traffic) (t : Nat) (a : Agent) : Traffic := { s with agents := s.agents.set t a }

/-- The agent has nothing under way and will not begin anything any more. -/
def isDone (s : Traffic) (t : Nat) : Bool :=
  match s.agent t with
  | .producer todo waiting => todo.isEmpty && !waiting
  | .consumer _ waiting => s.total ≤ s.received && !waiting

def allDone (threads : Nat) (s : Traffic) : Bool := (List.range threads).all s.isDone

def stepWorld (s : Traffic) (t : Nat) : Signal Ware × Traffic :=
  let (world, signal) := s.world.step t
  (signal, { s with world })

/-- The next of the values that a producer has to send is on its way. -/
def send (s : Traffic) (t : Nat) (v : Ware) (todo : List Ware) : Traffic :=
  { s with world := s.world.enqueue t s.queue v }.setAgent t (.producer todo true)

def seek (s : Traffic) (t : Nat) (got : List Ware) : Traffic :=
  { s with world := s.world.dequeue t s.queue }.setAgent t (.consumer got true)

/-- One turn of thread `t`. -/
def turn (s : Traffic) (t : Nat) : Traffic :=
  match s.agent t with
  | .producer todo true =>
    match s.stepWorld t with
    | (.finished _, s) => s.setAgent t (.producer todo false)
    | (_, s) => s
  | .producer (v :: todo) false => s.send t v todo
  | .producer [] false => s
  | .consumer got true =>
    match s.stepWorld t with
    | (.finished (.dequeued (some v)), s) =>
      { s with received := s.received + 1 }.setAgent t (.consumer (v :: got) false)
    | (.finished _, s) => s.setAgent t (.consumer got false)
    | (_, s) => s
  | .consumer got false => if s.total ≤ s.received then s else s.seek t got

/-- The wares of a producer, in the order in which it sends them. -/
def wares (per p : Nat) : List Ware := (List.range per).map (p, ·)

def start (producers consumers per : Nat) (limits : Limits) : Traffic :=
  let (queue, world) := ({} : World Ware).newQueue limits
  let agents := (List.range producers).map (fun p => Agent.producer (wares per p) false)
    ++ List.replicate consumers (Agent.consumer [] false)
  { world, agents := ⟨agents.toArray⟩, queue, total := producers * per }

/-- What is to be done for every ware: an enqueue begins, links it and returns; a dequeue takes it out and
    returns with it; and its link is destroyed at some time. -/
def deedsEach : Nat := 6

/-- The turns in a row after which a thread has got something done, if no other thread has. An operation
    takes 19 at most, and one that comes back with nothing is followed by another, after one more. -/
def patience : Nat := 40

/-- The agents take turns until every value has come through. Besides what is done for the wares, every
    consumer finds out that there are no more, and the first link of the queue may be destroyed. -/
def contend (producers consumers per : Nat) (limits : Limits) : Traffic :=
  rounds turn (allDone (producers + consumers)) (producers + consumers)
    ((deedsEach * (producers * per) + consumers + 1) * patience) (start producers consumers per limits)

/-! ## The end -/

/-- Steps thread `t` until its operation or call is over, at most so many times. -/
def await (t : Nat) : Nat → Traffic → Signal Ware × Traffic
  | 0, s => (.idle, s)
  | n + 1, s =>
    match s.stepWorld t with
    | (.finished r, s) => (.finished r, s)
    | (.answered a, s) => (.answered a, s)
    | (_, s) => await t n s

/-- The steps that bring one operation or call to its end when nobody else moves: 19, besides one for
    each link that it destroys. -/
def stepsEnough (s : Traffic) : Nat := s.world.store.nextLink + 19

/-- Flushes until nothing is pending any more, at most so many times. -/
def flushAll (t : Nat) : Nat → Traffic → Traffic
  | 0, s => s
  | n + 1, s =>
    let (_, s) := await t s.stepsEnough { s with world := s.world.flush t }
    let (left, world) := s.world.pending t
    let s := { s with world }
    if left = 0 then s else flushAll t n s

/-- All threads below `t` exit. -/
def exitBelow (s : Traffic) (t : Nat) : Traffic :=
  { s with world := (List.range t).foldl (fun w u => w.exit u) s.world }

/-- A last dequeue by `t`, and whether it gave nothing. -/
def findsNothing (s : Traffic) (t : Nat) : Bool × Traffic :=
  match await t s.stepsEnough { s with world := s.world.dequeue t s.queue } with
  | (.finished (.dequeued none), s) => (true, s)
  | (_, s) => (false, s)

/-- `t` asks whether the queue is empty. -/
def asksEmpty (s : Traffic) (t : Nat) : Bool × Traffic :=
  match await t s.stepsEnough { s with world := s.world.isEmpty t s.queue } with
  | (.finished (.emptiness b), s) => (b, s)
  | (_, s) => (false, s)

/-- What a consumer got, the oldest first. -/
def got (s : Traffic) (t : Nat) : Option (List Ware) :=
  match s.agent t with
  | .consumer got _ => some got.reverse
  | .producer _ _ => none

end Traffic

/-- How often each ware came through, by producer and place. -/
def tally (producers per : Nat) (got : List Ware) : Array Nat :=
  got.foldl (fun counts v => counts.modify (v.1 * per + v.2) (· + 1))
    (Array.replicate (producers * per) 0)

/-- How many of the wares, oldest first, came after a later one of the same producer. -/
def disorder (producers : Nat) (got : List Ware) : Nat :=
  (got.foldl (fun (acc : Nat × Array Nat) v =>
      let reached := (acc.2[v.1]?).getD 0
      if v.2 < reached then (acc.1 + 1, acc.2) else (acc.1, acc.2.setIfInBounds v.1 (v.2 + 1)))
    (0, Array.replicate producers 0)).1

structure TrafficReport where
  received : Nat
  lost : Nat
  duplicated : Nat
  disorder : Nat
  /-- A last dequeue gave nothing, and the queue said that it was empty. -/
  empty : Bool
  live : Nat

/-- `producers` threads send `per` values each to `consumers` threads. What three flushes leave at the
    end is none. -/
def traffic (producers consumers per : Nat) (limits : Limits) : TrafficReport :=
  let s := Traffic.contend producers consumers per limits
  let last := producers + consumers
  let (nothing, s) := (s.exitBelow last).findsNothing last
  let (isEmpty, s) := s.asksEmpty last
  let s := Traffic.flushAll last 3 s
  let perConsumer := (List.range last).filterMap s.got
  let got := perConsumer.flatten
  let counts := tally producers per got
  { received := got.length
    lost := (counts.filter (· == 0)).size
    duplicated := counts.foldl (fun n c => n + (c - 1)) 0
    disorder := perConsumer.foldl (fun n got => n + disorder producers got) 0
    empty := nothing && isEmpty
    live := (s.world.store.queue s.queue).live }

end EpochQueue.Contest
