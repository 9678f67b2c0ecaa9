/-
  EpochQueue.Reclaim.Domain — epoch-based reclamation for any number of threads, as a machine
  that moves in single steps.

  A thread owns a handle from its first use of the domain until it exits; afterwards it works
  without one: each guard then has a slot of its own, each retired node is orphaned at once,
  and a flush looks after the orphans only. Guards that outlive their handle leave its slot
  pinned; the last of them gives the slot back.

  A call is opened by `pin`, `retire` or `flush` and advanced by `step`, one phase at a time:
  publishing the epoch read at the start, trying to advance the global epoch, selecting what
  has expired, and then destroying it, one node a step. Between two steps of a call other
  threads may do anything. A step that destroys a node says so, and before the next step of
  that call the node's destructor may open further calls on the same thread; they stand on top
  of it and return first. Each call carries a ticket, which its opener gets back with the
  answer. Dropping a guard, exiting and asking what is pending take one step each and run no
  destructor.

  `trace` has everything of note that happened, oldest first.
-/

import EpochQueue.Reclaim.Handle
import EpochQueue.Reclaim.Registry
import EpochQueue.Table

namespace EpochQueue.Reclaim

/-- The right to follow shared pointers, held by the thread that pinned. -/
structure Guard where
  /-- No two guards of a domain have the same. -/
  serial : Nat
  tid : Nat
  /-- Pinned through a slot of its own, because the thread had no handle any more. -/
  detached : Bool
  deriving Repr, DecidableEq, Inhabited

inductive Tenure (ν : Type) where
  /-- The thread has not used its handle yet. -/
  | unused
  | live (h : Handle ν)
  /-- The handle was destroyed. -/
  | gone
  deriving Repr

/-- What a call answers when it is over. -/
inductive Purpose where
  | pin (tid : Nat) (detached : Bool)
  | retire
  | flush
  deriving Repr, DecidableEq

inductive Phase (ν : Type) where
  /-- The global epoch was read; it is about to be published in the slot. -/
  | publish (tid : Nat) (epoch : Epoch) (detached : Bool)
  /-- A collection is about to try to advance the global epoch. -/
  | advance (purpose : Purpose)
  /-- It is about to adopt the orphans and to take out what has expired at `global`. -/
  | select (purpose : Purpose) (global : Epoch)
  /-- It destroys what it has taken out. A call that collects nothing starts here, with
      nothing to do. -/
  | free (purpose : Purpose) (todo : List ν) (freed : Nat)
  deriving Repr

structure Call (ν κ : Type) where
  ticket : κ
  phase : Phase ν
  deriving Repr

structure Thread (ν κ : Type) where
  tenure : Tenure ν := .unused
  /-- The guards that are alive, the newest first. -/
  guards : List Guard := []
  /-- The open calls, the innermost first. -/
  calls : List (Call ν κ) := []
  deriving Repr

instance {ν κ : Type} : Inhabited (Thread ν κ) := ⟨{}⟩

inductive Notice (ν : Type) where
  | registered (tid : Nat)
  | released (tid : Nat)
  /-- A thread without a handle was pinned through this slot. -/
  | detached (tid : Nat)
  /-- A handle was destroyed under that many live guards. -/
  | stray (tid guards : Nat)
  | advanced (epoch : Epoch)
  | orphaned (bags : Nat)
  | adopted (bags : Nat)
  | pinned (g : Guard)
  | unpinned (g : Guard)
  | retired (n : ν)
  | freed (n : ν)
  /-- A call returned that freed so many nodes. -/
  | returned (freed : Nat)
  deriving Repr

/-- The answer of a call. -/
inductive Answer where
  | guard (g : Guard)
  | retired
  /-- A flush, and how many nodes it freed. -/
  | flushed (freed : Nat)
  deriving Repr, DecidableEq

/-- What one step of a thread's innermost call amounts to. -/
inductive Signal (ν κ : Type) where
  /-- No call is open. -/
  | idle
  | quiet
  /-- This node's destructor runs now. -/
  | freed (n : ν)
  | returned (ticket : κ) (answer : Answer)

structure Domain (ν κ : Type) where
  registry : Registry := {}
  /-- Bags whose owner is gone, in the order in which they came. -/
  orphans : List (Bag ν) := []
  threads : Table (Thread ν κ) := {}
  nextGuard : Nat := 0
  trace : Array (Notice ν) := #[]

namespace Domain

variable {ν κ : Type}

def thread (d : Domain ν κ) (t : Nat) : Thread ν κ := d.threads.get t

def modifyThread (d : Domain ν κ) (t : Nat) (f : Thread ν κ → Thread ν κ) : Domain ν κ :=
  { d with threads := d.threads.modify t f }

def note (d : Domain ν κ) (n : Notice ν) : Domain ν κ := { d with trace := d.trace.push n }

def setHandle (d : Domain ν κ) (t : Nat) (h : Handle ν) : Domain ν κ :=
  d.modifyThread t fun th => { th with tenure := .live h }

/-- The handle that `t` works with; a fresh one at the first use, none after the end. -/
def handle? (d : Domain ν κ) (t : Nat) : Option (Handle ν) :=
  match (d.thread t).tenure with
  | .unused => some {}
  | .live h => some h
  | .gone => none

def openCall (d : Domain ν κ) (t : Nat) (ticket : κ) (phase : Phase ν) : Domain ν κ :=
  d.modifyThread t fun th => { th with calls := ⟨ticket, phase⟩ :: th.calls }

/-- The innermost call goes on in `phase`. -/
def setPhase (d : Domain ν κ) (t : Nat) (phase : Phase ν) : Domain ν κ :=
  d.modifyThread t fun th =>
    match th.calls with
    | c :: rest => { th with calls := { c with phase := phase } :: rest }
    | [] => th

def closeCall (d : Domain ν κ) (t : Nat) : Domain ν κ :=
  d.modifyThread t fun th => { th with calls := th.calls.tail }

/-! ## Slots -/

def register (d : Domain ν κ) : Nat × Domain ν κ :=
  let (tid, r) := d.registry.register
  (tid, { d with registry := r }.note (.registered tid))

/-- The slot becomes quiescent and its id free. -/
def release (d : Domain ν κ) (tid : Nat) : Domain ν κ :=
  { d with registry := (d.registry.unpin tid).release tid }.note (.released tid)

/-! ## Orphans -/

/-- Bags change hands to whoever collects next. Handing over none leaves no trace. -/
def orphan (d : Domain ν κ) (bags : List (Bag ν)) : Domain ν κ :=
  if bags.isEmpty then d
  else { d with orphans := d.orphans ++ bags }.note (.orphaned bags.length)

/-- All orphans, taken off the list. -/
def adopt (d : Domain ν κ) : List (Bag ν) × Domain ν κ :=
  if d.orphans.isEmpty then ([], d)
  else (d.orphans, { d with orphans := [] }.note (.adopted d.orphans.length))

/-! ## Opening calls -/

/-- Asks for a guard. An outermost pin reads the global epoch here and publishes it in the
    next step; an inner one has nothing left to do. -/
def pin (d : Domain ν κ) (t : Nat) (ticket : κ) : Domain ν κ :=
  match d.handle? t with
  | some h =>
    let (tid, d) : Nat × Domain ν κ := match h.slot with
      | some tid => (tid, d)
      | none => d.register
    let d := d.setHandle t { h with slot := some tid, pinCount := h.pinCount + 1 }
    if h.pinCount = 0 then d.openCall t ticket (.publish tid d.registry.epoch false)
    else d.openCall t ticket (.free (.pin tid false) [] 0)
  | none =>
    let (tid, d) := d.register
    d.openCall t ticket (.publish tid d.registry.epoch true)

/-- Hands a node over to be destroyed once nobody can reach it. A full batch is sealed and
    collected at once. -/
def retire (d : Domain ν κ) (t : Nat) (n : ν) (ticket : κ) : Domain ν κ :=
  let d := d.note (.retired n)
  match d.handle? t with
  | some h =>
    let h := h.retire n
    if h.isFull then (d.setHandle t (h.sealBatch d.registry.epoch)).openCall t ticket (.advance .retire)
    else (d.setHandle t h).openCall t ticket (.free .retire [] 0)
  | none =>
    (d.orphan [Bag.single d.registry.epoch n]).openCall t ticket (.free .retire [] 0)

/-- Seals the batch and collects. -/
def flush (d : Domain ν κ) (t : Nat) (ticket : κ) : Domain ν κ :=
  match d.handle? t with
  | some h => (d.setHandle t (h.sealBatch d.registry.epoch)).openCall t ticket (.advance .flush)
  | none => d.openCall t ticket (.advance .flush)

/-! ## Calls that are over at once -/

/-- How many nodes wait to be freed by `t`. -/
def pending (d : Domain ν κ) (t : Nat) : Nat × Domain ν κ :=
  match d.handle? t with
  | some h => (h.pending, d.setHandle t h)
  | none => (0, d)

/-- The guard's part of a slot is given up: a detached guard releases its slot, a guard of a
    live handle is counted down there, and one whose handle is gone is counted down on the
    slot itself, the last one releasing it. -/
def unguard (d : Domain ν κ) (t : Nat) (g : Guard) : Domain ν κ :=
  if g.detached then d.release g.tid
  else match d.handle? t with
    | some h =>
      let d := d.setHandle t { h with pinCount := h.pinCount - 1 }
      match h.slot with
      | some tid => if h.pinCount = 1 then { d with registry := d.registry.unpin tid } else d
      | none => d
    | none =>
      let left := (d.registry.slot g.tid).stray
      let d := { d with registry := d.registry.setStray g.tid (left - 1) }
      if left ≤ 1 then d.release g.tid else d

/-- Drops a guard of `t`, at whatever place among the others. -/
def unpin (d : Domain ν κ) (t : Nat) (g : Guard) : Domain ν κ :=
  ((d.modifyThread t fun th => { th with guards := th.guards.erase g }).unguard t g).note
    (.unpinned g)

/-- The handle, if there ever was one, is destroyed: its batch is sealed, its bags are
    orphaned, and its slot is released unless live guards still need it. -/
def exit (d : Domain ν κ) (t : Nat) : Domain ν κ :=
  match (d.thread t).tenure with
  | .live h =>
    let d := d.modifyThread t fun th => { th with tenure := .gone }
    let d := d.orphan (h.sealBatch d.registry.epoch).bags
    match h.slot with
    | none => d
    | some tid =>
      if h.pinCount = 0 then d.release tid
      else { d with registry := d.registry.setStray tid h.pinCount }.note (.stray tid h.pinCount)
  | _ => d

/-! ## Advancing calls -/

/-- The epoch is published. Every `collectEvery`-th outermost pin of a handle collects. -/
def publish (d : Domain ν κ) (t tid : Nat) (epoch : Epoch) (detached : Bool) : Domain ν κ :=
  let d := { d with registry := d.registry.pin tid epoch }
  if detached then (d.note (.detached tid)).setPhase t (.free (.pin tid true) [] 0)
  else match d.handle? t with
    | some h =>
      if collectEvery ≤ h.pinsSinceCollect + 1 then
        (d.setHandle t { h with pinsSinceCollect := 0 }).setPhase t (.advance (.pin tid false))
      else
        (d.setHandle t { h with pinsSinceCollect := h.pinsSinceCollect + 1 }).setPhase t
          (.free (.pin tid false) [] 0)
    | none => d.setPhase t (.free (.pin tid false) [] 0)

def advance (d : Domain ν κ) (t : Nat) (purpose : Purpose) : Domain ν κ :=
  let before := d.registry.epoch
  let (global, r) := d.registry.tryAdvance
  let d := { d with registry := r }
  let d := if global = before then d else d.note (.advanced global)
  d.setPhase t (.select purpose global)

/-- With a handle the orphans join its bags, and what has not expired stays there. Without
    one, what has not expired is orphaned again. -/
def select (d : Domain ν κ) (t : Nat) (purpose : Purpose) (global : Epoch) : Domain ν κ :=
  let (adopted, d) := d.adopt
  match d.handle? t with
  | some h =>
    let (expired, h) := h.sift adopted global
    (d.setHandle t h).setPhase t (.free purpose (Bag.contents expired) 0)
  | none =>
    let (expired, waiting) := adopted.partition (·.isExpired global)
    (d.orphan waiting).setPhase t (.free purpose (Bag.contents expired) 0)

/-- The innermost call is over. A pin creates its guard here. -/
def answer (d : Domain ν κ) (t : Nat) (ticket : κ) (purpose : Purpose) (freed : Nat) :
    Domain ν κ × Signal ν κ :=
  let d := (d.closeCall t).note (.returned freed)
  match purpose with
  | .pin tid detached =>
    let g : Guard := ⟨d.nextGuard, tid, detached⟩
    let d := { d with nextGuard := d.nextGuard + 1 }
    let d := d.modifyThread t fun th => { th with guards := g :: th.guards }
    (d.note (.pinned g), .returned ticket (.guard g))
  | .retire => (d, .returned ticket .retired)
  | .flush => (d, .returned ticket (.flushed freed))

/-- One step of the innermost call of `t`. -/
def step (d : Domain ν κ) (t : Nat) : Domain ν κ × Signal ν κ :=
  match (d.thread t).calls with
  | [] => (d, .idle)
  | c :: _ =>
    match c.phase with
    | .publish tid epoch detached => (d.publish t tid epoch detached, .quiet)
    | .advance purpose => (d.advance t purpose, .quiet)
    | .select purpose global => (d.select t purpose global, .quiet)
    | .free purpose (n :: rest) freed =>
      ((d.setPhase t (.free purpose rest (freed + 1))).note (.freed n), .freed n)
    | .free purpose [] freed => d.answer t c.ticket purpose freed

/-- Nothing is under way on `t`, or the destructor of a node is: then it may open a call. -/
def mayCall (d : Domain ν κ) (t : Nat) : Bool :=
  match (d.thread t).calls with
  | [] => true
  | c :: _ => match c.phase with
    | .free _ _ freed => 0 < freed
    | _ => false

end Domain

end EpochQueue.Reclaim
