/-
  EpochQueue.Script.Exec — what each command does.

  `runTask` starts the task at hand of a thread's topmost frame. It delivers a result at once,
  or sets something going in the world, whose answer becomes the result later, or puts a loop
  on top of the frame, which becomes the result when it is over. An access in an order that it
  cannot have ends all of that at once, and is the result of the whole command.
-/

import EpochQueue.Script.State

namespace EpochQueue.Script.State

open EpochQueue.Reclaim (Order Guard)

variable {α : Type}

def refuse (s : State α) (t : Nat) (r : Refusal) : State α := s.deliver t (.refused r)

/-- An access in an order that it cannot have ends everything that the thread is doing; any
    other result is that of the task at hand. -/
def conclude (s : State α) (t : Nat) (r : Result α) : State α :=
  match r with
  | .misordered _ => s.giveUp t r
  | _ => s.deliver t r

/-- A loop on top of the frame at hand: `body`, so many times. -/
def loop (s : State α) (t : Nat) (inside : Bool) (rounds : Nat) (body : List (Task α))
    (gather : Gather) : State α :=
  s.pushFrame t { inside, todo := [], body, rounds, gather }

/-! ## Guards -/

/-- The guard of that number among the live ones, or the newest of them. -/
def guard? (s : State α) (t : Nat) : Option Nat → Option (Nat × Guard)
  | none => (s.worker t).guards.head?
  | some i => (s.worker t).guards.find? (·.1 == i)

def hasGuard (s : State α) (t : Nat) : Bool := !(s.worker t).guards.isEmpty

def unpin (s : State α) (t : Nat) (g : Option Nat) : State α :=
  match s.guard? t g with
  | none => s.refuse t .noGuard
  | some (i, g) =>
    let s := s.modifyWorker t fun w => { w with guards := w.guards.filter (·.1 != i) }
    (s.onWorld fun w => w.unpin t g).deliver t (.number i)

/-! ## Objects and cells -/

def retireObject (s : State α) (t i : Nat) (await : Await) : State α :=
  (s.modifyObject i fun o => { o with retired := true }).begin t await fun w => w.retire t i

def retire (s : State α) (t : Nat) (name : ObjectName) : State α :=
  match name.bind s.object? with
  | none => s.refuse t .noObject
  | some i =>
    if (s.objects[i]?).any (·.retired) then s.refuse t .noObject else s.retireObject t i .done

def plant (s : State α) (t : Nat) (value : α) (custom : Bool) (onFree : List (Command α)) :
    State α :=
  let (i, s) := s.newObject value custom onFree
  s.retireObject t i (.planted i)

/-- The order that was asked for, or the usual one; none if there is no such order. -/
def order? (name : Option String) (usual : Order) : Option Order :=
  match name with
  | none => some usual
  | some name => Order.ofName? name

def load (s : State α) (t c : Nat) (order : Option String) : Result α :=
  if !s.hasGuard t then .refused .noGuard
  else match s.cells[c]? with
    | none => .refused .noCell
    | some found => match order? order .acquire with
      | none => .refused .badOrder
      | some order => match order.faultOfLoad? with
        | some m => .misordered m
        | none => .loaded (s.loaded found)

def store (s : State α) (c : Nat) (name : ObjectName) (order : Option String) :
    Result α × State α :=
  match s.resolve name with
  | none => (.refused .noObject, s)
  | some new =>
    if c < s.cells.size then
      match order? order .release with
      | none => (.refused .badOrder, s)
      | some order => match order.faultOfStore? with
        | some m => (.misordered m, s)
        | none => (.null, { s with cells := s.cells.setIfInBounds c new })
    else (.refused .noCell, s)

def swap (s : State α) (t c : Nat) (name : ObjectName) (order : Option String) :
    Result α × State α :=
  if !s.hasGuard t then (.refused .noGuard, s)
  else match s.resolve name with
    | none => (.refused .noObject, s)
    | some new => match s.cells[c]? with
      | none => (.refused .noCell, s)
      | some found => match order? order .acqRel with
        | none => (.refused .badOrder, s)
        | some _ => (.loaded (s.loaded found), { s with cells := s.cells.setIfInBounds c new })

def cas (s : State α) (t c : Nat) (current name : ObjectName)
    (order failOrder : Option String) : Result α × State α :=
  if !s.hasGuard t then (.refused .noGuard, s)
  else match s.resolve current, s.resolve name with
    | some current, some new => match order? order .acqRel, order? failOrder .relaxed with
      | some _, some failOrder => match s.cells[c]? with
        | none => (.refused .noCell, s)
        | some found => match failOrder.faultOfFailure? with
          | some m => (.misordered m, s)
          | none =>
            if samePointer found current then
              (.compared true found, { s with cells := s.cells.setIfInBounds c new })
            else (.compared false found, s)
      | _, _ => (.refused .badOrder, s)
    | _, _ => (.refused .noObject, s)

def getMut (s : State α) (c : Nat) (name : Option ObjectName) : Result α × State α :=
  match s.cells[c]? with
  | none => (.refused .noCell, s)
  | some found => match name.map s.resolve with
    | none => (.pointer found, s)
    | some none => (.refused .noObject, s)
    | some (some new) => (.pointer found, { s with cells := s.cells.setIfInBounds c new })

def same (s : State α) (t c d : Nat) : Result α :=
  if !s.hasGuard t then .refused .noGuard
  else match s.cells[c]?, s.cells[d]? with
    | some a, some b => .bool (samePointer a b)
    | _, _ => .refused .noCell

def cellText (s : State α) (c : Nat) (shown : String) : Result α :=
  match s.cells[c]? with
  | none => .refused .noCell
  | some found => .text (pointerText shown found)

/-! ## Queues and iterators -/

def nameQueue (s : State α) (id : Nat) : Nat × State α :=
  (s.queues.size, { s with queues := s.queues.push (some id) })

/-- Goes on with queue `q` if there is one of that number. -/
def onQueue (s : State α) (t q : Nat) (f : Nat → State α) : State α :=
  match s.queue? q with
  | none => s.refuse t .noQueue
  | some id => f id

def onIterator (s : State α) (t i : Nat) (f : Nat → State α) : State α :=
  match s.iterator? i with
  | none => s.refuse t .noIterator
  | some id => f id

/-- The first `n` values, as long as there are any. -/
def popMany (id : Nat) : Nat → State α → List (Result α) × State α
  | 0, s => ([], s)
  | n + 1, s =>
    let (v, s) := s.withWorld fun w => w.pop id
    let (rest, s) := popMany id n s
    (.front v :: rest, s)

/-- A queue with these values in it. It has its number once they are all in. -/
def newQueue (s : State α) (t : Nat) (inside : Bool) (limits : Fifo.Limits) (values : List α) :
    State α :=
  let (id, s) := s.withWorld fun w => w.newQueue limits
  if values.isEmpty then
    let (q, s) := s.nameQueue id
    s.deliver t (.number q)
  else s.pushFrame t { inside, todo := values.map (.append id), gather := .queue id }

def appendAll (s : State α) (t : Nat) (inside : Bool) (id : Nat) (values : List α) : State α :=
  s.pushFrame t { inside, todo := values.map (.append id), gather := .nothing }

/-! ## Commands -/

/-- Starts a command. Inside a destructor a pin is dropped at once, and what needs a guard of
    the thread's own is not done at all. -/
def runCommand (s : State α) (t : Nat) (inside : Bool) (c : Command α) : State α :=
  match c with
  | .pin =>
    s.begin t (if inside then .passingGuard else .namedGuard) fun w => w.pin t
  | .unpin g => if inside then s.refuse t .badOp else s.unpin t g
  | .pinTimes n => s.loop t inside n [.touch] .nothing
  | .guardText =>
    if inside then s.refuse t .badOp
    else if s.hasGuard t then s.deliver t (.text "Guard \x7b .. \x7d") else s.refuse t .noGuard
  | .flush => s.begin t .flushed fun w => w.flush t
  | .pending =>
    let (n, s) := s.withWorld fun w => w.pending t
    s.deliver t (.number n)
  | .new value custom onFree =>
    let (i, s) := s.newObject value custom onFree
    s.deliver t (.number i)
  | .retire name => s.retire t name
  | .retireNew n value custom onFree => s.loop t inside n [.plant value custom onFree] .list
  | .repeated n body => s.loop t inside n (body.map .command) .list
  | .cell name => match s.resolve name with
    | none => s.refuse t .noObject
    | some found =>
      { s with cells := s.cells.push found }.deliver t (.number s.cells.size)
  | .load c order => if inside then s.refuse t .badOp else s.conclude t (s.load t c order)
  | .store c name order => let (r, s) := s.store c name order; s.conclude t r
  | .swap c name order =>
    if inside then s.refuse t .badOp
    else let (r, s) := s.swap t c name order; s.deliver t r
  | .cas c current name order failOrder =>
    if inside then s.refuse t .badOp
    else let (r, s) := s.cas t c current name order failOrder; s.conclude t r
  | .getMut c name => let (r, s) := s.getMut c name; s.deliver t r
  | .same c d => if inside then s.refuse t .badOp else s.deliver t (s.same t c d)
  | .cellText c => s.deliver t (s.cellText c "Atomic")
  | .sharedText c =>
    if inside then s.refuse t .badOp
    else if s.hasGuard t then s.deliver t (s.cellText c "Shared") else s.refuse t .noGuard
  | .newQueue limits values => s.newQueue t inside limits values
  | .enqueue q v => s.onQueue t q fun id => s.begin t .done fun w => w.enqueue t id v
  | .enqueueMany q vs => s.onQueue t q fun id => s.appendAll t inside id vs
  | .tryEnqueue q v outOfMemory => s.onQueue t q fun id =>
    let (back, s) := (s.modifyTop t fun top => { top with await := some .attempted }).withWorld
      fun w => w.tryEnqueue t id v (!outOfMemory)
    match back with
    | some v => (s.note .allocFailed).deliver t (.outOfMemory v)
    | none => s
  | .dequeue q => s.onQueue t q fun id => s.begin t .front fun w => w.dequeue t id
  | .dequeueMany q n => s.onQueue t q fun id => s.loop t inside n [.take id] .list
  | .isEmpty q => s.onQueue t q fun id => s.begin t .emptiness fun w => w.isEmpty t id
  | .live q => s.onQueue t q fun id => s.deliver t (.number (s.world.store.queue id).live)
  | .limits q => s.onQueue t q fun id => s.deliver t (.limits (s.world.store.queue id).limits)
  | .queueText q alternate => s.onQueue t q fun id =>
    s.begin t (.queueText (s.world.store.queue id).limits alternate) fun w => w.isEmpty t id
  | .extend q vs => s.onQueue t q fun id => s.appendAll t inside id vs
  | .dropQueue q => s.onQueue t q fun id =>
    ({ s with queues := s.queues.setIfInBounds q none }.dropQueue id).deliver t .null
  | .iterate q => s.onQueue t q fun id =>
    { s with
      queues := s.queues.setIfInBounds q none
      iterators := s.iterators.push (some id) }.deliver t (.number s.iterators.size)
  | .next i n => s.onIterator t i fun id =>
    match n with
    | none =>
      let (v, s) := s.withWorld fun w => w.pop id
      s.deliver t (.front v)
    | some n =>
      let (rs, s) := popMany id n s
      s.deliver t (.list rs)
  | .iteratorText i alternate => s.onIterator t i fun id =>
    s.begin t (.iteratorText (s.world.store.queue id).limits alternate) fun w => w.isEmpty t id
  | .collect i => s.onIterator t i fun id =>
    let (vs, s) := s.withWorld fun w => w.drain id
    ({ s with iterators := s.iterators.setIfInBounds i none }.dropQueue id).deliver t (.values vs)
  | .dropIterator i => s.onIterator t i fun id =>
    ({ s with iterators := s.iterators.setIfInBounds i none }.dropQueue id).deliver t .null
  | .unknown _ => s.refuse t .badOp

def runTask (s : State α) (t : Nat) (inside : Bool) : Task α → State α
  | .command c => s.runCommand t inside c
  | .touch => s.begin t .passingGuard fun w => w.pin t
  | .plant value custom onFree => s.plant t value custom onFree
  | .append id v => s.begin t .done fun w => w.enqueue t id v
  | .take id => s.begin t .front fun w => w.dequeue t id

end EpochQueue.Script.State
