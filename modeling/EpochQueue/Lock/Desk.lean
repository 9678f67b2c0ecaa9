/-
  EpochQueue.Lock.Desk — one thread's requests to a lock around a 64-bit number.

  Asking to lock a lock that is held would wait for ever, so it is refused; so is looking at
  the value, changing it or letting go without the lock. `add` wraps around.
-/

import EpochQueue.Lock.Basic

namespace EpochQueue.Lock

inductive Request where
  | lock
  | tryLock
  | unlock
  | get
  | add (x : Int64)
  | unknown

inductive Reply where
  | done
  | granted (got : Bool)
  | value (x : Int64)
  | held
  | free
  | badOp

def Guarded.serve (l : Guarded Int64) : Request → Reply × Guarded Int64
  | .lock => if l.locked then (.held, l) else (.done, l.tryLock.2)
  | .tryLock => let (got, l) := l.tryLock; (.granted got, l)
  | .unlock => if l.locked then (.done, l.unlock) else (.free, l)
  | .get => if l.locked then (.value l.value, l) else (.free, l)
  | .add x =>
    if l.locked then (.value (l.value + x), { l with value := l.value + x }) else (.free, l)
  | .unknown => (.badOp, l)

/-- The replies to a list of requests, in order. -/
def Guarded.serveAll (l : Guarded Int64) : List Request → List Reply
  | [] => []
  | r :: rest => let (reply, l) := l.serve r; reply :: l.serveAll rest

end EpochQueue.Lock
