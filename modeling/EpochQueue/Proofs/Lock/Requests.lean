/-
  EpochQueue.Proofs.Lock.Requests — what a thread's requests to a lock come to, answered in order.

  One request either is refused, and then the lock stays as it was, or it takes the lock, gives it back,
  looks at the value or changes it (`Guarded.Serves`). So over any list of requests every one gets an
  answer, the one that it gets where it stands (`ServesAll.each`); the last request to take or to give
  back decides about the flag; the value is the first one and what the requests that were answered with
  a value have added, around the 64 bits as often as it takes; and the lock is never got twice without
  having been given back in between (`ServesAll.balance`).
-/

import EpochQueue.Lock.Desk

namespace EpochQueue.Lock

/-! ## One request -/

/-- The request was not met: the lock was held, or it was not, or there is no such request. -/
def Reply.refuses : Reply → Bool
  | .held | .free | .badOp | .granted false => true
  | _ => false

namespace Request

/-- With this reply the request has got the lock. -/
def takes : Request → Reply → Bool
  | .lock, .done | .tryLock, .granted true => true
  | _, _ => false

/-- With this reply the request has given the lock back. -/
def releases : Request → Reply → Bool
  | .unlock, .done => true
  | _, _ => false

/-- What the request has added to the value, if the reply is a value. -/
def adds : Request → Reply → Int64
  | .add x, .value _ => x
  | _, _ => 0

/-- Whether the lock is held after the request, if it was `held` before. -/
def leavesHeld (held : Bool) : Request → Bool
  | .lock | .tryLock => true
  | .unlock => false
  | _ => held

end Request

namespace Guarded

/-- `r` is answered with `reply` at `l`, and leaves `l'`. -/
structure Serves (l : Guarded Int64) (r : Request) (reply : Reply) (l' : Guarded Int64) : Prop where
  locked : l'.locked = r.leavesHeld l.locked
  value : l'.value = l.value + r.adds reply
  takes : r.takes reply = (!l.locked && l'.locked)
  releases : r.releases reply = (l.locked && !l'.locked)
  refused : reply.refuses = true → l' = l
  /-- A value that is told is the value now, told to whoever has the lock. -/
  tells : ∀ x, reply = .value x → l.locked = true ∧ x = l'.value

theorem serves (l : Guarded Int64) (r : Request) : l.Serves r (l.serve r).1 (l.serve r).2 := by
  obtain ⟨locked, value⟩ := l
  cases r <;> cases locked <;> constructor <;>
    simp [serve, tryLock, unlock, Request.leavesHeld, Request.adds, Request.takes, Request.releases, Reply.refuses]

/-! ## A list of requests -/

variable (l : Guarded Int64)

/-- The lock after a list of requests. -/
def after (l : Guarded Int64) (rs : List Request) : Guarded Int64 := rs.foldl (fun l r => (l.serve r).2) l

@[simp] theorem after_nil : l.after [] = l := rfl

@[simp] theorem after_cons (r : Request) (rs : List Request) : l.after (r :: rs) = (l.serve r).2.after rs := rfl

/-- Every request with the reply that it got. -/
def dealings (l : Guarded Int64) (rs : List Request) : List (Request × Reply) := rs.zip (l.serveAll rs)

@[simp] theorem dealings_cons (r : Request) (rs : List Request) :
    l.dealings (r :: rs) = (r, (l.serve r).1) :: (l.serve r).2.dealings rs := rfl

/-- What a list of requests is answered with, and what it leaves behind. -/
structure ServesAll (l : Guarded Int64) (rs : List Request) : Prop where
  length : (l.serveAll rs).length = rs.length
  each : ∀ before r rest, rs = before ++ r :: rest →
    (l.serveAll rs)[before.length]? = some ((l.after before).serve r).1
  locked : (l.after rs).locked = rs.foldl Request.leavesHeld l.locked
  value : (l.after rs).value = l.value + ((l.dealings rs).map fun d => d.1.adds d.2).sum
  balance : (l.dealings rs).countP (fun d => d.1.takes d.2) + l.locked.toNat =
    (l.dealings rs).countP (fun d => d.1.releases d.2) + (l.after rs).locked.toNat

variable (rs : List Request)

theorem length_serveAll : (l.serveAll rs).length = rs.length := by
  induction rs generalizing l with
  | nil => rfl
  | cons r rs ih => simp [serveAll, ih]

theorem serveAll_append (rs' : List Request) : l.serveAll (rs ++ rs') = l.serveAll rs ++ (l.after rs).serveAll rs' := by
  induction rs generalizing l with
  | nil => rfl
  | cons r rs ih => simp [serveAll, ih]

theorem locked_after : (l.after rs).locked = rs.foldl Request.leavesHeld l.locked := by
  induction rs generalizing l with
  | nil => rfl
  | cons r rs ih => rw [after_cons, ih, (l.serves r).locked, List.foldl_cons]

theorem value_after : (l.after rs).value = l.value + ((l.dealings rs).map fun d => d.1.adds d.2).sum := by
  induction rs generalizing l with
  | nil => simp [dealings]
  | cons r rs ih =>
    rw [after_cons, ih, (l.serves r).value, dealings_cons, List.map_cons, List.sum_cons, Int64.add_assoc]

/-- Between two requests that got the lock there is one that gave it back. -/
theorem countP_takes_add : (l.dealings rs).countP (fun d => d.1.takes d.2) + l.locked.toNat =
    (l.dealings rs).countP (fun d => d.1.releases d.2) + (l.after rs).locked.toNat := by
  induction rs generalizing l with
  | nil => simp [dealings]
  | cons r rs ih =>
    have hs := l.serves r
    -- this request turns the flag on, turns it off or leaves it
    have hone : (if r.takes (l.serve r).1 then 1 else 0) + l.locked.toNat =
        (if r.releases (l.serve r).1 then 1 else 0) + (l.serve r).2.locked.toNat := by
      rw [hs.takes, hs.releases]
      cases l.locked <;> cases (l.serve r).2.locked <;> rfl
    have hrest := ih (l.serve r).2
    simp only [dealings_cons, List.countP_cons, after_cons] at hrest ⊢
    omega

theorem servesAll : l.ServesAll rs where
  length := l.length_serveAll rs
  each before r rest e := by
    subst e
    simp [serveAll_append, serveAll, ← l.length_serveAll before]
  locked := l.locked_after rs
  value := l.value_after rs
  balance := l.countP_takes_add rs

end Guarded

end EpochQueue.Lock
