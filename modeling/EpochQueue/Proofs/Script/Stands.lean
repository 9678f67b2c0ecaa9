/-
  EpochQueue.Proofs.Script.Stands — how a thread's frames, its calls and its operation belong
  together.

  The lowest frame is the command that the script gave the thread. On a frame that goes on with its
  tasks stands a loop; on a frame that waits for a call stands the destructor that runs inside the
  call (`Under`). The topmost frame goes on, or waits for the innermost call or for the operation
  under way (`Stands`).

  `Seated` adds what the thread holds: its guards are those that the script has a number for and
  those of its operations. In destructors no store asks for an order that stores cannot have
  (`Command.orderly`), so no call is ever given up.
-/

import EpochQueue.Proofs.Fifo.Loads
import EpochQueue.Script.Exec

namespace EpochQueue.Script

open EpochQueue.Fifo (Garbage Operation Ticketed gripsOf)
open EpochQueue.Reclaim (Call Phase Thread)

variable {α : Type}

/-! ## Orders -/

/-- The order that a store asks for is none that stores cannot have. -/
def storable (order : Option String) : Bool := ((State.order? order .release).bind (·.faultOfStore?)).isNone

namespace Command

mutual
/-- No destructor that comes of the command, which is `inside` one or not, stores in an order that
    stores cannot have. -/
def orderly (inside : Bool) : Command α → Bool
  | .store _ _ order => !inside || storable order
  | .new _ _ onFree | .retireNew _ _ _ onFree => allOrderly true onFree
  | .repeated _ body => allOrderly inside body
  | _ => true

def allOrderly (inside : Bool) : List (Command α) → Bool
  | [] => true
  | c :: rest => c.orderly inside && allOrderly inside rest
end

theorem allOrderly_iff {inside : Bool} {cs : List (Command α)} :
    allOrderly inside cs = true ↔ ∀ c ∈ cs, c.orderly inside = true := by
  induction cs with
  | nil => simp [allOrderly]
  | cons c cs ih => simp [allOrderly, ih]

end Command

/-- The queues that a task works on were made, and its commands are orderly. -/
def Task.Fine (n : Nat) (inside : Bool) : Task α → Prop
  | .command c => c.orderly inside = true
  | .touch => True
  | .plant _ _ onFree => Command.allOrderly true onFree = true
  | .append id _ | .take id => id < n

theorem Task.Fine.mono {n n' : Nat} {inside : Bool} {task : Task α} (h : task.Fine n inside) (hn : n ≤ n') :
    task.Fine n' inside := by
  cases task with
  | append | take => exact Nat.lt_of_lt_of_le h hn
  | _ => exact h

theorem Task.fine_commands {n : Nat} {inside : Bool} {cs : List (Command α)} (h : Command.allOrderly inside cs = true) :
    ∀ task ∈ cs.map Task.command, task.Fine n inside := fun task ht => by
  obtain ⟨c, hc, rfl⟩ := List.mem_map.mp ht
  exact Command.allOrderly_iff.mp h c hc

theorem Task.fine_appends {n id : Nat} {inside : Bool} (h : id < n) (vs : List α) :
    ∀ task ∈ vs.map (Task.append id), task.Fine n inside := fun task ht => by
  obtain ⟨v, -, rfl⟩ := List.mem_map.mp ht
  exact h

namespace Frame

/-- The frame after its task at hand, which came to `r`. -/
def after (f : Frame α) (r : Result α) : Frame α :=
  { f with
    todo := f.todo.tail
    await := none
    results := match f.gather with
      | .sole | .list => r :: f.results
      | .nothing | .queue _ => f.results }

/-- All that the frame still has to do can be done, where `n` queues were made. -/
structure Fine (n : Nat) (f : Frame α) : Prop where
  todo : ∀ task ∈ f.todo, task.Fine n f.inside
  body : ∀ task ∈ f.body, task.Fine n f.inside
  queue : ∀ id, f.gather = .queue id → id < n
  /-- A destructor keeps no guard. -/
  named : f.await = some .namedGuard → f.inside = false

theorem Fine.mono {n n' : Nat} {f : Frame α} (h : f.Fine n) (hn : n ≤ n') : f.Fine n' :=
  ⟨fun task ht => (h.todo task ht).mono hn, fun task ht => (h.body task ht).mono hn,
    fun id e => Nat.lt_of_lt_of_le (h.queue id e) hn, h.named⟩

theorem Fine.after {n : Nat} {f : Frame α} (h : f.Fine n) (r : Result α) : (f.after r).Fine n :=
  ⟨fun task ht => h.todo task (List.mem_of_mem_tail ht), h.body, h.queue, nofun⟩

theorem Fine.await {n : Nat} {f : Frame α} (h : f.Fine n) {a : Await} (ha : a = .namedGuard → f.inside = false) :
    ({ f with await := some a } : Frame α).Fine n := ⟨h.todo, h.body, h.queue, fun e => ha (Option.some.inj e)⟩

end Frame

/-! ## Frames on frames -/

/-- A frame that is to say what a flush freed waits for a flush of its own. -/
def Await.Fits (a : Await) (c : Call Garbage (Option (Operation α))) : Prop :=
  a = .flushed → c.ticket = none ∧ c.phase.isFlush = true

theorem Await.Fits.goesOn {a : Await} {c : Call Garbage (Option (Operation α))} (h : a.Fits c) {q : Phase Garbage}
    (hflush : q.isFlush = c.phase.isFlush) : a.Fits { c with phase := q } :=
  fun e => ⟨(h e).1, hflush.trans (h e).2⟩

/-- What a frame stands on, and the calls that are open under it. -/
inductive Under : Frame α → List (Frame α) → List (Call Garbage (Option (Operation α))) → Prop
  | ground {f : Frame α} : f.object = none → f.inside = false → Under f [] []
  | loop {f g : Frame α} {below calls} : f.object = none → f.inside = g.inside → g.await = none →
      Under g below calls → Under f (g :: below) calls
  | destructor {f g : Frame α} {below a c calls} : f.object.isSome = true → f.inside = true → g.await = some a →
      a.Fits c → c.phase.isFreeing = true → Under g below calls → Under f (g :: below) (c :: calls)

/-- The frames of a thread match the operation and the calls that it has under way. -/
inductive Stands : List (Frame α) → Option (Operation α) → List (Call Garbage (Option (Operation α))) → Prop
  | idle : Stands [] none []
  | ready {f : Frame α} {below calls} : f.await = none → Under f below calls → Stands (f :: below) none calls
  | working {f : Frame α} {below calls a o} : f.await = some a → a ≠ .flushed → Under f below calls →
      Stands (f :: below) (some o) calls
  | calling {f : Frame α} {below calls a c} : f.await = some a → a.Fits c → Under f below calls →
      Stands (f :: below) none (c :: calls)

namespace Stands

variable {f : Frame α} {below : List (Frame α)} {a : Await} {o : Operation α}
  {calls : List (Call Garbage (Option (Operation α)))} {c : Call Garbage (Option (Operation α))}

theorem of_working (h : Stands (f :: below) (some o) calls) (ha : f.await = some a) :
    a ≠ .flushed ∧ Under f below calls := by
  cases h with
  | working hw hne hu => exact ⟨Option.some.inj (ha.symm.trans hw) ▸ hne, hu⟩

theorem of_calling (h : Stands (f :: below) none (c :: calls)) (ha : f.await = some a) :
    a.Fits c ∧ Under f below calls := by
  cases h with
  | ready hn => rw [hn] at ha; cases ha
  | calling hw hfits hu => exact ⟨Option.some.inj (ha.symm.trans hw) ▸ hfits, hu⟩

end Stands

namespace Under

variable {f f' : Frame α} {below : List (Frame α)} {calls : List (Call Garbage (Option (Operation α)))}

/-- It does not matter what the frame itself has still to do. -/
theorem congr (h : Under f below calls) (ho : f'.object = f.object) (hi : f'.inside = f.inside) :
    Under f' below calls := by
  cases h with
  | ground h1 h2 => exact .ground (ho.trans h1) (hi.trans h2)
  | loop h1 h2 h3 h4 => exact .loop (ho.trans h1) (hi.trans h2) h3 h4
  | destructor h1 h2 h3 h4 h5 h6 => exact .destructor (ho ▸ h1) (hi.trans h2) h3 h4 h5 h6

/-- Under a frame is no call, or one that destroys. -/
theorem freeing (h : Under f below calls) : (calls.head?.map (·.phase.isFreeing)).getD true = true := by
  induction h with
  | ground => rfl
  | loop _ _ _ _ ih => exact ih
  | destructor _ _ _ _ hc _ => exact hc

/-- Outside of destructors no call is open under a frame. -/
theorem outside (h : Under f below calls) (hi : f.inside = false) :
    calls = [] ∧ ∀ g ∈ f :: below, g.object = none := by
  induction h with
  | ground ho _ => exact ⟨rfl, fun g hg => List.mem_singleton.mp hg ▸ ho⟩
  | loop ho he _ _ ih =>
    obtain ⟨hc, hb⟩ := ih (he ▸ hi)
    exact ⟨hc, fun g hg => (List.mem_cons.mp hg).elim (· ▸ ho) (hb g)⟩
  | destructor _ hin => rw [hi] at hin; cases hin

/-- Above a frame that waits is a destructor and what it has come to. -/
theorem inside (h : Under f below calls) {above : List (Frame α)} {base : Frame α} (hb : below = above ++ [base])
    (hw : base.await.isSome = true) : f.inside = true := by
  induction h generalizing above with
  | ground => simp at hb
  | loop _ he ha _ ih =>
    cases above with
    | nil =>
      cases hb
      rw [ha] at hw
      cases hw
    | cons g above =>
      rw [he]
      exact ih (List.cons.inj hb).2
  | destructor _ hin => exact hin

/-- A lowest frame has no call under it. -/
theorem ground_calls (h : Under f [] calls) : calls = [] ∧ f.object = none ∧ f.inside = false := by
  cases h with
  | ground ho hi => exact ⟨rfl, ho, hi⟩

end Under

/-! ## What a thread holds -/

/-- The worker `w` of a thread, which works on `op`, stands as the domain has the thread. -/
structure Seated (n : Nat) (w : Worker α) (op : Option (Operation α)) (th : Thread Garbage (Option (Operation α))) :
    Prop where
  stands : Stands w.frames op th.calls
  tickets : ∀ c ∈ th.calls, Ticketed c
  guards : th.guards.Perm (w.guards.map (·.2) ++ gripsOf op th.calls)
  /-- No two guards have one number. -/
  numbers : (w.guards.map (·.1)).Nodup
  bound : ∀ i ∈ w.guards.map (·.1), i < w.nextGuard
  fine : ∀ f ∈ w.frames, f.Fine n

namespace Seated

variable {n n' : Nat} {w w' : Worker α} {op : Option (Operation α)} {th th' : Thread Garbage (Option (Operation α))}

theorem mono (h : Seated n w op th) (hn : n ≤ n') : Seated n' w op th :=
  ⟨h.stands, h.tickets, h.guards, h.numbers, h.bound, fun f hf => (h.fine f hf).mono hn⟩

theorem idle : Seated n ({} : Worker α) none ({} : Thread Garbage (Option (Operation α))) :=
  ⟨.idle, nofun, List.Perm.refl _, List.nodup_nil, nofun, nofun⟩

/-- A thread on which nothing is under way holds the guards that have a number. -/
theorem guards_of_idle (h : Seated n w op th) (hf : w.frames = []) :
    op = none ∧ th.calls = [] ∧ th.guards.Perm (w.guards.map (·.2)) := by
  have hs := h.stands
  have hg := h.guards
  rw [hf] at hs
  generalize th.calls = calls at hs hg
  cases hs with
  | idle => exact ⟨rfl, rfl, by simpa [gripsOf] using hg⟩

/-- The topmost frame is replaced. -/
theorem fine_top (h : Seated n w op th) {f g : Frame α} {below : List (Frame α)} (hf : w.frames = f :: below)
    (hg : g.Fine n) : ∀ x ∈ g :: below, x.Fine n :=
  List.forall_mem_cons.mpr ⟨hg, fun x hx => h.fine x (hf ▸ List.mem_cons_of_mem _ hx)⟩

/-- Between tasks the thread may begin something. -/
theorem ready (h : Seated n w op th) {f : Frame α} {below : List (Frame α)} (hf : w.frames = f :: below)
    (ha : f.await = none) : op = none ∧ Under f below th.calls := by
  have hs := h.stands
  rw [hf] at hs
  generalize th.calls = calls at hs
  cases hs with
  | ready _ hu => exact ⟨rfl, hu⟩
  | working hw => rw [ha] at hw; cases hw
  | calling hw => rw [ha] at hw; cases hw

end Seated

end EpochQueue.Script
