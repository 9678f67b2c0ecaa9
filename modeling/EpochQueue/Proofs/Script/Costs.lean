/-
  EpochQueue.Proofs.Script.Costs — how many steps a script's commands can lead to.

  A command costs the steps that the thread takes for it, those of its calls and operations, and
  those for the destruction of whatever it makes, destructors and all. What a frame costs is what
  is left of it; an object that is not destroyed yet costs its destruction (`State.stock`, with the
  links). `State.left` adds up what the thread that runs can still come to. It is within the fuel that a run gets
  (`left_lt_fuel`).
-/

import Mathlib
import EpochQueue.Proofs.Fifo.Loads
import EpochQueue.Script.Session

namespace EpochQueue.Script

variable {α : Type}

/-! ## Commands -/

/-- An operation is begun, pins, works, may retire a link, and drops its guard; an enqueue brings
    a link that will be destroyed. -/
def operationCost : Nat := 21

namespace Command

mutual
/-- The steps that a command can lead to. -/
def cost : Command α → Nat
  | .pin => 5
  | .flush | .retire _ => 4
  | .pinTimes n => 2 + n * 6
  | .new _ _ onFree => 3 + costs onFree
  | .retireNew n _ _ onFree => 2 + n * (7 + costs onFree)
  | .repeated n body => 2 + n * (1 + costs body)
  | .newQueue _ values => 3 + values.length * operationCost
  | .enqueueMany _ values | .extend _ values => 2 + values.length * operationCost
  | .dequeueMany _ n => 2 + n * (1 + operationCost)
  | .enqueue _ _ | .tryEnqueue _ _ _ | .dequeue _ | .isEmpty _ | .queueText _ _ | .iteratorText _ _ => operationCost
  | _ => 1

def costs : List (Command α) → Nat
  | [] => 0
  | c :: rest => c.cost + costs rest
end

theorem cost_pos (c : Command α) : 1 ≤ c.cost := by
  cases c <;> simp only [cost, operationCost] <;> omega

mutual
theorem cost_le (c : Command α) : c.cost ≤ 32 * c.weight := by
  match c with
  | .new _ _ onFree =>
    have := costs_le onFree
    simp only [cost, weight]
    omega
  | .retireNew n _ _ onFree =>
    have h : n * (7 + costs onFree) ≤ n * (32 * (1 + weights onFree)) :=
      Nat.mul_le_mul_left n (by have := costs_le onFree; omega)
    simp only [cost, weight]
    rw [Nat.mul_left_comm] at h
    omega
  | .repeated n body =>
    have h : n * (1 + costs body) ≤ n * (32 * (1 + weights body)) :=
      Nat.mul_le_mul_left n (by have := costs_le body; omega)
    simp only [cost, weight]
    rw [Nat.mul_left_comm] at h
    omega
  | .pinTimes _ | .newQueue _ _ | .enqueueMany _ _ | .extend _ _ | .dequeueMany _ _ =>
    simp only [cost, weight, operationCost]
    omega
  | .pin | .flush | .retire _ | .enqueue _ _ | .tryEnqueue _ _ _ | .dequeue _ | .isEmpty _ | .queueText _ _
  | .iteratorText _ _ => simp only [cost, weight, operationCost]; omega
  | .unpin _ | .guardText | .pending | .cell _ | .load _ _ | .store _ _ _ | .swap _ _ _ | .cas _ _ _ _ _
  | .getMut _ _ | .same _ _ | .cellText _ | .sharedText _ | .live _ | .limits _ | .dropQueue _ | .iterate _
  | .next _ _ | .collect _ | .dropIterator _ | .unknown _ => simp only [cost, weight]; omega

theorem costs_le (cs : List (Command α)) : costs cs ≤ 32 * weights cs := by
  match cs with
  | [] => exact Nat.zero_le _
  | c :: rest =>
    have h := cost_le c
    have hr := costs_le rest
    simp only [costs, weights]
    omega
end

end Command

/-! ## Tasks and frames -/

namespace Task

def cost : Task α → Nat
  | .command c => c.cost
  | .touch => 5
  | .plant _ _ onFree => 6 + Command.costs onFree
  | .append _ _ | .take _ => operationCost

def costs : List (Task α) → Nat
  | [] => 0
  | task :: tasks => task.cost + costs tasks

theorem cost_le (task : Task α) : task.cost ≤ 32 * task.weight := by
  cases task with
  | command c => exact c.cost_le
  | plant value custom onFree =>
    have := Command.costs_le onFree
    simp only [cost, weight]
    omega
  | _ => simp [cost, weight, operationCost]

theorem costs_le (tasks : List (Task α)) : costs tasks ≤ 32 * weights tasks := by
  induction tasks with
  | nil => exact Nat.zero_le _
  | cons task tasks ih =>
    have := task.cost_le
    simp only [costs, weights]
    omega

theorem costs_command (cs : List (Command α)) : costs (cs.map .command) = Command.costs cs := by
  induction cs with
  | nil => rfl
  | cons c cs ih => simp only [List.map_cons, costs, Command.costs, cost, ih]

theorem costs_append (id : Nat) (vs : List α) : costs (vs.map (.append id)) = vs.length * operationCost := by
  induction vs with
  | nil => exact (Nat.zero_mul _).symm
  | cons v vs ih =>
    simp only [List.map_cons, costs, cost, ih, List.length_cons, Nat.add_mul, Nat.one_mul, Nat.add_comm]

theorem costs_tail_le (tasks : List (Task α)) : costs tasks.tail ≤ costs tasks := by
  cases tasks with
  | nil => exact Nat.le_refl _
  | cons task tasks => exact Nat.le_add_left _ _

end Task

namespace Frame

/-- What is left of a frame. -/
def cost (f : Frame α) : Nat := 1 + Task.costs f.todo + f.rounds * (1 + Task.costs f.body)

/-- The same after the task at hand. -/
def rest (f : Frame α) : Nat := 1 + Task.costs f.todo.tail + f.rounds * (1 + Task.costs f.body)

theorem rest_le (f : Frame α) : f.rest ≤ f.cost :=
  Nat.add_le_add_right (Nat.add_le_add_left (Task.costs_tail_le _) _) _

theorem cost_le (f : Frame α) : f.cost ≤ 32 * f.weight := by
  have h := Task.costs_le f.todo
  have hb : f.rounds * (1 + Task.costs f.body) ≤ f.rounds * (32 * (1 + Task.weights f.body)) :=
    Nat.mul_le_mul_left _ (by have := Task.costs_le f.body; omega)
  rw [Nat.mul_left_comm] at hb
  unfold cost weight
  omega

theorem cost_of_todo {f : Frame α} {task : Task α} {tasks : List (Task α)} (h : f.todo = task :: tasks) :
    f.cost = task.cost + f.rest := by
  unfold cost rest
  rw [h, Task.costs, List.tail_cons]
  omega

/-- What a stack of frames still costs by itself. A frame that waits, and one under another, is
    at work on its task. -/
def stackCost : List (Frame α) → Nat
  | [] => 0
  | f :: below => (if f.await.isSome then f.rest else f.cost) + (below.map rest).sum

theorem stackCost_le (frames : List (Frame α)) :
    stackCost frames ≤ 32 * (frames.map (·.weight)).sum := by
  have hrest : ∀ fs : List (Frame α), (fs.map rest).sum ≤ 32 * (fs.map (·.weight)).sum := fun fs => by
    induction fs with
    | nil => exact Nat.zero_le _
    | cons f fs ih =>
      have := Nat.le_trans f.rest_le f.cost_le
      simp only [List.map_cons, List.sum_cons]
      omega
  cases frames with
  | nil => exact Nat.zero_le _
  | cons f below =>
    have hb := hrest below
    have hc := f.cost_le
    have hr := f.rest_le
    simp only [stackCost, List.map_cons, List.sum_cons]
    split <;> omega

end Frame

/-! ## Objects -/

/-- What the destruction of an object costs. -/
def Object.cost (o : Object α) : Nat := if o.freed then 0 else 2 + Command.costs o.onFree

def Object.weight (o : Object α) : Nat := if o.freed then 0 else 1 + Command.weights o.onFree

theorem Object.cost_le (o : Object α) : o.cost ≤ 32 * o.weight := by
  unfold Object.cost Object.weight
  have := Command.costs_le o.onFree
  split <;> omega

/-! ## What is left -/

namespace State

def objectsCost (s : State α) : Nat := (s.objects.toList.map (·.cost)).sum

/-- What the destruction of all there is can cost. -/
def stock (s : State α) : Nat := s.objectsCost + s.world.linksLeft

/-- The steps that `t` can still take by itself, with the destruction of all there is. -/
def left (s : State α) (t : Nat) : Nat := Frame.stackCost (s.worker t).frames + s.world.load t + s.stock

theorem foldl_add {β : Type} (f : β → Nat) (l : List β) (n : Nat) :
    l.foldl (fun n x => n + f x) n = n + (l.map f).sum := by
  induction l generalizing n with
  | nil => rfl
  | cons x l ih => rw [List.foldl_cons, ih, List.map_cons, List.sum_cons, Nat.add_assoc]

theorem weight_eq (s : State α) : s.weight =
    (s.workers.toList.map fun w => (w.frames.map (·.weight)).sum).sum + (s.objects.toList.map (·.weight)).sum
      + s.world.store.nextLink := by
  have hworkers : s.workers.toList.foldl (fun n w => w.frames.foldl (fun n f => n + f.weight) n) 0 =
      (s.workers.toList.map fun w => (w.frames.map (·.weight)).sum).sum := by
    have hstep : (fun (n : Nat) (w : Worker α) => w.frames.foldl (fun n f => n + f.weight) n) =
        fun n w => n + (w.frames.map (·.weight)).sum := funext fun n => funext fun w => foldl_add _ _ _
    rw [hstep, foldl_add, Nat.zero_add]
  have hobjects : s.objects.foldl (fun n o => if o.freed then n else n + 1 + Command.weights o.onFree) 0 =
      (s.objects.toList.map (·.weight)).sum := by
    have hstep : (fun (n : Nat) (o : Object α) => if o.freed then n else n + 1 + Command.weights o.onFree) =
        fun n o => n + o.weight := funext fun n => funext fun o => by
      unfold Object.weight
      split <;> omega
    rw [← Array.foldl_toList, hstep, foldl_add, Nat.zero_add]
  unfold weight
  rw [hworkers, hobjects]

theorem frames_le_workers (s : State α) (t : Nat) : ((s.worker t).frames.map (·.weight)).sum ≤
    (s.workers.toList.map fun w => (w.frames.map (·.weight)).sum).sum := by
  by_cases h : t < s.workers.cells.size
  · have hw : s.worker t = s.workers.cells[t] := by simp [worker, Table.get, h]
    rw [hw]
    exact List.single_le_sum (fun _ _ => Nat.zero_le _) _ (List.mem_map_of_mem (Array.getElem_mem_toList h))
  · have hw : s.worker t = default := by simp [worker, Table.get, h]
    rw [hw]
    exact Nat.zero_le _

theorem objectsCost_le (s : State α) : s.objectsCost ≤ 32 * (s.objects.toList.map (·.weight)).sum := by
  unfold objectsCost
  induction s.objects.toList with
  | nil => exact Nat.zero_le _
  | cons o os ih =>
    have := o.cost_le
    simp only [List.map_cons, List.sum_cons]
    omega

/-- A run that begins with no call open has enough fuel. -/
theorem left_lt_fuel {s : State α} {t : Nat} (hcalls : (s.world.domain.thread t).calls = []) : s.left t < s.fuel := by
  have hframes := Nat.le_trans (Frame.stackCost_le (s.worker t).frames)
    (Nat.mul_le_mul_left 32 (s.frames_le_workers t))
  have hobjects := s.objectsCost_le
  have hload : s.world.load t ≤ 18 := by
    rw [Fifo.World.load, hcalls, Fifo.World.opLoad]
    cases s.world.operation t with
    | none => exact Nat.zero_le _
    | some o => exact o.left_le _
  have hlinks : s.world.linksLeft ≤ s.world.store.nextLink := Nat.sub_le _ _
  -- A unit of weight stands for 32 steps, and what the operation under way needs is a constant.
  unfold left stock fuel stepsPerTask
  rw [weight_eq]
  omega

end State

end EpochQueue.Script
