/-
  EpochQueue.Proofs.Fifo.Steps — the stack of operations that a thread has under way.

  `World.stack` lists them, the innermost first, each with whether it still waits for its guard. A
  call that is opened pushes its ticket (`stack_push`), a call that returns makes the ticket active
  again, and a call that goes on leaves the stack as it is (`stack_calls`, `stack_congr`). A move
  touches the stack of no other thread (`stack_of_ne`).
-/

import EpochQueue.Proofs.Fifo.History

namespace EpochQueue.Fifo

open Reclaim (Call Phase Domain)

variable {α : Type}

namespace World

/-- The operations that wait for a call of `t`, each with whether it is a pin. -/
def waits (w : World α) (t : Nat) : List (Operation α × Bool) :=
  (w.domain.thread t).calls.filterMap fun c => c.ticket.map fun o => (o, c.phase.pin?.isSome)

/-- The operations under way on `t`, each with whether it waits for its guard. -/
def stack (w : World α) (t : Nat) : List (Operation α × Bool) :=
  (w.operation t).toList.map (·, false) ++ w.waits t

theorem operations_eq (w : World α) (t : Nat) : w.operations t = (w.stack t).map Prod.fst := by
  unfold operations stack waits
  rw [List.map_append, List.map_filterMap]
  congr 1
  · cases w.operation t <;> rfl
  · refine List.filterMap_congr fun c _ => ?_
    cases c.ticket <;> rfl

theorem operation_of_set {w : World α} {t : Nat} {tb : Table (Option (Operation α))} {o : Option (Operation α)}
    (h : w.active = tb.set t o) : w.operation t = o := by
  unfold operation
  rw [h, Table.get_set_same]

theorem stack_eq {w : World α} {t : Nat} {o : Option (Operation α)}
    {calls : List (Call Garbage (Option (Operation α)))} (ho : w.operation t = o)
    (hc : (w.domain.thread t).calls = calls) : w.stack t = o.toList.map (·, false) ++
      calls.filterMap fun c => c.ticket.map fun o => (o, c.phase.pin?.isSome) := by
  subst ho hc
  rfl

theorem stack_congr {w w' : World α} {t : Nat} (ho : w'.operation t = w.operation t)
    (hc : (w'.domain.thread t).calls = (w.domain.thread t).calls) : w'.stack t = w.stack t := by
  unfold stack waits
  rw [ho, hc]

/-- A call is opened, with an operation as its ticket or without. -/
theorem stack_push {w w' : World α} {t : Nat} {k : Option (Operation α)} {q : Phase Garbage}
    (ho : w.operation t = none) (ho' : w'.operation t = none)
    (hc : (w'.domain.thread t).calls = ⟨k, q⟩ :: (w.domain.thread t).calls) :
    w'.stack t = (k.map fun o => (o, q.pin?.isSome)).toList ++ w.stack t := by
  unfold stack waits
  rw [ho, ho', hc]
  cases k <;> rfl

theorem stack_calls {w : World α} {t : Nat} {c : Call Garbage (Option (Operation α))}
    {rest : List (Call Garbage (Option (Operation α)))} (ho : w.operation t = none)
    (hc : (w.domain.thread t).calls = c :: rest) :
    w.stack t = (c.ticket.map fun o => (o, c.phase.pin?.isSome)).toList ++
      rest.filterMap fun c => c.ticket.map fun o => (o, c.phase.pin?.isSome) := by
  unfold stack waits
  rw [ho, hc]
  cases hk : c.ticket <;> simp [hk]

theorem stack_active {w : World α} {t : Nat} {o : Operation α} (ho : w.operation t = some o) :
    w.stack t = (o, false) :: w.waits t := by
  unfold stack
  rw [ho]
  rfl

/-! ## Other threads -/

section

variable {w : World α} {t u : Nat}

/-- One step of a call, by what the domain says about it. -/
theorem stepCall_eq (w : World α) (t : Nat) : (w.stepCall t).1 = match (w.domain.step t).2 with
    | .freed (.link n) => { w with domain := (w.domain.step t).1, store := w.store.free n }
    | .returned (some o) a => { w with domain := (w.domain.step t).1, active := w.active.set t (some (o.resume a)) }
    | _ => { w with domain := (w.domain.step t).1 } := by
  unfold stepCall
  obtain ⟨d, signal⟩ := w.domain.step t
  rcases signal with _ | _ | ⟨n | i⟩ | ⟨_ | o, a⟩ <;> rfl

/-- A move leaves other threads alone. -/
theorem move_of_ne (hu : u ≠ t) (m : Move α) :
    (w.move t m).operation u = w.operation u ∧ (w.move t m).domain.thread u = w.domain.thread u := by
  have hset : ∀ o : Option (Operation α), (w.active.set t o).get u = w.active.get u := fun o =>
    Table.get_set_ne _ _ hu
  unfold operation
  cases m with
  | pin => dsimp only [move, pin]; exact ⟨rfl, Domain.thread_pin_of_ne hu none⟩
  | unpin g => dsimp only [move, unpin]; exact ⟨rfl, Domain.thread_unpin_of_ne hu g⟩
  | retire i => dsimp only [move, retire]; exact ⟨rfl, Domain.thread_retire_of_ne hu _ _⟩
  | flush => dsimp only [move, flush]; exact ⟨rfl, Domain.thread_flush_of_ne hu none⟩
  | pending => dsimp only [move, pending]; exact ⟨rfl, Domain.thread_pending_of_ne hu⟩
  | exit => dsimp only [move, exit]; exact ⟨rfl, Domain.thread_exit_of_ne hu⟩
  | newQueue limits => exact ⟨rfl, rfl⟩
  | tryEnqueue q v memory =>
    cases memory with
    | true => dsimp only [move, tryEnqueue, enqueue, beginAt, if_true]; exact ⟨rfl, Domain.thread_pin_of_ne hu _⟩
    | false => exact ⟨rfl, rfl⟩
  | dequeue q => dsimp only [move, dequeue, beginAt]; exact ⟨rfl, Domain.thread_pin_of_ne hu _⟩
  | isEmpty q => dsimp only [move, isEmpty, beginAt]; exact ⟨rfl, Domain.thread_pin_of_ne hu _⟩
  | pop q => exact ⟨rfl, rfl⟩
  | tearDown q => exact ⟨rfl, rfl⟩
  | step =>
    dsimp only [move, step]
    cases ho : w.operation t with
    | some o =>
      dsimp only
      cases hp : o.point with
      | access spot => simp only [stepOperation, hp]; exact ⟨hset _, trivial⟩
      | take head next => simp only [stepOperation, hp]; exact ⟨hset _, Domain.thread_retire_of_ne hu _ _⟩
      | leave r =>
        cases hg : o.guard with
        | some g => simp only [stepOperation, hp, hg]; exact ⟨hset _, Domain.thread_unpin_of_ne hu g⟩
        | none => simp only [stepOperation, hp, hg]; exact ⟨hset _, rfl⟩
    | none =>
      dsimp only
      rw [stepCall_eq]
      have hth : (w.domain.step t).1.thread u = w.domain.thread u := Domain.thread_step_of_ne hu
      rcases (w.domain.step t).2 with _ | _ | ⟨n | i⟩ | ⟨_ | o, a⟩
      case returned.some => exact ⟨hset _, hth⟩
      all_goals exact ⟨rfl, hth⟩

theorem mayBegin_iff : w.mayBegin t = true ↔ w.operation t = none ∧ w.domain.mayCall t = true := by
  unfold mayBegin
  rw [Bool.and_eq_true, Option.isNone_iff_eq_none]

/-- A thread that works on an operation after a move did so before, or had a call return. -/
theorem active_move {m : Move α} (hm : w.may t m) : (w.move t m).operation t = none ∨
    (w.operation t).isSome = true ∧ ((w.move t m).domain.thread t).calls = (w.domain.thread t).calls ∨
    ∃ c, (w.domain.thread t).calls = c :: ((w.move t m).domain.thread t).calls := by
  cases m with
  | pin | flush | pending | newQueue limits => exact Or.inl (mayBegin_iff.mp hm).1
  | unpin g => exact Or.inl (mayBegin_iff.mp hm.1).1
  | retire i => exact Or.inl (mayBegin_iff.mp hm.1).1
  | exit => exact Or.inl hm.1
  | tryEnqueue q v memory => cases memory <;> exact Or.inl (mayBegin_iff.mp hm.1).1
  | dequeue q | isEmpty q | pop q | tearDown q => exact Or.inl (mayBegin_iff.mp hm.1).1
  | step =>
    dsimp only [move, step]
    cases ho : w.operation t with
    | some o =>
      dsimp only
      cases hp : o.point with
      | access spot => simp only [stepOperation, hp]; exact Or.inr (Or.inl ⟨rfl, trivial⟩)
      | take head next => simp only [stepOperation, hp]; exact Or.inl (operation_of_set rfl)
      | leave r => cases hg : o.guard <;> simp only [stepOperation, hp, hg] <;> exact Or.inl (operation_of_set rfl)
    | none =>
      dsimp only
      obtain ⟨c, rest, hc⟩ := List.exists_cons_of_ne_nil fun hc => hm ⟨ho, hc⟩
      have hstep := Domain.step_cases hc
      rw [stepCall_eq]
      generalize (w.domain.step t).2 = sig at hstep ⊢
      cases hstep with
      | on => exact Or.inl ho
      | freed n => cases n <;> exact Or.inl ho
      | pinned g _ hc' => cases c.ticket <;> exact Or.inr (Or.inr ⟨c, by dsimp only; rw [hc, hc']⟩)
      | returned a _ _ hc' => cases c.ticket <;> exact Or.inr (Or.inr ⟨c, by dsimp only; rw [hc, hc']⟩)

theorem stack_of_ne (hu : u ≠ t) (m : Move α) : (w.move t m).stack u = w.stack u :=
  stack_congr (move_of_ne hu m).1 (by rw [(move_of_ne hu m).2])

end

end World

end EpochQueue.Fifo
