/-
  EpochQueue.Proofs.Fifo.Pauses — what an operation does the k-th time that it waits.

  The step of a fresh backoff is the number of waits so far, until it has come to the limit `yield`,
  where it stays (`toNat_step_after`). Nothing is asked of the limits: `yield` may be less than `spin`,
  and either may be the largest word there is. The step grows only while it is below a word, so
  the addition does not wrap; and the exponent of a spinning wait is cut off below the width of a word,
  so the shift gives the power it stands for (`spins?_pause`).

  `Limits.schedule` puts this together for every call. Past the limit `spin` it yields, and goes on
  yielding as the step does not fall; the step gets past `spin` if and only if `yield` lets it.
-/

import Mathlib.Algebra.Group.Nat.Defs
import EpochQueue.Fifo.Backoff

namespace EpochQueue.Fifo

/-- How many times a pause spins, if it does not yield. -/
def Pause.spins? : Pause → Option Nat
  | .spin times => some times.toNat
  | .yield => none

theorem Pause.spins?_eq_none {p : Pause} : p.spins? = none ↔ p = .yield := by
  cases p <;> simp [spins?]

namespace Limits

/-- The backoff with which an operation starts. -/
def fresh (l : Limits) : Backoff := { limits := l }

/-- Limits that are raised have `yield` at `spin` or above. -/
theorem toNat_yield_raised (spin yield : UInt32) : (raised spin yield).yield.toNat = max spin.toNat yield.toNat := by
  by_cases h : yield < spin
  · have hlt := UInt32.lt_iff_toNat_lt.mp h
    rw [raised, if_pos h]
    exact (Nat.max_eq_left (Nat.le_of_lt hlt)).symm
  · have hle := Nat.le_of_not_lt (mt UInt32.lt_iff_toNat_lt.mpr h)
    rw [raised, if_neg h]
    exact (Nat.max_eq_right hle).symm

end Limits

namespace Backoff

/-- The backoff after so many waits. -/
def after : Nat → Backoff → Backoff
  | 0, b => b
  | k + 1, b => after k b.wait.2

theorem after_succ (k : Nat) (b : Backoff) : after (k + 1) b = (after k b).wait.2 := by
  induction k generalizing b with
  | zero => rfl
  | succ k ih => exact ih b.wait.2

theorem waits_eq (n : Nat) (b : Backoff) : waits n b = (List.range n).map fun k => (after k b).pause := by
  induction n generalizing b with
  | zero => rfl
  | succ n ih =>
    rw [List.range_succ_eq_map, List.map_cons, List.map_map]
    exact congrArg (b.pause :: ·) (ih b.wait.2)

/-! ## The step -/

/-- A step that is below another word has a word after it. -/
theorem toNat_step_succ {b : Backoff} (h : b.step < b.limits.yield) : (b.step + 1).toNat = b.step.toNat + 1 := by
  have hbelow := UInt32.lt_iff_toNat_lt.mp h
  have hword := b.limits.yield.toNat_lt
  rw [UInt32.toNat_add, show (1 : UInt32).toNat = 1 from rfl]
  omega

theorem limits_wait (b : Backoff) : b.wait.2.limits = b.limits := by
  unfold wait
  split <;> rfl

theorem toNat_step_wait (b : Backoff) :
    b.wait.2.step.toNat = if b.step.toNat < b.limits.yield.toNat then b.step.toNat + 1 else b.step.toNat := by
  unfold wait
  by_cases h : b.step < b.limits.yield
  · rw [if_pos h, if_pos (UInt32.lt_iff_toNat_lt.mp h)]
    exact toNat_step_succ h
  · rw [if_neg h, if_neg (mt UInt32.lt_iff_toNat_lt.mpr h)]

theorem limits_after (l : Limits) (k : Nat) : (after k l.fresh).limits = l := by
  induction k with
  | zero => rfl
  | succ k ih => rw [after_succ, limits_wait, ih]

theorem toNat_step_after (l : Limits) (k : Nat) : (after k l.fresh).step.toNat = min k l.yield.toNat := by
  induction k with
  | zero => exact (Nat.zero_min _).symm
  | succ k ih =>
    rw [after_succ, toNat_step_wait, limits_after, ih]
    split <;> omega

/-! ## The pause -/

theorem toNat_exponent (b : Backoff) : (min b.step maxExponent).toNat = min b.step.toNat 31 := by
  show (if b.step ≤ maxExponent then b.step else maxExponent).toNat = min b.step.toNat maxExponent.toNat
  by_cases h : b.step ≤ maxExponent
  · rw [if_pos h, Nat.min_eq_left (UInt32.le_iff_toNat_le.mp h)]
  · rw [if_neg h, Nat.min_eq_right (Nat.le_of_not_le (mt UInt32.le_iff_toNat_le.mpr h))]

theorem spins?_pause (b : Backoff) :
    b.pause.spins? = if b.limits.spin.toNat < b.step.toNat then none else some (2 ^ min b.step.toNat 31) := by
  unfold pause
  by_cases h : b.step ≤ b.limits.spin
  · have hexp : min b.step.toNat 31 < 32 := by omega
    have hpow : 2 ^ min b.step.toNat 31 < 2 ^ 32 := Nat.pow_lt_pow_right (by decide) hexp
    rw [if_pos h, if_neg (Nat.not_lt.mpr (UInt32.le_iff_toNat_le.mp h)), Pause.spins?, UInt32.toNat_shiftLeft,
      UInt32.toNat_one, toNat_exponent, Nat.mod_eq_of_lt hexp, Nat.one_shiftLeft, Nat.mod_eq_of_lt hpow]
  · rw [if_neg h, if_pos (Nat.lt_of_not_le (mt UInt32.le_iff_toNat_le.mpr h))]
    rfl

theorem pause_after_eq_yield {l : Limits} {k : Nat} :
    (after k l.fresh).pause = .yield ↔ l.spin.toNat < min k l.yield.toNat := by
  rw [← Pause.spins?_eq_none, spins?_pause, limits_after, toNat_step_after]
  split
  next h => exact iff_of_true rfl h
  next h => exact iff_of_false (Option.some_ne_none _) h

end Backoff

/-! ## All calls -/

/-- What a fresh backoff does with these limits, call by call. -/
structure Limits.Schedule (l : Limits) : Prop where
  /-- The `k`-th call, counted from 0, finds the step at `k` or at `yield`. It yields if that is past
      `spin`, and otherwise spins as many times as the power of two says. -/
  call : ∀ k, (Backoff.after k l.fresh).step.toNat = min k l.yield.toNat ∧
    (Backoff.after k l.fresh).pause.spins? =
      if l.spin.toNat < min k l.yield.toNat then none else some (2 ^ min (min k l.yield.toNat) 31)
  /-- These are the calls of a run. -/
  run : ∀ n, Backoff.waits n l.fresh = (List.range n).map fun k => (Backoff.after k l.fresh).pause
  /-- The addition of every call that makes one is that of numbers, and no shift is by a whole word. -/
  unwrapped : ∀ k, ((Backoff.after k l.fresh).step < l.yield →
      ((Backoff.after k l.fresh).step + 1).toNat = (Backoff.after k l.fresh).step.toNat + 1) ∧
    (min (Backoff.after k l.fresh).step Backoff.maxExponent).toNat < 32
  lasting : ∀ j k, j ≤ k → (Backoff.after j l.fresh).pause = .yield → (Backoff.after k l.fresh).pause = .yield
  ever : (∃ k, (Backoff.after k l.fresh).pause = .yield) ↔ l.spin < l.yield
  /-- Raised limits have the larger of the two as `yield`, and so yield no sooner and no later. -/
  raised : ∀ spin yield, l = Limits.raised spin yield →
    l.spin = spin ∧ l.yield.toNat = max spin.toNat yield.toNat ∧ (l.spin < l.yield ↔ spin < yield)

/-- Whatever the limits, a fresh backoff keeps to the schedule for any number of calls. -/
theorem Limits.schedule (l : Limits) : l.Schedule where
  call k := by
    refine ⟨Backoff.toNat_step_after l k, ?_⟩
    rw [Backoff.spins?_pause, Backoff.limits_after, Backoff.toNat_step_after]
  run n := Backoff.waits_eq n l.fresh
  unwrapped k := by
    refine ⟨fun h => Backoff.toNat_step_succ (by rwa [Backoff.limits_after]), ?_⟩
    rw [Backoff.toNat_exponent]
    omega
  lasting j k hjk hj := by
    rw [Backoff.pause_after_eq_yield] at hj ⊢
    omega
  ever := by
    rw [UInt32.lt_iff_toNat_lt]
    constructor
    · rintro ⟨k, hk⟩
      rw [Backoff.pause_after_eq_yield] at hk
      omega
    · -- the first call to find the step at `yield` yields
      intro h
      exact ⟨l.yield.toNat, Backoff.pause_after_eq_yield.mpr (by rwa [Nat.min_self])⟩
  raised spin yield e := by
    subst e
    have hspin : (raised spin yield).spin = spin := rfl
    refine ⟨hspin, toNat_yield_raised spin yield, ?_⟩
    rw [UInt32.lt_iff_toNat_lt, UInt32.lt_iff_toNat_lt, toNat_yield_raised, hspin]
    omega

/-- With both limits at 0 it never yields; with 1 and 3 the third call does, and all after it. -/
example : Backoff.waits 3 (Limits.raised 0 0).fresh = [.spin 1, .spin 1, .spin 1] ∧
    Backoff.waits 5 (Limits.raised 1 3).fresh = [.spin 1, .spin 2, .yield, .yield, .yield] := by decide

end EpochQueue.Fifo
