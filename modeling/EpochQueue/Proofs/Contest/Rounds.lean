/-
  EpochQueue.Proofs.Contest.Rounds — contests that come to an end.

  Whenever a contest is not over, there is a thread to wait for: with every turn of its own it comes
  closer to getting something done, and the turns of others do not put it off, unless one of them gets
  something done itself. If only so much can get done, and a thread needs only so many turns for it, then
  the product of the two bounds the rounds that it takes (`Proceeds.ends`).
-/

import Mathlib.Algebra.BigOperators.Group.Finset.Basic
import Mathlib.Algebra.Order.BigOperators.Group.Finset
import EpochQueue.Contest.Rounds

namespace EpochQueue.Contest

/-- A sum over threads becomes as much smaller as the summand of `t` does, at least, if no other summand
    becomes larger. -/
theorem sum_range_le_of_ne {n t : Nat} {f g : Nat → Nat} (ht : t < n) (h : ∀ u, u ≠ t → g u ≤ f u) :
    (Finset.range n).sum g + f t ≤ (Finset.range n).sum f + g t := by
  have hmem := Finset.mem_range.mpr ht
  have hothers : ∑ u ∈ (Finset.range n).erase t, g u ≤ ∑ u ∈ (Finset.range n).erase t, f u :=
    Finset.sum_le_sum fun u hu => h u (Finset.ne_of_mem_erase hu)
  rw [← Finset.add_sum_erase _ g hmem, ← Finset.add_sum_erase _ f hmem]
  omega

theorem sum_range_of_ne {n t : Nat} {f g : Nat → Nat} (ht : t < n) (h : ∀ u, u ≠ t → g u = f u) :
    (Finset.range n).sum g + f t = (Finset.range n).sum f + g t :=
  Nat.le_antisymm (sum_range_le_of_ne ht fun u hu => Nat.le_of_eq (h u hu))
    (sum_range_le_of_ne ht fun u hu => Nat.le_of_eq (h u hu).symm)

variable {σ : Type}

/-- How a contest gets on in the states that are as `P` says: `todo` is what there is to get done, and
    `awaits s t k` says that `t` gets some of it done within `k` more turns after the next one. -/
structure Proceeds (turn : σ → Nat → σ) (isDone : σ → Bool) (threads : Nat) (P : σ → Prop) (todo : σ → Nat)
    (awaits : σ → Nat → Nat → Prop) (patience : Nat) : Prop where
  keeps : ∀ s t, t < threads → P s → P (turn s t)
  le : ∀ s t, t < threads → P s → todo (turn s t) ≤ todo s
  own : ∀ s t k, t < threads → P s → awaits s t k → todo (turn s t) < todo s ∨ ∃ k', k' < k ∧ awaits (turn s t) t k'
  others : ∀ s t u k, u < threads → u ≠ t → P s → awaits s t k →
    todo (turn s u) < todo s ∨ ∃ k', k' ≤ k ∧ awaits (turn s u) t k'
  somebody : ∀ s, P s → isDone s = false → ∃ t k, t < threads ∧ k ≤ patience ∧ awaits s t k

namespace Proceeds

variable {turn : σ → Nat → σ} {isDone : σ → Bool} {threads : Nat} {P : σ → Prop} {todo : σ → Nat}
  {awaits : σ → Nat → Nat → Prop} {patience : Nat} {s : σ}

theorem foldl (h : Proceeds turn isDone threads P todo awaits patience) (hs : P s) {ts : List Nat}
    (hts : ∀ t ∈ ts, t < threads) : P (ts.foldl turn s) ∧ todo (ts.foldl turn s) ≤ todo s := by
  induction ts generalizing s with
  | nil => exact ⟨hs, Nat.le_refl _⟩
  | cons t ts ih =>
    have ht := hts t List.mem_cons_self
    obtain ⟨hP, hle⟩ := ih (h.keeps s t ht hs) fun u hu => hts u (List.mem_cons_of_mem _ hu)
    exact ⟨hP, Nat.le_trans hle (h.le s t ht hs)⟩

/-- Turns of others, or of `t` too, bring it closer if one of them is its own. -/
theorem foldl_awaits (h : Proceeds turn isDone threads P todo awaits patience) (hs : P s) {ts : List Nat}
    (hts : ∀ t ∈ ts, t < threads) {t k : Nat} (ha : awaits s t k) : todo (ts.foldl turn s) < todo s ∨
      ∃ k', k' ≤ k ∧ (t ∈ ts → k' < k) ∧ awaits (ts.foldl turn s) t k' := by
  induction ts generalizing s k with
  | nil => exact Or.inr ⟨k, Nat.le_refl k, nofun, ha⟩
  | cons u ts ih =>
    have hu := hts u List.mem_cons_self
    have hrest : ∀ v ∈ ts, v < threads := fun v hv => hts v (List.mem_cons_of_mem _ hv)
    have hP := h.keeps s u hu hs
    have hturn : todo (turn s u) < todo s ∨ ∃ k', k' ≤ k ∧ (t = u → k' < k) ∧ awaits (turn s u) t k' := by
      by_cases e : u = t
      · subst e
        exact (h.own s u k hu hs ha).imp_right fun ⟨k', hlt, ha'⟩ => ⟨k', Nat.le_of_lt hlt, fun _ => hlt, ha'⟩
      · exact (h.others s t u k hu e hs ha).imp_right fun ⟨k', hle, ha'⟩ => ⟨k', hle, fun e' => absurd e'.symm e, ha'⟩
    rcases hturn with hlt | ⟨k', hle, hown, ha'⟩
    · exact Or.inl (Nat.lt_of_le_of_lt (h.foldl hP hrest).2 hlt)
    · rcases ih hP hrest ha' with hlt | ⟨k'', hle', hown', ha''⟩
      · exact Or.inl (Nat.lt_of_lt_of_le hlt (h.le s u hu hs))
      · refine Or.inr ⟨k'', Nat.le_trans hle' hle, fun hm => ?_, ha''⟩
        rcases List.mem_cons.mp hm with e | hm
        · exact Nat.lt_of_le_of_lt hle' (hown e)
        · exact Nat.lt_of_lt_of_le (hown' hm) hle

/-- As long as there is a thread to wait for there is something to get done. -/
theorem todo_pos (h : Proceeds turn isDone threads P todo awaits patience) (hs : P s) {t k : Nat} (ht : t < threads)
    (ha : awaits s t k) : 0 < todo s := by
  induction k using Nat.strongRecOn generalizing s with
  | ind k ih =>
    rcases h.own s t k ht hs ha with hlt | ⟨k', hlt, ha'⟩
    · exact Nat.lt_of_le_of_lt (Nat.zero_le _) hlt
    · exact Nat.lt_of_lt_of_le (ih k' hlt (h.keeps s t ht hs) ha') (h.le s t ht hs)

theorem ends_of_awaits (h : Proceeds turn isDone threads P todo awaits patience) {n : Nat} (hs : P s)
    (hn : isDone s = false → ∃ t k, t < threads ∧ k ≤ patience ∧ awaits s t k ∧
      todo s * (patience + 1) + k ≤ n + patience) :
    P (rounds turn isDone threads n s) ∧ isDone (rounds turn isDone threads n s) = true := by
  -- what there is to do and the turns that are waited for make a number that falls with every round
  induction n generalizing s with
  | zero =>
    refine ⟨hs, ?_⟩
    rw [← Bool.not_eq_false]
    intro hdone
    obtain ⟨t, k, ht, -, ha, hle⟩ := hn hdone
    have hpos := h.todo_pos hs ht ha
    have hmul := Nat.mul_le_mul_right (patience + 1) hpos
    omega
  | succ n ih =>
    rw [rounds]
    cases hdone : isDone s with
    | true => exact ⟨hs, hdone⟩
    | false =>
      obtain ⟨t, k, ht, hk, ha, hle⟩ := hn hdone
      have hts : ∀ t ∈ List.range threads, t < threads := fun t => List.mem_range.mp
      obtain ⟨hP, htodo⟩ := h.foldl hs hts
      refine ih hP fun hdone' => ?_
      rcases h.foldl_awaits hs hts ha with hlt | ⟨k', -, hown, ha'⟩
      · obtain ⟨u, k', hu, hk', ha'⟩ := h.somebody _ hP hdone'
        have hmul := Nat.mul_le_mul_right (patience + 1) hlt
        rw [Nat.succ_mul] at hmul
        exact ⟨u, k', hu, hk', ha', by unfold round; omega⟩
      · have hlt := hown (List.mem_range.mpr ht)
        have hmul := Nat.mul_le_mul_right (patience + 1) htodo
        exact ⟨t, k', ht, by omega, ha', by unfold round; omega⟩

/-- A contest is over after so many rounds for each thing that there is to get done. -/
theorem ends (h : Proceeds turn isDone threads P todo awaits patience) {n : Nat} (hs : P s)
    (hn : todo s * (patience + 1) ≤ n) :
    P (rounds turn isDone threads n s) ∧ isDone (rounds turn isDone threads n s) = true :=
  h.ends_of_awaits hs fun hdone =>
    have ⟨t, k, ht, hk, ha⟩ := h.somebody s hs hdone
    ⟨t, k, ht, hk, ha, by omega⟩

end Proceeds

end EpochQueue.Contest
