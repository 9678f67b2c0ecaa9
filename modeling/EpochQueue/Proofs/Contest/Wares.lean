/-
  EpochQueue.Proofs.Contest.Wares — what it takes for nothing to be missing, doubled or out of order.

  If what came through is what was sent, in whatever order, then every ware is counted once
  (`tally_eq`). And a consumer sees nothing out of order if what it got of any one producer is in the
  order of the places (`disorder_eq_zero`). Both are read off the wares of one producer at a time
  (`perm_allWares`, `pairwise_of_filter`).
-/

import Mathlib.Data.List.Nodup
import EpochQueue.Contest.Traffic

namespace EpochQueue.Contest

open Traffic (wares)

variable {producers per p : Nat} {got : List Ware}

/-- The wares of all producers. -/
def allWares (producers per : Nat) : List Ware := (List.range producers).flatMap (wares per)

theorem allWares_succ (producers per : Nat) : allWares (producers + 1) per = allWares producers per ++ wares per producers := by
  simp [allWares, List.range_succ]

theorem length_wares (per p : Nat) : (wares per p).length = per := by simp [wares]

theorem length_allWares (producers per : Nat) : (allWares producers per).length = producers * per := by
  simp [allWares, length_wares]

theorem fst_of_mem_wares {v : Ware} (h : v ∈ wares per p) : v.1 = p := by
  obtain ⟨k, -, rfl⟩ := List.mem_map.mp h
  rfl

/-- A producer sends its wares in the order of their places. -/
theorem pairwise_wares (per p : Nat) : (wares per p).Pairwise fun v w => v.2 < w.2 :=
  List.pairwise_map.mpr List.pairwise_lt_range

theorem filter_wares (per p q : Nat) : (wares per q).filter (·.1 == p) = if p = q then wares per q else [] := by
  split
  case isTrue h => exact List.filter_eq_self.mpr fun v hv => beq_iff_eq.mpr ((fst_of_mem_wares hv).trans h.symm)
  case isFalse h =>
    exact List.filter_eq_nil_iff.mpr fun v hv hp => h ((beq_iff_eq.mp hp).symm.trans (fst_of_mem_wares hv))

theorem filter_allWares (producers per p : Nat) :
    (allWares producers per).filter (·.1 == p) = if p < producers then wares per p else [] := by
  induction producers with
  | zero => rfl
  | succ n ih =>
    rw [allWares_succ, List.filter_append, ih, filter_wares]
    rcases Nat.lt_trichotomy p n with h | rfl | h
    · rw [if_pos h, if_neg (Nat.ne_of_lt h), if_pos (Nat.lt_succ_of_lt h), List.append_nil]
    · rw [if_neg (Nat.lt_irrefl p), if_pos rfl, if_pos (Nat.lt_succ_self p), List.nil_append]
    · rw [if_neg (Nat.not_lt_of_lt h), if_neg (Nat.ne_of_gt h), if_neg (Nat.not_lt.mpr h)]
      rfl

/-- What has all wares of each producer has all wares. -/
theorem perm_allWares (h : ∀ p, got.filter (·.1 == p) = if p < producers then wares per p else []) :
    got.Perm (allWares producers per) := by
  refine List.perm_iff_count.mpr fun v => ?_
  have hcount : ∀ l : List Ware, (l.filter (·.1 == v.1)).count v = l.count v := fun l =>
    List.count_filter (beq_self_eq_true v.1)
  rw [← hcount got, ← hcount (allWares producers per), h, filter_allWares]

/-- What is in order for each producer is so altogether. -/
theorem pairwise_of_filter (h : ∀ p, (got.filter (·.1 == p)).Pairwise fun v w => v.2 < w.2) :
    got.Pairwise fun v w => v.1 = w.1 → v.2 < w.2 := by
  refine List.pairwise_iff_getElem.mpr fun i j hi hj hij heq => ?_
  exact List.pairwise_iff_getElem.mp (List.pairwise_filter.mp (h got[i].1)) i j hi hj hij (beq_self_eq_true _)
    (beq_iff_eq.mpr heq.symm)

/-! ## Counting -/

/-- Whoever has counted before, those that are met are added. -/
theorem getElem?_foldl_modify (place : Ware → Nat) (counts : Array Nat) (k : Nat) :
    (got.foldl (fun counts v => counts.modify (place v) (· + 1)) counts)[k]? =
      counts[k]?.map (· + got.countP (place · == k)) := by
  induction got generalizing counts with
  | nil => simp
  | cons v got ih =>
    rw [List.foldl_cons, ih, Array.getElem?_modify, List.countP_cons]
    by_cases h : place v = k
    · simp only [h, beq_self_eq_true, if_true, Option.map_map]
      exact congrArg (counts[k]?.map ·) (funext fun n => by simp only [Function.comp]; omega)
    · simp [h]

/-- The places of all wares are the numbers below their number. -/
theorem map_place_allWares (producers per : Nat) :
    (allWares producers per).map (fun v => v.1 * per + v.2) = List.range (producers * per) := by
  induction producers with
  | zero => simp [allWares]
  | succ n ih =>
    rw [allWares_succ, List.map_append, ih, Nat.succ_mul, List.range_add, wares, List.map_map]
    rfl

/-- If what came through is what was sent, then each ware came through once. -/
theorem tally_eq (h : got.Perm (allWares producers per)) :
    tally producers per got = Array.replicate (producers * per) 1 := by
  refine Array.ext_getElem? fun k => ?_
  unfold tally
  rw [getElem?_foldl_modify, Array.getElem?_replicate, Array.getElem?_replicate]
  split
  case isFalse => rfl
  case isTrue hk =>
    have hcount : got.countP (fun v => v.1 * per + v.2 == k) = 1 := by
      have hmap := List.countP_map (p := (· == k)) (f := fun v : Ware => v.1 * per + v.2) (l := allWares producers per)
      rw [map_place_allWares] at hmap
      rw [h.countP_eq]
      exact hmap.symm.trans (List.count_eq_one_of_mem List.nodup_range (List.mem_range.mpr hk))
    rw [hcount]
    rfl

/-! ## Order -/

/-- A consumer that has seen of every producer only what comes before sees nothing out of order. -/
theorem disorder_foldl (h : got.Pairwise fun v w => v.1 = w.1 → v.2 < w.2) {reached : Array Nat} {n : Nat}
    (hreached : ∀ v ∈ got, (reached[v.1]?).getD 0 ≤ v.2) :
    (got.foldl (fun (acc : Nat × Array Nat) v =>
      if v.2 < (acc.2[v.1]?).getD 0 then (acc.1 + 1, acc.2) else (acc.1, acc.2.setIfInBounds v.1 (v.2 + 1)))
      (n, reached)).1 = n := by
  induction got generalizing reached with
  | nil => rfl
  | cons v got ih =>
    obtain ⟨hlater, hgot⟩ := List.pairwise_cons.mp h
    rw [List.foldl_cons, if_neg (Nat.not_lt.mpr (hreached v List.mem_cons_self))]
    refine ih hgot fun w hw => ?_
    rw [Array.getElem?_setIfInBounds]
    by_cases heq : v.1 = w.1
    · have hlt := hlater w hw heq
      rw [if_pos heq]
      split
      · exact hlt
      · exact Nat.zero_le _
    · rw [if_neg heq]
      exact hreached w (List.mem_cons_of_mem _ hw)

theorem disorder_eq_zero (h : got.Pairwise fun v w => v.1 = w.1 → v.2 < w.2) (producers : Nat) :
    disorder producers got = 0 :=
  disorder_foldl h fun v _ => by
    rw [Array.getElem?_replicate]
    split <;> exact Nat.zero_le _

end EpochQueue.Contest
