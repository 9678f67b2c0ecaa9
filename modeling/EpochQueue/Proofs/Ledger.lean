/-
  EpochQueue.Proofs.Ledger — lists gathered from all threads, or from all cells of a table.

  A cell that holds the default contributes nothing, so the cells past the end do not matter.
  A change to one cell changes the contribution of that cell and leaves the rest of the ledger
  as it was (`exists_rest`).
-/

import EpochQueue.Table

namespace EpochQueue

section

variable {β : Type} {f f' : Nat → List β} {t m n : Nat}

/-- What stands beyond the last contribution does not matter. -/
theorem flatMap_range_of_le (hmn : m ≤ n) (hf : ∀ i, m ≤ i → f i = []) :
    (List.range n).flatMap f = (List.range m).flatMap f := by
  obtain ⟨k, rfl⟩ := Nat.exists_eq_add_of_le hmn
  have hrest : ((List.range k).map (m + ·)).flatMap f = [] := by
    refine List.flatMap_eq_nil_iff.mpr fun i hi => ?_
    obtain ⟨j, -, rfl⟩ := List.mem_map.mp hi
    exact hf _ (Nat.le_add_right _ _)
  rw [List.range_add, List.flatMap_append, hrest, List.append_nil]

/-- If only `t` contributes something else, the rest stays the same. -/
theorem exists_rest_range (ht : t < n) (h : ∀ u, u ≠ t → f' u = f u) :
    ∃ rest, ((List.range n).flatMap f).Perm (f t ++ rest) ∧ ((List.range n).flatMap f').Perm (f' t ++ rest) := by
  have hsplit : (List.range n).Perm (t :: (List.range n).erase t) := List.perm_cons_erase (List.mem_range.mpr ht)
  have hothers : ((List.range n).erase t).flatMap f' = ((List.range n).erase t).flatMap f := by
    rw [List.flatMap_def, List.flatMap_def]
    exact congrArg List.flatten (List.map_congr_left fun u hu => h u (List.nodup_range.mem_erase_iff.mp hu).1)
  exact ⟨((List.range n).erase t).flatMap f, hsplit.flatMap_right _, hothers ▸ hsplit.flatMap_right _⟩

end

namespace Table

variable {α β : Type} [Inhabited α] {g : α → List β}

/-- What all cells contribute. -/
def ledger (t : Table α) (g : α → List β) : List β := t.toList.flatMap g

theorem ledger_eq (t : Table α) (hg : g default = []) {n : Nat} (hn : t.cells.size ≤ n) :
    t.ledger g = (List.range n).flatMap fun i => g (t.get i) := by
  have hcells : t.toList = (List.range t.cells.size).map t.get := by
    refine List.ext_getElem (by simp [toList]) fun i h₁ h₂ => ?_
    simp only [toList, Array.length_toList] at h₁
    simp [toList, get, h₁]
  rw [ledger, hcells, List.flatMap_map, flatMap_range_of_le hn fun i hi => ?_]
  rw [get, Array.getElem?_eq_none hi]
  exact hg

theorem mem_ledger {t : Table α} (hg : g default = []) {x : β} : x ∈ t.ledger g ↔ ∃ i, x ∈ g (t.get i) := by
  constructor
  · intro h
    rw [ledger_eq t hg (Nat.le_refl _), List.mem_flatMap] at h
    obtain ⟨i, -, h⟩ := h
    exact ⟨i, h⟩
  · rintro ⟨i, h⟩
    rw [ledger_eq t hg (Nat.le_max_left _ (i + 1)), List.mem_flatMap]
    exact ⟨i, List.mem_range.mpr (Nat.le_max_right _ _), h⟩

/-- Two tables that differ in one cell have ledgers that differ in that cell's part. -/
theorem exists_rest {t s : Table α} {i : Nat} (hg : g default = []) (h : ∀ j, j ≠ i → s.get j = t.get j) :
    ∃ rest, (t.ledger g).Perm (g (t.get i) ++ rest) ∧ (s.ledger g).Perm (g (s.get i) ++ rest) := by
  rw [ledger_eq t hg (n := max (max t.cells.size s.cells.size) (i + 1)) (by omega),
    ledger_eq s hg (n := max (max t.cells.size s.cells.size) (i + 1)) (by omega)]
  exact exists_rest_range (by omega) fun j hj => by rw [h j hj]

/-- What only one cell has is counted there. -/
theorem countP_ledger {t : Table α} (hg : g default = []) {p : β → Bool} {i : Nat}
    (h : ∀ j, j ≠ i → ∀ x ∈ g (t.get j), p x = false) : (t.ledger g).countP p = (g (t.get i)).countP p := by
  obtain ⟨rest, hold, hnew⟩ := exists_rest (t := t) (s := t.set i default) hg fun j hj => get_set_ne t default hj
  have hrest : rest.countP p = 0 := by
    refine List.countP_eq_zero.mpr fun x hx => ?_
    obtain ⟨j, hj⟩ := (mem_ledger hg).mp (hnew.mem_iff.mpr (List.mem_append_right _ hx))
    rw [get_set] at hj
    split at hj
    · rw [hg] at hj; cases hj
    · rw [h j ‹_› x hj]; exact Bool.false_ne_true
  rw [hold.countP_eq, List.countP_append, hrest, Nat.add_zero]

end Table

end EpochQueue
