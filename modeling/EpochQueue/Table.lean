/-
  EpochQueue.Table — a total map from numbers to values, of which all but finitely many are
  the default.

  Threads, their calls and their operations are kept in tables: a thread that was never heard
  of reads as the default, so nothing has to be said about starting one. `get_set` and
  `get_modify` are all that the rest of the library needs to know about a table.
-/

namespace EpochQueue

/-- A map on all numbers; the cells past the end hold the default. -/
structure Table (α : Type) where
  cells : Array α := #[]

namespace Table

variable {α : Type} [Inhabited α]

def get (t : Table α) (i : Nat) : α := (t.cells[i]?).getD default

/-- The cells, continued with defaults until there is one for `i`. -/
def reach (t : Table α) (i : Nat) : Array α :=
  if i < t.cells.size then t.cells else t.cells ++ Array.replicate (i + 1 - t.cells.size) default

def set (t : Table α) (i : Nat) (x : α) : Table α := ⟨(t.reach i).setIfInBounds i x⟩

def modify (t : Table α) (i : Nat) (f : α → α) : Table α := ⟨(t.reach i).modify i f⟩

/-- The cells that were ever written, and the ones below them. -/
def toList (t : Table α) : List α := t.cells.toList

@[simp] theorem get_empty (i : Nat) : (⟨#[]⟩ : Table α).get i = default := by simp [get]

theorem lt_size_reach (t : Table α) (i : Nat) : i < (t.reach i).size := by
  unfold reach
  split
  · assumption
  · simp; omega

theorem getD_reach (t : Table α) (i j : Nat) : ((t.reach i)[j]?).getD default = t.get j := by
  unfold reach get
  split
  · rfl
  · by_cases hj : j < t.cells.size
    · simp [Array.getElem?_append, hj]
    · simp only [Array.getElem?_append, hj, if_false, Array.getElem?_replicate]
      split <;> simp [Array.getElem?_eq_none (Nat.le_of_not_lt hj)]

theorem get_set (t : Table α) (i j : Nat) (x : α) :
    (t.set i x).get j = if j = i then x else t.get j := by
  by_cases e : j = i
  · subst e
    simp [get, set, lt_size_reach]
  · rw [← getD_reach t i j]
    simp [get, set, e, Array.getElem?_setIfInBounds_ne (Ne.symm e)]

@[simp] theorem get_set_same (t : Table α) (i : Nat) (x : α) : (t.set i x).get i = x := by
  simp [get_set]

@[simp] theorem get_set_ne (t : Table α) {i j : Nat} (x : α) (h : j ≠ i) :
    (t.set i x).get j = t.get j := by simp [get_set, h]

theorem get_modify (t : Table α) (i j : Nat) (f : α → α) :
    (t.modify i f).get j = if j = i then f (t.get i) else t.get j := by
  have h := lt_size_reach t i
  by_cases e : j = i
  · subst e
    rw [← getD_reach t j j]
    simp [get, modify, Array.getElem?_modify, Array.getElem?_eq_getElem h]
  · rw [← getD_reach t i j]
    simp [get, modify, Array.getElem?_modify, e, Ne.symm e]

end Table

instance {α : Type} : Inhabited (Table α) := ⟨⟨#[]⟩⟩

end EpochQueue
