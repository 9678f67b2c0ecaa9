/-
  EpochQueue.Proofs.Fifo.Underway — the operations under way on all threads together.

  Only finitely many threads have ever begun something, so what is under way can be listed, and so can
  the links that enqueues on a queue have yet to link and the values that operations on it have in
  hand. A move changes what one thread has under way, and the rest of such a list stays as it was
  (`World.exists_rest`).
-/

import EpochQueue.Proofs.Ledger
import EpochQueue.Proofs.Fifo.Schedules
import EpochQueue.Proofs.Fifo.Fitting

namespace EpochQueue.Fifo

variable {α : Type}

/-- The link that an enqueue has not linked yet. -/
def Operation.unlinked? (o : Operation α) : Option Nat :=
  match o.point.stage with
  | .waiting n => some n
  | _ => none

/-- The value that an operation has in hand: it has not entered the queue yet, or has left it and was
    not returned yet. -/
def Stage.inHand? (s : Store α) : Stage α → Option α
  | .waiting n | .taking n => (s.link n).value
  | .taken v => some v
  | .linked | .looking | .unfound | .asking => none

theorem Stage.inHand?_congr {s s' : Store α} (h : ∀ n, (s'.link n).value = (s.link n).value) (st : Stage α) :
    st.inHand? s' = st.inHand? s := by
  cases st with
  | waiting n | taking n => exact h n
  | _ => rfl

theorem Operation.unlinked?_eq_some {o : Operation α} {n : Nat} :
    o.unlinked? = some n ↔ o.point.stage = .waiting n := by
  unfold unlinked?
  split
  · rename_i h
    rw [h]
    exact ⟨fun e => congrArg _ (Option.some.inj e), fun e => congrArg _ (Stage.waiting.inj e)⟩
  · rename_i h
    exact ⟨nofun, fun e => absurd e (h n)⟩

namespace World

/-- No thread from this one on has anything under way. -/
def span (w : World α) : Nat := max w.active.cells.size w.domain.threads.cells.size

/-- What is under way on all threads. -/
def underway (w : World α) : List (Operation α) := (List.range w.span).flatMap w.operations

/-- The links of `q` that enqueues have not linked yet. -/
def unlinked (w : World α) (q : Nat) : List Nat := (w.underway.filter (·.queue == q)).filterMap (·.unlinked?)

/-- The values that operations on `q` have in hand. -/
def carried (w : World α) (q : Nat) : List α :=
  (w.underway.filter (·.queue == q)).filterMap (·.point.stage.inHand? w.store)

variable {w w' : World α} {t q : Nat}

theorem operations_of_span_le (h : w.span ≤ t) : w.operations t = [] :=
  operations_of_size_le (Nat.le_trans (Nat.le_max_left _ _) h) (Nat.le_trans (Nat.le_max_right _ _) h)

theorem mem_underway {o : Operation α} : o ∈ w.underway ↔ ∃ t, o ∈ w.operations t := by
  rw [underway, List.mem_flatMap]
  refine ⟨fun ⟨t, _, h⟩ => ⟨t, h⟩, fun ⟨t, h⟩ => ⟨t, List.mem_range.mpr (Nat.lt_of_not_le fun hle => ?_), h⟩⟩
  rw [operations_of_span_le hle] at h
  cases h

theorem mem_unlinked {n : Nat} :
    n ∈ w.unlinked q ↔ ∃ t, ∃ p ∈ w.stack t, p.1.queue = q ∧ p.1.point.stage = .waiting n := by
  rw [unlinked, List.mem_filterMap]
  constructor
  · rintro ⟨o, ho, hn⟩
    obtain ⟨ho, hq⟩ := List.mem_filter.mp ho
    obtain ⟨t, ho⟩ := mem_underway.mp ho
    rw [operations_eq] at ho
    obtain ⟨p, hp, rfl⟩ := List.mem_map.mp ho
    exact ⟨t, p, hp, beq_iff_eq.mp hq, Operation.unlinked?_eq_some.mp hn⟩
  · rintro ⟨t, p, hp, hq, hn⟩
    refine ⟨p.1, List.mem_filter.mpr ⟨mem_underway.mpr ⟨t, ?_⟩, beq_iff_eq.mpr hq⟩, Operation.unlinked?_eq_some.mpr hn⟩
    rw [operations_eq]
    exact List.mem_map_of_mem hp

/-- Every enqueue brings a link of its own. -/
theorem nodup_unlinked {lay : Nat → Layout} (hw : OpsFit w lay) (q : Nat) : (w.unlinked q).Nodup := by
  have hmark : ∀ l : List (Operation α),
      (l.filterMap (·.unlinked?)).Sublist (l.filterMap fun o => o.point.mark?) := fun l => by
    induction l with
    | nil => exact List.Sublist.refl _
    | cons o l ih =>
      rw [filterMap_cons_toList, filterMap_cons_toList]
      refine List.Sublist.append ?_ ih
      cases hn : o.unlinked? with
      | none => exact List.nil_sublist _
      | some n =>
        unfold Point.mark?
        rw [Operation.unlinked?_eq_some.mp hn]
  rw [unlinked, underway, List.filter_flatMap, List.filterMap_flatMap]
  refine (hw.apart.sublist fun t => ?_).nodup_flatMap _
  refine (List.filter_sublist.filterMap _).trans ((hmark _).trans ?_)
  rw [operations_eq, List.filterMap_map]
  exact List.Sublist.refl _

/-- Nothing is under way on a queue that is quiet. -/
theorem filter_underway_of_isQuiet (h : w.isQuiet q) : w.underway.filter (·.queue == q) = [] := by
  refine List.filter_eq_nil_iff.mpr fun o ho hq => ?_
  obtain ⟨t, ho⟩ := mem_underway.mp ho
  exact h t o ho (beq_iff_eq.mp hq)

theorem unlinked_of_isQuiet (h : w.isQuiet q) : w.unlinked q = [] := by
  rw [unlinked, filter_underway_of_isQuiet h, List.filterMap_nil]

theorem carried_of_isQuiet (h : w.isQuiet q) : w.carried q = [] := by
  rw [carried, filter_underway_of_isQuiet h, List.filterMap_nil]

/-- What is gathered from the operations changes only in what the operations of `t` contribute. -/
theorem exists_rest {β : Type} {f f' : Operation α → Option β}
    (h : ∀ u, u ≠ t → (w'.operations u).filterMap f' = (w.operations u).filterMap f) :
    ∃ rest, (w.underway.filterMap f).Perm ((w.operations t).filterMap f ++ rest) ∧
      (w'.underway.filterMap f').Perm ((w'.operations t).filterMap f' ++ rest) := by
  have heq : ∀ {v : World α} {g : Operation α → Option β} {n}, v.span ≤ n →
      v.underway.filterMap g = (List.range n).flatMap fun u => (v.operations u).filterMap g := fun {v g n} hn => by
    rw [underway, ← flatMap_range_of_le hn fun u hu => operations_of_span_le hu, List.filterMap_flatMap]
  rw [heq (n := max (max w.span w'.span) (t + 1)) (by omega), heq (n := max (max w.span w'.span) (t + 1)) (by omega)]
  exact exists_rest_range (by omega) h

/-! ## Values in hand -/

/-- The value of `q` that an operation has in hand. -/
def given? (s : Store α) (q : Nat) (o : Operation α) : Option α :=
  if o.queue == q then o.point.stage.inHand? s else none

theorem carried_eq (w : World α) (q : Nat) : w.carried q = w.underway.filterMap (given? w.store q) :=
  List.filterMap_filter

theorem given?_of_ne {s : Store α} {o : Operation α} (h : o.queue ≠ q) : given? s q o = none :=
  if_neg (mt beq_iff_eq.mp h)

theorem given?_of_eq {s : Store α} {o : Operation α} (h : o.queue = q) : given? s q o = o.point.stage.inHand? s :=
  if_pos (beq_iff_eq.mpr h)

end World

end EpochQueue.Fifo
