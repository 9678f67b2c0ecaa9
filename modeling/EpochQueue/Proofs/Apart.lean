/-
  EpochQueue.Proofs.Apart — lists that threads keep, with no entry in common.

  Guards belong to one thread, the links of operations under way to one operation, ids of
  operations to one operation. In each case every thread has a list, no entry stands twice, and a
  move changes the list of one thread, by one entry at most.
-/

import Mathlib.Data.List.Nodup

namespace EpochQueue

/-- No entry stands twice in a thread's list, and no two threads share one. -/
structure Apart {β : Type} (f : Nat → List β) : Prop where
  nodup : ∀ t, (f t).Nodup
  owner : ∀ t u x, x ∈ f t → x ∈ f u → t = u

namespace Apart

variable {β : Type} {f f' : Nat → List β} {t : Nat}

theorem empty : Apart fun _ => ([] : List β) := ⟨fun _ => List.nodup_nil, nofun⟩

theorem sublist (h : Apart f) (hsub : ∀ t, (f' t).Sublist (f t)) : Apart f' :=
  ⟨fun t => (hsub t).nodup (h.nodup t), fun t u x hx hy => h.owner t u x ((hsub t).subset hx) ((hsub u).subset hy)⟩

theorem shrink (h : Apart f) (hu : ∀ u, u ≠ t → f' u = f u) (ht : (f' t).Sublist (f t)) : Apart f' :=
  h.sublist fun u => by
    by_cases e : u = t
    · exact e ▸ ht
    · exact (hu u e).symm ▸ List.Sublist.refl _

/-- Put together, the lists still have no entry twice. -/
theorem nodup_flatMap (h : Apart f) (n : Nat) : ((List.range n).flatMap f).Nodup := by
  refine List.nodup_flatMap.mpr ⟨fun t _ => h.nodup t, List.nodup_range.imp fun hne x hx hy => ?_⟩
  exact hne (h.owner _ _ x hx hy)

/-- The list of `t` gets an entry that nobody has. -/
theorem grow (h : Apart f) (hu : ∀ u, u ≠ t → f' u = f u) {x : β} {l : List β} (ht : f' t = x :: l)
    (hl : l.Sublist (f t)) (hx : ∀ u, x ∉ f u) : Apart f' := by
  have hmem : ∀ u y, y ∈ f' u → u = t ∧ y = x ∨ y ∈ f u := fun u y hy => by
    by_cases e : u = t
    · subst e
      rw [ht] at hy
      exact (List.mem_cons.mp hy).imp (⟨rfl, ·⟩) (hl.subset ·)
    · exact Or.inr (hu u e ▸ hy)
  refine ⟨fun u => ?_, fun u v y hy hy' => ?_⟩
  · by_cases e : u = t
    · subst e
      rw [ht]
      exact List.nodup_cons.mpr ⟨fun hm => hx u (hl.subset hm), hl.nodup (h.nodup u)⟩
    · rw [hu u e]; exact h.nodup u
  · rcases hmem u y hy with ⟨rfl, rfl⟩ | hy
    · rcases hmem v y hy' with ⟨rfl, -⟩ | hy'
      · rfl
      · exact absurd hy' (hx v)
    · rcases hmem v y hy' with ⟨rfl, rfl⟩ | hy'
      · exact absurd hy (hx u)
      · exact h.owner u v y hy hy'

/-- An entry put in the place of the first one, or none. -/
theorem turn (h : Apart f) (hu : ∀ u, u ≠ t → f' u = f u) {x y : Option β} {l : List β} (ht : f t = x.toList ++ l)
    (ht' : f' t = y.toList ++ l) (hy : y = none ∨ y = x ∨ ∃ z, y = some z ∧ ∀ u, z ∉ f u) : Apart f' := by
  have hl : l.Sublist (f t) := ht ▸ List.sublist_append_right _ _
  rcases hy with rfl | rfl | ⟨z, rfl, hz⟩
  · exact h.shrink hu (ht' ▸ hl)
  · exact h.shrink hu (ht' ▸ ht ▸ List.Sublist.refl _)
  · exact h.grow hu ht' hl hz

end Apart

end EpochQueue
