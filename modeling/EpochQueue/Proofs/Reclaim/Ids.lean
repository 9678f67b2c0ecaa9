/-
  EpochQueue.Proofs.Reclaim.Ids — ids of slots, in use and free.

  `Registry.Ids r used` says that the ids in use and the free ones are disjoint and together
  all ids below the next new one, that each of these has a slot, and that a slot which is not
  in use is blank. Registering takes one id into use (`Ids.register`), releasing gives one back
  (`Ids.release`); what is written into a slot in use is of no concern to it.
-/

import EpochQueue.Reclaim.Registry

namespace EpochQueue.Reclaim.Registry

variable {r : Registry} {used : Nat → Prop}

/-! ## Writing into slots -/

theorem hasSlot_modifySlot (r : Registry) (i j : Nat) (f : Slot → Slot) :
    (r.modifySlot i f).HasSlot j ↔ r.HasSlot j := by
  simp [HasSlot, modifySlot]

theorem hasSlot_reach_of {i j : Nat} (h : r.HasSlot j) : (r.reach i).HasSlot j := by
  unfold HasSlot reach at *
  split
  · exact h
  · simp; omega

theorem slot_pin (i j : Nat) (e : Epoch) (h : r.HasSlot i) :
    (r.pin i e).slot j = if j = i then { r.slot i with epoch := e } else r.slot j :=
  slot_modifySlot r i j _ h

theorem slot_setStray (i j n : Nat) (h : r.HasSlot i) :
    (r.setStray i n).slot j = if j = i then { r.slot i with stray := n } else r.slot j :=
  slot_modifySlot r i j _ h

theorem stray_pin (i j : Nat) (e : Epoch) (h : r.HasSlot i) :
    ((r.pin i e).slot j).stray = (r.slot j).stray := by
  rw [slot_pin i j e h]
  split
  · subst j; rfl
  · rfl

theorem epoch_setStray (i j n : Nat) (h : r.HasSlot i) :
    ((r.setStray i n).slot j).epoch = (r.slot j).epoch := by
  rw [slot_setStray i j n h]
  split
  · subst j; rfl
  · rfl

/-! ## Ids -/

/-- The ids given out so far are those in use and the free ones, and free slots are blank. -/
structure Ids (r : Registry) (used : Nat → Prop) : Prop where
  nodup : r.freeTids.Nodup
  free : ∀ tid ∈ r.freeTids, ¬ used tid
  range : ∀ tid, used tid ∨ tid ∈ r.freeTids ↔ tid < r.nextTid
  hasSlot : ∀ tid < r.nextTid, r.HasSlot tid
  blank : ∀ tid, ¬ used tid → r.slot tid = {}

theorem Ids.hasSlot_of_used (h : r.Ids used) {tid : Nat} (hu : used tid) : r.HasSlot tid :=
  h.hasSlot tid ((h.range tid).mp (Or.inl hu))

theorem Ids.congr {used' : Nat → Prop} (h : r.Ids used) (hu : ∀ tid, used' tid ↔ used tid) : r.Ids used' := by
  have : used' = used := funext fun tid => propext (hu tid)
  exact this ▸ h

theorem ids_empty : ({} : Registry).Ids fun _ => False where
  nodup := List.nodup_nil
  free := fun _ h => absurd h List.not_mem_nil
  range := fun tid => by simp
  hasSlot := fun tid h => absurd h (Nat.not_lt_zero tid)
  blank := fun tid _ => by
    simp only [slot]
    cases e : ((#[Page.blank] : Array Page)[tid / slotsPerPage]?) with
    | none => rfl
    | some p =>
      obtain ⟨_, rfl⟩ := Array.getElem?_eq_some_iff.mp e
      simpa using Page.slot_blank tid

/-- A slot in use may be written to. -/
theorem Ids.modifySlot (h : r.Ids used) {tid : Nat} (hu : used tid) (f : Slot → Slot) :
    (r.modifySlot tid f).Ids used where
  nodup := h.nodup
  free := h.free
  range := h.range
  hasSlot := fun i hi => (hasSlot_modifySlot r tid i f).mpr (h.hasSlot i hi)
  blank := fun i hi => by
    have hne : i ≠ tid := by rintro rfl; exact hi hu
    rw [slot_modifySlot r tid i f (h.hasSlot_of_used hu), if_neg hne]
    exact h.blank i hi

/-- The epoch does not matter to the ids. -/
theorem Ids.epoch (h : r.Ids used) (e : Epoch) : { r with epoch := e }.Ids used :=
  ⟨h.nodup, h.free, h.range, h.hasSlot, h.blank⟩

@[simp] theorem slot_register (r : Registry) (i : Nat) : r.register.2.slot i = r.slot i := by
  unfold register
  split <;> exact slot_reach _ _ _

@[simp] theorem epoch_register (r : Registry) : r.register.2.epoch = r.epoch := by
  unfold register reach
  (repeat' split) <;> rfl

theorem freeTids_reach (r : Registry) (i : Nat) : (r.reach i).freeTids = r.freeTids := by
  unfold reach; split <;> rfl

theorem nextTid_reach (r : Registry) (i : Nat) : (r.reach i).nextTid = r.nextTid := by
  unfold reach; split <;> rfl

theorem Ids.register_fresh (h : r.Ids used) : ¬ used r.register.1 := by
  unfold Registry.register
  split
  · rename_i tid rest e
    exact h.free tid (by simp [e])
  · intro hu
    exact absurd ((h.range _).mp (Or.inl hu)) (Nat.lt_irrefl _)

theorem Ids.register (h : r.Ids used) : r.register.2.Ids fun i => used i ∨ i = r.register.1 := by
  have hfresh := h.register_fresh
  have hblank : ∀ i, ¬ (used i ∨ i = r.register.1) → r.register.2.slot i = {} := fun i hi => by
    rw [slot_register]; exact h.blank i fun hu => hi (Or.inl hu)
  revert hfresh hblank
  unfold Registry.register
  split
  · rename_i tid rest e
    intro hfresh hblank
    have hnd : tid ∉ rest ∧ rest.Nodup := List.nodup_cons.mp (e ▸ h.nodup)
    refine ⟨by rw [freeTids_reach]; exact hnd.2, ?_, ?_, ?_, hblank⟩
    · intro i hi hu
      rw [freeTids_reach] at hi
      rcases hu with hu | rfl
      · exact h.free i (by rw [e]; exact List.mem_cons_of_mem _ hi) hu
      · exact hnd.1 hi
    · intro i
      rw [freeTids_reach, nextTid_reach, ← h.range i, e]
      simp only [List.mem_cons]
      constructor
      · rintro ((hu | rfl) | hi)
        · exact Or.inl hu
        · exact Or.inr (Or.inl rfl)
        · exact Or.inr (Or.inr hi)
      · rintro (hu | rfl | hi)
        · exact Or.inl (Or.inl hu)
        · exact Or.inl (Or.inr rfl)
        · exact Or.inr hi
    · intro i hi
      rw [nextTid_reach] at hi
      exact hasSlot_reach_of (h.hasSlot i hi)
  · rename_i e
    intro hfresh hblank
    refine ⟨by rw [freeTids_reach]; exact h.nodup, ?_, ?_, ?_, hblank⟩
    · intro i hi
      rw [freeTids_reach, e] at hi
      cases hi
    · intro i
      have := h.range i
      rw [e] at this
      rw [freeTids_reach, nextTid_reach]
      simp only [e, List.not_mem_nil, or_false] at this ⊢
      rw [this]
      omega
    · intro i hi
      rw [nextTid_reach] at hi
      rcases Nat.lt_succ_iff_lt_or_eq.mp hi with hi | rfl
      · exact hasSlot_reach_of (h.hasSlot i hi)
      · exact hasSlot_reach _ _

/-- A slot goes blank and its id is free again. -/
theorem Ids.release (h : r.Ids used) {tid : Nat} (hu : used tid) (hs : (r.slot tid).stray = 0) :
    ((r.unpin tid).release tid).Ids fun i => used i ∧ i ≠ tid := by
  have hmod := h.modifySlot hu fun s => { s with epoch := quiescent }
  refine ⟨List.nodup_cons.mpr ⟨fun hm => h.free tid hm hu, h.nodup⟩, ?_, ?_, hmod.hasSlot, ?_⟩
  · intro i hi hui
    rcases List.mem_cons.mp hi with rfl | hi
    · exact hui.2 rfl
    · exact h.free i hi hui.1
  · intro i
    show _ ∨ i ∈ tid :: r.freeTids ↔ i < r.nextTid
    rw [← h.range i, List.mem_cons]
    by_cases e : i = tid
    · subst e; simp [hu]
    · simp [e]
  · intro i hi
    show (r.unpin tid).slot i = {}
    rw [unpin, slot_pin tid i quiescent (h.hasSlot_of_used hu)]
    by_cases e : i = tid
    · rw [if_pos e]
      cases hslot : r.slot tid
      simp_all
    · rw [if_neg e]
      exact h.blank i fun hui => hi ⟨hui, e⟩

end EpochQueue.Reclaim.Registry
