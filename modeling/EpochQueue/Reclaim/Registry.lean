/-
  EpochQueue.Reclaim.Registry — the global epoch, the slots, and the ids that name them.

  A slot holds the epoch its owner is pinned at, or `quiescent`. Slots come in pages of
  `slotsPerPage`; pages are added on demand and never taken away, so a slot once handed out
  stays where it is. Ids are recycled last in, first out, and only when none is free does the
  next new one come into use.

  `tryAdvance` lets the global epoch grow by one when every slot that is not quiescent holds
  the current epoch. `slot_modifySlot` says that ids do not share slots, and `mem_slots_iff`
  that the walk over all pages meets the slots of exactly the ids that have one.
-/

import EpochQueue.Reclaim.Bag

namespace EpochQueue.Reclaim

def slotsPerPage : Nat := 64

/-- One published epoch, with the number of guards that outlived the handle that made them. -/
structure Slot where
  epoch : Epoch := quiescent
  stray : Nat := 0
  deriving Repr, DecidableEq, Inhabited

abbrev Page := Vector Slot slotsPerPage

theorem slotsPerPage_pos : 0 < slotsPerPage := by decide

namespace Page

def blank : Page := Vector.replicate slotsPerPage {}

/-- The slot that an id has on its page. -/
def slot (p : Page) (tid : Nat) : Slot :=
  have := Nat.mod_lt tid slotsPerPage_pos
  p[tid % slotsPerPage]

def modify (p : Page) (tid : Nat) (f : Slot → Slot) : Page :=
  p.set (tid % slotsPerPage) (f (p.slot tid)) (Nat.mod_lt _ slotsPerPage_pos)

theorem slot_blank (tid : Nat) : blank.slot tid = {} := by simp [slot, blank]

theorem slot_modify (p : Page) (i j : Nat) (f : Slot → Slot) :
    (p.modify i f).slot j =
      if i % slotsPerPage = j % slotsPerPage then f (p.slot i) else p.slot j := by
  simp only [slot, modify, Vector.getElem_set]

end Page

structure Registry where
  epoch : Epoch := firstEpoch
  pages : Array Page := #[Page.blank]
  nextTid : Nat := 0
  /-- Ids given back, the last one first. -/
  freeTids : List Nat := []

namespace Registry

/-- The slot of an id: so many pages on, so many places in. An id whose page was never
    needed reads as a slot that nobody ever used. -/
def slot (r : Registry) (tid : Nat) : Slot :=
  match r.pages[tid / slotsPerPage]? with
  | some p => Page.slot p tid
  | none => {}

/-- Pages up to the one that holds `tid`. -/
def reach (r : Registry) (tid : Nat) : Registry :=
  if tid / slotsPerPage < r.pages.size then r
  else { r with
    pages := r.pages ++ Array.replicate (tid / slotsPerPage + 1 - r.pages.size) Page.blank }

def modifySlot (r : Registry) (tid : Nat) (f : Slot → Slot) : Registry :=
  { r with pages := r.pages.modify (tid / slotsPerPage) fun p => Page.modify p tid f }

/-- The owner of `tid` is pinned at `epoch` from now on. -/
def pin (r : Registry) (tid : Nat) (epoch : Epoch) : Registry :=
  r.modifySlot tid fun s => { s with epoch := epoch }

def unpin (r : Registry) (tid : Nat) : Registry := r.pin tid quiescent

def setStray (r : Registry) (tid : Nat) (guards : Nat) : Registry :=
  r.modifySlot tid fun s => { s with stray := guards }

/-- Hands out an id and makes sure that there is a slot for it. -/
def register (r : Registry) : Nat × Registry :=
  match r.freeTids with
  | tid :: rest => (tid, { r with freeTids := rest }.reach tid)
  | [] => (r.nextTid, { r with nextTid := r.nextTid + 1 }.reach r.nextTid)

/-- Takes an id back. -/
def release (r : Registry) (tid : Nat) : Registry := { r with freeTids := tid :: r.freeTids }

/-- Every slot there is, page after page. -/
def slots (r : Registry) : List Slot := r.pages.toList.flatMap (·.toList)

/-- Nobody who is pinned is pinned at another epoch than the global one. -/
def allObserved (r : Registry) : Bool :=
  r.slots.all fun s => s.epoch == quiescent || s.epoch == r.epoch

/-- The global epoch after the attempt, which succeeds when all have observed it. -/
def tryAdvance (r : Registry) : Epoch × Registry :=
  if r.allObserved then (r.epoch + 1, { r with epoch := r.epoch + 1 }) else (r.epoch, r)

/-! ## What changes where -/

/-- There is a page for the id. -/
def HasSlot (r : Registry) (tid : Nat) : Prop := tid / slotsPerPage < r.pages.size

theorem hasSlot_reach (r : Registry) (tid : Nat) : (r.reach tid).HasSlot tid := by
  unfold HasSlot reach
  split
  · assumption
  · simp; omega

theorem slot_reach (r : Registry) (i j : Nat) : (r.reach i).slot j = r.slot j := by
  unfold reach
  split
  · rfl
  · simp only [slot]
    by_cases hj : j / slotsPerPage < r.pages.size
    · simp [Array.getElem?_append, hj]
    · simp only [Array.getElem?_append, hj, if_false, Array.getElem?_replicate,
        Array.getElem?_eq_none (Nat.le_of_not_lt hj)]
      split <;> rename_i h
      · split at h
        · cases h; exact Page.slot_blank j
        · cases h
      · rfl

/-- An id is known by its page and its place there. -/
theorem eq_of_div_mod_eq {i j : Nat} (hd : i / slotsPerPage = j / slotsPerPage)
    (hm : i % slotsPerPage = j % slotsPerPage) : i = j := by
  rw [← Nat.div_add_mod i slotsPerPage, hd, hm, Nat.div_add_mod]

theorem slot_modifySlot (r : Registry) (i j : Nat) (f : Slot → Slot) (h : r.HasSlot i) :
    (r.modifySlot i f).slot j = if j = i then f (r.slot i) else r.slot j := by
  unfold HasSlot at h
  simp only [slot, modifySlot, Array.getElem?_modify]
  by_cases e : j = i
  · subst e
    simp [Array.getElem?_eq_getElem h, Page.slot_modify]
  · by_cases hd : i / slotsPerPage = j / slotsPerPage
    · have hm : ¬ i % slotsPerPage = j % slotsPerPage := fun hm => e (eq_of_div_mod_eq hd hm).symm
      rw [if_pos hd, if_neg e, ← hd, Array.getElem?_eq_getElem h]
      simp [Page.slot_modify, hm]
    · simp [hd, e]

theorem mem_slots_iff (r : Registry) (s : Slot) :
    s ∈ r.slots ↔ ∃ tid, r.HasSlot tid ∧ r.slot tid = s := by
  constructor
  · intro h
    obtain ⟨p, hp, hs⟩ := List.mem_flatMap.mp h
    obtain ⟨i, hi, rfl⟩ := List.getElem_of_mem hp
    obtain ⟨j, hj, rfl⟩ := List.getElem_of_mem hs
    have hj' : j < slotsPerPage := by simpa using hj
    have hi' : i < r.pages.size := by simpa using hi
    have hd : (i * slotsPerPage + j) / slotsPerPage = i := by
      rw [Nat.mul_comm, Nat.mul_add_div slotsPerPage_pos, Nat.div_eq_of_lt hj', Nat.add_zero]
    have hm : (i * slotsPerPage + j) % slotsPerPage = j := by
      rw [Nat.mul_comm, Nat.mul_add_mod, Nat.mod_eq_of_lt hj']
    refine ⟨i * slotsPerPage + j, by unfold HasSlot; rw [hd]; exact hi', ?_⟩
    simp only [slot, hd, Array.getElem?_eq_getElem hi', Page.slot, hm]
    simp
  · rintro ⟨tid, h, rfl⟩
    unfold HasSlot at h
    simp only [slots, List.mem_flatMap, slot, Array.getElem?_eq_getElem h]
    exact ⟨r.pages[tid / slotsPerPage], by simp, by simp [Page.slot]⟩

end Registry

end EpochQueue.Reclaim
