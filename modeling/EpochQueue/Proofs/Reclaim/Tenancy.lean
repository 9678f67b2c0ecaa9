/-
  EpochQueue.Proofs.Reclaim.Tenancy — who has which slot, and what the scan of all slots sees.

  A thread has in use the id of its handle, or the one id of the guards that outlived it, and one
  id for every detached guard (`Thread.ids`). Over all threads these ids are distinct, and with
  the free ones they are all ids handed out so far. Every id has a place of its own among the
  slots, at which the scan of an attempt to advance comes by (`getElem?_slots`), so the attempt
  succeeds if and only if nobody with an id is pinned at an older epoch (`Reach.tenancy`).
-/

import Mathlib.Data.List.Nodup
import EpochQueue.Proofs.Reclaim.Epochs
import EpochQueue.Proofs.Reclaim.Schedules
import EpochQueue.Proofs.Ledger

namespace EpochQueue.Reclaim

variable {ν κ : Type}

/-! ## Places -/

namespace Registry

theorem getElem?_pages (ps : List Page) (i : Nat) {j : Nat} (hj : j < slotsPerPage) :
    (ps.flatMap (·.toList))[i * slotsPerPage + j]? = ps[i]?.map (·[j]) := by
  induction ps generalizing i with
  | nil => rfl
  | cons p ps ih =>
    have hlen : p.toList.length = slotsPerPage := by simp
    rw [List.flatMap_cons]
    cases i with
    | zero =>
      rw [Nat.zero_mul, Nat.zero_add, List.getElem?_append_left (by rw [hlen]; exact hj),
        List.getElem?_eq_getElem (by rw [hlen]; exact hj)]
      simp
    | succ i =>
      rw [List.getElem?_append_right (by rw [hlen, Nat.succ_mul]; omega), hlen, List.getElem?_cons_succ, ← ih]
      congr 1
      rw [Nat.succ_mul]
      omega

/-- The scan comes by the slot of every id that has one, and by different ids at different
    places. -/
theorem getElem?_slots {r : Registry} {tid : Nat} (h : r.HasSlot tid) : r.slots[tid]? = some (r.slot tid) := by
  have hpages := getElem?_pages r.pages.toList (tid / slotsPerPage) (Nat.mod_lt tid slotsPerPage_pos)
  rw [Nat.mul_comm, Nat.div_add_mod] at hpages
  unfold HasSlot at h
  rw [slots, hpages, slot, Array.getElem?_toList, Array.getElem?_eq_getElem h]
  rfl

/-- An attempt to advance goes by the ids in use; the other slots are blank. -/
theorem Ids.allObserved_iff {r : Registry} {used : Nat → Prop} (h : r.Ids used) : r.allObserved = true ↔
    ∀ tid, used tid → (r.slot tid).epoch = quiescent ∨ (r.slot tid).epoch = r.epoch := by
  constructor
  · exact fun hobs tid _ => eq_of_allObserved hobs tid
  · intro hused
    refine List.all_eq_true.mpr fun s hs => ?_
    obtain ⟨tid, -, rfl⟩ := (mem_slots_iff r s).mp hs
    by_cases hu : used tid
    · simpa using hused tid hu
    · rw [h.blank tid hu]
      rfl

theorem advances_iff (r : Registry) : r.tryAdvance.2.epoch = r.epoch + 1 ↔ r.allObserved = true := by
  unfold tryAdvance
  cases r.allObserved <;> simp

end Registry

/-! ## Ids in use -/

namespace Thread

/-- The id of the handle, or of the guards that outlived it. -/
def attachedId? (th : Thread ν κ) : Option Nat :=
  match th.lease with
  | some (slot, _) => slot
  | none => (th.holds.find? (!·.2)).map (·.1)

def detachedIds (th : Thread ν κ) : List Nat := (th.holds.filter (·.2)).map (·.1)

/-- The ids that the thread has in use. -/
def ids (th : Thread ν κ) : List Nat := th.attachedId?.toList ++ th.detachedIds

variable {th : Thread ν κ} {r : Registry} {tid : Nat}

theorem mem_detachedIds : tid ∈ th.detachedIds ↔ th.Claims tid true := by
  rw [claims_detached, detachedIds, List.mem_map]
  constructor
  · rintro ⟨⟨i, b⟩, hp, rfl⟩
    obtain ⟨hp, hb⟩ := List.mem_filter.mp hp
    cases b
    · cases hb
    · exact hp
  · exact fun hp => ⟨_, List.mem_filter.mpr ⟨hp, rfl⟩, rfl⟩

/-- All guards that outlived the handle have the same slot. -/
theorem Sound.find?_eq (h : th.Sound r) (hl : th.lease = none) :
    (th.holds.find? (!·.2)).map (·.1) = some tid ↔ (tid, false) ∈ th.holds := by
  have hfound : ∀ p, th.holds.find? (!·.2) = some p → (p.1, false) ∈ th.holds := fun ⟨i, b⟩ hp => by
    have hb := List.find?_some hp
    cases b
    · exact List.mem_of_find?_eq_some hp
    · cases hb
  constructor
  · intro hp
    obtain ⟨p, hf, rfl⟩ := Option.map_eq_some_iff.mp hp
    exact hfound p hf
  · intro hm
    cases hf : th.holds.find? (!·.2) with
    | none => exact absurd (List.find?_eq_none.mp hf _ hm) (by simp)
    | some p => exact congrArg some ((h.stray tid hl hm).2 p.1 (hfound p hf))

theorem Sound.attachedId?_eq (h : th.Sound r) : th.attachedId? = some tid ↔ th.Claims tid false := by
  unfold attachedId?
  cases hl : th.lease with
  | none => rw [claims_of_gone hl]; exact h.find?_eq hl
  | some l => rw [claims_of_lease hl]

theorem Sound.mem_ids (h : th.Sound r) : tid ∈ th.ids ↔ ∃ b, th.Claims tid b := by
  rw [ids, List.mem_append, Option.mem_toList, h.attachedId?_eq, mem_detachedIds]
  constructor
  · rintro (hc | hc)
    · exact ⟨false, hc⟩
    · exact ⟨true, hc⟩
  · rintro ⟨b, hc⟩
    cases b
    · exact Or.inl hc
    · exact Or.inr hc

end Thread

namespace Domain

variable {d : Domain ν κ}

/-- The ids in use: one for every live handle that has pinned, one for every dead handle with live
    guards, and one for every detached guard, those under construction included. -/
def idsInUse (d : Domain ν κ) : List Nat := d.threads.ledger Thread.ids

theorem Owned.mem_idsInUse (ho : d.Owned) {tid : Nat} : tid ∈ d.idsInUse ↔ d.Uses tid :=
  (Table.mem_ledger (by rfl)).trans (exists_congr fun t => (ho.sound t).mem_ids)

theorem Owned.nodup_ids (ho : d.Owned) (t : Nat) : (d.thread t).ids.Nodup := by
  have hfst : ∀ p ∈ (d.thread t).holds.filter (·.2), ∀ q ∈ (d.thread t).holds.filter (·.2), p.1 = q.1 → p = q :=
    fun p hp q hq e => Prod.ext e ((List.mem_filter.mp hp).2.trans (List.mem_filter.mp hq).2.symm)
  have hattached : (d.thread t).attachedId?.toList.Nodup := by cases (d.thread t).attachedId? <;> simp
  refine List.nodup_append.mpr ⟨hattached, List.Nodup.map_on hfst (ho.sound t).single, fun i hi j hj e => ?_⟩
  subst e
  exact ho.detached_ne (Thread.mem_detachedIds.mp hj) ((ho.sound t).attachedId?_eq.mp (Option.mem_toList.mp hi)) rfl

theorem Owned.nodup_idsInUse (ho : d.Owned) : d.idsInUse.Nodup := by
  rw [idsInUse, Table.ledger_eq d.threads (by rfl) (Nat.le_refl _)]
  refine List.nodup_flatMap.mpr ⟨fun t _ => ho.nodup_ids t, List.nodup_range.imp fun {t u} hne => ?_⟩
  intro tid ht hu
  obtain ⟨b, ht⟩ := (ho.sound t).mem_ids.mp ht
  obtain ⟨c, hu⟩ := (ho.sound u).mem_ids.mp hu
  exact hne (ho.excl t u tid b c ht hu).1

/-- The ids in use are distinct, and so are the free ones; together they are the ids handed out so
    far, each with a slot of its own, and a free id's slot is blank. The scan meets the slot of every
    id, and an attempt to advance succeeds if and only if every id in use is quiescent or pinned
    at the global epoch. -/
theorem Reach.tenancy (h : d.Reach) :
    d.idsInUse.Nodup ∧ d.registry.freeTids.Nodup ∧ (∀ tid ∈ d.idsInUse, tid ∉ d.registry.freeTids) ∧
    (∀ tid, tid ∈ d.idsInUse ∨ tid ∈ d.registry.freeTids ↔ tid < d.registry.nextTid) ∧
    (∀ tid ∈ d.registry.freeTids, d.registry.slot tid = { epoch := quiescent, stray := 0 }) ∧
    (∀ tid < d.registry.nextTid, d.registry.slots[tid]? = some (d.registry.slot tid) ∧
      ∀ i f, (d.registry.modifySlot tid f).slot i = if i = tid then f (d.registry.slot tid) else d.registry.slot i) ∧
    (d.registry.tryAdvance.2.epoch = d.registry.epoch + 1 ↔ ∀ tid ∈ d.idsInUse,
      (d.registry.slot tid).epoch = quiescent ∨ (d.registry.slot tid).epoch = d.registry.epoch) := by
  have ho := h.owned
  have hids : d.registry.Ids (· ∈ d.idsInUse) := ho.ids.congr fun _ => ho.mem_idsInUse
  refine ⟨ho.nodup_idsInUse, hids.nodup, fun tid hu hf => hids.free tid hf hu, hids.range,
    fun tid hf => hids.blank tid (hids.free tid hf), fun tid hlt => ?_, ?_⟩
  · have hslot := hids.hasSlot tid hlt
    exact ⟨Registry.getElem?_slots hslot, fun i f => Registry.slot_modifySlot _ _ _ f hslot⟩
  · exact (Registry.advances_iff d.registry).trans hids.allObserved_iff

/-- Thread 0 pins and exits; thread 1 pins, drops its guard and exits, which frees id 1; thread 2 pins
    through id 1, and thread 0 again, detached, through id 2. -/
def lodgingRun : List (Nat × Move Nat Nat) :=
  [(0, .pin 0), (0, .step), (0, .step), (0, .exit), (1, .pin 0), (1, .step), (1, .step), (1, .unpin ⟨1, 1, false⟩),
    (1, .exit), (2, .pin 0), (2, .step), (2, .step), (0, .pin 0), (0, .step), (3, .pin 0), (3, .step), (3, .step),
    (3, .unpin ⟨3, 3, false⟩), (3, .exit)]

theorem lodgingRun_plays : (({} : Domain Nat Nat).play lodgingRun).isSome = true := by decide +kernel

def lodgingEnd : Domain Nat Nat := (({} : Domain Nat Nat).play lodgingRun).get lodgingRun_plays

theorem lodgingEnd_reached : lodgingEnd.Reach := .of_play .start (Option.some_get lodgingRun_plays).symm

theorem tenancy_at_lodgingEnd : lodgingEnd.idsInUse = [0, 2, 1] ∧ lodgingEnd.registry.freeTids = [3] ∧
    ∀ tid, tid ∈ lodgingEnd.idsInUse ∨ tid ∈ lodgingEnd.registry.freeTids ↔ tid < lodgingEnd.registry.nextTid :=
  ⟨by decide +kernel, by decide +kernel, (Reach.tenancy lodgingEnd_reached).2.2.2.1⟩

end Domain

end EpochQueue.Reclaim
