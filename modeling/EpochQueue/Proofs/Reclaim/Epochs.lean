/-
  EpochQueue.Proofs.Reclaim.Epochs — published epochs stay within one of the global epoch.

  While calls happen one at a time, an epoch that was read is still the global one when it is
  published, so every slot that is not quiescent holds the global epoch or the one before
  (`ReachAlone.aligned`), and every guard has such a slot.

  Epochs are words: after 2^64 - 1 advances the global epoch is 0, the mark of a quiescent slot, and
  nothing said here holds any longer. `wrapped` is that the run got there, which takes a trace
  of that many notices (`not_wrapped_of_size`).
-/

import EpochQueue.Proofs.Reclaim.Turns

namespace EpochQueue.Reclaim

variable {ν κ : Type}

namespace Domain

/-- The 64-bit counter has overflowed: the global epoch was advanced to 0, which is no epoch. No
    run gets there in less than 2^64 - 1 notices (`Reach.not_wrapped_of_size`). -/
def wrapped (d : Domain ν κ) : Prop := .advanced quiescent ∈ d.trace

section

variable {d d' : Domain ν κ} {t : Nat} {x : Option (Notice ν)}

theorem wrapped_iff : d.wrapped ↔ .advanced quiescent ∈ d.story := (mem_story rfl).symm

/-- What is in the story stays in it. -/
theorem Turn.mem_story (h : Turn d t x d') {y : Notice ν} : y ∈ d'.story ↔ y ∈ d.story ∨ x = some y := by
  rw [h.story, List.mem_append]
  exact or_congr_right Option.mem_toList

theorem Turn.not_wrapped (h : Turn d t x d') (hw : ¬ d'.wrapped) :
    ¬ d.wrapped ∧ x ≠ some (.advanced quiescent) := by
  rw [wrapped_iff, h.mem_story, not_or, ← wrapped_iff] at hw
  exact hw

theorem toNat_succ {e : Epoch} (h : e + 1 ≠ quiescent) : (e + 1).toNat = e.toNat + 1 := by
  have h0 : (e + 1).toNat ≠ 0 := fun h' => h (UInt64.toNat_inj.mp h')
  have hlt := e.toNat_lt
  rw [UInt64.toNat_add] at *
  have : (1 : UInt64).toNat = 1 := rfl
  omega

/-- The global epoch never goes back. -/
theorem Turn.epoch_le (h : Turn d t x d') (hx : x ≠ some (.advanced quiescent)) :
    d.registry.epoch.toNat ≤ d'.registry.epoch.toNat := by
  rcases h.epoch with ⟨he, -⟩ | ⟨-, he, hx', -⟩
  · exact Nat.le_of_eq (by rw [he])
  · have hne : d.registry.epoch + 1 ≠ quiescent := by
      rw [← he]
      exact fun h0 => hx (by rw [hx', h0])
    rw [he, toNat_succ hne]
    exact Nat.le_succ _

theorem Turn.epoch_ne (h : Turn d t x d') (hx : x ≠ some (.advanced quiescent))
    (h0 : d.registry.epoch ≠ quiescent) : d'.registry.epoch ≠ quiescent := by
  rcases h.epoch with ⟨he, -⟩ | ⟨-, -, hx', -⟩
  · rwa [he]
  · exact fun h0 => hx (by rw [hx', h0])

/-- A run that has little to tell did not advance the epoch all the way round. -/
theorem Reach.not_wrapped_of_story (h : d.Reach) (hs : d.story.length < UInt64.size - 1) :
    ¬ d.wrapped ∧ d.registry.epoch.toNat ≤ 1 + d.story.length := by
  have hsize : UInt64.size = 2 ^ 64 := rfl
  induction h with
  | start => exact ⟨by simp [wrapped], Nat.le_refl 1⟩
  | @move d t m hr hm ih =>
    obtain ⟨x, ht⟩ := hr.owned.turn hm
    have hlen : (d.move t m).story.length = d.story.length + x.toList.length := by
      rw [ht.story, List.length_append]
    obtain ⟨hw, he⟩ := ih (by omega)
    rw [wrapped_iff, ht.mem_story, ← wrapped_iff, hlen]
    rcases ht.epoch with ⟨hsame, hx⟩ | ⟨-, hnext, rfl, -⟩
    · exact ⟨not_or.mpr ⟨hw, hx quiescent⟩, by rw [hsame]; omega⟩
    · have hsum : (d.registry.epoch + 1).toNat = d.registry.epoch.toNat + 1 := by
        rw [UInt64.toNat_add, Nat.mod_eq_of_lt] <;> (have : (1 : UInt64).toNat = 1 := rfl) <;>
          (rw [Option.toList_some, List.length_singleton] at hlen) <;> omega
      rw [hnext, hsum, Option.toList_some, List.length_singleton]
      refine ⟨not_or.mpr ⟨hw, fun h0 => ?_⟩, by omega⟩
      have h0 : (d.registry.epoch + 1).toNat = 0 := by
        rw [Notice.advanced.inj (Option.some.inj h0)]
        rfl
      omega

theorem Reach.not_wrapped_of_size (h : d.Reach) (hs : d.trace.size < UInt64.size - 1) : ¬ d.wrapped :=
  (h.not_wrapped_of_story (Nat.lt_of_le_of_lt (List.length_filter_le _ _) hs)).1

end

end Domain

theorem Registry.eq_of_allObserved {r : Registry} (h : r.allObserved = true) (tid : Nat) :
    (r.slot tid).epoch = quiescent ∨ (r.slot tid).epoch = r.epoch := by
  by_cases hs : r.HasSlot tid
  · have := List.all_eq_true.mp h _ ((mem_slots_iff r _).mpr ⟨tid, hs, rfl⟩)
    simpa using this
  · refine Or.inl ?_
    unfold HasSlot at hs
    rw [slot, Array.getElem?_eq_none (Nat.le_of_not_lt hs)]

theorem Registry.quiet_of_slots {r : Registry} (h : r.slots.all (·.epoch == quiescent) = true) (tid : Nat) :
    (r.slot tid).epoch = quiescent := by
  by_cases hs : r.HasSlot tid
  · exact eq_of_beq (List.all_eq_true.mp h _ ((mem_slots_iff r _).mpr ⟨tid, hs, rfl⟩))
  · unfold HasSlot at hs
    rw [slot, Array.getElem?_eq_none (Nat.le_of_not_lt hs)]

theorem Registry.quiet_iff_slots {r : Registry} :
    r.slots.all (·.epoch == quiescent) = true ↔ ∀ tid, (r.slot tid).epoch = quiescent := by
  refine ⟨quiet_of_slots, fun h => List.all_eq_true.mpr fun s hs => ?_⟩
  obtain ⟨tid, -, rfl⟩ := (mem_slots_iff r s).mp hs
  exact beq_iff_eq.mpr (h tid)

/-- An attempt to advance succeeds when all that are pinned have observed the epoch. -/
theorem Registry.advanced_of_observed {r : Registry}
    (h : ∀ tid, (r.slot tid).epoch = quiescent ∨ (r.slot tid).epoch = r.epoch) : r.advanced = r.epoch + 1 := by
  unfold advanced
  refine if_pos (List.all_eq_true.mpr fun s hs => ?_)
  obtain ⟨tid, -, rfl⟩ := (mem_slots_iff _ s).mp hs
  rcases h tid with h | h <;> simp [h]

namespace Domain

/-- How published epochs stand to the global one. -/
structure Aligned (d : Domain ν κ) : Prop where
  positive : d.registry.epoch ≠ quiescent
  near : ∀ tid, (d.registry.slot tid).epoch = quiescent ∨
    (d.registry.slot tid).epoch.toNat ≤ d.registry.epoch.toNat ∧
      d.registry.epoch.toNat ≤ (d.registry.slot tid).epoch.toNat + 1
  shielded : ∀ t, ∀ p ∈ (d.thread t).shields, (d.registry.slot p.1).epoch ≠ quiescent
  /-- An epoch read is the global one until it is published. -/
  publishing : ∀ t tid e b, (d.thread t).point? = some (.publish tid e b) → e = d.registry.epoch
  selecting : ∀ t p g, (d.thread t).point? = some (.select p g) → g = d.registry.epoch

theorem aligned_empty : ({} : Domain ν κ).Aligned where
  positive := (by decide : firstEpoch ≠ quiescent)
  near := fun tid => Or.inl (by rw [Registry.ids_empty.blank tid id])
  shielded := fun _ _ h => nomatch h
  publishing := nofun
  selecting := nofun

section

variable {d d' : Domain ν κ} {t : Nat} {x : Option (Notice ν)}

theorem Turn.point?_of_rest (h : Turn d t x d') (hrest : d.othersRest t) {u : Nat} (hu : u ≠ t) :
    (d'.thread u).point? = none := by
  rw [h.others u hu, Thread.point?, hrest u hu]
  rfl

theorem Aligned.turn (ha : d.Aligned) (h : Turn d t x d') (hrest : d.othersRest t)
    (hx : x ≠ some (.advanced quiescent)) : d'.Aligned where
  positive := h.epoch_ne hx ha.positive
  near := fun tid => by
    rcases h.epoch with ⟨he, -⟩ | ⟨hobs, he, -, hslots⟩
    · rw [he]
      rcases h.slots tid with hs | ⟨hs, -⟩ | ⟨b, hp⟩
      · rw [hs]; exact ha.near tid
      · exact Or.inl hs
      · rw [ha.publishing t _ _ _ hp]
        exact Or.inr ⟨Nat.le_refl _, Nat.le_succ _⟩
    · have hle := h.epoch_le hx
      have hsucc := toNat_succ (he ▸ h.epoch_ne hx ha.positive)
      rw [hslots]
      refine (Registry.eq_of_allObserved hobs tid).imp_right fun hs => ?_
      rw [hs, he] at *
      exact ⟨hle, Nat.le_of_eq hsucc⟩
  shielded := fun u p hp h0 => by
    have hheld := Thread.shields_subset_holds hp
    have hold : p ∈ (d.thread u).shields → False := by
      intro hold
      rcases h.slots p.1 with hs | ⟨-, hs⟩ | ⟨b, hpt⟩
      · exact ha.shielded u p hold (hs ▸ h0)
      · exact hs u p.2 hheld
      · exact ha.positive ((ha.publishing t _ _ _ hpt).symm.trans h0)
    by_cases hu : u = t
    · subst hu
      rcases h.shields p hp with hp | hp
      · exact hold hp
      · exact ha.positive ((ha.publishing u _ _ _ hp).symm.trans h0)
    · exact hold (h.others u hu ▸ hp)
  publishing := fun u tid e b hp => by
    by_cases hu : u = t
    · subst hu; exact h.publishes tid e b hp
    · rw [h.point?_of_rest hrest hu] at hp
      cases hp
  selecting := fun u p g hp => by
    by_cases hu : u = t
    · subst hu; exact h.selects p g hp
    · rw [h.point?_of_rest hrest hu] at hp
      cases hp

theorem ReachAlone.aligned (h : d.ReachAlone) (hw : ¬ d.wrapped) : d.Aligned := by
  induction h with
  | start => exact aligned_empty
  | move t m hr hrest hm ih =>
    obtain ⟨x, ht⟩ := hr.reach.owned.turn hm
    obtain ⟨hw, hx⟩ := ht.not_wrapped hw
    exact (ih hw).turn ht hrest hx

end

end Domain

end EpochQueue.Reclaim
