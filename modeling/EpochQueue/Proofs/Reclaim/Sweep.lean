/-
  EpochQueue.Proofs.Reclaim.Sweep — the last thread destroys what all the others have left.

  Once nobody else has a handle and nobody holds a guard (`Deserted`), no slot is pinned and every
  flush lets the epoch grow. What a flush does not destroy is one epoch older after it, as long as
  no destructor adds to it, and what is two epochs old is destroyed: so three flushes that destroy
  nothing leave nothing to wait (`Aged.sifted`, `Aged.nothing`).

  When nothing is pending for that thread, the books are empty: every node that was retired has
  been destroyed (`Deserted.cleared`).
-/

import EpochQueue.Proofs.Reclaim.Books
import EpochQueue.Proofs.Reclaim.Ways
import EpochQueue.Proofs.Reclaim.Occupancy

namespace EpochQueue.Reclaim

variable {ν κ : Type}

/-- How many epochs ago the bag was sealed, by the difference of the words. -/
def Bag.age (b : Bag ν) (global : Epoch) : Nat := (global - b.epoch).toNat

theorem Bag.age_lt_iff (b : Bag ν) (g : Epoch) : b.age g < 2 ↔ b.isExpired g = false := by
  rw [← Bool.not_eq_true, b.isExpired_iff, Nat.not_le]
  rfl

/-- As long as a bag has not expired, it is one epoch older with the next epoch. -/
theorem Bag.age_succ {b : Bag ν} {g : Epoch} (h : b.age g < 2) : b.age (g + 1) = b.age g + 1 := by
  have hg : g + 1 - b.epoch = g - b.epoch + 1 := by
    rw [UInt64.sub_eq_add_neg, UInt64.sub_eq_add_neg, UInt64.add_assoc, UInt64.add_comm 1, ← UInt64.add_assoc]
  unfold age at h ⊢
  rw [hg, UInt64.toNat_add, UInt64.toNat_one]
  omega

theorem Bag.total_eq_zero {bs : List (Bag ν)} (hf : ∀ b ∈ bs, b.Filled) (h : Bag.total bs = 0) : bs = [] := by
  cases bs with
  | nil => rfl
  | cons b bs =>
    have hpos := (hf b List.mem_cons_self).pos
    rw [Bag.total] at h
    omega

theorem Thread.hoard_of_not_live {th : Thread ν κ} (h : ∀ x, th.tenure ≠ .live x) : th.hoard = {} := by
  unfold hoard
  cases ht : th.tenure with
  | live x => exact absurd ht (h x)
  | unused | gone => rfl

namespace Domain

variable {d d' : Domain ν κ} {t : Nat}

/-- How many nodes wait for `t`, whether it has a handle or not. -/
theorem pending_fst (d : Domain ν κ) (t : Nat) :
    (d.pending t).1 = (d.thread t).hoard.batchLen + Bag.total (d.thread t).hoard.bags := by
  unfold pending
  cases hh : d.handle? t with
  | some h => rw [hoard_eq hh]; rfl
  | none => rw [hoard_eq_empty hh]; rfl

/-- Nobody is left but `t`, and nothing is under way. -/
structure Deserted (d : Domain ν κ) (t : Nat) : Prop where
  calls : ∀ u, (d.thread u).calls = []
  guards : ∀ u, (d.thread u).guards = []
  handle : (d.handle? t).isSome = true
  others : ∀ u, u ≠ t → ∀ h, (d.thread u).tenure ≠ .live h

namespace Deserted

theorem quiet (h : d.Deserted t) (hr : d.Reach) (tid : Nat) : (d.registry.slot tid).epoch = quiescent := by
  refine Classical.by_contradiction fun h0 => ?_
  obtain ⟨u, b, hu⟩ := hr.occupied tid h0
  rw [Thread.shields, Thread.seats, h.calls u, h.guards u] at hu
  cases hu

end Deserted

/-! ## A flush, as far as it takes out what has expired -/

/-- The bags that a flush of `t` looks at: its own with the batch, and those that were left. -/
def swept (d : Domain ν κ) (t : Nat) : List (Bag ν) := ((d.thread t).hoard.sealed d.registry.epoch).bags ++ d.orphans

theorem flush_hoard (d : Domain ν κ) (t : Nat) (k : κ) :
    ((d.flush t k).thread t).hoard = (d.thread t).hoard.sealed d.registry.epoch ∧
      (d.flush t k).handle? t = (d.handle? t).map (·.sealBatch d.registry.epoch) := by
  cases hh : d.handle? t with
  | some h =>
    have ht := thread_flush_of_handle hh (k := k) t
    rw [if_pos rfl] at ht
    rw [handle?_eq, ht, hoard_eq hh]
    exact ⟨(Thread.hoard_of_handle rfl).trans (Handle.hoard_sealBatch _ _), rfl⟩
  | none =>
    have ht := thread_flush_of_gone hh (k := k) t
    rw [if_pos rfl] at ht
    rw [handle?_eq] at hh ⊢
    rw [ht, Thread.hoard_of_gone hh, Thread.hoard_of_gone (by exact hh)]
    exact ⟨rfl, hh⟩

/-- Where a flush of `t` is when it has taken out what has expired, while no slot is pinned. -/
structure Sorts (d : Domain ν κ) (t : Nat) (k : κ) (d' : Domain ν κ) : Prop where
  epoch : d'.registry.epoch = d.registry.epoch + 1
  batchLen : (d'.thread t).hoard.batchLen = 0
  pool : d'.pool t = (d.swept t).filter (!·.isExpired (d.registry.epoch + 1))
  orphans : (d.handle? t).isSome = true → d'.orphans = []
  calls : (d'.thread t).calls = ⟨k, .free .flush
    (Bag.contents ((d.swept t).filter (·.isExpired (d.registry.epoch + 1)))) 0⟩ :: (d.thread t).calls

/-- The three moves of a flush before it destroys. -/
theorem flush_sorts (hquiet : ∀ tid, (d.registry.slot tid).epoch = quiescent) (t : Nat) (k : κ) :
    ∃ d₁ d₂ : Domain ν κ, (d.flush t k).step t = (d₁, .quiet) ∧ d₁.step t = (d₂, .quiet) ∧
      (d₁.thread t).calls = ⟨k, .select .flush (d.registry.epoch + 1)⟩ :: (d.thread t).calls ∧ Sorts d t k d₂ := by
  -- the batch is sealed
  have hc₀ := (flush_opens d t k).1
  obtain ⟨hoard₀, hh₀⟩ := flush_hoard d t k
  obtain ⟨hreg₀, horph₀, -, -⟩ := flush_frame d t k
  generalize d.flush t k = d₀ at hc₀ hoard₀ hh₀ hreg₀ horph₀ ⊢
  have hadv : d₀.registry.advanced = d.registry.epoch + 1 := by
    rw [hreg₀, Registry.advanced_of_observed fun tid => Or.inl (hquiet tid)]
  -- the epoch grows
  have h₁ := thread_advance hc₀ .flush t
  rw [if_pos rfl, hadv] at h₁
  obtain ⟨hreg₁, horph₁, -, -⟩ := advance_frame d₀ t .flush
  have hs₀ : d₀.step t = (d₀.advance t .flush, .quiet) := step_eq hc₀
  generalize d₀.advance t .flush = d₁ at h₁ hreg₁ horph₁ hs₀
  have hc₁ : (d₁.thread t).calls = ⟨k, .select .flush (d.registry.epoch + 1)⟩ :: (d.thread t).calls := by rw [h₁]
  have hoard₁ : (d₁.thread t).hoard = (d.thread t).hoard.sealed d.registry.epoch := by
    rw [h₁]
    exact hoard₀
  have hh₁ : d₁.handle? t = (d.handle? t).map (·.sealBatch d.registry.epoch) := by
    rw [handle?_eq, h₁, ← hh₀, handle?_eq]
  have hpool : d₁.pool t = d.swept t := by
    rw [pool, swept, ← Thread.bags_hoard, hoard₁, horph₁, horph₀]
  -- what has expired is taken out
  obtain ⟨-, hlen₂, hpool₂, hc₂⟩ := select_sorts hc₁ .flush (d.registry.epoch + 1)
  have horph₂ := fun h => orphans_select_of_handle (d := d₁) (t := t) (h := h) (p := .flush) (g := d.registry.epoch + 1)
  have hreg₂ := (select_frame d₁ t .flush (d.registry.epoch + 1)).1
  have hs₁ : d₁.step t = (d₁.select t .flush (d.registry.epoch + 1), .quiet) := step_eq hc₁
  generalize d₁.select t .flush (d.registry.epoch + 1) = d₂ at hlen₂ hpool₂ hc₂ horph₂ hreg₂ hs₁
  rw [hpool] at hpool₂ hc₂
  refine ⟨d₁, d₂, hs₀, hs₁, hc₁, ⟨?_, ?_, hpool₂, fun hsome => ?_, hc₂⟩⟩
  · rw [hreg₂, hreg₁]
    exact hadv
  · rw [hlen₂, hoard₁, Hoard.sealed]
    split
    next h0 => exact h0
    next => rfl
  · obtain ⟨x, hx⟩ := Option.isSome_iff_exists.mp hsome
    exact horph₂ _ (by rw [hh₁, hx]; rfl)

/-- Where a flush of `t` is when it has taken out what has expired. -/
structure Sifted (d : Domain ν κ) (t : Nat) (d' : Domain ν κ) : Prop where
  epoch : d'.registry.epoch = d.registry.epoch + 1
  batchLen : (d'.thread t).hoard.batchLen = 0
  bags : (d'.thread t).hoard.bags = (d.swept t).filter (!·.isExpired (d.registry.epoch + 1))
  orphans : d'.orphans = []

theorem Deserted.sifts (h : d.Deserted t) (hr : d.Reach) (k : κ) : ∃ d₁ d₂ : Domain ν κ,
    (d.flush t k).step t = (d₁, .quiet) ∧ d₁.step t = (d₂, .quiet) ∧ Sifted d t d₂ ∧
    (d₂.thread t).calls =
      [⟨k, .free .flush (Bag.contents ((d.swept t).filter (·.isExpired (d.registry.epoch + 1)))) 0⟩] := by
  obtain ⟨d₁, d₂, hs₀, hs₁, -, hsorts⟩ := flush_sorts (h.quiet hr) t k
  have horphans := hsorts.orphans h.handle
  refine ⟨d₁, d₂, hs₀, hs₁, ⟨hsorts.epoch, hsorts.batchLen, ?_, horphans⟩, h.calls t ▸ hsorts.calls⟩
  rw [← hsorts.pool, pool, horphans, List.append_nil, Thread.bags_hoard]

/-- A move that leaves these alone. -/
theorem Sifted.congr {d'' : Domain ν κ} (h : Sifted d t d') (hr : d''.registry = d'.registry)
    (hh : (d''.thread t).hoard = (d'.thread t).hoard) (ho : d''.orphans = d'.orphans) : Sifted d t d'' :=
  ⟨by rw [hr]; exact h.epoch, by rw [hh]; exact h.batchLen, by rw [hh]; exact h.bags, ho.trans h.orphans⟩

/-! ## What waits gets older -/

/-- What waits has been through that many flushes that destroyed nothing. -/
def Aged (d : Domain ν κ) (t : Nat) : Nat → Prop
  | 0 => True
  | j + 1 => (d.thread t).hoard.batchLen = 0 ∧ d.orphans = [] ∧
    ∀ b ∈ (d.thread t).hoard.bags, j ≤ b.age d.registry.epoch ∧ b.age d.registry.epoch < 2

theorem Aged.sifted {j : Nat} (ha : d.Aged t j) (h : Sifted d t d') : d'.Aged t (j + 1) := by
  refine ⟨h.batchLen, h.orphans, fun b hb => ?_⟩
  rw [h.bags] at hb
  obtain ⟨hb, hkept⟩ := List.mem_filter.mp hb
  rw [h.epoch]
  refine ⟨?_, (b.age_lt_iff _).mpr (by simpa using hkept)⟩
  cases j with
  | zero => exact Nat.zero_le _
  | succ j =>
    obtain ⟨hlen, horphans, hbags⟩ := ha
    rw [swept, horphans, List.append_nil, Hoard.sealed, if_pos hlen] at hb
    obtain ⟨hle, hlt⟩ := hbags b hb
    rw [Bag.age_succ hlt]
    exact Nat.succ_le_succ hle

/-- After the third one nothing waits. -/
theorem Aged.nothing (ha : d.Aged t 3) : (d.pending t).1 = 0 := by
  obtain ⟨hlen, -, hbags⟩ := ha
  have hnil : (d.thread t).hoard.bags = [] := List.eq_nil_iff_forall_not_mem.mpr fun b hb => by
    obtain ⟨hle, hlt⟩ := hbags b hb
    exact Nat.lt_irrefl _ (Nat.lt_of_le_of_lt hle hlt)
  rw [pending_fst, hlen, hnil]
  rfl

/-! ## Nothing waits -/

/-- All that was retired has been destroyed, once each, and nothing else; nobody has left anything
    behind, and nobody is pinned. -/
structure Cleared [DecidableEq ν] (d : Domain ν κ) : Prop where
  once : ∀ n, d.wasRetired n → d.frees.count n = 1
  only : ∀ n ∈ d.frees, d.wasRetired n
  orphans : d.orphans = []
  quiet : ∀ tid, (d.registry.slot tid).epoch = quiescent

theorem Deserted.books (h : d.Deserted t) (hr : d.Reach) (horphans : d.orphans = []) (hp : (d.pending t).1 = 0) :
    d.books = [] := by
  have hoard : ∀ u, (d.thread u).hoard.batch = [] ∧ (d.thread u).hoard.bags = [] := fun u => by
    by_cases e : u = t
    · subst e
      have hneat := hr.neat.hoard u
      rw [pending_fst] at hp
      obtain ⟨hlen, htotal⟩ := Nat.add_eq_zero_iff.mp hp
      exact ⟨List.length_eq_zero_iff.mp (hneat.batchLen_eq ▸ hlen), Bag.total_eq_zero hneat.bags htotal⟩
    · rw [Thread.hoard_of_not_live (h.others u e)]
      exact ⟨rfl, rfl⟩
  refine List.eq_nil_iff_forall_not_mem.mpr fun n hn => ?_
  rcases mem_books.mp hn with ⟨u, hn | hn | hn⟩ | hn
  · rw [← Thread.batch_hoard, (hoard u).1] at hn; cases hn
  · rw [← Thread.bags_hoard, (hoard u).2] at hn; cases hn
  · rw [Thread.todo, h.calls u] at hn; cases hn
  · rw [horphans] at hn; cases hn

theorem Deserted.cleared [DecidableEq ν] (h : d.Deserted t) (hr : d.Reach) (horphans : d.orphans = [])
    (hp : (d.pending t).1 = 0) : d.Cleared := by
  have hb := hr.balanced
  have hperm := hb.perm
  rw [h.books hr horphans hp, List.append_nil] at hperm
  have hnodup := hperm.nodup_iff.mp hb.nodup
  refine ⟨fun n hn => ?_, fun n hn => mem_retirements.mp (hperm.mem_iff.mpr hn), horphans, h.quiet hr⟩
  exact List.count_eq_one_of_mem hnodup (hperm.mem_iff.mp (mem_retirements.mpr hn))

end Domain

end EpochQueue.Reclaim
