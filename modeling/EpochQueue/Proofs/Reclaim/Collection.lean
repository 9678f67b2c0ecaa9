/-
  EpochQueue.Proofs.Reclaim.Collection — what a collection takes when others move in between.

  A collection goes by the epoch `g` that its attempt to advance left behind, and by the time it
  adopts the orphans the global epoch may have moved on. It takes the bags at least two epochs
  behind `g`, as it should, and with them the bags stamped after `g`, whose distance to `g` wraps
  around. Its own bags are never of that kind; orphans that another thread sealed and left in the
  meantime are (`young_taken_iff`), and such a bag need not be old enough: its nodes are
  destroyed under the guards of whoever still reads them (`staleRun`).
-/

import EpochQueue.Proofs.Reclaim.Garbage
import EpochQueue.Proofs.Reclaim.Schedules

namespace EpochQueue.Reclaim

variable {ν κ : Type}

/-- The test is right about bags that are not ahead, and wrong about every other. -/
theorem Bag.isExpired_iff_of_ne {b : Bag ν} {g : Epoch} (hg : g ≠ quiescent) :
    b.isExpired g = true ↔ b.epoch.toNat + 2 ≤ g.toNat ∨ g.toNat < b.epoch.toNat := by
  have hlt := b.epoch.toNat_lt
  have hpos : 0 < g.toNat := Nat.pos_of_ne_zero fun h => hg (UInt64.toNat_inj.mp h)
  rw [isExpired_iff, UInt64.toNat_sub]
  rcases Nat.lt_or_ge g.toNat b.epoch.toNat with hlate | hearly
  · rw [Nat.mod_eq_of_lt (by omega)]
    omega
  · rw [show 2 ^ 64 - b.epoch.toNat + g.toNat = g.toNat - b.epoch.toNat + 2 ^ 64 by omega, Nat.add_mod_right,
      Nat.mod_eq_of_lt (by have := g.toNat_lt; omega)]
    omega

namespace Domain

variable {d : Domain ν κ} {t : Nat} {p : Purpose} {g : Epoch}

/-- The bags that a collection by `t` takes out when it goes by `g`. -/
def taken (d : Domain ν κ) (t : Nat) (g : Epoch) : List (Bag ν) := (d.pool t).filter (·.isExpired g)

/-- A collection destroys what is in the bags it takes, and keeps the others. -/
theorem step_select (hp : (d.thread t).point? = some (.select p g)) :
    ((d.step t).1.thread t).point? = some (.free p (Bag.contents (d.taken t g)) 0) ∧
      (d.step t).1.pool t = (d.pool t).filter (!·.isExpired g) := by
  obtain ⟨c, hc, hph⟩ := Option.map_eq_some_iff.mp hp
  obtain ⟨rest, hc⟩ : ∃ rest, (d.thread t).calls = c :: rest := List.head?_eq_some_iff.mp hc
  rw [step_eq hc, hph]
  cases hh : d.handle? t with
  | some h =>
    have ht := thread_select_of_handle hc hh p g t
    rw [if_pos rfl] at ht
    refine ⟨by rw [ht]; rfl, ?_⟩
    rw [pool, ht, orphans_select_of_handle hh, List.append_nil]
    rfl
  | none =>
    have ht := thread_select_of_gone hc hh p g t
    rw [if_pos rfl] at ht
    have hten : (d.thread t).tenure.handle? = none := handle?_eq d t ▸ hh
    refine ⟨by rw [ht]; rfl, ?_⟩
    rw [pool, ht, orphans_select_of_gone hh]
    show (d.thread t).bags ++ _ = _
    rw [Thread.bags_of_gone hten, List.nil_append]

/-- Whatever other threads did since the collection learned of `g`: of the bags that are less
    than two epochs old, it takes those orphans that are stamped after `g`, and no others. -/
theorem young_taken_iff (h : d.Reach) (hw : ¬ d.wrapped) (hp : (d.thread t).point? = some (.select p g)) :
    ((d.step t).1.thread t).point? = some (.free p (Bag.contents (d.taken t g)) 0) ∧
    ∀ b, d.registry.epoch.toNat < b.epoch.toNat + 2 →
      (b ∈ d.taken t g ↔ b ∈ d.orphans ∧ g.toNat < b.epoch.toNat) := by
  refine ⟨(step_select hp).1, fun b hyoung => ?_⟩
  obtain ⟨h0, hle, hown⟩ := (h.stamped hw).select t p g hp
  rw [taken, List.mem_filter, Bag.isExpired_iff_of_ne h0]
  constructor
  · rintro ⟨hb, hexp⟩
    have hlate : g.toNat < b.epoch.toNat := hexp.resolve_left fun hold => by omega
    refine ⟨(List.mem_append.mp hb).resolve_left fun hb => ?_, hlate⟩
    exact Nat.lt_irrefl _ (Nat.lt_of_lt_of_le hlate (hown b hb))
  · rintro ⟨hb, hlate⟩
    exact ⟨List.mem_append_right _ hb, Or.inr hlate⟩

/-- Thread 0 flushes as far as its advance, to epoch 2. Meanwhile thread 1 flushes, which brings
    epoch 3, thread 2 pins, and thread 1 retires node 9 and exits. -/
def staleRun : List (Nat × Move Nat Nat) :=
  [(0, .flush 0), (0, .step), (1, .flush 0), (1, .step), (1, .step), (1, .step), (2, .pin 0), (2, .step), (2, .step),
    (1, .retire 9 0), (1, .step), (1, .exit)]

theorem staleRun_plays : (({} : Domain Nat Nat).play staleRun).isSome = true := by decide +kernel

def staleEnd : Domain Nat Nat := (({} : Domain Nat Nat).play staleRun).get staleRun_plays

theorem staleEnd_reached : staleEnd.Reach := .of_play .start (Option.some_get staleRun_plays).symm

theorem staleEnd_not_wrapped : ¬ staleEnd.wrapped := staleEnd_reached.not_wrapped_of_size (by decide +kernel)

theorem young_taken_at_staleEnd : (⟨3, [9], 1⟩ : Bag Nat) ∈ staleEnd.taken 0 2 ↔
    (⟨3, [9], 1⟩ : Bag Nat) ∈ staleEnd.orphans ∧ (2 : Epoch).toNat < (3 : Epoch).toNat :=
  (young_taken_iff (p := .flush) (g := 2) staleEnd_reached staleEnd_not_wrapped (t := 0) (by decide +kernel)).2
    ⟨3, [9], 1⟩ (by decide +kernel)

/-- The collection of thread 0 takes a bag stamped with the present epoch. -/
theorem takes_young_orphan : ¬ ∀ (d : Domain Nat Nat) (t : Nat) (p : Purpose) (g : Epoch), d.Reach → ¬ d.wrapped →
    (d.thread t).point? = some (.select p g) → ∀ b ∈ d.taken t g, b.epoch.toNat + 2 ≤ d.registry.epoch.toNat := by
  intro h
  have hb : (⟨3, [9], 1⟩ : Bag Nat) ∈ staleEnd.taken 0 2 := by decide +kernel
  have hp : (staleEnd.thread 0).point? = some (.select .flush 2) := by decide +kernel
  exact absurd (h staleEnd 0 .flush 2 staleEnd_reached staleEnd_not_wrapped hp _ hb) (by decide +kernel)

/-- Two steps later node 9 is destroyed, under the guard that thread 2 made before it was retired. -/
example : let d := ((staleEnd.step 0).1.step 0).1
    [.pinned ⟨0, 0, false⟩, .retired 9, .freed 9].Sublist d.trace.toList ∧
      ⟨0, 0, false⟩ ∈ (d.thread 2).guards := by decide +kernel

end Domain

end EpochQueue.Reclaim
