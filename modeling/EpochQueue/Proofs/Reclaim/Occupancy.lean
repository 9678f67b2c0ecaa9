/-
  EpochQueue.Proofs.Reclaim.Occupancy — a slot is pinned while it has a guard, and no longer.

  That a guard's slot stays pinned is what protects (`Aligned.shielded`). Here is the other half,
  without which nothing would ever be destroyed again: a slot that is not quiescent has a guard,
  or a pin that is under way and has published (`Reach.occupied`). The guards of a slot are counted
  in one of three places, according to who has the slot: by the live handle, in the slot itself once
  the handle is gone, and nowhere for a detached guard, which is the only one there
  (`Owned.guardsOn_add_pinsOn`). `ReachAlone.keeps_time` puts the clock, the slots and the
  stamps together.
-/

import EpochQueue.Proofs.Reclaim.Calls
import EpochQueue.Proofs.Reclaim.Clock
import EpochQueue.Proofs.Reclaim.Schedules

namespace EpochQueue.Reclaim

variable {ν κ : Type}

theorem Phase.shield?_of_stage {p : Phase ν} (h : 0 < p.stage) : p.shield? = p.pin? := by
  cases p <;> first | rfl | exact absurd h (Nat.lt_irrefl 0)

theorem Phase.GoesOn.stage_pos {p q : Phase ν} (h : p.GoesOn q) : 0 < q.stage := by
  rcases h with h | ⟨-, h⟩ <;> omega

theorem Registry.epoch_unpin {r : Registry} {tid : Nat} (h : r.HasSlot tid) :
    ((r.unpin tid).slot tid).epoch = quiescent := by
  rw [unpin, slot_pin _ _ _ h, if_pos rfl]

namespace Domain

variable {d d' : Domain ν κ} {t : Nat} {x : Option (Notice ν)}

/-! ## Slots left behind -/

/-- A guard of `t` keeps its slot in the view of `t`, or leaves it quiescent; and a pin that
    publishes brings its slot into view. -/
structure Leaves (d : Domain ν κ) (t : Nat) (d' : Domain ν κ) : Prop where
  kept : ∀ p ∈ (d.thread t).shields, p ∈ (d'.thread t).shields ∨ (d'.registry.slot p.1).epoch = quiescent
  published : ∀ tid e b, (d.thread t).point? = some (.publish tid e b) → (tid, b) ∈ (d'.thread t).shields

/-- A thread that may open a call is not about to publish. -/
theorem Leaves.of_mayCall (hm : d.mayCall t = true)
    (hkept : ∀ p ∈ (d.thread t).shields, p ∈ (d'.thread t).shields ∨ (d'.registry.slot p.1).epoch = quiescent) :
    Leaves d t d' :=
  ⟨hkept, fun _ _ _ hp => absurd (isFreeing_of_mayCall hm hp) Bool.false_ne_true⟩

theorem leaves_opened (hm : d.mayCall t = true) {c : Call ν κ} (hc : (d'.thread t).calls = c :: (d.thread t).calls)
    (hg : (d'.thread t).guards = (d.thread t).guards) : Leaves d t d' := by
  refine .of_mayCall hm fun p hp => Or.inl ?_
  rw [Thread.shields, Thread.seats, hc, hg]
  refine (List.mem_append.mp hp).elim (fun hp => List.mem_append_left _ ?_) (List.mem_append_right _)
  rw [List.filterMap_cons]
  split
  · exact hp
  · exact List.mem_cons_of_mem _ hp

theorem leaves_calm (hpoint : ∀ tid e b, (d.thread t).point? ≠ some (.publish tid e b))
    (hc : (d'.thread t).calls = (d.thread t).calls) (hg : (d'.thread t).guards = (d.thread t).guards) :
    Leaves d t d' :=
  ⟨fun p hp => Or.inl (by rwa [Thread.shields, Thread.seats, hc, hg]), fun _ _ _ hp => absurd hp (hpoint _ _ _)⟩

/-- The last guard of a slot leaves it quiescent. -/
theorem Owned.epoch_unpin_last (ho : d.Owned) {g : Guard} (hg : g ∈ (d.thread t).guards)
    (hlast : (g.tid, g.detached) ∉ ((d.thread t).drop g).holds) :
    ((d.unpin t g).registry.slot g.tid).epoch = quiescent := by
  have hheld : (g.tid, g.detached) ∈ (d.thread t).holds := List.mem_append_right _ (List.mem_map.mpr ⟨g, hg, rfl⟩)
  have hperm := Thread.holds_drop hg
  have hs : d.registry.HasSlot g.tid := ho.hasSlot (ho.claims_of_holds hheld)
  cases hd : g.detached with
  | true =>
    rw [registry_unpin_of_detached hd]
    exact Registry.epoch_unpin hs
  | false =>
    rw [hd] at hheld hlast hperm
    -- all attached guards of the thread are on one slot, so this was the only one
    have hone : (∀ i, (i, false) ∈ (d.thread t).holds → i = g.tid) → (d.thread t).attached = 1 := fun hall => by
      rw [show (d.thread t).attached = ((d.thread t).drop g).attached + 1 from Thread.attached_drop hperm,
        Nat.add_eq_right]
      refine Nat.eq_zero_of_not_pos fun hpos => ?_
      obtain ⟨i, hi⟩ := Thread.exists_of_attached_pos _ hpos
      exact hlast (hall i (hperm.mem_iff.mpr (List.mem_cons_of_mem _ hi)) ▸ hi)
    cases hh : d.handle? t with
    | some h =>
      have hleased := fun i hi => (ho.sound t).leased _ _ i (lease_eq hh) hi
      have hslot : h.slot = some g.tid := hleased _ hheld
      have hcount : h.pinCount = 1 := ((ho.sound t).counted _ _ (lease_eq hh)).symm.trans
        (hone fun i hi => Option.some.inj ((hleased i hi).symm.trans hslot))
      have hr := registry_unpin_of_live hd hh
      simp only [hslot, hcount, if_true] at hr
      rw [hr]
      exact Registry.epoch_unpin hs
    | none =>
      obtain ⟨hstray, hall⟩ := (ho.sound t).stray _ (lease_eq_none hh) hheld
      have hr := registry_unpin_of_gone hd hh
      simp only [hstray, hone hall, Nat.le_refl, if_true] at hr
      rw [hr]
      exact Registry.epoch_unpin ((Registry.hasSlot_modifySlot _ _ _ _).mpr hs)

theorem Owned.leaves_unpin (ho : d.Owned) (hm : d.mayCall t = true) {g : Guard} (hg : g ∈ (d.thread t).guards) :
    Leaves d t (d.unpin t g) := by
  obtain ⟨hcalls, hguards⟩ := calls_unpin d t g
  have hholds : ((d.unpin t g).thread t).holds = ((d.thread t).drop g).holds := by
    rw [Thread.holds, Thread.pins, Thread.seats, hcalls, hguards]
    rfl
  have hfree := freeing_of_mayCall ho hm
  refine .of_mayCall hm fun p hp => ?_
  by_cases hstay : p ∈ ((d.thread t).drop g).holds
  · exact Or.inl (Thread.mem_shields_of_freeing (hcalls.symm ▸ hfree) (hholds.symm ▸ hstay))
  · have hp : p = (g.tid, g.detached) := (List.mem_cons.mp
      ((Thread.holds_drop hg).mem_iff.mp (Thread.shields_subset_holds hp))).resolve_right hstay
    subst hp
    exact Or.inr (ho.epoch_unpin_last hg hstay)

theorem Goes.leaves {c : Call ν κ} {rest : List (Call ν κ)} (hc : (d.thread t).calls = c :: rest)
    (h : Goes d t c rest d') : Leaves d t d' := by
  have hpoint : ∀ {q}, (d.thread t).point? = some q → c.phase = q := fun hq =>
    Option.some.inj ((Thread.point?_of_calls hc).symm.trans hq)
  -- whatever the innermost call was about to pin or has pinned is in view afterwards
  have key : ∀ p, (c.phase.pin? = some p → p ∈ (d'.thread t).shields) →
      (p ∈ rest.filterMap (·.phase.shield?) → p ∈ (d'.thread t).shields) →
      (p ∈ (d.thread t).seats → p ∈ (d'.thread t).shields) → p ∈ (d.thread t).shields → p ∈ (d'.thread t).shields :=
    fun p htop hrest hseats hp => by
      rw [Thread.shields, hc, List.filterMap_cons] at hp
      rcases List.mem_append.mp hp with hp | hp
      · split at hp
        · exact hrest hp
        · rename_i s hs
          rcases List.mem_cons.mp hp with rfl | hp
          · exact htop (Phase.pin?_of_shield? hs)
          · exact hrest hp
      · exact hseats hp
  cases h with
  | on q calls stage pin seats =>
    have hshields : (d'.thread t).shields =
        q.pin?.toList ++ (rest.filterMap (·.phase.shield?) ++ (d.thread t).seats) := by
      rw [Thread.shields, calls, seats, List.filterMap_cons, Phase.shield?_of_stage stage.stage_pos]
      cases q.pin? <;> rfl
    have htop : ∀ p, c.phase.pin? = some p → p ∈ (d'.thread t).shields := fun p hp => by
      rw [hshields, pin, hp]
      exact List.mem_cons_self
    refine ⟨fun p hp => Or.inl (key p (htop p) (fun hp => ?_) (fun hp => ?_) hp), fun tid e b hp => ?_⟩
    · rw [hshields]
      exact List.mem_append_right _ (List.mem_append_left _ hp)
    · rw [hshields]
      exact List.mem_append_right _ (List.mem_append_right _ hp)
    · exact htop _ (by rw [hpoint hp]; rfl)
  | back calls stage seats =>
    have hshields : (d'.thread t).shields =
        rest.filterMap (·.phase.shield?) ++ (c.phase.pin?.toList ++ (d.thread t).seats) := by
      rw [Thread.shields, calls, seats]
    refine ⟨fun p hp => Or.inl (key p (fun hp => ?_) (fun hp => ?_) (fun hp => ?_) hp), fun tid e b hp => ?_⟩
    · rw [hshields, hp]
      exact List.mem_append_right _ List.mem_cons_self
    · rw [hshields]
      exact List.mem_append_left _ hp
    · rw [hshields]
      exact List.mem_append_right _ (List.mem_append_right _ hp)
    · rw [hpoint hp] at stage
      cases stage

theorem Owned.leaves (ho : d.Owned) {m : Move ν κ} (hm : d.may t m) : Leaves d t (d.move t m) := by
  cases m with
  | pin k =>
    obtain ⟨q, -, hc, hg⟩ := calls_pin d t k
    exact leaves_opened hm hc hg
  | unpin g => exact ho.leaves_unpin hm.1 hm.2
  | retire n k =>
    obtain ⟨q, -, hc, hg, -⟩ := calls_retire d t n k
    exact leaves_opened hm.1 hc hg
  | flush k =>
    obtain ⟨q, -, hc, hg⟩ := calls_flush d t k
    exact leaves_opened hm hc hg
  | pending =>
    obtain ⟨hc, hg⟩ := calls_pending d t
    exact leaves_calm (fun _ _ _ hp => absurd (isFreeing_of_mayCall hm hp) Bool.false_ne_true) hc hg
  | exit =>
    obtain ⟨hc, hg, -⟩ := calls_exit d t
    refine leaves_calm (fun _ _ _ hp => ?_) hc hg
    rw [Thread.point?, show (d.thread t).calls = [] from hm] at hp
    cases hp
  | step =>
    obtain ⟨c, rest, hc⟩ := List.exists_cons_of_ne_nil (show (d.thread t).calls ≠ [] from hm)
    exact (goes_step hc).leaves hc

/-- A slot that is not quiescent has somebody who is pinned through it. -/
def Occupied (d : Domain ν κ) : Prop :=
  ∀ tid, (d.registry.slot tid).epoch ≠ quiescent → ∃ u b, (tid, b) ∈ (d.thread u).shields

theorem Occupied.turn (hocc : d.Occupied) (h : Turn d t x d') (hl : Leaves d t d') : d'.Occupied := by
  intro tid h0
  rcases h.slots tid with hsame | ⟨hquiet, -⟩ | ⟨b, hp⟩
  · obtain ⟨u, b, hu⟩ := hocc tid (hsame ▸ h0)
    by_cases e : u = t
    · subst e
      exact ⟨u, b, (hl.kept _ hu).resolve_right h0⟩
    · exact ⟨u, b, (h.others u e).symm ▸ hu⟩
  · exact absurd hquiet h0
  · exact ⟨t, b, hl.published _ _ _ hp⟩

theorem Reach.occupied (h : d.Reach) : d.Occupied := by
  induction h with
  | start => exact fun tid h0 => absurd (congrArg Slot.epoch (Registry.ids_empty.blank tid id)) h0
  | move t m hr hm ih =>
    obtain ⟨x, ht⟩ := hr.owned.turn hm
    exact ih.turn ht (hr.owned.leaves hm)

/-! ## Counting guards -/

/-- The live guards of a slot. -/
def guardsOn (d : Domain ν κ) (tid : Nat) : Nat := (d.threads.ledger Thread.guards).countP (·.tid == tid)

/-- The pins under way that will hand out a guard of the slot. -/
def pinsOn (d : Domain ν κ) (tid : Nat) : Nat := (d.threads.ledger Thread.pins).countP (·.1 == tid)

section

variable {tid : Nat}

/-- All guards of a slot are with the thread that claims it. -/
theorem Owned.guardsOn_eq (ho : d.Owned) {b : Bool} (hc : (d.thread t).Claims tid b) :
    d.guardsOn tid = (d.thread t).seats.countP (·.1 == tid) ∧ d.pinsOn tid = (d.thread t).pins.countP (·.1 == tid) := by
  have hother : ∀ u, u ≠ t → ∀ c, (tid, c) ∉ (d.thread u).holds := fun u hu c hp =>
    hu (ho.excl u t tid c b (ho.claims_of_holds hp) hc).1
  refine ⟨?_, Table.countP_ledger (by rfl) fun u hu p hp => beq_false_of_ne fun e => ?_⟩
  · rw [Thread.seats, List.countP_map]
    refine Table.countP_ledger (by rfl) fun u hu g hg => beq_false_of_ne fun e => ?_
    exact hother u hu g.detached (e ▸ List.mem_append_right _ (List.mem_map.mpr ⟨g, hg, rfl⟩))
  · exact hother u hu p.2 (e ▸ List.mem_append_left _ hp)

theorem Owned.guardsOn_add_pinsOn (ho : d.Owned) {b : Bool} (hc : (d.thread t).Claims tid b) :
    d.guardsOn tid + d.pinsOn tid = (d.thread t).holds.countP (·.1 == tid) := by
  rw [(ho.guardsOn_eq hc).1, (ho.guardsOn_eq hc).2, Thread.holds, List.countP_append, Nat.add_comm]

theorem Owned.exists_hold_of_pos (h : 0 < d.guardsOn tid + d.pinsOn tid) : ∃ t b, (tid, b) ∈ (d.thread t).holds := by
  rcases Nat.add_pos_iff_pos_or_pos.mp h with h | h
  · obtain ⟨g, hg, e⟩ := List.countP_pos_iff.mp h
    obtain ⟨t, hg⟩ := (Table.mem_ledger (by rfl)).mp hg
    exact ⟨t, g.detached, eq_of_beq e ▸ List.mem_append_right _ (List.mem_map.mpr ⟨g, hg, rfl⟩)⟩
  · obtain ⟨p, hp, e⟩ := List.countP_pos_iff.mp h
    obtain ⟨t, hp⟩ := (Table.mem_ledger (by rfl)).mp hp
    exact ⟨t, p.2, eq_of_beq e ▸ List.mem_append_left _ hp⟩

theorem Owned.guardsOn_pos (ho : d.Owned) {b : Bool} (hp : (tid, b) ∈ (d.thread t).holds) :
    0 < d.guardsOn tid + d.pinsOn tid := by
  rw [ho.guardsOn_add_pinsOn (ho.claims_of_holds hp)]
  exact List.countP_pos_iff.mpr ⟨_, hp, beq_self_eq_true _⟩

/-- The attached guards of a thread are those of its slot. -/
theorem Owned.guardsOn_add_pinsOn_eq_attached (ho : d.Owned) (hc : (d.thread t).Claims tid false)
    (hall : ∀ i, (i, false) ∈ (d.thread t).holds → i = tid) :
    d.guardsOn tid + d.pinsOn tid = (d.thread t).attached := by
  rw [ho.guardsOn_add_pinsOn hc, Thread.attached]
  refine List.countP_congr fun p hp => ?_
  obtain ⟨i, b⟩ := p
  cases b with
  | false => simpa using hall i hp
  | true => simpa using fun e : i = tid => ho.detached_ne hp (e ▸ hc) rfl

/-- A live handle counts the guards of its slot. -/
theorem Owned.pinCount_eq (ho : d.Owned) {h : Handle ν} (hten : (d.thread t).tenure = .live h)
    (hslot : h.slot = some tid) : h.pinCount = d.guardsOn tid + d.pinsOn tid := by
  have hl : (d.thread t).lease = some (h.slot, h.pinCount) := Thread.lease_of_handle (by rw [hten]; rfl)
  rw [ho.guardsOn_add_pinsOn_eq_attached ((Thread.claims_of_lease hl tid).mpr hslot) fun i hi =>
    Option.some.inj (((ho.sound t).leased _ _ i hl hi).symm.trans hslot)]
  exact ((ho.sound t).counted _ _ hl).symm

/-- The slot counts the guards that outlived their handle, and none is under construction. -/
theorem Owned.stray_eq (ho : d.Owned) (hten : (d.thread t).tenure = .gone) (hp : (tid, false) ∈ (d.thread t).holds) :
    (d.registry.slot tid).stray = d.guardsOn tid ∧ d.pinsOn tid = 0 := by
  have hl : (d.thread t).lease = none := Thread.lease_of_gone (by rw [hten]; rfl)
  have hc := ho.claims_of_holds hp
  obtain ⟨hstray, hall⟩ := (ho.sound t).stray tid hl hp
  have hpins : d.pinsOn tid = 0 := by
    rw [(ho.guardsOn_eq hc).2]
    refine List.countP_eq_zero.mpr fun ⟨i, b⟩ hi e => ?_
    cases b with
    | false => exact (ho.sound t).pinning i hi hl
    | true => exact ho.detached_ne (List.mem_append_left _ hi) hc (eq_of_beq e)
  refine ⟨?_, hpins⟩
  rw [hstray, ← ho.guardsOn_add_pinsOn_eq_attached hc hall, hpins, Nat.add_zero]

/-- A detached guard is alone on its slot. -/
theorem Owned.guardsOn_of_detached (ho : d.Owned) (hp : (tid, true) ∈ (d.thread t).holds) :
    d.guardsOn tid + d.pinsOn tid = 1 := by
  have hc := ho.claims_of_holds hp
  have hmine : (d.thread t).holds.countP (·.1 == tid) = ((d.thread t).holds.filter (·.2)).count (tid, true) := by
    rw [List.count, List.countP_filter]
    refine List.countP_congr fun ⟨i, b⟩ hi => ?_
    cases b with
    | true => simp
    | false => simpa using fun e : i = tid => ho.detached_ne hp (e ▸ ho.claims_of_holds hi) rfl
  rw [ho.guardsOn_add_pinsOn hc, hmine]
  exact List.count_eq_one_of_mem (ho.sound t).single (List.mem_filter.mpr ⟨hp, rfl⟩)

/-- Whose the guards of a slot are: a live handle's, a dead handle's, or a detached one. -/
theorem Owned.guardsOn_pos_iff (ho : d.Owned) : 0 < d.guardsOn tid + d.pinsOn tid ↔
    (∃ t h, (d.thread t).tenure = .live h ∧ h.slot = some tid ∧ 0 < h.pinCount) ∨ 0 < (d.registry.slot tid).stray ∨
      ∃ t, (tid, true) ∈ (d.thread t).holds := by
  constructor
  · intro hpos
    obtain ⟨t, b, hp⟩ := Owned.exists_hold_of_pos hpos
    cases b with
    | true => exact Or.inr (Or.inr ⟨t, hp⟩)
    | false =>
      cases hten : (d.thread t).tenure with
      | live h =>
        have hl : (d.thread t).lease = some (h.slot, h.pinCount) := Thread.lease_of_handle (by rw [hten]; rfl)
        have hslot := (ho.sound t).leased _ _ tid hl hp
        exact Or.inl ⟨t, h, hten, hslot, (ho.pinCount_eq hten hslot).symm ▸ hpos⟩
      | gone =>
        obtain ⟨hstray, hpins⟩ := ho.stray_eq hten hp
        refine Or.inr (Or.inl ?_)
        omega
      | unused =>
        have hl : (d.thread t).lease = some (none, 0) := Thread.lease_of_handle (h := {}) (by rw [hten]; rfl)
        cases (ho.sound t).leased _ _ tid hl hp
  · rintro (⟨t, h, hten, hslot, hpos⟩ | hpos | ⟨t, hp⟩)
    · rwa [← ho.pinCount_eq hten hslot]
    · -- a slot that counts guards is in use, and not by a handle or a detached guard
      have hused : d.Uses tid := Classical.byContradiction fun hu => by
        rw [ho.ids.blank tid hu] at hpos
        exact Nat.lt_irrefl 0 hpos
      obtain ⟨t, b, hc⟩ := hused
      have hstray : ¬ (b = true ∨ (d.thread t).lease ≠ none) := fun hb =>
        Nat.ne_of_gt hpos ((ho.sound t).unstray tid b hc hb)
      obtain ⟨hb, hl⟩ := not_or.mp hstray
      cases Bool.eq_false_iff.mpr hb
      exact ho.guardsOn_pos ((Thread.claims_of_gone (not_not.mp hl) tid).mp hc)
    · exact ho.guardsOn_pos hp

theorem Owned.shields_of_holds (ho : d.Owned) {b : Bool} (hp : (tid, b) ∈ (d.thread t).holds)
    (hpub : ∀ e, (d.thread t).point? ≠ some (.publish tid e b)) : (tid, b) ∈ (d.thread t).shields := by
  refine (List.mem_append.mp hp).elim (fun hp => List.mem_append_left _ ?_) (List.mem_append_right _)
  obtain ⟨c, hc, hs⟩ := List.mem_filterMap.mp hp
  refine List.mem_filterMap.mpr ⟨c, hc, ?_⟩
  cases hph : c.phase with
  | publish i e b' =>
    rw [hph] at hs
    cases hs
    -- only the innermost call can be about to publish
    cases hcs : (d.thread t).calls with
    | nil => rw [hcs] at hc; cases hc
    | cons c' rest =>
      rw [hcs] at hc
      rcases List.mem_cons.mp hc with rfl | hc
      · exact absurd (hph ▸ Thread.point?_of_calls hcs) (hpub e)
      · have := (ho.sound t).outer c (by rw [hcs]; exact hc)
        rw [hph] at this
        cases this
  | _ => rw [hph] at hs; exact hs

/-- A slot is pinned if and only if it has a guard, once the guard's epoch is published. -/
theorem Owned.pinned_iff (ho : d.Owned) (hocc : d.Occupied) (ha : d.Aligned)
    (hpub : ∀ t e b, (d.thread t).point? ≠ some (.publish tid e b)) :
    (d.registry.slot tid).epoch ≠ quiescent ↔ 0 < d.guardsOn tid + d.pinsOn tid := by
  constructor
  · intro h0
    obtain ⟨u, b, hp⟩ := hocc tid h0
    exact ho.guardsOn_pos (Thread.shields_subset_holds hp)
  · intro hpos
    obtain ⟨u, b, hp⟩ := Owned.exists_hold_of_pos hpos
    exact ha.shielded u _ (ho.shields_of_holds hp (hpub u · b))

end

/-! ## Everything about epochs -/

/-- What the global epoch, the slots, the bags and the guard counts have to do with each other. -/
structure EpochInvariant (d : Domain ν κ) : Prop where
  /-- The trace tells the time, which is now the global epoch. -/
  now : d.epochAt d.trace.size = d.registry.epoch
  mono : ∀ i j, i ≤ j → d.epochAt i ≤ d.epochAt j
  /-- No move takes the epoch back, and only a collection's attempt to advance takes it on, by one. -/
  paced : ∀ t m, d.may t m → Paced d t (d.move t m) ∧ d.registry.epoch ≤ (d.move t m).registry.epoch
  /-- A call comes by its attempt to advance once. -/
  goes : ∀ t c rest, (d.thread t).calls = c :: rest → Goes d t c rest (d.step t).1
  near : ∀ tid, (d.registry.slot tid).epoch = quiescent ∨ (d.registry.slot tid).epoch = d.registry.epoch ∨
    (d.registry.slot tid).epoch + 1 = d.registry.epoch
  /-- A bag is not stamped ahead of the global epoch, nor behind the retirement of any of its nodes. -/
  stamped : ∀ b, d.Stored b → b.epoch ≤ d.registry.epoch ∧
    ∀ n ∈ b.nodes, ∀ i, d.trace[i]? = some (.retired n) → d.epochAt i ≤ b.epoch
  /-- A slot is pinned if and only if it has a guard, in the time between two steps of a pin excepted
      in which the epoch has been read and is not published yet. -/
  pinned : ∀ tid, (∀ t e b, (d.thread t).point? ≠ some (.publish tid e b)) →
    ((d.registry.slot tid).epoch ≠ quiescent ↔ 0 < d.guardsOn tid + d.pinsOn tid)
  owner : ∀ tid, 0 < d.guardsOn tid + d.pinsOn tid ↔
    (∃ t h, (d.thread t).tenure = .live h ∧ h.slot = some tid ∧ 0 < h.pinCount) ∨ 0 < (d.registry.slot tid).stray ∨
      ∃ t, (tid, true) ∈ (d.thread t).holds
  pinCount : ∀ t h tid, (d.thread t).tenure = .live h → h.slot = some tid → h.pinCount = d.guardsOn tid + d.pinsOn tid
  stray : ∀ t tid, (d.thread t).tenure = .gone → (tid, false) ∈ (d.thread t).holds →
    (d.registry.slot tid).stray = d.guardsOn tid ∧ d.pinsOn tid = 0
  detached : ∀ t tid, (tid, true) ∈ (d.thread t).holds → d.guardsOn tid + d.pinsOn tid = 1

theorem ReachAlone.epochInvariant (h : d.ReachAlone) (hadv : d.advances < 2 ^ 64 - 2) : d.EpochInvariant := by
  have hr := h.reach
  have ho := hr.owned
  have hsize : d.advances < UInt64.size - 1 := Nat.lt_of_lt_of_le hadv (by decide)
  have hc := hr.clocked hsize
  have ha := h.aligned hc.unwrapped
  refine {
    now := hc.epochAt_size
    mono := fun i j hij => hc.epochAt_mono hij
    paced := fun t m hm => ⟨ho.paced hm, ?_⟩
    goes := fun t c rest hcalls => goes_step hcalls
    near := fun tid => (ha.near tid).imp_right fun hnear => ?_
    stamped := fun b hb => ⟨UInt64.le_iff_toNat_le.mpr ((hr.stamped hc.unwrapped).bag b hb), fun n hn i hi =>
      (hr.dated hsize b hb).le_stamp hc hn hi⟩
    pinned := fun tid hpub => ho.pinned_iff hr.occupied ha hpub
    owner := fun tid => ho.guardsOn_pos_iff
    pinCount := fun t h tid hten hslot => ho.pinCount_eq hten hslot
    stray := fun t tid hten hp => ho.stray_eq hten hp
    detached := fun t tid hp => ho.guardsOn_of_detached hp }
  · obtain ⟨x, ht⟩ := ho.turn hm
    have hadv' : (d.move t m).advances < UInt64.size - 1 := by
      have hone : (x.bind (·.advanced?)).toList.length ≤ 1 := by cases x.bind (·.advanced?) <;> simp
      rw [advances_eq, ht.ticks_append, List.length_append, ← advances_eq]
      exact Nat.lt_of_lt_of_le (Nat.add_lt_add_of_lt_of_le hadv hone) (by decide)
    have hc' := (hr.move t m hm).clocked hadv'
    exact UInt64.le_iff_toNat_le.mpr (ht.epoch_le (ht.not_wrapped hc'.unwrapped).2)
  · rcases Nat.lt_or_eq_of_le hnear.1 with hlt | heq
    · refine Or.inr (UInt64.toNat_inj.mp ?_)
      have hbound := d.registry.epoch.toNat_lt
      rw [UInt64.toNat_add, show (1 : UInt64).toNat = 1 from rfl, Nat.mod_eq_of_lt (by omega)]
      omega
    · exact Or.inl (UInt64.toNat_inj.mp heq)

/-- Thread 0 pins, exits and pins again; thread 1 flushes, retires node 7 and exits. -/
def lingeringRun : List (Nat × Move Nat Nat) :=
  [(0, .pin 0), (0, .step), (0, .step), (0, .exit), (0, .pin 0), (0, .step), (0, .step),
    (1, .flush 0), (1, .step), (1, .step), (1, .step), (1, .retire 7 0), (1, .step), (1, .exit)]

theorem lingeringRun_plays : (({} : Domain Nat Nat).playAlone lingeringRun).isSome = true := by decide +kernel

def lingeringEnd : Domain Nat Nat := (({} : Domain Nat Nat).playAlone lingeringRun).get lingeringRun_plays

theorem lingeringEnd_reached : lingeringEnd.ReachAlone :=
  .of_playAlone .start (Option.some_get lingeringRun_plays).symm

theorem lingeringEnd_epochInvariant : lingeringEnd.advances < 2 ^ 64 - 2 ∧ lingeringEnd.EpochInvariant ∧
    lingeringEnd.registry.slot 0 = { epoch := 1, stray := 1 } ∧ lingeringEnd.guardsOn 0 = 1 ∧
    lingeringEnd.orphans = [⟨2, [7], 1⟩] ∧ lingeringEnd.registry.epoch = 2 :=
  have hadv : lingeringEnd.advances < 2 ^ 64 - 2 := by decide +kernel
  ⟨hadv, ReachAlone.epochInvariant lingeringEnd_reached hadv, by decide +kernel, by decide +kernel, by decide +kernel,
    by decide +kernel⟩

end Domain

end EpochQueue.Reclaim
