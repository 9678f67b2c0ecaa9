/-
  EpochQueue.Proofs.Reclaim.Ownership — every move keeps the claims in order.

  Pinning, dropping a guard and exiting change what a thread holds; the end of a pin turns the
  guard under construction into a live one; all other moves leave holds and leases alone.
  `Reach.owned`: whatever the order of the moves, no slot ever has two owners.
-/

import EpochQueue.Proofs.Reclaim.Claims

namespace EpochQueue.Reclaim

variable {ν κ : Type}

namespace Thread

/-! ## One guard more or less -/

section

variable {th : Thread ν κ} {r r' : Registry} {h : Handle ν} {tid : Nat} {k : κ} {e : Epoch}

theorem holds_pinBy : (th.pinBy h tid k e).holds = (tid, false) :: th.holds := by
  refine (holds_open _ _ _).trans ?_
  split <;> rfl

theorem holds_pinDetached : (th.pinDetached tid k e).holds = (tid, true) :: th.holds :=
  holds_open _ _ _

theorem claims_pinBy (hl : th.lease = some (h.slot, h.pinCount)) (hs : ∀ i, h.slot = some i → i = tid)
    (i : Nat) (b : Bool) : (th.pinBy h tid k e).Claims i b ↔ th.Claims i b ∨ (i = tid ∧ b = false) := by
  cases b with
  | false =>
    rw [claims_of_lease hl, claims_of_lease (show (th.pinBy h tid k e).lease = _ from rfl)]
    constructor
    · intro hi; cases hi; exact Or.inr ⟨rfl, rfl⟩
    · rintro (hi | ⟨rfl, -⟩)
      · rw [hs i hi]
      · rfl
  | true => simp [claims_detached, holds_pinBy]

theorem claims_pinDetached (hl : th.lease = none) (i : Nat) (b : Bool) :
    (th.pinDetached tid k e).Claims i b ↔ th.Claims i b ∨ (i = tid ∧ b = true) := by
  cases b with
  | false =>
    rw [claims_of_gone hl, claims_of_gone (show (th.pinDetached tid k e).lease = none from hl), holds_pinDetached]
    simp
  | true => simp [claims_detached, holds_pinDetached, or_comm]

theorem Sound.pinBy (hs : th.Sound r) (hl : th.lease = some (h.slot, h.pinCount))
    (hslot : ∀ i, h.slot = some i → i = tid) (hfree : ∀ c ∈ th.calls, c.phase.isFreeing = true)
    (h0 : (r'.slot tid).stray = 0) (hr : ∀ i, th.Claims i true → (r'.slot i).stray = (r.slot i).stray) :
    (th.pinBy h tid k e).Sound r' where
  outer := hfree
  publishing := fun c rest i e' hc hp => by
    cases hc
    by_cases h0 : h.pinCount = 0
    · exact ⟨some tid, by rw [← Nat.zero_add 1, ← h0]; rfl⟩
    · simp [h0] at hp
  pinning := fun i _ => Option.some_ne_none _
  single := by rw [holds_pinBy]; exact hs.single
  counted := fun s n hsn => by
    have hn := hs.counted _ _ hl
    cases hsn
    unfold attached at hn ⊢
    rw [holds_pinBy, List.countP_cons_of_pos rfl, hn]
  leased := fun s n i hsn hm => by
    cases hsn
    rw [holds_pinBy] at hm
    rcases List.mem_cons.mp hm with e | hm
    · cases e; rfl
    · exact congrArg some (hslot i (hs.leased _ _ i hl hm)).symm
  stray := fun i hi => nomatch hi
  unstray := fun i b hc _ => by
    rcases (claims_pinBy hl hslot i b).mp hc with hc | ⟨rfl, rfl⟩
    · cases b with
      | false => rw [hslot i ((claims_of_lease hl i).mp hc)]; exact h0
      | true => exact (hr i hc).trans (hs.unstray i true hc (Or.inl rfl))
    · exact h0

theorem Sound.pinDetached (hs : th.Sound r) (hl : th.lease = none)
    (hfree : ∀ c ∈ th.calls, c.phase.isFreeing = true) (hfresh : ¬ th.Claims tid true)
    (h0 : (r'.slot tid).stray = 0) (hr : ∀ i b, th.Claims i b → (r'.slot i).stray = (r.slot i).stray) :
    (th.pinDetached tid k e).Sound r' where
  outer := hfree
  publishing := fun c rest i e' hc hp => by cases hc; cases hp
  pinning := fun i hm => by
    refine absurd hl (hs.pinning i ?_)
    rw [Thread.pinDetached, pins_open] at hm
    simpa [Phase.pin?] using hm
  single := by
    rw [holds_pinDetached, List.filter_cons_of_pos rfl]
    exact List.nodup_cons.mpr ⟨fun hm => hfresh (List.mem_filter.mp hm).1, hs.single⟩
  counted := fun s n hsn => by cases hl.symm.trans hsn
  leased := fun s n i hsn => by cases hl.symm.trans hsn
  stray := fun i _ hm => by
    have hold : ∀ j, (j, false) ∈ (th.pinDetached tid k e).holds → (j, false) ∈ th.holds := fun j hj => by
      simpa [holds_pinDetached] using hj
    obtain ⟨h1, h2⟩ := hs.stray i hl (hold i hm)
    refine ⟨?_, fun j hj => h2 j (hold j hj)⟩
    rw [hr i false ((claims_of_gone hl i).mpr (hold i hm)), h1]
    unfold attached
    rw [holds_pinDetached, List.countP_cons_of_neg (by simp)]
  unstray := fun i b hc hb => by
    rcases (claims_pinDetached hl i b).mp hc with hc | ⟨rfl, rfl⟩
    · exact (hr i b hc).trans (hs.unstray i b hc hb)
    · exact h0

end

theorem holds_drop {th : Thread ν κ} {g : Guard} (hg : g ∈ th.guards) :
    th.holds.Perm ((g.tid, g.detached) :: (th.drop g).holds) := by
  have hseats : th.seats.Perm ((g.tid, g.detached) :: (th.drop g).seats) :=
    (List.perm_cons_erase hg).map fun g : Guard => (g.tid, g.detached)
  exact (hseats.append_left th.pins).trans List.perm_middle

theorem attached_drop {th th' : Thread ν κ} {tid : Nat} (hh : th.holds.Perm ((tid, false) :: th'.holds)) :
    th.attached = th'.attached + 1 := by
  unfold attached
  rw [hh.countP_eq, List.countP_cons_of_pos rfl]

/-- A detached guard is dropped. -/
theorem Sound.dropDetached {th th' : Thread ν κ} {r r' : Registry} {tid : Nat} (h : th.Sound r)
    (hl : th'.lease = th.lease) (hh : th.holds.Perm ((tid, true) :: th'.holds)) (hcalls : th'.calls = th.calls)
    (hr : ∀ i b, th'.Claims i b → (r'.slot i).stray = (r.slot i).stray) : th'.Sound r' where
  outer := by rw [hcalls]; exact h.outer
  publishing := fun c rest i e hc hp => hl ▸ h.publishing c rest i e (hcalls ▸ hc) hp
  pinning := fun i hm => hl ▸ h.pinning i (by unfold pins at hm ⊢; rwa [← hcalls])
  single := by
    have := (hh.filter (·.2)).nodup_iff.mp h.single
    rw [List.filter_cons_of_pos rfl] at this
    exact (List.nodup_cons.mp this).2
  counted := fun s n hs => by
    rw [← h.counted s n (hl ▸ hs)]
    unfold attached
    rw [hh.countP_eq, List.countP_cons_of_neg (by simp)]
  leased := fun s n i hs hm => h.leased s n i (hl ▸ hs) (hh.mem_iff.mpr (List.mem_cons_of_mem _ hm))
  stray := fun i hi hm => by
    obtain ⟨h1, h2⟩ := h.stray i (hl ▸ hi) (hh.mem_iff.mpr (List.mem_cons_of_mem _ hm))
    refine ⟨?_, fun j hj => h2 j (hh.mem_iff.mpr (List.mem_cons_of_mem _ hj))⟩
    rw [hr i false ((claims_of_gone hi i).mpr hm), h1]
    unfold attached
    rw [hh.countP_eq, List.countP_cons_of_neg (by simp)]
  unstray := fun i b hc hb => by
    refine (hr i b hc).trans (h.unstray i b ?_ (hl ▸ hb))
    cases b with
    | true => exact hh.mem_iff.mpr (List.mem_cons_of_mem _ hc)
    | false =>
      obtain ⟨⟨s, n⟩, hs⟩ := Option.ne_none_iff_exists'.mp (hb.resolve_left Bool.false_ne_true)
      exact (claims_of_lease (hl ▸ hs) i).mpr ((claims_of_lease hs i).mp hc)

/-- A guard of a live handle is dropped. -/
theorem Sound.dropAttached {th th' : Thread ν κ} {r : Registry} {s : Option Nat} {n tid : Nat} (h : th.Sound r)
    (hl : th.lease = some (s, n)) (hl' : th'.lease = some (s, n - 1))
    (hh : th.holds.Perm ((tid, false) :: th'.holds)) (hcalls : th'.calls = th.calls)
    (hm : ∀ c ∈ th.calls, c.phase.isFreeing = true) : th'.Sound r where
  outer := by rw [hcalls]; exact h.outer
  publishing := fun c rest i e hc hp => by
    have := hm c (by rw [← hcalls, hc]; exact List.mem_cons_self)
    rw [hp] at this
    cases this
  pinning := fun i _ => by rw [hl']; exact Option.some_ne_none _
  single := by
    have := (hh.filter (·.2)).nodup_iff.mp h.single
    rwa [List.filter_cons_of_neg (by simp)] at this
  counted := fun s' n' hs => by
    have hn := h.counted s n hl
    have hcount := attached_drop hh
    rw [hl'] at hs
    cases hs
    omega
  leased := fun s' n' i hs hi => by
    rw [hl'] at hs
    cases hs
    exact h.leased s n i hl (hh.mem_iff.mpr (List.mem_cons_of_mem _ hi))
  stray := fun i hi => by rw [hl'] at hi; cases hi
  unstray := fun i b hc _ => by
    refine h.unstray i b ?_ (Or.inr (by rw [hl]; exact Option.some_ne_none _))
    cases b with
    | true => exact hh.mem_iff.mpr (List.mem_cons_of_mem _ hc)
    | false => exact (claims_of_lease hl i).mpr ((claims_of_lease hl' i).mp hc)

/-- A guard whose handle is gone is dropped, and counted down in the slot. -/
theorem Sound.dropStray {th th' : Thread ν κ} {r r' : Registry} {tid : Nat} (h : th.Sound r)
    (hl : th.lease = none) (hl' : th'.lease = none) (hh : th.holds.Perm ((tid, false) :: th'.holds))
    (hcalls : th'.calls = th.calls)
    (h0 : (tid, false) ∈ th'.holds → (r'.slot tid).stray = (r.slot tid).stray - 1)
    (hr : ∀ i, th.Claims i true → (r'.slot i).stray = (r.slot i).stray) : th'.Sound r' where
  outer := by rw [hcalls]; exact h.outer
  publishing := fun c rest i e hc hp => by
    obtain ⟨s, hs⟩ := h.publishing c rest i e (hcalls ▸ hc) hp
    rw [hl] at hs
    cases hs
  pinning := fun i hm => absurd hl (h.pinning i (by unfold pins at hm ⊢; rwa [← hcalls]))
  single := by
    have := (hh.filter (·.2)).nodup_iff.mp h.single
    rwa [List.filter_cons_of_neg (by simp)] at this
  counted := fun s n hs => by rw [hl'] at hs; cases hs
  leased := fun s n i hs => by rw [hl'] at hs; cases hs
  stray := fun i _ hm => by
    obtain ⟨h1, h2⟩ := h.stray tid hl (hh.mem_iff.mpr List.mem_cons_self)
    have hmem : ∀ j, (j, false) ∈ th'.holds → j = tid := fun j hj =>
      h2 j (hh.mem_iff.mpr (List.mem_cons_of_mem _ hj))
    cases hmem i hm
    refine ⟨?_, hmem⟩
    rw [h0 hm, h1, attached_drop hh, Nat.add_sub_cancel]
  unstray := fun i b hc hb => by
    rcases hb with rfl | hb
    · have hc' : th.Claims i true := hh.mem_iff.mpr (List.mem_cons_of_mem _ hc)
      exact (hr i hc').trans (h.unstray i true hc' (Or.inl rfl))
    · exact absurd hl' hb

/-- The handle is destroyed; its slot keeps the number of guards that are left. -/
theorem Sound.endLease {th th' : Thread ν κ} {r r' : Registry} {s : Option Nat} {n : Nat} (h : th.Sound r)
    (hl : th.lease = some (s, n)) (hl' : th'.lease = none) (hh : th'.holds = th.holds) (hcalls : th'.calls = [])
    (h0 : ∀ tid, (tid, false) ∈ th.holds → (r'.slot tid).stray = n)
    (hr : ∀ i, th.Claims i true → (r'.slot i).stray = (r.slot i).stray) : th'.Sound r' where
  outer := by rw [hcalls]; exact fun _ hc => absurd hc List.not_mem_nil
  publishing := fun c rest i e hc => by rw [hcalls] at hc; cases hc
  pinning := fun i hm => by unfold pins at hm; rw [hcalls] at hm; cases hm
  single := by rw [hh]; exact h.single
  counted := fun s n hs => by rw [hl'] at hs; cases hs
  leased := fun s n i hs => by rw [hl'] at hs; cases hs
  stray := fun i _ hm => by
    rw [hh] at hm
    refine ⟨?_, fun j hj => ?_⟩
    · rw [h0 i hm, ← h.counted s n hl]
      unfold attached
      rw [hh]
    · rw [hh] at hj
      have := (h.leased s n j hl hj).symm.trans (h.leased s n i hl hm)
      cases this
      rfl
  unstray := fun i b hc hb => by
    rcases hb with rfl | hb
    · have hc' : th.Claims i true := by rw [claims_detached, hh] at hc; exact hc
      exact (hr i hc').trans (h.unstray i true hc' (Or.inl rfl))
    · exact absurd hl' hb

end Thread

namespace Domain

variable {d : Domain ν κ} {t : Nat} {k : κ} {h : Handle ν}

theorem freeing_of_mayCall (h : d.Owned) (hm : d.mayCall t = true) :
    ∀ c ∈ (d.thread t).calls, c.phase.isFreeing = true := by
  rw [mayCall_eq] at hm
  have houter := (h.sound t).outer
  cases hc : (d.thread t).calls with
  | nil => exact fun _ h => absurd h List.not_mem_nil
  | cons c rest =>
    rw [hc] at hm houter
    intro c' hc'
    rcases List.mem_cons.mp hc' with rfl | hc'
    · simpa using hm
    · exact houter c' hc'

theorem Owned.hasSlot (h : d.Owned) {tid : Nat} {b : Bool} (hc : (d.thread t).Claims tid b) :
    d.registry.HasSlot tid :=
  h.ids.hasSlot_of_used ⟨t, b, hc⟩

/-! ## Pinning -/

theorem Owned.pin (ho : d.Owned) (hm : d.mayCall t = true) (k : κ) : (d.pin t k).Owned := by
  have hfree := freeing_of_mayCall ho hm
  have hs := ho.sound t
  have hfresh : ∀ b, ¬ (d.thread t).Claims d.register.1 b := fun b hc => ho.ids.register_fresh ⟨t, b, hc⟩
  have hblank : (d.registry.register.2.slot d.register.1).stray = 0 := by
    rw [Registry.slot_register, register_fst, ho.ids.blank _ ho.ids.register_fresh]
  cases hh : d.handle? t with
  | some h =>
    have hl := lease_eq hh
    cases hslot : h.slot with
    | some tid =>
      have ht := thread_pin_of_slot (k := k) hh hslot
      have hr := registry_pin_of_slot (k := k) hh hslot
      have hc : (d.thread t).Claims tid false := (Thread.claims_of_lease hl tid).mpr hslot
      have hsame : ∀ i, h.slot = some i → i = tid := fun i e => by rw [hslot] at e; cases e; rfl
      refine ho.keep (t := t) (fun u hu => by rw [ht, if_neg hu]) (fun i b => ?_) (hr ▸ ho.ids)
        (fun _ _ _ _ _ => by rw [hr]) ?_ <;> rw [ht, if_pos rfl]
      · rw [Thread.claims_pinBy hl hsame]
        refine ⟨fun hc' => hc'.elim id ?_, Or.inl⟩
        rintro ⟨rfl, rfl⟩
        exact hc
      · rw [hr]
        exact hs.pinBy hl hsame hfree
          (hs.unstray tid false hc (Or.inr (by rw [hl]; exact Option.some_ne_none _))) fun _ _ => rfl
    | none =>
      have ht := thread_pin_of_no_slot (k := k) hh hslot
      have hr := registry_pin_of_no_slot (k := k) hh hslot
      have hnone : ∀ i, h.slot = some i → i = d.register.1 := fun i e => by rw [hslot] at e; cases e
      refine ho.gain (t := t) (c := false) (fun u hu => by rw [ht, if_neg hu]) hr (fun i b => ?_) ?_ <;>
        rw [ht, if_pos rfl]
      · exact Thread.claims_pinBy hl hnone i b
      · rw [hr]
        exact hs.pinBy hl hnone hfree hblank fun _ _ => by rw [Registry.slot_register]
  | none =>
    have hl := lease_eq_none hh
    have ht := thread_pin_of_gone (k := k) hh
    have hr := registry_pin_of_gone (k := k) hh
    refine ho.gain (t := t) (c := true) (fun u hu => by rw [ht, if_neg hu]) hr (fun i b => ?_) ?_ <;>
      rw [ht, if_pos rfl]
    · exact Thread.claims_pinDetached hl i b
    · rw [hr]
      exact hs.pinDetached hl hfree (hfresh true) hblank fun _ _ _ => by rw [Registry.slot_register]

/-! ## Dropping guards -/

theorem Owned.unpin_of_detached (ho : d.Owned) {g : Guard} (hg : g ∈ (d.thread t).guards) (hd : g.detached = true) :
    (d.unpin t g).Owned := by
  have hs := ho.sound t
  have hh := Thread.holds_drop hg
  have hheld : (g.tid, g.detached) ∈ (d.thread t).holds := hh.mem_iff.mpr List.mem_cons_self
  rw [hd] at hh hheld
  have ht := thread_unpin_of_detached (d := d) (t := t) hd
  have hr := registry_unpin_of_detached (d := d) (t := t) hd
  have hc : (d.thread t).Claims g.tid true := hheld
  have hnd : (g.tid, true) ∉ ((d.thread t).drop g).holds := by
    have := (hh.filter (·.2)).nodup_iff.mp hs.single
    rw [List.filter_cons_of_pos rfl, List.nodup_cons] at this
    exact fun hmem => this.1 (List.mem_filter.mpr ⟨hmem, rfl⟩)
  have hcl : ∀ i b, ((d.thread t).drop g).Claims i b ↔
      (d.thread t).Claims i b ∧ ¬ (i = g.tid ∧ b = true) := by
    intro i b
    cases b with
    | true =>
      rw [Thread.claims_detached, Thread.claims_detached, hh.mem_iff, List.mem_cons]
      constructor
      · intro hi
        refine ⟨Or.inr hi, ?_⟩
        rintro ⟨rfl, -⟩
        exact hnd hi
      · rintro ⟨e | hi, hne⟩
        · exact absurd ⟨congrArg Prod.fst e, rfl⟩ hne
        · exact hi
    | false =>
      cases hl : (d.thread t).lease with
      | none =>
        have hl' : ((d.thread t).drop g).lease = none := hl
        rw [Thread.claims_of_gone hl, Thread.claims_of_gone hl', hh.mem_iff]
        simp
      | some p =>
        rw [Thread.claims_of_lease hl, Thread.claims_of_lease (show ((d.thread t).drop g).lease = some p from hl)]
        simp
  refine ho.lose (t := t) (fun u hu => by rw [ht, if_neg hu]) hc ho.ids hr (hs.unstray _ _ hc (Or.inl rfl))
    (fun _ _ => rfl) (fun i b => by rw [ht, if_pos rfl]; exact hcl i b) ?_
  rw [ht, if_pos rfl, hr]
  refine hs.dropDetached rfl hh rfl fun i b hi => ?_
  show ((d.registry.unpin g.tid).slot i).stray = _
  exact Registry.stray_pin _ _ _ (ho.hasSlot hc)

theorem Owned.unpin_of_live (ho : d.Owned) (hm : d.mayCall t = true) {g : Guard} (hg : g ∈ (d.thread t).guards)
    (hd : g.detached = false) (hhd : d.handle? t = some h) : (d.unpin t g).Owned := by
  have hs := ho.sound t
  have hh := Thread.holds_drop hg
  have hheld : (g.tid, g.detached) ∈ (d.thread t).holds := hh.mem_iff.mpr List.mem_cons_self
  rw [hd] at hh hheld
  have hl := lease_eq hhd
  have ht := thread_unpin_of_live (d := d) (t := t) hd hhd
  have hr := registry_unpin_of_live (d := d) (t := t) hd hhd
  have hslot := hs.leased _ _ _ hl hheld
  have hc : (d.thread t).Claims g.tid false := (Thread.claims_of_lease hl _).mpr hslot
  simp only [hslot] at hr
  have hcl : ∀ i b, ({ (d.thread t).drop g with tenure := .live { h with pinCount := h.pinCount - 1 } } :
      Thread ν κ).Claims i b ↔ (d.thread t).Claims i b := by
    intro i b
    cases b with
    | false => rw [Thread.claims_of_lease hl]; exact Thread.claims_of_lease rfl i
    | true =>
      rw [Thread.claims_detached, Thread.claims_detached, hh.mem_iff, List.mem_cons]
      exact ⟨Or.inr, fun hi => hi.resolve_left (by simp)⟩
  have hsr : ∀ i, ((d.unpin t g).registry.slot i).stray = (d.registry.slot i).stray := by
    intro i
    rw [hr]
    split
    · exact Registry.stray_pin _ _ _ (ho.hasSlot hc)
    · rfl
  refine ho.keep (t := t) (fun u hu => by rw [ht, if_neg hu]) (fun i b => by rw [ht, if_pos rfl]; exact hcl i b)
    ?_ (fun _ i _ _ _ => hsr i) ?_
  · rw [hr]
    split
    · exact ho.ids.modifySlot ⟨t, false, hc⟩ _
    · exact ho.ids
  · rw [ht, if_pos rfl]
    have hdrop : ({ (d.thread t).drop g with tenure := .live { h with pinCount := h.pinCount - 1 } } :
        Thread ν κ).Sound d.registry :=
      hs.dropAttached hl rfl hh rfl (freeing_of_mayCall ho hm)
    exact hdrop.congr fun i _ _ => hsr i

/-- The last guard that a dead handle left behind takes the id with it. -/
theorem Owned.unpin_of_gone_last (ho : d.Owned) {g : Guard} (hg : g ∈ (d.thread t).guards) (hd : g.detached = false)
    (hhd : d.handle? t = none) (hlast : (d.registry.slot g.tid).stray ≤ 1) : (d.unpin t g).Owned := by
  have hs := ho.sound t
  have hh := Thread.holds_drop hg
  have hheld : (g.tid, g.detached) ∈ (d.thread t).holds := hh.mem_iff.mpr List.mem_cons_self
  rw [hd] at hh hheld
  have hl := lease_eq_none hhd
  have hl' : ((d.thread t).drop g).lease = none := hl
  have ht := thread_unpin_of_gone (d := d) (t := t) hd hhd
  have hr := registry_unpin_of_gone (d := d) (t := t) hd hhd
  simp only [if_pos hlast] at hr
  have hc : (d.thread t).Claims g.tid false := (Thread.claims_of_gone hl _).mpr hheld
  obtain ⟨hstray, honly⟩ := hs.stray _ hl hheld
  have hset : ∀ i, (d.registry.setStray g.tid ((d.registry.slot g.tid).stray - 1)).slot i =
      if i = g.tid then { d.registry.slot g.tid with stray := (d.registry.slot g.tid).stray - 1 }
      else d.registry.slot i := fun i => Registry.slot_setStray _ _ _ (ho.hasSlot hc)
  have hidset : (d.registry.setStray g.tid ((d.registry.slot g.tid).stray - 1)).Ids d.Uses :=
    ho.ids.modifySlot ⟨t, false, hc⟩ _
  have hgone : ∀ i, (i, false) ∉ ((d.thread t).drop g).holds := fun i hi => by
    have hcount := Thread.attached_drop hh
    have := Thread.attached_pos hi
    omega
  refine ho.lose (t := t) (fun u hu => by rw [ht, if_neg hu]) hc hidset hr ?_ (fun i hi => (hset i).trans (if_neg hi))
    (fun i b => ?_) ?_
  · show ((d.registry.setStray g.tid _).slot g.tid).stray = 0
    rw [hset, if_pos rfl]
    show (d.registry.slot g.tid).stray - 1 = 0
    omega
  · rw [ht, if_pos rfl]
    cases b with
    | true => rw [Thread.claims_detached, Thread.claims_detached, hh.mem_iff]; simp
    | false =>
      rw [Thread.claims_of_gone hl, Thread.claims_of_gone hl']
      refine ⟨fun hi => absurd hi (hgone i), ?_⟩
      rintro ⟨hi, hne⟩
      exact absurd ⟨honly i hi, rfl⟩ hne
  · rw [ht, if_pos rfl]
    refine hs.dropStray hl hl hh rfl (fun hi => absurd hi (hgone _)) fun i hi => ?_
    rw [hr]
    show (((d.registry.setStray g.tid _).unpin g.tid).slot i).stray = _
    rw [Registry.unpin, Registry.stray_pin _ _ _ (hidset.hasSlot_of_used ⟨t, false, hc⟩), hset,
      if_neg (ho.detached_ne hi hc)]

/-- Any other one is counted down. -/
theorem Owned.unpin_of_gone_more (ho : d.Owned) {g : Guard} (hg : g ∈ (d.thread t).guards) (hd : g.detached = false)
    (hhd : d.handle? t = none) (hmore : ¬ (d.registry.slot g.tid).stray ≤ 1) : (d.unpin t g).Owned := by
  have hs := ho.sound t
  have hh := Thread.holds_drop hg
  have hheld : (g.tid, g.detached) ∈ (d.thread t).holds := hh.mem_iff.mpr List.mem_cons_self
  rw [hd] at hh hheld
  have hl := lease_eq_none hhd
  have ht := thread_unpin_of_gone (d := d) (t := t) hd hhd
  have hr := registry_unpin_of_gone (d := d) (t := t) hd hhd
  simp only [if_neg hmore] at hr
  have hc : (d.thread t).Claims g.tid false := (Thread.claims_of_gone hl _).mpr hheld
  obtain ⟨hstray, honly⟩ := hs.stray _ hl hheld
  have hset : ∀ i, (d.registry.setStray g.tid ((d.registry.slot g.tid).stray - 1)).slot i =
      if i = g.tid then { d.registry.slot g.tid with stray := (d.registry.slot g.tid).stray - 1 }
      else d.registry.slot i := fun i => Registry.slot_setStray _ _ _ (ho.hasSlot hc)
  have hstay : (g.tid, false) ∈ ((d.thread t).drop g).holds := by
    have hcount := Thread.attached_drop hh
    obtain ⟨i, hi⟩ := ((d.thread t).drop g).exists_of_attached_pos (by omega)
    have := honly i (hh.mem_iff.mpr (List.mem_cons_of_mem _ hi))
    exact this ▸ hi
  refine ho.keep (t := t) (fun u hu => by rw [ht, if_neg hu]) (fun i b => ?_)
    (hr ▸ ho.ids.modifySlot ⟨t, false, hc⟩ _) (fun u i b hu hi => ?_) ?_
  · rw [ht, if_pos rfl]
    refine Thread.claims_congr (show ((d.thread t).drop g).lease = (d.thread t).lease from rfl) (fun p => ?_) i b
    rw [hh.mem_iff, List.mem_cons]
    refine ⟨Or.inr, ?_⟩
    rintro (rfl | hp)
    · exact hstay
    · exact hp
  · rw [hr, hset, if_neg]
    rintro rfl
    exact hu (ho.excl u t g.tid b false hi hc).1
  · rw [ht, if_pos rfl, hr]
    exact hs.dropStray hl hl hh rfl (fun _ => by rw [hset, if_pos rfl])
      fun i hi => by rw [hset, if_neg (ho.detached_ne hi hc)]

theorem Owned.unpin (ho : d.Owned) (hm : d.mayCall t = true) {g : Guard} (hg : g ∈ (d.thread t).guards) :
    (d.unpin t g).Owned := by
  cases hd : g.detached with
  | true => exact ho.unpin_of_detached hg hd
  | false =>
    cases hhd : d.handle? t with
    | some h => exact ho.unpin_of_live hm hg hd hhd
    | none =>
      by_cases h1 : (d.registry.slot g.tid).stray ≤ 1
      · exact ho.unpin_of_gone_last hg hd hhd h1
      · exact ho.unpin_of_gone_more hg hd hhd h1

/-! ## Exiting -/

theorem Owned.held_of_pinCount (ho : d.Owned) (hh : d.handle? t = some h) (h0 : h.pinCount ≠ 0) :
    ∃ tid, h.slot = some tid ∧ (tid, false) ∈ (d.thread t).holds := by
  have hcount := (ho.sound t).counted _ _ (lease_eq hh)
  obtain ⟨tid, hm⟩ := (d.thread t).exists_of_attached_pos (by omega)
  exact ⟨tid, (ho.sound t).leased _ _ tid (lease_eq hh) hm, hm⟩

section

variable (ho : d.Owned) (hcalls : (d.thread t).calls = []) (hten : (d.thread t).tenure = .live h)

include ho hcalls hten

/-- The thread never pinned. -/
theorem Owned.exit_of_no_slot (hslot : h.slot = none) : (d.exit t).Owned := by
  have hs := ho.sound t
  have hl : (d.thread t).lease = some (h.slot, h.pinCount) := Thread.lease_of_handle (by rw [hten]; rfl)
  have hl' : ({ d.thread t with tenure := .gone } : Thread ν κ).lease = none := rfl
  have ht := thread_exit_of_live hten
  have hr := registry_exit_of_live hten
  simp only [hslot] at hr
  have hempty : ∀ i, (i, false) ∉ (d.thread t).holds := fun i hi => by
    have := hs.leased _ _ i hl hi
    rw [hslot] at this
    cases this
  refine ho.keep (t := t) (fun u hu => by rw [ht, if_neg hu]) (fun i b => ?_) (hr ▸ ho.ids)
    (fun _ _ _ _ _ => by rw [hr]) ?_ <;> rw [ht, if_pos rfl]
  · cases b with
    | true => exact Iff.rfl
    | false =>
      rw [Thread.claims_of_gone hl', Thread.claims_of_lease hl, hslot]
      exact ⟨fun hi => absurd hi (hempty i), nofun⟩
  · rw [hr]
    exact hs.endLease hl hl' rfl hcalls (fun i hi => absurd hi (hempty i)) fun _ _ => rfl

/-- It leaves no guard behind, and gives the id back. -/
theorem Owned.exit_of_idle {tid : Nat} (hslot : h.slot = some tid) (h0 : h.pinCount = 0) : (d.exit t).Owned := by
  have hs := ho.sound t
  have hl : (d.thread t).lease = some (h.slot, h.pinCount) := Thread.lease_of_handle (by rw [hten]; rfl)
  have hl' : ({ d.thread t with tenure := .gone } : Thread ν κ).lease = none := rfl
  have ht := thread_exit_of_live hten
  have hr := registry_exit_of_live hten
  simp only [hslot, if_pos h0] at hr
  have hc : (d.thread t).Claims tid false := (Thread.claims_of_lease hl tid).mpr hslot
  have hgone : ∀ i, (i, false) ∉ (d.thread t).holds := fun i hi => by
    have hcount := hs.counted _ _ hl
    have := Thread.attached_pos hi
    omega
  refine ho.lose (t := t) (fun u hu => by rw [ht, if_neg hu]) hc ho.ids hr
    (hs.unstray _ _ hc (Or.inr (by rw [hl]; exact Option.some_ne_none _))) (fun _ _ => rfl) (fun i b => ?_) ?_ <;>
    rw [ht, if_pos rfl]
  · cases b with
    | true =>
      refine ⟨fun hi => ⟨hi, ?_⟩, And.left⟩
      rintro ⟨-, hb⟩
      cases hb
    | false =>
      rw [Thread.claims_of_gone hl', Thread.claims_of_lease hl, hslot]
      refine ⟨fun hi => absurd hi (hgone i), ?_⟩
      rintro ⟨hi, hne⟩
      cases hi
      exact absurd ⟨rfl, rfl⟩ hne
  · refine hs.endLease hl hl' rfl hcalls (fun i hi => absurd hi (hgone i)) fun i _ => ?_
    rw [hr]
    exact Registry.stray_pin _ _ _ (ho.hasSlot hc)

/-- It leaves guards behind, which keep the slot; the slot now counts them. -/
theorem Owned.exit_of_pinned {tid : Nat} (hslot : h.slot = some tid) (h0 : h.pinCount ≠ 0) : (d.exit t).Owned := by
  have hs := ho.sound t
  have hl : (d.thread t).lease = some (h.slot, h.pinCount) := Thread.lease_of_handle (by rw [hten]; rfl)
  have hl' : ({ d.thread t with tenure := .gone } : Thread ν κ).lease = none := rfl
  have ht := thread_exit_of_live hten
  have hr := registry_exit_of_live hten
  simp only [hslot, if_neg h0] at hr
  have hc : (d.thread t).Claims tid false := (Thread.claims_of_lease hl tid).mpr hslot
  have hset : ∀ i, (d.registry.setStray tid h.pinCount).slot i =
      if i = tid then { d.registry.slot tid with stray := h.pinCount } else d.registry.slot i :=
    fun i => Registry.slot_setStray _ _ _ (ho.hasSlot hc)
  have honly : ∀ i, (i, false) ∈ (d.thread t).holds → i = tid := fun i hi => by
    have := hs.leased _ _ i hl hi
    rw [hslot] at this
    cases this
    rfl
  obtain ⟨i, -, hi⟩ := ho.held_of_pinCount (by rw [handle?_eq, hten]; rfl) h0
  have hheld : (tid, false) ∈ (d.thread t).holds := honly i hi ▸ hi
  refine ho.keep (t := t) (fun u hu => by rw [ht, if_neg hu]) (fun i b => ?_)
    (hr ▸ ho.ids.modifySlot ⟨t, false, hc⟩ _) (fun u i b hu hi => ?_) ?_
  · rw [ht, if_pos rfl]
    cases b with
    | true => exact Iff.rfl
    | false =>
      rw [Thread.claims_of_gone hl', Thread.claims_of_lease hl, hslot]
      refine ⟨fun hi => congrArg some (honly i hi).symm, fun hi => ?_⟩
      cases hi
      exact hheld
  · rw [hr, hset, if_neg]
    rintro rfl
    exact hu (ho.excl u t i b false hi hc).1
  · rw [ht, if_pos rfl, hr]
    refine hs.endLease hl hl' rfl hcalls (fun i hi => ?_) fun i hi => by rw [hset, if_neg (ho.detached_ne hi hc)]
    rw [hset, if_pos (honly i hi)]

end

theorem Owned.exit (ho : d.Owned) (hcalls : (d.thread t).calls = []) : (d.exit t).Owned := by
  cases hten : (d.thread t).tenure with
  | unused => rw [exit_of_not_live fun h => by rw [hten]; exact nofun]; exact ho
  | gone => rw [exit_of_not_live fun h => by rw [hten]; exact nofun]; exact ho
  | live h =>
    cases hslot : h.slot with
    | none => exact ho.exit_of_no_slot hcalls hten hslot
    | some tid =>
      by_cases h0 : h.pinCount = 0
      · exact ho.exit_of_idle hcalls hten hslot h0
      · exact ho.exit_of_pinned hcalls hten hslot h0

/-! ## Moves that leave holds and lease alone -/

section

variable {d' : Domain ν κ} {x : Thread ν κ} {c : Call ν κ} {rest : List (Call ν κ)} {q : Phase ν}

theorem Owned.calm (ho : d.Owned) (hth : ∀ u, u ≠ t → d'.thread u = d.thread u)
    (hl : (d'.thread t).lease = (d.thread t).lease) (hp : (d'.thread t).holds.Perm (d.thread t).holds)
    (hpins : ∀ p ∈ (d'.thread t).pins, p ∈ (d.thread t).pins)
    (houter : ∀ c ∈ (d'.thread t).calls.tail, c.phase.isFreeing = true)
    (hpub : ∀ c rest tid e, (d'.thread t).calls = c :: rest → c.phase = .publish tid e false →
      ∃ s, (d.thread t).lease = some (s, 1))
    (hids : d'.registry.Ids d.Uses)
    (hstray : ∀ tid, (d'.registry.slot tid).stray = (d.registry.slot tid).stray) : d'.Owned :=
  ho.keep hth (fun tid b => Thread.claims_congr hl (fun _ => hp.mem_iff) tid b) hids (fun _ tid _ _ _ => hstray tid)
    (((ho.sound t).keep hl hp hpins houter hpub).congr fun tid _ _ => hstray tid)

/-- A call that makes no guard is opened. -/
theorem Owned.opened (ho : d.Owned) (hm : d.mayCall t = true) (hq : q.pin? = none)
    (hth : ∀ u, d'.thread u = if u = t then { x with calls := ⟨k, q⟩ :: (d.thread t).calls } else d.thread u)
    (hl : x.lease = (d.thread t).lease) (hg : x.guards = (d.thread t).guards) (hr : d'.registry = d.registry) :
    d'.Owned := by
  have ht : d'.thread t = { x with calls := ⟨k, q⟩ :: (d.thread t).calls } := by rw [hth, if_pos rfl]
  have hpins : (d'.thread t).pins = (d.thread t).pins := by simp [ht, Thread.pins, hq]
  refine ho.calm (fun u hu => by rw [hth, if_neg hu]) (ht ▸ hl) ?_ (fun p hp => hpins ▸ hp) ?_ ?_ (hr ▸ ho.ids)
    fun _ => by rw [hr]
  · unfold Thread.holds Thread.seats
    rw [hpins, ht, hg]
  · rw [ht]; exact freeing_of_mayCall ho hm
  · intro c rest tid e hc hp
    rw [ht] at hc
    cases hc
    rw [show q = _ from hp] at hq
    cases hq

/-- The innermost call goes on in another phase, with the guard that it makes. -/
theorem Owned.turned (ho : d.Owned) (hc : (d.thread t).calls = c :: rest) (hq : q.pin? = c.phase.pin?)
    (hpub : q.shield? = q.pin?)
    (hth : ∀ u, d'.thread u = if u = t then { x with calls := { c with phase := q } :: rest } else d.thread u)
    (hl : x.lease = (d.thread t).lease) (hg : x.guards = (d.thread t).guards)
    (hids : d'.registry.Ids d.Uses) (hstray : ∀ tid, (d'.registry.slot tid).stray = (d.registry.slot tid).stray) :
    d'.Owned := by
  have ht : d'.thread t = { x with calls := { c with phase := q } :: rest } := by rw [hth, if_pos rfl]
  have hpins : (d'.thread t).pins = (d.thread t).pins := by
    unfold Thread.pins
    rw [ht, hc, List.filterMap_cons, List.filterMap_cons]
    simp only [hq]
  refine ho.calm (fun u hu => by rw [hth, if_neg hu]) (ht ▸ hl) ?_ (fun p hp => hpins ▸ hp) ?_ ?_ hids hstray
  · unfold Thread.holds Thread.seats
    rw [hpins, ht, hg]
  · have := (ho.sound t).outer
    rw [hc] at this
    rwa [ht]
  · intro c' rest' tid e hc' hp
    rw [ht] at hc'
    cases hc'
    rw [show q = _ from hp] at hpub
    cases hpub

/-- The innermost call returns, its guard, if it made one, among the live ones now. -/
theorem Owned.closed (ho : d.Owned) (hc : (d.thread t).calls = c :: rest) (hr : d'.registry = d.registry)
    (hth : ∀ u, d'.thread u = if u = t then { x with calls := rest } else d.thread u)
    (hl : x.lease = (d.thread t).lease) (hg : x.seats = c.phase.pin?.toList ++ (d.thread t).seats) : d'.Owned := by
  have ht : d'.thread t = { x with calls := rest } := by rw [hth, if_pos rfl]
  have hpins : (d.thread t).pins = c.phase.pin?.toList ++ (d'.thread t).pins := by
    cases hp : c.phase.pin? <;> simp [ht, Thread.pins, hc, hp]
  have houter : ∀ c ∈ rest, c.phase.isFreeing = true := by
    have := (ho.sound t).outer
    rwa [hc] at this
  refine ho.calm (fun u hu => by rw [hth, if_neg hu]) (ht ▸ hl) ?_
    (fun p hp => hpins ▸ List.mem_append_right _ hp) ?_ ?_ (hr ▸ ho.ids) fun _ => by rw [hr]
  · unfold Thread.holds
    rw [hpins, show (d'.thread t).seats = x.seats by rw [ht]; rfl, hg, List.append_assoc]
    exact List.perm_append_comm_assoc _ _ _
  · rw [ht]; exact fun c hc => houter c (List.mem_of_mem_tail hc)
  · intro c' rest' tid e hc' hp
    rw [ht] at hc'
    have := houter c' (by rw [show rest = c' :: rest' from hc']; exact List.mem_cons_self)
    rw [hp] at this
    cases this

end

theorem Owned.retire (ho : d.Owned) (hm : d.mayCall t = true) (n : ν) (k : κ) : (d.retire t n k).Owned := by
  cases hh : d.handle? t with
  | some h =>
    refine ho.opened hm (x := { d.thread t with tenure := .live _ }) ?_ (thread_retire_of_handle n hh) ?_ rfl
      (retire_frame_of_handle n hh).1
    · split <;> rfl
    · rw [lease_eq hh]
      refine (Thread.lease_of_handle rfl).trans ?_
      split <;> simp
  | none => exact ho.opened hm rfl (thread_retire_of_gone n hh) rfl rfl (retire_frame_of_gone n hh).1

theorem Owned.flush (ho : d.Owned) (hm : d.mayCall t = true) (k : κ) : (d.flush t k).Owned := by
  cases hh : d.handle? t with
  | some h =>
    refine ho.opened hm (x := { d.thread t with tenure := .live _ }) rfl (thread_flush_of_handle hh) ?_ rfl
      (flush_frame d t k).1
    rw [lease_eq hh]
    exact (Thread.lease_of_handle rfl).trans (by simp)
  | none => exact ho.opened hm rfl (thread_flush_of_gone hh) rfl rfl (flush_frame d t k).1

theorem Owned.pending (ho : d.Owned) : (d.pending t).2.Owned := by
  cases hh : d.handle? t with
  | some h =>
    have hth := thread_pending_of_handle hh
    have ht : (d.pending t).2.thread t = { d.thread t with tenure := .live h } := by rw [hth, if_pos rfl]
    have hr := (pending_frame d t).1
    have hs := ho.sound t
    refine ho.calm (fun u hu => by rw [hth, if_neg hu]) ?_ ?_ ?_ ?_ ?_ (hr ▸ ho.ids) fun _ => by rw [hr]
    · rw [lease_eq hh, ht]; exact Thread.lease_of_handle rfl
    · rw [ht]; exact List.Perm.refl _
    · rw [ht]; exact fun _ hp => hp
    · rw [ht]; exact hs.outer
    · rw [ht]; exact hs.publishing
  | none => rwa [pending_of_gone hh]

/-! ## Steps of a call -/

theorem Owned.step (ho : d.Owned) (hm : (d.thread t).calls ≠ []) : (d.step t).1.Owned := by
  obtain ⟨c, rest, hc⟩ := List.exists_cons_of_ne_nil hm
  have hsame : ∀ {r : Registry}, r = d.registry → r.Ids d.Uses ∧ ∀ i, (r.slot i).stray = (d.registry.slot i).stray :=
    fun e => by rw [e]; exact ⟨ho.ids, fun _ => rfl⟩
  rw [step_eq hc]
  rcases hp : c.phase with ⟨tid, e, b⟩ | p | ⟨p, g⟩ | ⟨p, todo, freed⟩
  · have hpin : (tid, b) ∈ (d.thread t).pins := List.mem_filterMap.mpr ⟨c, by simp [hc], by simp [hp, Phase.pin?]⟩
    have hclaim : (d.thread t).Claims tid b := by
      have hheld : (tid, b) ∈ (d.thread t).holds := List.mem_append_left _ hpin
      cases b with
      | true => exact hheld
      | false =>
        obtain ⟨⟨s, n⟩, hl⟩ := Option.ne_none_iff_exists'.mp ((ho.sound t).pinning tid hpin)
        exact (Thread.claims_of_lease hl tid).mpr ((ho.sound t).leased s n tid hl hheld)
    obtain ⟨hr, -⟩ := publish_frame d t tid e b
    have hids : (d.publish t tid e b).registry.Ids d.Uses := hr ▸ ho.ids.modifySlot ⟨t, b, hclaim⟩ _
    have hstray : ∀ i, ((d.publish t tid e b).registry.slot i).stray = (d.registry.slot i).stray := fun i => by
      rw [hr]; exact Registry.stray_pin _ _ _ (ho.hasSlot hclaim)
    cases b with
    | true => exact ho.turned hc (by rw [hp]; rfl) rfl (thread_publish_of_detached hc tid e) rfl rfl hids hstray
    | false =>
      cases hh : d.handle? t with
      | some h =>
        refine ho.turned hc (x := { d.thread t with tenure := .live _ }) ?_ ?_
          (thread_publish_of_handle hc hh tid e) (lease_eq hh).symm rfl hids hstray
        · rw [hp]; split <;> rfl
        · split <;> rfl
      | none =>
        exact ho.turned hc (by rw [hp]; rfl) rfl (thread_publish_of_gone hc hh tid e) rfl rfl
          hids hstray
  · obtain ⟨hr, -⟩ := advance_frame d t p
    exact ho.turned hc (by rw [hp]; rfl) rfl (thread_advance hc p) rfl rfl
      (hr ▸ ho.ids.epoch _) fun _ => by rw [hr]; rfl
  · obtain ⟨hids, hstray⟩ := hsame (select_frame d t p g).1
    cases hh : d.handle? t with
    | some h =>
      exact ho.turned hc (x := { d.thread t with tenure := .live _ }) (by rw [hp]; rfl) rfl
        (thread_select_of_handle hc hh p g) (lease_eq hh).symm rfl hids hstray
    | none =>
      exact ho.turned hc (by rw [hp]; rfl) rfl (thread_select_of_gone hc hh p g) rfl rfl
        hids hstray
  · cases todo with
    | cons n todo =>
      exact ho.turned hc (by rw [hp]; rfl) rfl (thread_free hc _ n) rfl rfl ho.ids fun _ => rfl
    | nil =>
      cases p with
      | pin tid b =>
        refine ho.closed hc (answer_pin_frame d t c.ticket freed tid b).1 (x := { d.thread t with
          guards := ⟨d.nextGuard, tid, b⟩ :: (d.thread t).guards }) (fun u => ?_) rfl (by rw [hp]; rfl)
        rw [thread_answer_pin, hc]
        rfl
      | _ =>
        refine ho.closed hc (answer_frame_of_pin?_none d t c.ticket freed rfl).1 (x := d.thread t) (fun u => ?_) rfl
          (by rw [hp]; rfl)
        rw [thread_answer_of_pin?_none _ _ _ _ rfl, hc]
        rfl

theorem Owned.move (ho : d.Owned) {m : Move ν κ} (hm : d.may t m) : (d.move t m).Owned := by
  cases m with
  | pin k => exact ho.pin hm k
  | unpin g => exact ho.unpin hm.1 hm.2
  | retire n k => exact ho.retire hm.1 n k
  | flush k => exact ho.flush hm k
  | pending => exact ho.pending
  | exit => exact ho.exit hm
  | step => exact ho.step hm

theorem Reach.owned (h : d.Reach) : d.Owned := by
  induction h with
  | start => exact owned_empty
  | move t m _ hm ih => exact ih.move hm

end Domain

end EpochQueue.Reclaim
