/-
  EpochQueue.Proofs.Reclaim.Turns — what a move can do, in one place.

  `Turn d t x d'` lists what a move of `t` from `d` to `d'` may change: `x` is what it adds to
  the story, if anything. Where the garbage goes is in `Dues`, what happens to slots and epochs
  in `Watch`. `Owned.turn` says that every permitted move is a turn; the invariants about
  epochs, garbage and the story are proved from turns alone.
-/

import EpochQueue.Proofs.Reclaim.Ownership

namespace EpochQueue.Reclaim

variable {ν κ : Type}

namespace Thread

/-- Where the innermost call is. -/
def point? (th : Thread ν κ) : Option (Phase ν) := th.calls.head?.map (·.phase)

theorem point?_of_calls {th : Thread ν κ} {c : Call ν κ} {rest : List (Call ν κ)} (hc : th.calls = c :: rest) :
    th.point? = some c.phase := by
  simp [point?, hc]

theorem bags_of_handle {th : Thread ν κ} {h : Handle ν} (hh : th.tenure.handle? = some h) : th.bags = h.bags := by
  simp [bags, hh]

theorem batch_of_handle {th : Thread ν κ} {h : Handle ν} (hh : th.tenure.handle? = some h) :
    th.batch = h.batch := by
  simp [batch, hh]

theorem bags_of_gone {th : Thread ν κ} (hh : th.tenure.handle? = none) : th.bags = [] := by
  simp [bags, hh]

/-- While nothing but destructors is under way, every pin is published. -/
theorem mem_shields_of_freeing {th : Thread ν κ} (hf : ∀ c ∈ th.calls, c.phase.isFreeing = true)
    {p : Nat × Bool} (hp : p ∈ th.holds) : p ∈ th.shields := by
  rcases List.mem_append.mp hp with hp | hp
  · obtain ⟨c, hc, hs⟩ := List.mem_filterMap.mp hp
    have := hf c hc
    refine List.mem_append_left _ (List.mem_filterMap.mpr ⟨c, hc, ?_⟩)
    cases hph : c.phase <;> rw [hph] at hs this <;> first | exact hs | cases this
  · exact List.mem_append_right _ hp

theorem mem_pins_of_shields {calls : List (Call ν κ)} {p : Nat × Bool}
    (hp : p ∈ calls.filterMap (·.phase.shield?)) : p ∈ calls.filterMap (·.phase.pin?) := by
  obtain ⟨c, hc, hs⟩ := List.mem_filterMap.mp hp
  exact List.mem_filterMap.mpr ⟨c, hc, Phase.pin?_of_shield? hs⟩

theorem shields_subset_holds {th : Thread ν κ} {p : Nat × Bool} (hp : p ∈ th.shields) : p ∈ th.holds :=
  List.mem_append.mpr ((List.mem_append.mp hp).imp_left mem_pins_of_shields)

end Thread

/-- What the seal of a batch adds to the bags. -/
theorem Handle.mem_bags_sealBatch {h : Handle ν} {e : Epoch} {b : Bag ν} (hb : b ∈ (h.sealBatch e).bags) :
    b ∈ h.bags ∨ b.epoch = e ∧ b.nodes = h.batch := by
  unfold sealBatch at hb
  split at hb
  · exact Or.inl hb
  · rcases List.mem_append.mp hb with hb | hb
    · exact Or.inl hb
    · cases List.mem_singleton.mp hb
      exact Or.inr ⟨rfl, rfl⟩

theorem Handle.mem_batch_sealBatch {h : Handle ν} {e : Epoch} {n : ν} (hn : n ∈ (h.sealBatch e).batch) :
    n ∈ h.batch := by
  unfold sealBatch at hn
  split at hn
  · exact hn
  · cases hn

namespace Domain

/-- What becomes of the garbage: a retired node joins the batch, a batch becomes a bag stamped
    with the global epoch, the expired bags of a collection are taken out, and only what was
    taken out is destroyed. -/
structure Dues (d : Domain ν κ) (t : Nat) (x : Option (Notice ν)) (d' : Domain ν κ) : Prop where
  retires : ∀ n, x = some (.retired n) → .retired n ∉ d.story
  frees : ∀ n, x = some (.freed n) → n ∈ (d.thread t).todo
  batch : ∀ n ∈ (d'.thread t).batch, n ∈ (d.thread t).batch ∨ x = some (.retired n)
  pool : ∀ b ∈ d'.pool t, b ∈ d.pool t ∨
    b.epoch = d.registry.epoch ∧ ∀ n ∈ b.nodes, n ∈ (d.thread t).batch ∨ x = some (.retired n)
  todo : ∀ n ∈ (d'.thread t).todo, n ∈ (d.thread t).todo ∨
    ∃ p g, (d.thread t).point? = some (.select p g) ∧ ∃ b ∈ d.pool t, b.isExpired g = true ∧ n ∈ b.nodes

/-- What becomes of slots and epochs: a slot changes when its owner publishes, or goes
    quiescent when nobody holds it any more; the global epoch grows by one when all have
    observed it; an epoch that a call goes on with is the global one. -/
structure Watch (d : Domain ν κ) (t : Nat) (x : Option (Notice ν)) (d' : Domain ν κ) : Prop where
  epoch : d'.registry.epoch = d.registry.epoch ∧ (∀ e, x ≠ some (.advanced e)) ∨
    d.registry.allObserved = true ∧ d'.registry.epoch = d.registry.epoch + 1 ∧
      x = some (.advanced d'.registry.epoch) ∧ ∀ tid, d'.registry.slot tid = d.registry.slot tid
  slots : ∀ tid, (d'.registry.slot tid).epoch = (d.registry.slot tid).epoch ∨
    (d'.registry.slot tid).epoch = quiescent ∧ (∀ u b, (tid, b) ∉ (d'.thread u).holds) ∨
    ∃ b, (d.thread t).point? = some (.publish tid (d'.registry.slot tid).epoch b)
  shields : ∀ p ∈ (d'.thread t).shields, p ∈ (d.thread t).shields ∨
    (d.thread t).point? = some (.publish p.1 (d'.registry.slot p.1).epoch p.2)
  publishes : ∀ tid e b, (d'.thread t).point? = some (.publish tid e b) → e = d'.registry.epoch
  selects : ∀ p g, (d'.thread t).point? = some (.select p g) → g = d'.registry.epoch

/-- What becomes of the guards of `t`, by what the move adds to the story. -/
def Regards (d : Domain ν κ) (t : Nat) (d' : Domain ν κ) : Option (Notice ν) → Prop
  | some (.pinned g) => g.serial = d.nextGuard ∧ d'.nextGuard = d.nextGuard + 1 ∧
      (d'.thread t).guards = g :: (d.thread t).guards
  | some (.unpinned g) => g ∈ (d.thread t).guards ∧ d'.nextGuard = d.nextGuard ∧
      (d'.thread t).guards = (d.thread t).guards.erase g
  | _ => d'.nextGuard = d.nextGuard ∧ (d'.thread t).guards = (d.thread t).guards

/-- All that a move of `t` from `d` to `d'` can come to, where `x` is what it adds to the story. -/
structure Turn (d : Domain ν κ) (t : Nat) (x : Option (Notice ν)) (d' : Domain ν κ) : Prop
    extends Dues d t x d', Watch d t x d' where
  others : ∀ u, u ≠ t → d'.thread u = d.thread u
  story : d'.story = d.story ++ x.toList
  guards : Regards d t d' x

section

variable {d d' : Domain ν κ} {t : Nat} {x : Option (Notice ν)} {k : κ} {h : Handle ν}

theorem Dues.of_eq (hret : ∀ n, x ≠ some (.retired n)) (hfr : ∀ n, x ≠ some (.freed n))
    (hbatch : (d'.thread t).batch = (d.thread t).batch) (hbags : (d'.thread t).bags = (d.thread t).bags)
    (horphans : d'.orphans = d.orphans) (htodo : ∀ n ∈ (d'.thread t).todo, n ∈ (d.thread t).todo) :
    Dues d t x d' where
  retires := fun n e => absurd e (hret n)
  frees := fun n e => absurd e (hfr n)
  batch := fun n hn => Or.inl (hbatch ▸ hn)
  pool := fun b hb => by
    rw [Domain.pool, hbags, horphans] at hb
    exact Or.inl hb
  todo := fun n hn => Or.inl (htodo n hn)

theorem Watch.of_eq (hx : ∀ e, x ≠ some (.advanced e)) (hepoch : d'.registry.epoch = d.registry.epoch)
    (hslot : ∀ tid, (d'.registry.slot tid).epoch = (d.registry.slot tid).epoch)
    (hshields : ∀ p ∈ (d'.thread t).shields, p ∈ (d.thread t).shields)
    (hpub : ∀ tid e b, (d'.thread t).point? = some (.publish tid e b) → e = d'.registry.epoch)
    (hsel : ∀ p g, (d'.thread t).point? ≠ some (.select p g)) : Watch d t x d' where
  epoch := Or.inl ⟨hepoch, hx⟩
  slots := fun tid => Or.inl (hslot tid)
  shields := fun p hp => Or.inl (hshields p hp)
  publishes := hpub
  selects := fun p g h => absurd h (hsel p g)

/-! ## Holds and uses -/

theorem Owned.claims_of_holds (ho : d.Owned) {tid : Nat} {b : Bool} (hp : (tid, b) ∈ (d.thread t).holds) :
    (d.thread t).Claims tid b := by
  cases b with
  | true => exact hp
  | false =>
    cases hl : (d.thread t).lease with
    | none => exact (Thread.claims_of_gone hl tid).mpr hp
    | some l => exact (Thread.claims_of_lease hl tid).mpr ((ho.sound t).leased l.1 l.2 tid hl hp)

/-- Nobody holds an id that is free. -/
theorem Owned.not_holds_of_free (ho : d.Owned) {tid : Nat} (hf : tid ∈ d.registry.freeTids) (u : Nat) (b : Bool) :
    (tid, b) ∉ (d.thread u).holds :=
  fun hp => ho.ids.free tid hf ⟨u, b, ho.claims_of_holds hp⟩

/-! ## Pinning -/

theorem Owned.turn_pinBy (ho : d.Owned) (hm : d.mayCall t = true) (hh : d.handle? t = some h) {tid : Nat}
    (hslot : ∀ i, h.slot = some i → i = tid)
    (hth : ∀ u, d'.thread u = if u = t then (d.thread t).pinBy h tid k d.registry.epoch else d.thread u)
    (hepoch : d'.registry.epoch = d.registry.epoch) (hslots : ∀ i, d'.registry.slot i = d.registry.slot i)
    (hrest : d'.orphans = d.orphans ∧ d'.nextGuard = d.nextGuard ∧ d'.story = d.story) : Turn d t none d' := by
  have ht : d'.thread t = (d.thread t).pinBy h tid k d.registry.epoch := by rw [hth, if_pos rfl]
  have hten : (d.thread t).tenure.handle? = some h := handle?_eq d t ▸ hh
  refine {
    toDues := .of_eq nofun nofun (by rw [ht, Thread.batch_of_handle hten]; rfl)
      (by rw [ht, Thread.bags_of_handle hten]; rfl) hrest.1 fun n hn => ?_
    toWatch := .of_eq nofun hepoch (fun i => by rw [hslots]) (fun p hp => ?_) (fun i e b hp => ?_) fun p g => ?_
    others := fun u hu => by rw [hth, if_neg hu]
    story := hrest.2.2.trans (List.append_nil _).symm
    guards := ⟨hrest.2.1, by rw [ht]; rfl⟩ }
  · rw [ht] at hn
    by_cases h0 : h.pinCount = 0 <;> simpa [Thread.pinBy, Thread.todo, h0, Phase.todo] using hn
  · rw [ht] at hp
    by_cases h0 : h.pinCount = 0
    · simpa [Thread.pinBy, Thread.shields, Thread.seats, h0, Phase.shield?] using hp
    · have : p = (tid, false) ∨ p ∈ (d.thread t).shields := by
        simpa [Thread.pinBy, Thread.shields, Thread.seats, h0, Phase.shield?, Purpose.pin?] using hp
      rcases this with rfl | hp
      · obtain ⟨i, hi, hheld⟩ := ho.held_of_pinCount hh h0
        cases hslot i hi
        exact Thread.mem_shields_of_freeing (freeing_of_mayCall ho hm) hheld
      · exact hp
  · rw [ht, hepoch] at *
    by_cases h0 : h.pinCount = 0
    · simp only [Thread.pinBy, Thread.point?, h0, if_true, List.head?_cons, Option.map_some, Option.some.injEq,
        Phase.publish.injEq] at hp
      exact hp.2.1.symm
    · simp [Thread.pinBy, Thread.point?, h0] at hp
  · rw [ht]
    by_cases h0 : h.pinCount = 0 <;> simp [Thread.pinBy, Thread.point?, h0]

theorem Owned.turn_pin (ho : d.Owned) (hm : d.mayCall t = true) (k : κ) : Turn d t none (d.pin t k) := by
  have hrest := pin_frame d t k
  cases hh : d.handle? t with
  | some h =>
    cases hslot : h.slot with
    | some tid =>
      have hr := registry_pin_of_slot (k := k) hh hslot
      exact ho.turn_pinBy hm hh (fun i e => by rw [hslot] at e; cases e; rfl) (thread_pin_of_slot hh hslot)
        (by rw [hr]) (fun i => by rw [hr]) hrest
    | none =>
      have hr := registry_pin_of_no_slot (k := k) hh hslot
      refine ho.turn_pinBy (k := k) hm hh (show ∀ i, h.slot = some i → i = d.register.1 from fun i e => by
        rw [hslot] at e; cases e) (fun u => ?_)
        (by rw [hr, Registry.epoch_register]) (fun i => by rw [hr, Registry.slot_register]) hrest
      rw [thread_pin_of_no_slot hh hslot, Registry.epoch_register]
  | none =>
    have hr := registry_pin_of_gone (k := k) hh
    have hth := thread_pin_of_gone (k := k) hh
    have ht : (d.pin t k).thread t = { d.thread t with
        calls := ⟨k, .publish d.register.1 d.registry.epoch true⟩ :: (d.thread t).calls } := by
      rw [hth, if_pos rfl, Registry.epoch_register]; rfl
    exact {
      toDues := .of_eq nofun nofun (by rw [ht]; rfl) (by rw [ht]; rfl) hrest.1 fun n hn => by
        rw [ht] at hn
        simpa [Thread.todo, Phase.todo] using hn
      toWatch := .of_eq nofun (by rw [hr, Registry.epoch_register]) (fun i => by rw [hr, Registry.slot_register])
        (fun p hp => by rw [ht] at hp; exact hp)
        (fun i e b hp => by
          rw [ht] at hp
          cases hp
          rw [hr, Registry.epoch_register])
        fun p g => by rw [ht]; nofun
      others := fun u hu => by rw [hth, if_neg hu]
      story := hrest.2.2.trans (List.append_nil _).symm
      guards := ⟨hrest.2.1, by rw [ht]⟩ }

/-! ## Dropping guards and exiting -/

theorem isFreeing_of_mayCall (hm : d.mayCall t = true) {q : Phase ν} (hq : (d.thread t).point? = some q) :
    q.isFreeing = true := by
  rw [mayCall_eq] at hm
  obtain ⟨c, hc, rfl⟩ := Option.map_eq_some_iff.mp hq
  simpa [hc] using hm

/-- A guard is dropped; `hslots` is what is left to say about the slot it may have kept. -/
theorem turn_drop (hm : d.mayCall t = true) {g : Guard} (hg : g ∈ (d.thread t).guards) {tenure : Tenure ν}
    (hth : ∀ u, d'.thread u = if u = t then { (d.thread t).drop g with tenure } else d.thread u)
    (hbatch : (d'.thread t).batch = (d.thread t).batch) (hbags : (d'.thread t).bags = (d.thread t).bags)
    (hepoch : d'.registry.epoch = d.registry.epoch)
    (hslots : ∀ i, (d'.registry.slot i).epoch = (d.registry.slot i).epoch ∨
      (d'.registry.slot i).epoch = quiescent ∧ ∀ u b, (i, b) ∉ (d'.thread u).holds)
    (hrest : d'.orphans = d.orphans ∧ d'.nextGuard = d.nextGuard ∧ d'.story = d.story ++ [.unpinned g]) :
    Turn d t (some (.unpinned g)) d' := by
  have ht : d'.thread t = { (d.thread t).drop g with tenure } := by rw [hth, if_pos rfl]
  have hpoint : ∀ q, (d'.thread t).point? = some q → q.isFreeing = true := fun q hq =>
    isFreeing_of_mayCall hm (by rw [ht] at hq; exact hq)
  exact {
    toDues := .of_eq nofun nofun hbatch hbags hrest.1 fun n hn => by rw [ht] at hn; exact hn
    epoch := Or.inl ⟨hepoch, nofun⟩
    slots := fun i => (hslots i).imp_right Or.inl
    shields := fun p hp => by
      rw [ht] at hp
      refine Or.inl ((List.mem_append.mp hp).elim (List.mem_append_left _) fun hp => List.mem_append_right _ ?_)
      obtain ⟨g', hg', rfl⟩ := List.mem_map.mp hp
      exact List.mem_map.mpr ⟨g', List.mem_of_mem_erase hg', rfl⟩
    publishes := fun tid e b hp => by cases hpoint _ hp
    selects := fun p g hp => by cases hpoint _ hp
    others := fun u hu => by rw [hth, if_neg hu]
    story := hrest.2.2
    guards := ⟨hg, hrest.2.1, by rw [ht]; rfl⟩ }

/-- The slot of an id that has been released reads as quiescent, and the id is free. -/
theorem Owned.cleared_of_release (ho : d'.Owned) {r : Registry} {tid : Nat} (hs : r.HasSlot tid)
    (hreg : d'.registry = (r.unpin tid).release tid) (i : Nat) :
    (d'.registry.slot i).epoch = (r.slot i).epoch ∨
      (d'.registry.slot i).epoch = quiescent ∧ ∀ u b, (i, b) ∉ (d'.thread u).holds := by
  by_cases e : i = tid
  · subst e
    refine Or.inr ⟨?_, ho.not_holds_of_free (by rw [hreg]; exact List.mem_cons_self)⟩
    rw [hreg]
    show ((r.unpin i).slot i).epoch = _
    rw [Registry.unpin, Registry.slot_pin _ _ _ hs, if_pos rfl]
  · refine Or.inl ?_
    rw [hreg]
    show ((r.unpin tid).slot i).epoch = _
    rw [Registry.unpin, Registry.slot_pin _ _ _ hs, if_neg e]

theorem Owned.turn_unpin (ho : d.Owned) (hm : d.mayCall t = true) {g : Guard} (hg : g ∈ (d.thread t).guards) :
    Turn d t (some (.unpinned g)) (d.unpin t g) := by
  have ho' := ho.unpin hm hg
  have hrest := unpin_frame d t g
  have hheld : (g.tid, g.detached) ∈ (d.thread t).holds := List.mem_append_right _ (List.mem_map.mpr ⟨g, hg, rfl⟩)
  cases hd : g.detached with
  | true =>
    have hr := registry_unpin_of_detached (d := d) (t := t) hd
    have hth := thread_unpin_of_detached (d := d) (t := t) hd
    refine turn_drop hm hg hth (by rw [hth, if_pos rfl]; rfl) (by rw [hth, if_pos rfl]; rfl) (by rw [hr]; rfl) ?_ hrest
    exact ho'.cleared_of_release (ho.hasSlot (ho.claims_of_holds hheld)) hr
  | false =>
    rw [hd] at hheld
    cases hh : d.handle? t with
    | some h =>
      have hr := registry_unpin_of_live hd hh
      have hth := thread_unpin_of_live hd hh
      have hten : (d.thread t).tenure.handle? = some h := handle?_eq d t ▸ hh
      have hslot : h.slot = some g.tid := (ho.sound t).leased _ _ _ (lease_eq hh) hheld
      have hs : d.registry.HasSlot g.tid := ho.hasSlot (ho.claims_of_holds hheld)
      simp only [hslot] at hr
      refine turn_drop hm hg hth (by rw [hth, if_pos rfl, Thread.batch_of_handle hten]; rfl)
        (by rw [hth, if_pos rfl, Thread.bags_of_handle hten]; rfl) ?_ (fun i => ?_) hrest
      · rw [hr]; split <;> rfl
      · split at hr
        · rename_i h1
          by_cases e : i = g.tid
          · subst e
            refine Or.inr ⟨by rw [hr, Registry.unpin, Registry.slot_pin _ _ _ hs, if_pos rfl], fun u b hp => ?_⟩
            have ht : (d.unpin t g).thread t = { (d.thread t).drop g with tenure := .live { h with
              pinCount := h.pinCount - 1 } } := by rw [hth, if_pos rfl]
            have hl : ((d.unpin t g).thread t).lease = some (some g.tid, 0) := by
              rw [ht, ← hslot, show (0 : Nat) = h.pinCount - 1 by omega]
              exact Thread.lease_of_handle (h := { h with pinCount := h.pinCount - 1 }) rfl
            obtain ⟨rfl, rfl⟩ := ho'.excl t u g.tid false b ((Thread.claims_of_lease hl _).mpr rfl)
              (ho'.claims_of_holds hp)
            have := (ho'.sound t).counted _ _ hl
            have := Thread.attached_pos hp
            omega
          · exact Or.inl (by rw [hr, Registry.unpin, Registry.slot_pin _ _ _ hs, if_neg e])
        · exact Or.inl (by rw [hr])
    | none =>
      have hr := registry_unpin_of_gone hd hh
      have hth := thread_unpin_of_gone hd hh
      have hs : d.registry.HasSlot g.tid := ho.hasSlot (ho.claims_of_holds hheld)
      refine turn_drop hm hg hth (by rw [hth, if_pos rfl]; rfl) (by rw [hth, if_pos rfl]; rfl) ?_ (fun i => ?_) hrest
      · rw [hr]; dsimp only; split <;> rfl
      · dsimp only at hr
        split at hr
        · have hs' := (Registry.hasSlot_modifySlot d.registry g.tid g.tid fun s =>
            { s with stray := (d.registry.slot g.tid).stray - 1 }).mpr hs
          rw [← Registry.epoch_setStray g.tid i ((d.registry.slot g.tid).stray - 1) hs]
          exact ho'.cleared_of_release hs' hr i
        · exact Or.inl (by rw [hr, Registry.epoch_setStray _ _ _ hs])

theorem turn_exit_of_not_live (hcalls : (d.thread t).calls = []) (hh : ∀ h, (d.thread t).tenure ≠ .live h) :
    Turn d t none (d.exit t) := by
  have hpoint : (d.thread t).point? = none := by rw [Thread.point?, hcalls]; rfl
  rw [exit_of_not_live hh]
  exact {
    toDues := .of_eq nofun nofun rfl rfl rfl fun _ hn => hn
    toWatch := .of_eq nofun rfl (fun _ => rfl) (fun _ hp => hp) (fun _ _ _ hp => by rw [hpoint] at hp; cases hp)
      (fun _ _ hp => by rw [hpoint] at hp; cases hp)
    others := fun _ _ => rfl
    story := (List.append_nil _).symm
    guards := ⟨rfl, rfl⟩ }

theorem Owned.turn_exit_of_live (ho : d.Owned) (hcalls : (d.thread t).calls = [])
    (hh : (d.thread t).tenure = .live h) : Turn d t none (d.exit t) := by
  have ho' := ho.exit hcalls
  have hr := registry_exit_of_live hh
  have hth := thread_exit_of_live hh
  have hrest := exit_frame_of_live hh
  have hten : (d.thread t).tenure.handle? = some h := by rw [hh]; rfl
  have ht : (d.exit t).thread t = { d.thread t with tenure := .gone } := by rw [hth, if_pos rfl]
  have hnil : ((d.exit t).thread t).bags = [] ∧ ((d.exit t).thread t).batch = [] := by
    rw [ht]
    exact ⟨rfl, rfl⟩
  refine {
    retires := nofun
    frees := nofun
    batch := fun n hn => by rw [hnil.2] at hn; cases hn
    pool := fun b hb => ?_
    todo := fun n hn => by rw [ht] at hn; exact Or.inl hn
    epoch := Or.inl ⟨?_, nofun⟩
    slots := fun i => ?_
    shields := fun p hp => by rw [ht] at hp; exact Or.inl hp
    publishes := fun _ _ _ hp => by rw [ht] at hp; simp [Thread.point?, hcalls] at hp
    selects := fun _ _ hp => by rw [ht] at hp; simp [Thread.point?, hcalls] at hp
    others := fun u hu => by rw [hth, if_neg hu]
    story := hrest.2.2.trans (List.append_nil _).symm
    guards := ⟨hrest.2.1, by rw [ht]⟩ }
  · rw [pool, hnil.1, hrest.1, List.nil_append] at hb
    rw [pool, Thread.bags_of_handle hten, Thread.batch_of_handle hten]
    rcases List.mem_append.mp hb with hb | hb
    · exact Or.inl (List.mem_append_right _ hb)
    · rcases Handle.mem_bags_sealBatch hb with hb | ⟨he, hn⟩
      · exact Or.inl (List.mem_append_left _ hb)
      · exact Or.inr ⟨he, fun n hn' => Or.inl (hn ▸ hn')⟩
  · rw [hr]
    cases h.slot with
    | none => rfl
    | some tid => dsimp only; split <;> rfl
  · cases hslot : h.slot with
    | none => simp only [hslot] at hr; exact Or.inl (by rw [hr])
    | some tid =>
      have hclaims := (Thread.claims_of_lease (Thread.lease_of_handle hten) tid).mpr hslot
      have hs : d.registry.HasSlot tid := ho.hasSlot hclaims
      simp only [hslot] at hr
      split at hr
      · exact (ho'.cleared_of_release hs hr i).imp_right Or.inl
      · exact Or.inl (by rw [hr, Registry.epoch_setStray _ _ _ hs])

theorem Owned.turn_exit (ho : d.Owned) (hcalls : (d.thread t).calls = []) : Turn d t none (d.exit t) := by
  cases hh : (d.thread t).tenure with
  | live h => exact ho.turn_exit_of_live hcalls hh
  | unused => exact turn_exit_of_not_live hcalls fun h e => by rw [hh] at e; cases e
  | gone => exact turn_exit_of_not_live hcalls fun h e => by rw [hh] at e; cases e

/-! ## Retiring, flushing, asking -/

theorem mem_story {y : Notice ν} (hy : y.isAside = false) : y ∈ d.story ↔ y ∈ d.trace := by
  simp [story, hy]

/-- A call that makes no guard is opened. -/
theorem turn_opened {q : Phase ν} {p : Purpose} {tenure : Tenure ν} (hp : p.pin? = none)
    (hq : q = .advance p ∨ q = .free p [] 0) (hx : x = none ∨ ∃ n, x = some (.retired n) ∧ .retired n ∉ d.story)
    (hth : ∀ u, d'.thread u = if u = t then
      { d.thread t with tenure, calls := ⟨k, q⟩ :: (d.thread t).calls } else d.thread u)
    (hbatch : ∀ n ∈ (d'.thread t).batch, n ∈ (d.thread t).batch ∨ x = some (.retired n))
    (hpool : ∀ b ∈ d'.pool t, b ∈ d.pool t ∨
      b.epoch = d.registry.epoch ∧ ∀ n ∈ b.nodes, n ∈ (d.thread t).batch ∨ x = some (.retired n))
    (hr : d'.registry = d.registry) (hng : d'.nextGuard = d.nextGuard) (hst : d'.story = d.story ++ x.toList) :
    Turn d t x d' := by
  have ht : d'.thread t = { d.thread t with tenure, calls := ⟨k, q⟩ :: (d.thread t).calls } := by rw [hth, if_pos rfl]
  have hq' : q.todo = [] ∧ q.shield? = none := by
    rcases hq with rfl | rfl
    · exact ⟨rfl, hp⟩
    · exact ⟨rfl, hp⟩
  have hpoint : (d'.thread t).point? = some q := by rw [ht]; rfl
  have hnot : (∀ n, x ≠ some (.freed n)) ∧ (∀ e, x ≠ some (.advanced e)) := by
    rcases hx with rfl | ⟨n, rfl, -⟩
    · exact ⟨nofun, nofun⟩
    · exact ⟨nofun, nofun⟩
  refine {
    retires := fun n e => ?_
    frees := fun n e => absurd e (hnot.1 n)
    batch := hbatch
    pool := hpool
    todo := fun n hn => ?_
    toWatch := .of_eq hnot.2 (by rw [hr]) (fun _ => by rw [hr]) (fun p' hp' => ?_) (fun _ _ _ h => ?_) fun _ _ h => ?_
    others := fun u hu => by rw [hth, if_neg hu]
    story := hst
    guards := ?_ }
  · rcases hx with rfl | ⟨m, rfl, hm⟩
    · cases e
    · cases e; exact hm
  · rw [ht] at hn
    simp only [Thread.todo, List.flatMap_cons, hq'.1, List.nil_append] at hn
    exact Or.inl hn
  · rw [ht] at hp'
    simp only [Thread.shields, List.filterMap_cons, hq'.2] at hp'
    exact hp'
  · rw [hpoint] at h
    rcases hq with rfl | rfl <;> cases h
  · rw [hpoint] at h
    rcases hq with rfl | rfl <;> cases h
  · rcases hx with rfl | ⟨m, rfl, hm⟩
    · exact ⟨hng, by rw [ht]⟩
    · exact ⟨hng, by rw [ht]⟩

theorem turn_retire {n : ν} (hn : ¬ d.wasRetired n) (k : κ) : Turn d t (some (.retired n)) (d.retire t n k) := by
  have hx : .retired n ∉ d.story := fun h => hn ((mem_story rfl).mp h)
  cases hh : d.handle? t with
  | some h =>
    have hten : (d.thread t).tenure.handle? = some h := handle?_eq d t ▸ hh
    have hth := thread_retire_of_handle n hh (k := k)
    obtain ⟨hr, ho, hng, hst⟩ := retire_frame_of_handle n hh (k := k)
    have hold : ∀ m ∈ (h.retire n).batch, m ∈ h.batch ∨ some (.retired n) = some (.retired m : Notice ν) := by
      intro m hm
      rcases List.mem_cons.mp hm with rfl | hm
      · exact Or.inr rfl
      · exact Or.inl hm
    refine turn_opened (p := .retire) rfl ?_ (Or.inr ⟨n, rfl, hx⟩) hth (fun m hm => ?_) (fun b hb => ?_) hr hng hst
    · split
      · exact Or.inl rfl
      · exact Or.inr rfl
    · rw [hth, if_pos rfl, Thread.batch_of_handle rfl] at hm
      rw [Thread.batch_of_handle hten]
      split at hm
      · exact hold m (Handle.mem_batch_sealBatch hm)
      · exact hold m hm
    · rw [pool, hth, if_pos rfl, Thread.bags_of_handle rfl, ho] at hb
      rw [pool, Thread.bags_of_handle hten, Thread.batch_of_handle hten]
      rcases List.mem_append.mp hb with hb | hb
      · split at hb
        · rcases Handle.mem_bags_sealBatch hb with hb | ⟨he, hn⟩
          · exact Or.inl (List.mem_append_left _ hb)
          · exact Or.inr ⟨he, fun m hm => hold m (hn ▸ hm)⟩
        · exact Or.inl (List.mem_append_left _ hb)
      · exact Or.inl (List.mem_append_right _ hb)
  | none =>
    have hth := thread_retire_of_gone n hh (k := k)
    obtain ⟨hr, ho, hng, hst⟩ := retire_frame_of_gone n hh (k := k)
    refine turn_opened (p := .retire) rfl (Or.inr rfl) (Or.inr ⟨n, rfl, hx⟩) hth (fun m hm => ?_) (fun b hb => ?_)
      hr hng hst
    · rw [hth, if_pos rfl] at hm
      exact Or.inl hm
    · rw [pool, hth, if_pos rfl, ho, ← List.append_assoc] at hb
      rcases List.mem_append.mp hb with hb | hb
      · exact Or.inl hb
      · cases List.mem_singleton.mp hb
        refine Or.inr ⟨rfl, fun m hm => Or.inr ?_⟩
        cases List.mem_singleton.mp hm
        rfl

theorem turn_flush (k : κ) : Turn d t none (d.flush t k) := by
  obtain ⟨hr, ho, hng, hst⟩ := flush_frame d t k
  rw [← List.append_nil d.story] at hst
  cases hh : d.handle? t with
  | some h =>
    have hten : (d.thread t).tenure.handle? = some h := handle?_eq d t ▸ hh
    have hth := thread_flush_of_handle hh (k := k)
    refine turn_opened (p := .flush) rfl (Or.inl rfl) (Or.inl rfl) hth (fun m hm => ?_) (fun b hb => ?_) hr hng hst
    · rw [hth, if_pos rfl, Thread.batch_of_handle rfl] at hm
      rw [Thread.batch_of_handle hten]
      exact Or.inl (Handle.mem_batch_sealBatch hm)
    · rw [pool, hth, if_pos rfl, Thread.bags_of_handle rfl, ho] at hb
      rw [pool, Thread.bags_of_handle hten, Thread.batch_of_handle hten]
      rcases List.mem_append.mp hb with hb | hb
      · rcases Handle.mem_bags_sealBatch hb with hb | ⟨he, hn⟩
        · exact Or.inl (List.mem_append_left _ hb)
        · exact Or.inr ⟨he, fun m hm => Or.inl (hn ▸ hm)⟩
      · exact Or.inl (List.mem_append_right _ hb)
  | none =>
    have hth := thread_flush_of_gone hh (k := k)
    refine turn_opened (p := .flush) rfl (Or.inl rfl) (Or.inl rfl) hth (fun m hm => ?_) (fun b hb => ?_) hr hng hst
    · rw [hth, if_pos rfl] at hm
      exact Or.inl hm
    · rw [pool, hth, if_pos rfl, ho] at hb
      exact Or.inl hb

theorem turn_pending (hm : d.mayCall t = true) : Turn d t none (d.pending t).2 := by
  have hpoint : ∀ q, (d.thread t).point? = some q → q.isFreeing = true := fun q hq => isFreeing_of_mayCall hm hq
  obtain ⟨hr, ho, hng, hst⟩ := pending_frame d t
  rw [← List.append_nil d.story] at hst
  cases hh : d.handle? t with
  | some h =>
    have hten : (d.thread t).tenure.handle? = some h := handle?_eq d t ▸ hh
    have hth := thread_pending_of_handle hh
    have ht : (d.pending t).2.thread t = { d.thread t with tenure := .live h } := by rw [hth, if_pos rfl]
    exact {
      toDues := .of_eq nofun nofun (by rw [ht, Thread.batch_of_handle hten]; rfl)
        (by rw [ht, Thread.bags_of_handle hten]; rfl) ho fun n hn => by rw [ht] at hn; exact hn
      toWatch := .of_eq nofun (by rw [hr]) (fun _ => by rw [hr]) (fun p hp => by rw [ht] at hp; exact hp)
        (fun _ _ _ hp => by rw [ht] at hp; cases hpoint _ hp) fun _ _ hp => by rw [ht] at hp; cases hpoint _ hp
      others := fun u hu => by rw [hth, if_neg hu]
      story := hst
      guards := ⟨hng, by rw [ht]⟩ }
  | none =>
    rw [pending_of_gone hh]
    exact {
      toDues := .of_eq nofun nofun rfl rfl rfl fun _ hn => hn
      toWatch := .of_eq nofun rfl (fun _ => rfl) (fun _ hp => hp) (fun _ _ _ hp => by cases hpoint _ hp)
        fun _ _ hp => by cases hpoint _ hp
      others := fun _ _ => rfl
      story := (List.append_nil _).symm
      guards := ⟨rfl, rfl⟩ }

/-! ## Steps of a call -/

section

variable {c : Call ν κ} {rest : List (Call ν κ)} {tid : Nat} {e : Epoch} {b : Bool}

theorem mem_todo_turned {th : Thread ν κ} {a : Tenure ν} {l : List Guard} {q : Phase ν} {n : ν}
    (hc : th.calls = c :: rest)
    (hn : n ∈ Thread.todo ({ th with tenure := a, guards := l, calls := { c with phase := q } :: rest } : Thread ν κ)) :
    n ∈ q.todo ∨ n ∈ th.todo := by
  simp only [Thread.todo, List.flatMap_cons, hc] at hn ⊢
  exact (List.mem_append.mp hn).imp id (List.mem_append_right _)

theorem mem_shields_turned {th : Thread ν κ} {a : Tenure ν} {q : Phase ν} {p : Nat × Bool}
    (hc : th.calls = c :: rest)
    (hp : p ∈ Thread.shields ({ th with tenure := a, calls := { c with phase := q } :: rest } : Thread ν κ)) :
    q.shield? = some p ∨ p ∈ th.shields := by
  have hrest : p ∈ rest.filterMap (·.phase.shield?) → p ∈ th.shields := fun hp =>
    List.mem_append_left _ (by rw [hc, List.filterMap_cons]; split <;> simp_all)
  rcases List.mem_append.mp hp with hp | hp
  · rw [List.filterMap_cons] at hp
    split at hp
    · exact Or.inr (hrest hp)
    · rename_i s hs
      rcases List.mem_cons.mp hp with rfl | hp
      · exact Or.inl hs
      · exact Or.inr (hrest hp)
  · exact Or.inr (List.mem_append_right _ hp)

theorem mem_shields_of_point {th : Thread ν κ} {p : Nat × Bool} (hc : th.calls = c :: rest)
    (hs : c.phase.shield? = some p) : p ∈ th.shields :=
  List.mem_append_left _ (List.mem_filterMap.mpr ⟨c, by rw [hc]; exact List.mem_cons_self, hs⟩)

theorem Owned.hasSlot_of_publish (ho : d.Owned) (hc : (d.thread t).calls = c :: rest)
    (hp : c.phase = .publish tid e b) : d.registry.HasSlot tid := by
  refine ho.hasSlot (t := t) (b := b) (ho.claims_of_holds (List.mem_append_left _ (List.mem_filterMap.mpr ⟨c, ?_, ?_⟩)))
  · rw [hc]; exact List.mem_cons_self
  · rw [hp]; rfl

theorem Owned.turn_published (ho : d.Owned) (hc : (d.thread t).calls = c :: rest) (hp : c.phase = .publish tid e b)
    {q : Phase ν} (hq : q = .advance (.pin tid b) ∨ q = .free (.pin tid b) [] 0) {tenure : Tenure ν}
    (hth : ∀ u, (d.publish t tid e b).thread u =
      if u = t then { d.thread t with tenure, calls := { c with phase := q } :: rest } else d.thread u)
    (hbatch : ((d.publish t tid e b).thread t).batch = (d.thread t).batch)
    (hbags : ((d.publish t tid e b).thread t).bags = (d.thread t).bags) : Turn d t none (d.publish t tid e b) := by
  obtain ⟨hr, horphans, hng, hst⟩ := publish_frame d t tid e b
  have ht : (d.publish t tid e b).thread t = { d.thread t with tenure, calls := { c with phase := q } :: rest } := by
    rw [hth, if_pos rfl]
  have hq' : q.todo = [] ∧ q.shield? = some (tid, b) := by
    rcases hq with rfl | rfl
    · exact ⟨rfl, rfl⟩
    · exact ⟨rfl, rfl⟩
  have hpoint : (d.thread t).point? = some (.publish tid e b) := hp ▸ Thread.point?_of_calls hc
  have hpoint' : ((d.publish t tid e b).thread t).point? = some q := by rw [ht]; rfl
  have hslot : ∀ i, (d.publish t tid e b).registry.slot i =
      if i = tid then { d.registry.slot tid with epoch := e } else d.registry.slot i := fun i => by
    rw [hr]; exact Registry.slot_pin _ _ _ (ho.hasSlot_of_publish hc hp)
  refine {
    toDues := .of_eq nofun nofun hbatch hbags horphans fun n hn => ?_
    epoch := Or.inl ⟨by rw [hr]; rfl, nofun⟩
    slots := fun i => ?_
    shields := fun p hp => ?_
    publishes := fun _ _ _ h => ?_
    selects := fun _ _ h => ?_
    others := fun u hu => by rw [hth, if_neg hu]
    story := hst.trans (List.append_nil _).symm
    guards := ⟨hng, by rw [ht]⟩ }
  · rw [ht] at hn
    exact (mem_todo_turned hc hn).resolve_left (by rw [hq'.1]; exact List.not_mem_nil)
  · by_cases hi : i = tid
    · subst hi
      exact Or.inr (Or.inr ⟨b, by rw [hslot, if_pos rfl]; exact hpoint⟩)
    · exact Or.inl (by rw [hslot, if_neg hi])
  · rw [ht] at hp
    rcases mem_shields_turned hc hp with h | h
    · rw [hq'.2] at h
      cases h
      exact Or.inr (by rw [hslot, if_pos rfl]; exact hpoint)
    · exact Or.inl h
  · rw [hpoint'] at h
    rcases hq with rfl | rfl <;> cases h
  · rw [hpoint'] at h
    rcases hq with rfl | rfl <;> cases h

theorem Owned.turn_publish (ho : d.Owned) (hc : (d.thread t).calls = c :: rest) (hp : c.phase = .publish tid e b) :
    Turn d t none (d.publish t tid e b) := by
  cases b with
  | true =>
    have hth := thread_publish_of_detached hc tid e
    exact ho.turn_published hc hp (Or.inr rfl) hth (by rw [hth, if_pos rfl]; rfl) (by rw [hth, if_pos rfl]; rfl)
  | false =>
    cases hh : d.handle? t with
    | some h =>
      have hth := thread_publish_of_handle hc hh tid e
      have hten : (d.thread t).tenure.handle? = some h := handle?_eq d t ▸ hh
      refine ho.turn_published hc hp ?_ hth (by rw [hth, if_pos rfl, Thread.batch_of_handle hten]; rfl)
        (by rw [hth, if_pos rfl, Thread.bags_of_handle hten]; rfl)
      split
      · exact Or.inl rfl
      · exact Or.inr rfl
    | none =>
      have hth := thread_publish_of_gone hc hh tid e
      exact ho.turn_published hc hp (Or.inr rfl) hth (by rw [hth, if_pos rfl]; rfl) (by rw [hth, if_pos rfl]; rfl)

theorem turn_advance {p : Purpose} (hc : (d.thread t).calls = c :: rest) (hp : c.phase = .advance p) :
    Turn d t (if d.registry.allObserved then some (.advanced d.registry.advanced) else none) (d.advance t p) := by
  obtain ⟨hr, horphans, hng, hst⟩ := advance_frame d t p
  have hth := thread_advance hc p
  have ht : (d.advance t p).thread t =
      { d.thread t with calls := { c with phase := .select p d.registry.advanced } :: rest } := by rw [hth, if_pos rfl]
  have hpoint : ((d.advance t p).thread t).point? = some (.select p d.registry.advanced) := by rw [ht]; rfl
  have hadv : d.registry.advanced = d.registry.epoch ↔ d.registry.allObserved = false := by
    unfold Registry.advanced
    cases d.registry.allObserved <;> simp
  refine {
    toDues := .of_eq (fun n => ?_) (fun n => ?_) (by rw [ht]; rfl) (by rw [ht]; rfl) horphans fun n hn => ?_
    epoch := ?_
    slots := fun i => Or.inl (by rw [hr]; rfl)
    shields := fun p' hp' => ?_
    publishes := fun _ _ _ h => by rw [hpoint] at h; cases h
    selects := fun _ _ h => by rw [hpoint] at h; cases h; rw [hr]
    others := fun u hu => by rw [hth, if_neg hu]
    story := ?_
    guards := ?_ }
  · split <;> nofun
  · split <;> nofun
  · rw [ht] at hn
    exact (mem_todo_turned (a := (d.thread t).tenure) (l := (d.thread t).guards) hc hn).resolve_left
      List.not_mem_nil
  · cases ho : d.registry.allObserved with
    | false => exact Or.inl ⟨by rw [hr]; exact hadv.mpr ho, nofun⟩
    | true => exact Or.inr ⟨rfl, by rw [hr]; simp [Registry.advanced, ho], by rw [hr]; rfl, fun _ => by rw [hr]; rfl⟩
  · rw [ht] at hp'
    rcases mem_shields_turned (a := (d.thread t).tenure) hc hp' with h | h
    · exact Or.inl (mem_shields_of_point hc (by rw [hp]; exact h))
    · exact Or.inl h
  · rw [hst]
    cases ho : d.registry.allObserved with
    | false => rw [if_pos (hadv.mpr ho)]; rfl
    | true => rw [if_neg fun h => by rw [hadv, ho] at h; cases h]; rfl
  · split
    · exact ⟨hng, by rw [ht]⟩
    · exact ⟨hng, by rw [ht]⟩

theorem turn_select {p : Purpose} {g : Epoch} (hc : (d.thread t).calls = c :: rest) (hp : c.phase = .select p g) :
    Turn d t none (d.select t p g) := by
  obtain ⟨hr, hng, hst⟩ := select_frame d t p g
  have hpoint : (d.thread t).point? = some (.select p g) := hp ▸ Thread.point?_of_calls hc
  -- whether the thread has a handle decides only where the bags that stay are kept
  have key : ∃ tenure, (∀ u, (d.select t p g).thread u = if u = t then { d.thread t with
        tenure, calls := { c with phase := .free p (Bag.contents ((d.pool t).filter (·.isExpired g))) 0 } :: rest }
        else d.thread u) ∧ ((d.select t p g).thread t).batch = (d.thread t).batch ∧
      (d.select t p g).pool t = (d.pool t).filter (!·.isExpired g) := by
    cases hh : d.handle? t with
    | some h =>
      have hth := thread_select_of_handle hc hh p g
      have hten : (d.thread t).tenure.handle? = some h := handle?_eq d t ▸ hh
      refine ⟨_, hth, by rw [hth, if_pos rfl, Thread.batch_of_handle hten]; rfl, ?_⟩
      rw [pool, hth, if_pos rfl, orphans_select_of_handle hh, List.append_nil]
      rfl
    | none =>
      have hth := thread_select_of_gone hc hh p g
      have hten : (d.thread t).tenure.handle? = none := handle?_eq d t ▸ hh
      refine ⟨_, hth, by rw [hth, if_pos rfl]; rfl, ?_⟩
      rw [pool, hth, if_pos rfl, orphans_select_of_gone hh]
      show (d.thread t).bags ++ _ = _
      rw [Thread.bags_of_gone hten, List.nil_append]
  obtain ⟨tenure, hth, hbatch, hpool⟩ := key
  have ht := hth t
  rw [if_pos rfl] at ht
  refine {
    retires := fun _ e => by cases e
    frees := fun _ e => by cases e
    batch := fun n hn => Or.inl (hbatch ▸ hn)
    pool := fun b hb => Or.inl (List.mem_filter.mp (hpool ▸ hb)).1
    todo := fun n hn => ?_
    toWatch := .of_eq (fun _ e => by cases e) (by rw [hr]) (fun _ => by rw [hr]) (fun p' hp' => ?_)
      (fun _ _ _ h => by rw [ht] at h; cases h) fun _ _ h => by rw [ht] at h; cases h
    others := fun u hu => by rw [hth, if_neg hu]
    story := hst.trans (List.append_nil _).symm
    guards := ⟨hng, by rw [ht]⟩ }
  · rw [ht] at hn
    rcases mem_todo_turned hc hn with h | h
    · obtain ⟨b, hb, hnb⟩ := List.mem_flatMap.mp h
      obtain ⟨hb, he⟩ := List.mem_filter.mp hb
      exact Or.inr ⟨p, g, hpoint, b, hb, he, hnb⟩
    · exact Or.inl h
  · rw [ht] at hp'
    rcases mem_shields_turned hc hp' with h | h
    · exact mem_shields_of_point hc (by rw [hp]; exact h)
    · exact h

theorem turn_free {p : Purpose} {n : ν} {todo : List ν} {freed : Nat} (hc : (d.thread t).calls = c :: rest)
    (hp : c.phase = .free p (n :: todo) freed) :
    Turn d t (some (.freed n)) ((d.setPhase t (.free p todo (freed + 1))).note (.freed n)) := by
  have hth := thread_free (d := d) hc (.free p todo (freed + 1)) n
  have ht := hth t
  rw [if_pos rfl] at ht
  have htodo : ∀ m ∈ n :: todo, m ∈ (d.thread t).todo := fun m hm =>
    List.mem_flatMap.mpr ⟨c, by rw [hc]; exact List.mem_cons_self, by rw [hp]; exact hm⟩
  refine {
    retires := nofun
    frees := fun m hm => by cases hm; exact htodo n List.mem_cons_self
    batch := fun m hm => by rw [ht] at hm; exact Or.inl hm
    pool := fun b hb => by rw [pool, ht] at hb; exact Or.inl hb
    todo := fun m hm => ?_
    toWatch := .of_eq nofun rfl (fun _ => rfl) (fun p' hp' => ?_)
      (fun _ _ _ h => by rw [ht] at h; cases h) fun _ _ h => by rw [ht] at h; cases h
    others := fun u hu => by rw [hth, if_neg hu]
    story := by rw [story_note, story_setPhase]; rfl
    guards := ⟨rfl, by rw [ht]⟩ }
  · rw [ht] at hm
    rcases mem_todo_turned (a := (d.thread t).tenure) (l := (d.thread t).guards) hc hm with h | h
    · exact Or.inl (htodo m (List.mem_cons_of_mem _ h))
    · exact Or.inl h
  · rw [ht] at hp'
    rcases mem_shields_turned (a := (d.thread t).tenure) hc hp' with h | h
    · exact mem_shields_of_point hc (by rw [hp]; exact h)
    · exact h

/-- The innermost call returns. The one below it, if any, was destroying nodes. -/
theorem Owned.isFreeing_of_rest (ho : d.Owned) (hc : (d.thread t).calls = c :: rest) {x : Thread ν κ}
    (hth : x.calls = rest) {q : Phase ν} (hq : x.point? = some q) : q.isFreeing = true := by
  obtain ⟨c', hc', rfl⟩ := Option.map_eq_some_iff.mp hq
  rw [hth] at hc'
  have houter := (ho.sound t).outer
  rw [hc] at houter
  exact houter c' (List.mem_of_mem_head? hc')

theorem Owned.turn_answer_pin (ho : d.Owned) (hc : (d.thread t).calls = c :: rest) {freed : Nat}
    (hp : c.phase = .free (.pin tid b) [] freed) (k : κ) :
    Turn d t (some (.pinned ⟨d.nextGuard, tid, b⟩)) (d.answer t k (.pin tid b) freed).1 := by
  obtain ⟨hr, horphans, hng, hst⟩ := answer_pin_frame d t k freed tid b
  have hth := thread_answer_pin d t k freed tid b
  have ht := hth t
  rw [if_pos rfl, hc, List.tail_cons] at ht
  have hpoint := fun q => ho.isFreeing_of_rest hc (x := (d.answer t k (.pin tid b) freed).1.thread t) (q := q)
    (by rw [ht])
  refine {
    toDues := .of_eq nofun nofun (by rw [ht]; rfl) (by rw [ht]; rfl) horphans fun n hn => ?_
    toWatch := .of_eq nofun (by rw [hr]) (fun _ => by rw [hr]) (fun p' hp' => ?_)
      (fun _ _ _ h => by cases hpoint _ h) fun _ _ h => by cases hpoint _ h
    others := fun u hu => by rw [hth, if_neg hu]
    story := hst
    guards := ⟨rfl, hng, by rw [ht]⟩ }
  · rw [ht] at hn
    simp only [Thread.todo, hc, List.flatMap_cons, hp] at hn ⊢
    exact hn
  · rw [ht] at hp'
    rcases List.mem_append.mp hp' with h | h
    · refine List.mem_append_left _ ?_
      rw [hc, List.filterMap_cons, hp]
      exact List.mem_cons_of_mem _ h
    · rcases List.mem_cons.mp h with rfl | h
      · exact mem_shields_of_point hc (by rw [hp]; rfl)
      · exact List.mem_append_right _ h

theorem Owned.turn_answer (ho : d.Owned) (hc : (d.thread t).calls = c :: rest) {p : Purpose} (hp' : p.pin? = none)
    {freed : Nat} (hp : c.phase = .free p [] freed) (k : κ) : Turn d t none (d.answer t k p freed).1 := by
  obtain ⟨hr, horphans, hng, hst⟩ := answer_frame_of_pin?_none d t k freed hp'
  have hth := thread_answer_of_pin?_none d t k freed hp'
  have ht := hth t
  rw [if_pos rfl, hc, List.tail_cons] at ht
  have hpoint := fun q => ho.isFreeing_of_rest hc (x := (d.answer t k p freed).1.thread t) (q := q) (by rw [ht])
  refine {
    toDues := .of_eq nofun nofun (by rw [ht]; rfl) (by rw [ht]; rfl) horphans fun n hn => ?_
    toWatch := .of_eq nofun (by rw [hr]) (fun _ => by rw [hr]) (fun p' hp' => ?_)
      (fun _ _ _ h => by cases hpoint _ h) fun _ _ h => by cases hpoint _ h
    others := fun u hu => by rw [hth, if_neg hu]
    story := hst.trans (List.append_nil _).symm
    guards := ⟨hng, by rw [ht]⟩ }
  · rw [ht] at hn
    simp only [Thread.todo, hc, List.flatMap_cons, hp] at hn ⊢
    exact hn
  · rw [ht] at hp'
    rcases List.mem_append.mp hp' with h | h
    · refine List.mem_append_left _ ?_
      rw [hc, List.filterMap_cons]
      split <;> simp_all
    · exact List.mem_append_right _ h

end

theorem Owned.turn_step (ho : d.Owned) (hm : (d.thread t).calls ≠ []) : ∃ x, Turn d t x (d.step t).1 := by
  obtain ⟨c, rest, hc⟩ := List.exists_cons_of_ne_nil hm
  rw [step_eq hc]
  rcases hp : c.phase with ⟨tid, e, b⟩ | p | ⟨p, g⟩ | ⟨p, todo, freed⟩
  · exact ⟨_, ho.turn_publish hc hp⟩
  · exact ⟨_, turn_advance hc hp⟩
  · exact ⟨_, turn_select hc hp⟩
  · cases todo with
    | cons n todo => exact ⟨_, turn_free hc hp⟩
    | nil =>
      cases p with
      | pin tid b => exact ⟨_, ho.turn_answer_pin hc hp _⟩
      | retire => exact ⟨_, ho.turn_answer hc rfl hp _⟩
      | flush => exact ⟨_, ho.turn_answer hc rfl hp _⟩

theorem Owned.turn (ho : d.Owned) {m : Move ν κ} (hm : d.may t m) : ∃ x, Turn d t x (d.move t m) := by
  cases m with
  | pin k => exact ⟨_, ho.turn_pin hm k⟩
  | unpin g => exact ⟨_, ho.turn_unpin hm.1 hm.2⟩
  | retire n k => exact ⟨_, turn_retire hm.2 k⟩
  | flush k => exact ⟨_, turn_flush k⟩
  | pending => exact ⟨_, turn_pending hm⟩
  | exit => exact ⟨_, ho.turn_exit hm⟩
  | step => exact ho.turn_step hm

end

end Domain

end EpochQueue.Reclaim
