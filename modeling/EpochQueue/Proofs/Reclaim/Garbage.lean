/-
  EpochQueue.Proofs.Reclaim.Garbage — where retired nodes wait, and which guards they wait for.

  A retired node is in a batch, in a bag (of a thread or an orphan), taken out by a collection,
  or destroyed (`Accounted`); a bag's stamp is never ahead of the global epoch (`Stamped`).
  `Under d g n` says that the node was retired while the guard was alive. What is retired under
  a live guard sits in bags stamped no earlier than the guard's slot, and no collection has
  taken it out (`Shielded`): the global epoch is at most one ahead of the slot, and a bag expires
  two epochs after its stamp.
-/

import EpochQueue.Proofs.Apart
import EpochQueue.Proofs.Reclaim.Epochs

namespace EpochQueue.Reclaim

variable {ν κ : Type}

namespace Domain

variable {d d' : Domain ν κ} {t : Nat} {x : Option (Notice ν)}

/-! ## Live guards -/

def Alive (d : Domain ν κ) (g : Guard) : Prop := ∃ t, g ∈ (d.thread t).guards

theorem not_alive_empty (g : Guard) : ¬ ({} : Domain ν κ).Alive g := fun ⟨_, h⟩ => nomatch h

/-- The story knows which guards are alive, and no guard is made twice. -/
structure Recorded (d : Domain ν κ) : Prop where
  alive : ∀ g, d.Alive g ↔ .pinned g ∈ d.story ∧ .unpinned g ∉ d.story
  dropped : ∀ g, .unpinned g ∈ d.story → .pinned g ∈ d.story
  serial : ∀ g, .pinned g ∈ d.story → g.serial < d.nextGuard
  apart : Apart fun t => (d.thread t).guards

theorem recorded_empty : ({} : Domain ν κ).Recorded where
  alive := fun g => ⟨fun h => absurd h (not_alive_empty g), fun h => nomatch h.1⟩
  dropped := nofun
  serial := nofun
  apart := .empty

theorem Turn.guards_cases (h : Turn d t x d') :
    (∃ g, x = some (.pinned g) ∧ g.serial = d.nextGuard ∧ d'.nextGuard = d.nextGuard + 1 ∧
      (d'.thread t).guards = g :: (d.thread t).guards) ∨
    (∃ g, x = some (.unpinned g) ∧ g ∈ (d.thread t).guards ∧ d'.nextGuard = d.nextGuard ∧
      (d'.thread t).guards = (d.thread t).guards.erase g) ∨
    (∀ g, x ≠ some (.pinned g) ∧ x ≠ some (.unpinned g)) ∧ d'.nextGuard = d.nextGuard ∧
      (d'.thread t).guards = (d.thread t).guards := by
  have hg := h.guards
  cases x with
  | none => exact Or.inr (Or.inr ⟨fun g => ⟨nofun, nofun⟩, hg⟩)
  | some y =>
    cases y with
    | pinned g => exact Or.inl ⟨g, rfl, hg⟩
    | unpinned g => exact Or.inr (Or.inl ⟨g, rfl, hg⟩)
    | _ => exact Or.inr (Or.inr ⟨fun g => ⟨nofun, nofun⟩, hg⟩)

theorem alive_iff_of_others (h : Turn d t x d') (g : Guard) :
    d'.Alive g ↔ g ∈ (d'.thread t).guards ∨ ∃ u, u ≠ t ∧ g ∈ (d.thread u).guards := by
  constructor
  · rintro ⟨u, hu⟩
    by_cases e : u = t
    · exact Or.inl (e ▸ hu)
    · exact Or.inr ⟨u, e, h.others u e ▸ hu⟩
  · rintro (hu | ⟨u, e, hu⟩)
    · exact ⟨t, hu⟩
    · exact ⟨u, (h.others u e).symm ▸ hu⟩

theorem alive_iff (g : Guard) (t : Nat) :
    d.Alive g ↔ g ∈ (d.thread t).guards ∨ ∃ u, u ≠ t ∧ g ∈ (d.thread u).guards := by
  constructor
  · rintro ⟨u, hu⟩
    by_cases e : u = t
    · exact Or.inl (e ▸ hu)
    · exact Or.inr ⟨u, e, hu⟩
  · rintro (hu | ⟨u, -, hu⟩)
    · exact ⟨t, hu⟩
    · exact ⟨u, hu⟩

theorem Turn.guards_of_ne (h : Turn d t x d') (u : Nat) (hu : u ≠ t) : (d'.thread u).guards = (d.thread u).guards := by
  rw [h.others u hu]

theorem Recorded.pinned (hr : d.Recorded) {g₀ : Guard} (h : Turn d t (some (.pinned g₀)) d')
    (hser : g₀.serial = d.nextGuard) (hng : d'.nextGuard = d.nextGuard + 1)
    (hgs : (d'.thread t).guards = g₀ :: (d.thread t).guards) : d'.Recorded := by
  have hnew : .pinned g₀ ∉ d.story := fun hm => Nat.lt_irrefl _ (hser ▸ hr.serial g₀ hm)
  refine ⟨fun g => ?_, fun g hg => ?_, fun g hg => ?_, hr.apart.grow h.guards_of_ne hgs (List.Sublist.refl _) ?_⟩
  · rw [alive_iff_of_others h, hgs, List.mem_cons, or_assoc, ← alive_iff, hr.alive, h.mem_story, h.mem_story]
    constructor
    · rintro (rfl | ⟨h1, h2⟩)
      · exact ⟨Or.inr rfl, fun hm => hnew (hr.dropped _ (hm.resolve_right nofun))⟩
      · exact ⟨Or.inl h1, fun hm => h2 (hm.resolve_right nofun)⟩
    · rintro ⟨h1 | h1, h2⟩
      · exact Or.inr ⟨h1, fun hm => h2 (Or.inl hm)⟩
      · cases h1; exact Or.inl rfl
  · exact h.mem_story.mpr (Or.inl (hr.dropped g ((h.mem_story.mp hg).resolve_right nofun)))
  · rw [hng]
    rcases h.mem_story.mp hg with hg | hg
    · exact Nat.lt_succ_of_lt (hr.serial g hg)
    · cases hg; omega
  · exact fun u hm => hnew ((hr.alive g₀).mp ⟨u, hm⟩).1

theorem Recorded.unpinned (hr : d.Recorded) {g₀ : Guard} (h : Turn d t (some (.unpinned g₀)) d')
    (hg₀ : g₀ ∈ (d.thread t).guards) (hng : d'.nextGuard = d.nextGuard)
    (hgs : (d'.thread t).guards = (d.thread t).guards.erase g₀) : d'.Recorded := by
  have hmem : ∀ g, g ∈ (d'.thread t).guards ↔ g ≠ g₀ ∧ g ∈ (d.thread t).guards := fun g => by
    rw [hgs, (hr.apart.nodup t).mem_erase_iff]
  refine ⟨fun g => ?_, fun g hg => ?_, fun g hg => ?_, hr.apart.shrink h.guards_of_ne (hgs ▸ List.erase_sublist)⟩
  · rw [alive_iff_of_others h, hmem, h.mem_story, h.mem_story]
    constructor
    · intro hg
      have hne : g ≠ g₀ := by
        rcases hg with hg | ⟨u, hu, hg⟩
        · exact hg.1
        · rintro rfl; exact hu (hr.apart.owner u t g hg hg₀)
      obtain ⟨h1, h2⟩ := (hr.alive g).mp ((alive_iff g t).mpr (hg.imp_left And.right))
      exact ⟨Or.inl h1, fun hm => hm.elim h2 fun e => hne (by cases e; rfl)⟩
    · rintro ⟨h1, h2⟩
      obtain ⟨h2, h3⟩ := not_or.mp h2
      have hne : g ≠ g₀ := by rintro rfl; exact h3 rfl
      exact ((alive_iff g t).mp ((hr.alive g).mpr ⟨h1.resolve_right nofun, h2⟩)).imp_left fun hg => ⟨hne, hg⟩
  · rcases h.mem_story.mp hg with hg | hg
    · exact h.mem_story.mpr (Or.inl (hr.dropped g hg))
    · cases hg; exact h.mem_story.mpr (Or.inl ((hr.alive g₀).mp ⟨t, hg₀⟩).1)
  · rw [hng]; exact hr.serial g ((h.mem_story.mp hg).resolve_right nofun)

theorem Recorded.calm (hr : d.Recorded) (h : Turn d t x d')
    (hx : ∀ g, x ≠ some (.pinned g) ∧ x ≠ some (.unpinned g)) (hng : d'.nextGuard = d.nextGuard)
    (hgs : (d'.thread t).guards = (d.thread t).guards) : d'.Recorded := by
  have hpin : ∀ g, .pinned g ∈ d'.story ↔ .pinned g ∈ d.story := fun g => h.mem_story.trans (or_iff_left (hx g).1)
  have hunpin : ∀ g, .unpinned g ∈ d'.story ↔ .unpinned g ∈ d.story := fun g =>
    h.mem_story.trans (or_iff_left (hx g).2)
  refine ⟨fun g => ?_, fun g hg => ?_, fun g hg => ?_, hr.apart.shrink h.guards_of_ne ?_⟩
  · rw [alive_iff_of_others h, hgs, ← alive_iff, hpin, hunpin, ← hr.alive]
  · exact (hpin g).mpr (hr.dropped g ((hunpin g).mp hg))
  · rw [hng]; exact hr.serial g ((hpin g).mp hg)
  · exact hgs.symm ▸ List.Sublist.refl _

theorem Recorded.turn (hr : d.Recorded) (h : Turn d t x d') : d'.Recorded := by
  rcases h.guards_cases with ⟨g₀, rfl, hser, hng, hgs⟩ | ⟨g₀, rfl, hg₀, hng, hgs⟩ | ⟨hx, hng, hgs⟩
  · exact hr.pinned h hser hng hgs
  · exact hr.unpinned h hg₀ hng hgs
  · exact hr.calm h hx hng hgs

theorem Reach.recorded (h : d.Reach) : d.Recorded := by
  induction h with
  | start => exact recorded_empty
  | move t m hr hm ih =>
    obtain ⟨x, ht⟩ := hr.owned.turn hm
    exact ih.turn ht

/-! ## Stored bags -/

/-- The bag waits somewhere. -/
def Stored (d : Domain ν κ) (b : Bag ν) : Prop := ∃ t, b ∈ d.pool t

theorem not_stored_empty (b : Bag ν) : ¬ ({} : Domain ν κ).Stored b := fun ⟨_, h⟩ => nomatch h

theorem Turn.stored (h : Turn d t x d') {b : Bag ν} (hb : d'.Stored b) : d.Stored b ∨
    b.epoch = d.registry.epoch ∧ ∀ n ∈ b.nodes, n ∈ (d.thread t).batch ∨ x = some (.retired n) := by
  obtain ⟨u, hb⟩ := hb
  have hmine : b ∈ d'.pool t ∨ d.Stored b := by
    by_cases e : u = t
    · exact Or.inl (e ▸ hb)
    · rcases List.mem_append.mp hb with hb | hb
      · exact Or.inr ⟨u, List.mem_append_left _ (h.others u e ▸ hb)⟩
      · exact Or.inl (List.mem_append_right _ hb)
  rcases hmine with hb | hb
  · exact (h.pool b hb).imp_left fun hb => ⟨t, hb⟩
  · exact Or.inl hb

/-- Whatever waits or is gone was retired. -/
structure Accounted (d : Domain ν κ) : Prop where
  batch : ∀ t, ∀ n ∈ (d.thread t).batch, .retired n ∈ d.story
  bag : ∀ b, d.Stored b → ∀ n ∈ b.nodes, .retired n ∈ d.story
  todo : ∀ t, ∀ n ∈ (d.thread t).todo, .retired n ∈ d.story
  freed : ∀ n, .freed n ∈ d.story → .retired n ∈ d.story

theorem Accounted.turn (ha : d.Accounted) (h : Turn d t x d') : d'.Accounted := by
  have hold : ∀ {n}, .retired n ∈ d.story → .retired n ∈ d'.story := fun hm => h.mem_story.mpr (Or.inl hm)
  have hnew : ∀ {n}, n ∈ (d.thread t).batch ∨ x = some (.retired n) → .retired n ∈ d'.story := fun hn =>
    h.mem_story.mpr (hn.imp_left (ha.batch t _))
  refine ⟨fun u n hn => ?_, fun b hb n hn => ?_, fun u n hn => ?_, fun n hn => ?_⟩
  · by_cases e : u = t
    · subst e; exact hnew (h.batch n hn)
    · exact hold (ha.batch u n (h.others u e ▸ hn))
  · rcases h.stored hb with hb | ⟨-, hb⟩
    · exact hold (ha.bag b hb n hn)
    · exact hnew (hb n hn)
  · by_cases e : u = t
    · subst e
      rcases h.todo n hn with hn | ⟨-, -, -, b, hb, -, hn⟩
      · exact hold (ha.todo u n hn)
      · exact hold (ha.bag b ⟨u, hb⟩ n hn)
    · exact hold (ha.todo u n (h.others u e ▸ hn))
  · rcases h.mem_story.mp hn with hn | hn
    · exact hold (ha.freed n hn)
    · exact hold (ha.todo t n (h.frees n hn))

theorem Reach.accounted (h : d.Reach) : d.Accounted := by
  induction h with
  | start => exact ⟨nofun, fun b h => absurd h (not_stored_empty b), nofun, nofun⟩
  | move t m hr hm ih =>
    obtain ⟨x, ht⟩ := hr.owned.turn hm
    exact ih.turn ht

/-- No stamp, and no epoch that a collection goes by, is ahead of the global epoch; and none of
    the collecting thread's own bags is ahead of the epoch that the collection goes by. -/
structure Stamped (d : Domain ν κ) : Prop where
  positive : d.registry.epoch ≠ quiescent
  bag : ∀ b, d.Stored b → b.epoch.toNat ≤ d.registry.epoch.toNat
  select : ∀ t p g, (d.thread t).point? = some (.select p g) → g ≠ quiescent ∧
    g.toNat ≤ d.registry.epoch.toNat ∧ ∀ b ∈ (d.thread t).bags, b.epoch.toNat ≤ g.toNat

theorem stamped_empty : ({} : Domain ν κ).Stamped where
  positive := (by decide : firstEpoch ≠ quiescent)
  bag := fun b h => absurd h (not_stored_empty b)
  select := nofun

theorem Stamped.turn (hs : d.Stamped) (h : Turn d t x d') (hx : x ≠ some (.advanced quiescent)) : d'.Stamped := by
  have hle := h.epoch_le hx
  have hbag : ∀ b, d'.Stored b → b.epoch.toNat ≤ d.registry.epoch.toNat := fun b hb =>
    (h.stored hb).elim (hs.bag b) fun hb => Nat.le_of_eq (by rw [hb.1])
  refine ⟨h.epoch_ne hx hs.positive, fun b hb => Nat.le_trans (hbag b hb) hle, fun u p g hp => ?_⟩
  by_cases e : u = t
  · subst e
    rw [h.selects p g hp]
    exact ⟨h.epoch_ne hx hs.positive, Nat.le_refl _,
      fun b hb => Nat.le_trans (hbag b ⟨u, List.mem_append_left _ hb⟩) hle⟩
  · rw [h.others u e] at hp ⊢
    obtain ⟨h0, hg, hbags⟩ := hs.select u p g hp
    exact ⟨h0, Nat.le_trans hg hle, hbags⟩

theorem Reach.stamped (h : d.Reach) (hw : ¬ d.wrapped) : d.Stamped := by
  induction h with
  | start => exact stamped_empty
  | move t m hr hm ih =>
    obtain ⟨x, ht⟩ := hr.owned.turn hm
    obtain ⟨hw, hx⟩ := ht.not_wrapped hw
    exact (ih hw).turn ht hx

/-! ## Nodes retired under a guard -/

def Under (d : Domain ν κ) (g : Guard) (n : ν) : Prop := [.pinned g, .retired n].Sublist d.story

theorem pair_sublist_snoc {α : Type} {a b : α} {l : List α} {o : Option α} (h : [a, b].Sublist (l ++ o.toList)) :
    [a, b].Sublist l ∨ o = some b ∧ a ∈ l := by
  obtain ⟨l₁, l₂, e, h₁, h₂⟩ := List.sublist_append_iff.mp h
  have hlen : l₂.length ≤ 1 := Nat.le_trans h₂.length_le (by cases o <;> simp)
  match l₁, e with
  | [], e => subst e; simp at hlen
  | [a'], e =>
    cases e
    exact Or.inr ⟨Option.mem_toList.mp (h₂.subset List.mem_cons_self), h₁.subset List.mem_cons_self⟩
  | [a', b'], e => cases e; exact Or.inl h₁
  | _ :: _ :: _ :: _, e => simp at e

theorem Under.pinned {g : Guard} {n : ν} (h : d.Under g n) : .pinned g ∈ d.story := h.subset List.mem_cons_self

/-- Nobody is pinned through a slot whose epoch is about to be published. -/
theorem Owned.not_shielded (ho : d.Owned) {tid : Nat} {e : Epoch} {b : Bool}
    (hp : (d.thread t).point? = some (.publish tid e b)) (u : Nat) (b' : Bool) : (tid, b') ∉ (d.thread u).shields := by
  intro hu
  obtain ⟨c, hc, hph⟩ := Option.map_eq_some_iff.mp hp
  obtain ⟨rest, hc⟩ : ∃ rest, (d.thread t).calls = c :: rest := List.head?_eq_some_iff.mp hc
  have hpin : c.phase.pin? = some (tid, b) := by rw [hph]; rfl
  have hheld : (tid, b) ∈ (d.thread t).holds :=
    List.mem_append_left _ (List.mem_filterMap.mpr ⟨c, by rw [hc]; exact List.mem_cons_self, hpin⟩)
  obtain ⟨rfl, rfl⟩ := ho.excl _ _ _ _ _ (ho.claims_of_holds hheld)
    (ho.claims_of_holds (Thread.shields_subset_holds hu))
  have hholds : (d.thread t).holds = (tid, b) :: (rest.filterMap (·.phase.pin?) ++ (d.thread t).seats) := by
    rw [Thread.holds, Thread.pins, hc, List.filterMap_cons, hpin]
    rfl
  -- the call that is to publish shields nothing yet: the shield is another hold on the slot
  have hrest : (tid, b) ∈ rest.filterMap (·.phase.pin?) ++ (d.thread t).seats := by
    rw [Thread.shields, hc, List.filterMap_cons, hph] at hu
    exact List.mem_append.mpr ((List.mem_append.mp hu).imp_left Thread.mem_pins_of_shields)
  cases b with
  | true =>
    have hnd := (ho.sound t).single
    rw [hholds, List.filter_cons_of_pos rfl] at hnd
    exact (List.nodup_cons.mp hnd).1 (List.mem_filter.mpr ⟨hrest, rfl⟩)
  | false =>
    obtain ⟨s, hl⟩ := (ho.sound t).publishing c rest _ _ hc hph
    have h1 := (ho.sound t).counted _ _ hl
    rw [Thread.attached, hholds, List.countP_cons_of_pos rfl] at h1
    have : 0 < (rest.filterMap (·.phase.pin?) ++ (d.thread t).seats).countP (!·.2) :=
      List.countP_pos_iff.mpr ⟨_, hrest, rfl⟩
    omega

/-- Nobody holds a live guard of such a slot. -/
theorem Owned.not_publishing (ho : d.Owned) {tid : Nat} {e : Epoch} {b : Bool}
    (hp : (d.thread t).point? = some (.publish tid e b)) {g : Guard} (hg : d.Alive g) : g.tid ≠ tid := by
  rintro rfl
  obtain ⟨u, hu⟩ := hg
  exact ho.not_shielded hp u g.detached (List.mem_append_right _ (List.mem_map.mpr ⟨g, hu, rfl⟩))

/-- A live guard's slot keeps its epoch, or the slot is quiescent because the guard is gone. -/
theorem Turn.slot_of_alive (h : Turn d t x d') (ho : d.Owned) {g : Guard} (hg : d.Alive g) :
    (d'.registry.slot g.tid).epoch.toNat ≤ (d.registry.slot g.tid).epoch.toNat := by
  rcases h.slots g.tid with hs | ⟨hs, -⟩ | ⟨b, hp⟩
  · exact Nat.le_of_eq (congrArg UInt64.toNat hs)
  · rw [hs]; exact Nat.zero_le _
  · exact absurd rfl (ho.not_publishing hp hg)

/-- No node that was retired under a live guard is destroyed or about to be, and bags with such nodes are
    no older than the epoch in the slot of the guard. -/
structure Shielded (d : Domain ν κ) : Prop where
  bag : ∀ g n b, d.Alive g → d.Under g n → d.Stored b → n ∈ b.nodes →
    (d.registry.slot g.tid).epoch.toNat ≤ b.epoch.toNat
  todo : ∀ g n t, d.Alive g → d.Under g n → n ∉ (d.thread t).todo
  freed : ∀ g n, d.Alive g → d.Under g n → .freed n ∉ d.story

/-- A bag that has expired at the global epoch has nothing in it that was retired under a live
    guard. -/
theorem Shielded.not_mem_expired (hs : d.Shielded) (ha : d.Aligned) (hst : d.Stamped) {g : Guard} {n : ν} {b : Bag ν}
    (hg : d.Alive g) (hu : d.Under g n) (hb : d.Stored b) (he : b.isExpired d.registry.epoch = true) :
    n ∉ b.nodes := by
  intro hn
  have hcov := hs.bag g n b hg hu hb hn
  have hyoung := hst.bag b hb
  rw [Bag.isExpired_iff, UInt64.toNat_sub_of_le _ _ (UInt64.le_iff_toNat_le.mpr hyoung)] at he
  obtain ⟨t, ht⟩ := hg
  have hshield := ha.shielded t (g.tid, g.detached) (List.mem_append_right _ (List.mem_map.mpr ⟨g, ht, rfl⟩))
  have hnear := (ha.near g.tid).resolve_left hshield
  omega

/-- What is retired under a guard that is alive after a move was so before, or is retired now. -/
theorem Turn.under (h : Turn d t x d') (hr : d.Recorded) {g : Guard} {n : ν} (hg : d'.Alive g) (hu : d'.Under g n) :
    d.Alive g ∧ (d.Under g n ∨ x = some (.retired n)) := by
  unfold Under at hu
  rw [h.story] at hu
  have hu := pair_sublist_snoc hu
  have hp : .pinned g ∈ d.story := hu.elim (fun hu => Under.pinned hu) And.right
  have hd : .unpinned g ∉ d.story := fun hm => (((hr.turn h).alive g).mp hg).2 (h.mem_story.mpr (Or.inl hm))
  exact ⟨(hr.alive g).mpr ⟨hp, hd⟩, hu.imp_right And.left⟩

/-- It stays so, as long as no collection takes out a bag with such nodes. -/
theorem Shielded.turn (hs : d.Shielded) (h : Turn d t x d') (ho : d.Owned) (hr : d.Recorded) (hac : d.Accounted)
    (hle : ∀ g, d.Alive g → (d.registry.slot g.tid).epoch.toNat ≤ d.registry.epoch.toNat)
    (hspared : ∀ g n p e b, d.Alive g → d.Under g n → (d.thread t).point? = some (.select p e) → b ∈ d.pool t →
      b.isExpired e = true → n ∉ b.nodes) : d'.Shielded := by
  -- what was retired before the move is not the node that it retires
  have hbefore : ∀ {g n}, d'.Alive g → d'.Under g n → .retired n ∈ d.story → d.Alive g ∧ d.Under g n := by
    intro g n hg hu hn
    obtain ⟨hg, hu⟩ := h.under hr hg hu
    exact ⟨hg, hu.resolve_right fun e => h.retires n e hn⟩
  refine ⟨fun g n b hg hu hb hn => ?_, fun g n u hg hu hn => ?_, fun g n hg hu hn => ?_⟩
  · have hslot := h.slot_of_alive ho (h.under hr hg hu).1
    rcases h.stored hb with hb | ⟨he, -⟩
    · obtain ⟨hg, hu⟩ := hbefore hg hu (hac.bag b hb n hn)
      exact Nat.le_trans hslot (hs.bag g n b hg hu hb hn)
    · rw [he]
      exact Nat.le_trans hslot (hle g (h.under hr hg hu).1)
  · by_cases e : u = t
    · subst e
      rcases h.todo n hn with hn | ⟨p, e, hp, b, hb, he, hn⟩
      · obtain ⟨hg, hu⟩ := hbefore hg hu (hac.todo u n hn)
        exact hs.todo g n u hg hu hn
      · obtain ⟨hg, hu⟩ := hbefore hg hu (hac.bag b ⟨u, hb⟩ n hn)
        exact hspared g n p e b hg hu hp hb he hn
    · rw [h.others u e] at hn
      obtain ⟨hg, hu⟩ := hbefore hg hu (hac.todo u n hn)
      exact hs.todo g n u hg hu hn
  · rcases h.mem_story.mp hn with hn | hn
    · obtain ⟨hg, hu⟩ := hbefore hg hu (hac.freed n hn)
      exact hs.freed g n hg hu hn
    · have hn := h.frees n hn
      obtain ⟨hg, hu⟩ := hbefore hg hu (hac.todo t n hn)
      exact hs.todo g n t hg hu hn

theorem ReachAlone.shielded (h : d.ReachAlone) (hw : ¬ d.wrapped) : d.Shielded := by
  induction h with
  | start => exact ⟨fun g _ _ h => absurd h (not_alive_empty g), fun g _ _ h => absurd h (not_alive_empty g), nofun⟩
  | move t m hr hrest hm ih =>
    have hreach := hr.reach
    obtain ⟨x, ht⟩ := hreach.owned.turn hm
    obtain ⟨hw, -⟩ := ht.not_wrapped hw
    have ha := hr.aligned hw
    refine (ih hw).turn ht hreach.owned hreach.recorded hreach.accounted (fun g _ => ?_) fun g n p e b hg hu hp hb he => ?_
    · rcases ha.near g.tid with h0 | ⟨hle, -⟩
      · rw [h0]; exact Nat.zero_le _
      · exact hle
    · rw [ha.selecting t p e hp] at he
      exact (ih hw).not_mem_expired ha (hreach.stamped hw) hg hu ⟨t, hb⟩ he

end Domain

end EpochQueue.Reclaim
