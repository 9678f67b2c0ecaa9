/-
  EpochQueue.Proofs.Reclaim.Thrift — a thread that nobody holds up keeps no more than two bags.

  A bag is destroyed by a collection two epochs after it was sealed, so how many a thread keeps
  depends on the epochs at which it collects. Two things make it collect: its pins, every so many, and
  a batch that is full. A collection of the second kind happens while the thread is pinned, and if one
  of the first kind has just let the epoch grow, it cannot let it grow again.

  Between two pins at most two bags are left, and at most one of them has the stamp of the global
  epoch (`Spare`). The thread then observes an epoch `e` and publishes it. When it seals a batch, that
  makes one bag more, stamped `e` or later (`Laden`). The collection that follows goes by an epoch
  later than `e` in any case: if the global epoch is `e` it advances, as no other slot is pinned, and
  if not it is past `e` already. So it keeps of the old bags only one that is stamped `e`, and the new
  one (`Laden.sift`).

  `Thrifty` says so of every phase of a call, and `Thrifty.step` that it stays so. Other threads may
  let the epoch grow meanwhile as they can, as long as they are not pinned (`Thrifty.others`).
-/

import EpochQueue.Proofs.Reclaim.Sweep

namespace EpochQueue.Reclaim

variable {ν κ : Type}

/-! ## Bags and their stamps -/

theorem Bag.stamp_of_not_expired {b : Bag ν} {g : Epoch} (hb : b.epoch.toNat ≤ g.toNat) (h : b.isExpired g = false) :
    g.toNat ≤ b.epoch.toNat + 1 := by
  have hage : ¬ 2 ≤ (g - b.epoch).toNat := fun hle => Bool.false_ne_true (h.symm.trans ((b.isExpired_iff g).mpr hle))
  rw [UInt64.toNat_sub_of_le _ _ (UInt64.le_iff_toNat_le.mpr hb)] at hage
  omega

/-- Two bags at most, none stamped later than `e`, and one at most with `e` itself. -/
structure Spare (e : Epoch) (bags : List (Bag ν)) : Prop where
  length : bags.length ≤ 2
  stamps : ∀ b ∈ bags, b.epoch.toNat ≤ e.toNat
  newest : bags.countP (·.epoch == e) ≤ 1

/-- The same, with one bag more. -/
def Laden (e : Epoch) (bags : List (Bag ν)) : Prop :=
  ∃ old new, bags = old ++ new ∧ Spare e old ∧ new.length ≤ 1

theorem spare_nil (e : Epoch) : Spare e ([] : List (Bag ν)) := ⟨Nat.zero_le _, nofun, Nat.zero_le _⟩

theorem Spare.mono {e e' : Epoch} {bags : List (Bag ν)} (h : Spare e bags) (hle : e.toNat ≤ e'.toNat) :
    Spare e' bags := by
  refine ⟨h.length, fun b hb => Nat.le_trans (h.stamps b hb) hle, ?_⟩
  rcases Nat.lt_or_eq_of_le hle with hlt | heq
  · refine Nat.le_trans (Nat.le_of_eq (List.countP_eq_zero.mpr fun b hb he => ?_)) (Nat.zero_le 1)
    have hstamp := h.stamps b hb
    rw [eq_of_beq he] at hstamp
    omega
  · rw [← UInt64.toNat_inj.mp heq]
    exact h.newest

theorem Spare.sublist {e : Epoch} {bags bags' : List (Bag ν)} (h : Spare e bags) (hs : bags'.Sublist bags) :
    Spare e bags' :=
  ⟨Nat.le_trans hs.length_le h.length, fun b hb => h.stamps b (hs.subset hb), Nat.le_trans hs.countP_le h.newest⟩

theorem Spare.laden {e : Epoch} {bags : List (Bag ν)} (h : Spare e bags) : Laden e bags :=
  ⟨bags, [], (List.append_nil _).symm, h, Nat.zero_le 1⟩

/-- The batch makes one bag more. -/
theorem Spare.sealed {e e' : Epoch} {h : Hoard ν} (hs : Spare e h.bags) : Laden e (h.sealed e').bags := by
  unfold Hoard.sealed
  split
  · exact hs.laden
  · exact ⟨h.bags, _, rfl, hs, Nat.le_refl 1⟩

/-- A collection that goes by a later epoch leaves two. -/
theorem Laden.sift {e g e' : Epoch} {bags : List (Bag ν)} (h : Laden e bags) (hlater : e.toNat < g.toNat)
    (hg : g.toNat ≤ e'.toNat) (hstamps : ∀ b ∈ bags, b.epoch.toNat ≤ g.toNat) :
    Spare e' (bags.filter (!·.isExpired g)) := by
  obtain ⟨old, new, rfl, hold, hnew⟩ := h
  have hkept : ∀ b ∈ old.filter (!·.isExpired g), b.epoch = e := fun b hb => by
    obtain ⟨hb, he⟩ := List.mem_filter.mp hb
    have hnear := Bag.stamp_of_not_expired (hstamps b (List.mem_append_left _ hb)) (by simpa using he)
    have hstamp := hold.stamps b hb
    exact UInt64.toNat_inj.mp (by omega)
  have hone : (old.filter (!·.isExpired g)).length ≤ 1 := by
    have hall : (old.filter (!·.isExpired g)).countP (·.epoch == e) = (old.filter (!·.isExpired g)).length :=
      List.countP_eq_length.mpr fun b hb => beq_iff_eq.mpr (hkept b hb)
    rw [← hall]
    exact Nat.le_trans List.filter_sublist.countP_le hold.newest
  have hone' : (new.filter (!·.isExpired g)).length ≤ 1 := Nat.le_trans (List.length_filter_le _ _) hnew
  rw [List.filter_append]
  refine ⟨?_, fun b hb => ?_, ?_⟩
  · rw [List.length_append]
    omega
  · rw [← List.filter_append] at hb
    exact Nat.le_trans (hstamps b (List.mem_filter.mp hb).1) hg
  · have hnone : (old.filter (!·.isExpired g)).countP (·.epoch == e') = 0 := List.countP_eq_zero.mpr fun b hb he => by
      have heq : e = e' := (hkept b hb).symm.trans (eq_of_beq he)
      rw [heq] at hlater
      omega
    rw [List.countP_append, hnone, Nat.zero_add]
    exact Nat.le_trans List.countP_le_length hone'

/-! ## How many nodes that makes -/

theorem Bag.total_le {bs : List (Bag ν)} (hf : ∀ b ∈ bs, b.Filled) : Bag.total bs ≤ bs.length * bagCapacity := by
  induction bs with
  | nil => exact Nat.zero_le _
  | cons b bs ih =>
    have hle := (hf b List.mem_cons_self).le
    have hrest := ih fun b hb => hf b (List.mem_cons_of_mem _ hb)
    rw [Bag.total, List.length_cons, Nat.succ_mul]
    omega

theorem Bag.length_contents {bs : List (Bag ν)} (hf : ∀ b ∈ bs, b.Filled) :
    (Bag.contents bs).length = Bag.total bs := by
  induction bs with
  | nil => rfl
  | cons b bs ih =>
    have hrest := ih fun b hb => hf b (List.mem_cons_of_mem _ hb)
    rw [Bag.contents] at hrest ⊢
    rw [List.flatMap_cons, List.length_append, hrest, Bag.total, (hf b List.mem_cons_self).len_eq]

namespace Hoard.Neat

variable {h : Hoard ν}

theorem length_nodes (hn : h.Neat) : h.nodes.length = h.batchLen + Bag.total h.bags := by
  rw [nodes, List.length_append, hn.batchLen_eq, Bag.length_contents hn.bags]

/-- Two bags and a batch that is not full. -/
theorem waits_lt (hn : h.Neat) (hbags : h.bags.length ≤ 2) : h.batchLen + Bag.total h.bags < 3 * bagCapacity := by
  have htotal := Nat.le_trans (Bag.total_le hn.bags) (Nat.mul_le_mul_right bagCapacity hbags)
  have hroom := hn.room
  omega

end Hoard.Neat

/-! ## A thread that nobody holds up -/

namespace Domain

variable {d d' : Domain ν κ} {t u : Nat} {e : Epoch} {x : Option (Notice ν)}

/-- No slot is pinned but that of the handle of `t`. -/
def PinnedAlone (d : Domain ν κ) (t : Nat) : Prop :=
  ∀ tid, (d.registry.slot tid).epoch ≠ quiescent → (d.handle? t).bind (·.slot) = some tid

/-- Once its own slot is unpinned none is pinned. -/
instance (d : Domain ν κ) (t : Nat) : Decidable (d.PinnedAlone t) :=
  decidable_of_iff ((((d.handle? t).bind (·.slot)).elim d.registry fun i => (d.registry.reach i).unpin i).slots.all
      (·.epoch == quiescent) = true) <| by
    rw [Registry.quiet_iff_slots]
    unfold PinnedAlone
    cases (d.handle? t).bind (·.slot) with
    | none => exact ⟨fun h tid h0 => absurd (h tid) h0, fun h tid => Classical.not_not.mp fun h0 => nomatch h tid h0⟩
    | some i =>
      have hslot : ∀ tid, (((d.registry.reach i).unpin i).slot tid).epoch =
          if tid = i then quiescent else (d.registry.slot tid).epoch := fun tid => by
        have hhas := Registry.hasSlot_reach d.registry i
        rw [Registry.unpin, Registry.slot_pin _ _ _ hhas, Registry.slot_reach, Registry.slot_reach]
        split <;> rfl
      constructor
      · intro h tid h0
        refine congrArg some (Classical.not_not.mp fun e => h0 ?_)
        have hquiet := h tid
        rwa [Option.elim, hslot, if_neg (Ne.symm e)] at hquiet
      · intro h tid
        rw [Option.elim, hslot]
        split
        · rfl
        · rename_i e
          exact Classical.not_not.mp fun h0 => e (Option.some.inj (h tid h0)).symm

/-- Who is pinned has observed `e`. -/
def Observes (d : Domain ν κ) (e : Epoch) : Prop :=
  ∀ tid, (d.registry.slot tid).epoch = quiescent ∨ (d.registry.slot tid).epoch = e

theorem PinnedAlone.claims (h : d.PinnedAlone t) {tid : Nat} (h0 : (d.registry.slot tid).epoch ≠ quiescent) :
    (d.thread t).Claims tid false := by
  obtain ⟨x, hx, hslot⟩ := Option.bind_eq_some_iff.mp (h tid h0)
  exact (Thread.claims_of_lease (lease_eq hx) tid).mpr hslot

/-- Without a guard and without a pin nobody is pinned at all. -/
theorem PinnedAlone.quiet (h : d.PinnedAlone t) (hr : d.Reach) (hnone : (d.thread t).shields = []) (tid : Nat) :
    (d.registry.slot tid).epoch = quiescent := by
  refine Classical.by_contradiction fun h0 => ?_
  obtain ⟨u, b, hu⟩ := hr.occupied tid h0
  obtain ⟨rfl, -⟩ := hr.owned.excl t u tid false b (h.claims h0)
    (hr.owned.claims_of_holds (Thread.shields_subset_holds hu))
  rw [hnone] at hu
  cases hu

/-- Nobody else pins. -/
theorem Observes.others (ho : d.Owned) (h : Turn d u x d') (hu : u ≠ t) (halone : d'.PinnedAlone t)
    (hobs : d.Observes e) : d'.Observes e := fun tid => by
  rcases h.slots tid with hs | ⟨hs, -⟩ | ⟨b, hp⟩
  · rw [hs]
    exact hobs tid
  · exact Or.inl hs
  · refine Or.inl (Classical.by_contradiction fun h0 => hu ?_)
    have hmine : (d.thread t).Claims tid false := h.others t (Ne.symm hu) ▸ halone.claims h0
    obtain ⟨c, hc, hph⟩ := Option.map_eq_some_iff.mp hp
    have hheld : (tid, b) ∈ (d.thread u).holds :=
      List.mem_append_left _ (List.mem_filterMap.mpr ⟨c, List.mem_of_mem_head? hc, by rw [hph]; rfl⟩)
    exact (ho.excl u t tid b false (ho.claims_of_holds hheld) hmine).1

/-- The bags of a thread that has nothing under way. -/
def Light (d : Domain ν κ) (t : Nat) : Prop := Spare d.registry.epoch (d.thread t).bags

/-- The bags of a thread that is pinned and about to retire something. -/
def Ready (d : Domain ν κ) (t : Nat) : Prop :=
  ∃ e : Epoch, e.toNat ≤ d.registry.epoch.toNat ∧ Spare e (d.thread t).bags ∧ d.Observes e

/-- How a thread stands with its bags in each phase of a call, by the epoch that it observed. -/
inductive Thrifty (d : Domain ν κ) (t : Nat) : Phase ν → Prop
  | reading {e : Epoch} (tid : Nat) (le : e.toNat ≤ d.registry.epoch.toNat) (spare : Spare e (d.thread t).bags) :
      Thrifty d t (.publish tid e false)
  | pinning {q : Phase ν} (pin : q.shield?.isSome = true) (ready : d.Ready t) : Thrifty d t q
  | sealed {e : Epoch} {p : Purpose} (pin : p.pin? = none) (le : e.toNat ≤ d.registry.epoch.toNat)
      (laden : Laden e (d.thread t).bags) (observes : d.Observes e) : Thrifty d t (.advance p)
  | collecting {e g : Epoch} {p : Purpose} (pin : p.pin? = none) (laden : Laden e (d.thread t).bags)
      (later : e.toNat < g.toNat) : Thrifty d t (.select p g)
  | destroying {p : Purpose} {todo : List ν} {freed : Nat} (pin : p.pin? = none) (light : d.Light t) :
      Thrifty d t (.free p todo freed)

theorem Ready.light (h : d.Ready t) : d.Light t := by
  obtain ⟨e, hle, hspare, -⟩ := h
  exact hspare.mono hle

section

variable (ho : d.Owned) (h : Turn d u x d') (hx : x ≠ some (.advanced quiescent)) (hu : u ≠ t)
  (halone : d'.PinnedAlone t)
include h hx hu

theorem Light.others (hl : d.Light t) : d'.Light t := by
  rw [Light, h.others t (Ne.symm hu)]
  exact hl.mono (h.epoch_le hx)

include ho halone

theorem Ready.others (hr : d.Ready t) : d'.Ready t := by
  obtain ⟨e, hle, hspare, hobs⟩ := hr
  refine ⟨e, Nat.le_trans hle (h.epoch_le hx), ?_, hobs.others ho h hu halone⟩
  rw [h.others t (Ne.symm hu)]
  exact hspare

theorem Thrifty.others {q : Phase ν} (ht : d.Thrifty t q) : d'.Thrifty t q := by
  have hsame := h.others t (Ne.symm hu)
  have hle := h.epoch_le hx
  cases ht with
  | reading tid le spare => exact .reading tid (Nat.le_trans le hle) (hsame ▸ spare)
  | pinning pin ready => exact .pinning pin (ready.others ho h hx hu halone)
  | sealed pin le laden observes =>
    exact .sealed pin (Nat.le_trans le hle) (hsame ▸ laden) (observes.others ho h hu halone)
  | collecting pin laden later => exact .collecting pin (hsame ▸ laden) later
  | destroying pin light => exact .destroying pin (light.others h hx hu)

end

/-! ## Its own steps -/

theorem Observes.turn (h : Turn d t x d') (hobs : d.Observes e)
    (hp : ∀ tid e' b, (d.thread t).point? = some (.publish tid e' b) → e' = e) : d'.Observes e := fun tid => by
  rcases h.slots tid with hs | ⟨hs, -⟩ | ⟨b, hs⟩
  · rw [hs]
    exact hobs tid
  · exact Or.inl hs
  · exact Or.inr (hp _ _ _ hs)

/-- If all that are pinned have observed the global epoch it advances, and else it is past theirs. -/
theorem Observes.lt_advanced (hobs : d.Observes e) (hle : e.toNat ≤ d.registry.epoch.toNat)
    (hgrows : d.registry.epoch.toNat ≤ d.registry.advanced.toNat) (hpos : d.registry.advanced ≠ quiescent) :
    e.toNat < d.registry.advanced.toNat := by
  rcases Nat.lt_or_eq_of_le hle with hlt | heq
  · exact Nat.lt_of_lt_of_le hlt hgrows
  · have hadv := Registry.advanced_of_observed (r := d.registry) (UInt64.toNat_inj.mp heq ▸ hobs)
    rw [hadv] at hpos ⊢
    rw [toNat_succ hpos, heq]
    exact Nat.lt_succ_self _

/-- A step takes bags out when it collects, and none comes to the others. -/
theorem bags_step {c : Call ν κ} {rest : List (Call ν κ)} (hc : (d.thread t).calls = c :: rest) {h : Handle ν}
    (hh : d.handle? t = some h) (horphans : d.orphans = []) : ((d.step t).1.thread t).bags =
      match c.phase with
      | .select _ g => (d.thread t).bags.filter (!·.isExpired g)
      | _ => (d.thread t).bags := by
  have hten : (d.thread t).tenure.handle? = some h := handle?_eq d t ▸ hh
  rw [step_eq hc]
  rcases c.phase with ⟨tid, e, b⟩ | p | ⟨p, g⟩ | ⟨p, - | ⟨n, todo⟩, freed⟩
  · cases b with
    | true => simp only [thread_publish_of_detached hc, if_true]; rfl
    | false => simp only [thread_publish_of_handle hc hh, if_true, Thread.bags_of_handle hten]; rfl
  · simp only [thread_advance hc, if_true]; rfl
  · have hpool := (select_sorts hc p g).2.2.1
    rwa [pool, pool, orphans_select_of_handle hh, horphans, List.append_nil, List.append_nil] at hpool
  · cases p with
    | pin tid b => simp only [thread_answer_pin, if_true]; rfl
    | retire => simp only [thread_answer_of_pin?_none d t c.ticket freed (p := .retire) rfl, if_true]; rfl
    | flush => simp only [thread_answer_of_pin?_none d t c.ticket freed (p := .flush) rfl, if_true]; rfl
  · simp only [thread_free hc, if_true]; rfl

/-- So it stands when the call has come a step further, and it has no more to keep when it has returned. -/
theorem Thrifty.step {c : Call ν κ} {rest : List (Call ν κ)} (hc : (d.thread t).calls = c :: rest) (hr : d.Reach)
    (hw : ¬ (d.step t).1.wrapped) {h : Handle ν} (hh : d.handle? t = some h) (horphans : d.orphans = [])
    (hquiet : c.phase.shield? = none → c.phase.pin?.isSome = true → ∀ tid, (d.registry.slot tid).epoch = quiescent)
    (ht : d.Thrifty t c.phase) :
    (∀ q, ((d.step t).1.thread t).calls = { c with phase := q } :: rest → (d.step t).1.Thrifty t q) ∧
      (((d.step t).1.thread t).calls = rest →
        (d.step t).1.Light t ∧ (c.phase.pin?.isSome = true → (d.step t).1.Ready t)) := by
  have hm : d.may t .step := by rw [may, hc]; exact List.cons_ne_nil _ _
  obtain ⟨x, hturn⟩ := hr.owned.turn hm
  rw [move] at hturn
  obtain ⟨hw₀, hx⟩ := hturn.not_wrapped hw
  have hgrows := hturn.epoch_le hx
  have hbags := bags_step hc hh horphans
  have hpoint := Thread.point?_of_calls hc
  have hgoes := goes_step hc
  generalize hph : c.phase = ph at ht hbags hpoint hquiet hgoes
  generalize hd' : (d.step t).1 = d' at *
  have hne : ∀ c' : Call ν κ, c' :: rest ≠ rest := fun c' => List.cons_ne_self c' rest
  have hphase : ∀ {q q' : Phase ν}, (d'.thread t).calls = { c with phase := q } :: rest →
      (d'.thread t).calls = { c with phase := q' } :: rest → q = q' := fun h h' =>
    (Call.mk.inj (List.cons.inj (h.symm.trans h')).1).2
  -- a pin goes on as one that is published, or hands out its guard
  have hpinning : ph.pin?.isSome = true → d'.Ready t → (∀ q, (d'.thread t).calls = { c with phase := q } :: rest →
      d'.Thrifty t q) ∧ ((d'.thread t).calls = rest → d'.Light t ∧ (ph.pin?.isSome = true → d'.Ready t)) :=
    fun hpin hready => by
    refine ⟨fun q hq => .pinning ?_ hready, fun _ => ⟨hready.light, fun _ => hready⟩⟩
    cases hgoes with
    | on q' hcalls stage pin =>
      rw [hphase hq hcalls, Phase.shield?_of_stage stage.stage_pos, pin, hph]
      exact hpin
    | back hcalls => exact absurd (hq.symm.trans hcalls) (hne _)
  cases ht with
  | @reading e tid le spare =>
    have hobs : d.Observes e := fun tid => Or.inl (hquiet rfl rfl tid)
    refine hpinning rfl ⟨e, Nat.le_trans le hgrows, hbags ▸ spare, hobs.turn hturn fun _ _ _ hp => ?_⟩
    rw [hpoint] at hp
    cases hp
    rfl
  | pinning pin ready =>
    obtain ⟨e, le, spare, observes⟩ := ready
    obtain ⟨i, hi⟩ := Option.isSome_iff_exists.mp pin
    refine hpinning (by rw [Phase.pin?_of_shield? hi]; rfl)
      ⟨e, Nat.le_trans le hgrows, spare.sublist ?_, observes.turn hturn fun tid e' b hp => ?_⟩
    · rw [hbags]
      split
      · exact List.filter_sublist
      · exact List.Sublist.refl _
    · rw [hpoint] at hp
      rw [Option.some.inj hp] at pin
      cases pin
  | @sealed e p pin le laden observes =>
    have hcalls : (d'.thread t).calls = { c with phase := .select p d.registry.advanced } :: rest := by
      rw [← hd', step_eq hc, hph, thread_advance hc, if_pos rfl]
    have hepoch : d'.registry.epoch = d.registry.advanced := by
      rw [← hd', step_eq hc, hph, (advance_frame d t p).1]
    have hpos := ((hr.move t .step hm).stamped (by rwa [move, hd'])).positive
    rw [move, hd', hepoch] at hpos
    refine ⟨fun q hq => ?_, fun hback => absurd (hcalls.symm.trans hback) (hne _)⟩
    rw [hphase hq hcalls]
    exact .collecting pin (hbags ▸ laden) (observes.lt_advanced le (hepoch ▸ hgrows) hpos)
  | @collecting e g p pin laden later =>
    have hcalls := (select_sorts hc p g).2.2.2
    rw [← show (d.step t).1 = d.select t p g by rw [step_eq hc, hph], hd'] at hcalls
    obtain ⟨-, hg, hstamps⟩ := (hr.stamped hw₀).select t p g hpoint
    have hlight : d'.Light t := by
      rw [Light, hbags]
      exact laden.sift later (Nat.le_trans hg hgrows) hstamps
    refine ⟨fun q hq => ?_, fun hback => absurd (hcalls.symm.trans hback) (hne _)⟩
    rw [hphase hq hcalls]
    exact .destroying pin hlight
  | @destroying p todo freed pin light =>
    have hlight : d'.Light t := by
      rw [Light, hbags]
      exact light.mono hgrows
    refine ⟨fun q hq => ?_, fun _ => ⟨hlight, fun hpin => ?_⟩⟩
    · cases hgoes with
      | on q' hcalls stage hpin =>
        rw [hphase hq hcalls]
        rw [hph] at stage hpin
        cases q' with
        | free p' todo' freed' => exact .destroying (hpin.trans pin) hlight
        | _ => simp [Phase.GoesOn, Phase.stage] at stage
      | back hcalls => exact absurd (hq.symm.trans hcalls) (hne _)
    · rw [show (Phase.free p todo freed).pin? = none from pin] at hpin
      cases hpin

/-! ## Calls that it opens -/

section

variable {h : Handle ν} {k : κ}

/-- A thread without a guard reads the epoch when it pins. -/
theorem Light.pin (hl : d.Light t) (ho : d.Owned) (hh : d.handle? t = some h) (hnone : (d.thread t).holds = []) :
    ∃ q : Phase ν, ((d.pin t k).thread t).calls = ⟨k, q⟩ :: (d.thread t).calls ∧
      ((d.pin t k).thread t).guards = (d.thread t).guards ∧ q.pin?.isSome = true ∧ (d.pin t k).Thrifty t q := by
  have hten : (d.thread t).tenure.handle? = some h := handle?_eq d t ▸ hh
  have hcount : h.pinCount = 0 := by
    rw [← (ho.sound t).counted _ _ (lease_eq hh), Thread.attached, hnone]
    rfl
  obtain ⟨tid, ht, he⟩ : ∃ tid, (d.pin t k).thread t = (d.thread t).pinBy h tid k d.registry.epoch ∧
      (d.pin t k).registry.epoch = d.registry.epoch := by
    cases hslot : h.slot with
    | some tid =>
      have ht := thread_pin_of_slot hh hslot (k := k) t
      exact ⟨tid, by rw [ht, if_pos rfl], by rw [registry_pin_of_slot hh hslot]⟩
    | none =>
      have ht := thread_pin_of_no_slot hh hslot (k := k) t
      exact ⟨_, by rw [ht, if_pos rfl, Registry.epoch_register],
        by rw [registry_pin_of_no_slot hh hslot, Registry.epoch_register]⟩
  rw [Light, Thread.bags_of_handle hten] at hl
  refine ⟨.publish tid d.registry.epoch false, by rw [ht, Thread.pinBy, if_pos hcount], by rw [ht]; rfl, rfl, ?_⟩
  refine .reading tid (Nat.le_of_eq (by rw [he])) ?_
  rw [ht]
  exact hl

theorem Light.pending (hl : d.Light t) (hh : d.handle? t = some h) : (d.pending t).2.Light t := by
  have ht := thread_pending_of_handle hh t
  have hten : (d.thread t).tenure.handle? = some h := handle?_eq d t ▸ hh
  rw [Light, Thread.bags_of_handle hten] at hl
  rw [Light, (pending_frame d t).1, ht, if_pos rfl]
  exact hl

theorem Light.flush (hl : d.Light t) (hquiet : ∀ tid, (d.registry.slot tid).epoch = quiescent) :
    (d.flush t k).Thrifty t (.advance .flush) := by
  have hreg := (flush_frame d t k).1
  refine .sealed (e := d.registry.epoch) rfl (Nat.le_of_eq (by rw [hreg])) ?_ fun tid => Or.inl ?_
  · rw [← Thread.bags_hoard, (flush_hoard d t k).1]
    exact Spare.sealed (Thread.bags_hoard (d.thread t) ▸ hl)
  · rw [hreg]
    exact hquiet tid

/-- The node that is retired may fill the batch. -/
theorem Ready.retire (hready : d.Ready t) (hh : d.handle? t = some h) (n : ν) :
    ∃ q : Phase ν, ((d.retire t n k).thread t).calls = ⟨k, q⟩ :: (d.thread t).calls ∧
      ((d.retire t n k).thread t).guards = (d.thread t).guards ∧ q.pin? = none ∧ (d.retire t n k).Thrifty t q := by
  have ht := thread_retire_of_handle n hh (k := k) t
  rw [if_pos rfl] at ht
  have hreg := (retire_frame_of_handle n hh (k := k)).1
  have hten : (d.thread t).tenure.handle? = some h := handle?_eq d t ▸ hh
  by_cases hf : (h.retire n).isFull = true
  · obtain ⟨e, hle, hspare, hobs⟩ := hready
    rw [Thread.bags_of_handle hten] at hspare
    rw [if_pos hf, if_pos hf] at ht
    refine ⟨.advance .retire, by rw [ht], by rw [ht], rfl, ?_⟩
    refine .sealed (e := e) rfl (by rw [hreg]; exact hle) ?_ fun tid => ?_
    · rw [ht, ← Thread.bags_hoard, Thread.hoard_of_handle rfl, Handle.hoard_sealBatch]
      exact Spare.sealed hspare
    · rw [hreg]
      exact hobs tid
  · have hl := hready.light
    rw [Light, Thread.bags_of_handle hten] at hl
    rw [if_neg hf, if_neg hf] at ht
    refine ⟨.free .retire [] 0, by rw [ht], by rw [ht], rfl, .destroying rfl ?_⟩
    rw [Light, hreg, ht]
    exact hl

end

/-- Dropping a guard leaves the bags alone. -/
theorem bags_unpin (d : Domain ν κ) (t : Nat) (g : Guard) : ((d.unpin t g).thread t).bags = (d.thread t).bags := by
  have hh := handled_unpin d t g
  rw [← Thread.bags_hoard, ← Thread.bags_hoard]
  generalize hx : some (Notice.unpinned g) = x at hh
  cases hh with
  | kept _ hoard => rw [hoard]
  | _ => cases hx

theorem Light.unpin (hl : d.Light t) (ho : d.Owned) (hm : d.mayCall t = true) {g : Guard}
    (hg : g ∈ (d.thread t).guards) : (d.unpin t g).Light t := by
  rw [Light, bags_unpin]
  exact hl.mono ((ho.turn_unpin hm hg).epoch_le fun h => by cases h)

end Domain

end EpochQueue.Reclaim
