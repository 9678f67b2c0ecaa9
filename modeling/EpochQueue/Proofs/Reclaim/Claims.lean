/-
  EpochQueue.Proofs.Reclaim.Claims — whose a slot is.

  A thread claims the slot of its handle from the handle's first pin until the handle is
  destroyed, and from then on as long as a guard of it is alive; and it claims a slot of its
  own for every detached guard. `Owned` says that these claims exclude each other, that they
  are all there are (`Registry.Ids`), and what each thread's books say about them (`Sound`): a
  live handle counts its guards, the slot of a dead one counts those it left behind.

  A move of one thread keeps its claims, gains one with a fresh id, or loses one with the id
  released: `Owned.keep`, `Owned.gain` and `Owned.lose` reduce each to that thread's books.
-/

import EpochQueue.Proofs.Reclaim.Effects
import EpochQueue.Proofs.Reclaim.Ids

namespace EpochQueue.Reclaim

variable {ν κ : Type}

namespace Thread

/-- Guards of the handle, made or being made. -/
def attached (th : Thread ν κ) : Nat := th.holds.countP (!·.2)

theorem attached_pos {th : Thread ν κ} {tid : Nat} (h : (tid, false) ∈ th.holds) : 0 < th.attached :=
  List.countP_pos_iff.mpr ⟨_, h, rfl⟩

theorem exists_of_attached_pos (th : Thread ν κ) (h : 0 < th.attached) : ∃ tid, (tid, false) ∈ th.holds := by
  obtain ⟨⟨tid, b⟩, hm, hb⟩ := List.countP_pos_iff.mp h
  cases b with
  | true => cases hb
  | false => exact ⟨tid, hm⟩

def Claims (th : Thread ν κ) (tid : Nat) (detached : Bool) : Prop :=
  match detached, th.lease with
  | false, some (slot, _) => slot = some tid
  | _, _ => (tid, detached) ∈ th.holds

theorem claims_detached (th : Thread ν κ) (tid : Nat) : th.Claims tid true ↔ (tid, true) ∈ th.holds := Iff.rfl

theorem claims_of_lease {th : Thread ν κ} {s : Option Nat} {n : Nat} (h : th.lease = some (s, n)) (tid : Nat) :
    th.Claims tid false ↔ s = some tid := by
  simp [Claims, h]

theorem claims_of_gone {th : Thread ν κ} (h : th.lease = none) (tid : Nat) :
    th.Claims tid false ↔ (tid, false) ∈ th.holds := by
  simp [Claims, h]

theorem claims_congr {th th' : Thread ν κ} (hl : th'.lease = th.lease)
    (hh : ∀ p, p ∈ th'.holds ↔ p ∈ th.holds) (tid : Nat) (b : Bool) : th'.Claims tid b ↔ th.Claims tid b := by
  unfold Claims
  rw [hl]
  split
  · exact Iff.rfl
  · exact hh _

/-- What a thread's books say about its slots, given what is written in them. -/
structure Sound (th : Thread ν κ) (r : Registry) : Prop where
  /-- Only the innermost call can be at another point than between two destructions. -/
  outer : ∀ c ∈ th.calls.tail, c.phase.isFreeing = true
  /-- Whoever publishes an epoch for the handle holds the only guard of it. -/
  publishing : ∀ c rest tid e, th.calls = c :: rest → c.phase = .publish tid e false → ∃ s, th.lease = some (s, 1)
  pinning : ∀ tid, (tid, false) ∈ th.pins → th.lease ≠ none
  single : (th.holds.filter (·.2)).Nodup
  counted : ∀ s n, th.lease = some (s, n) → th.attached = n
  leased : ∀ s n tid, th.lease = some (s, n) → (tid, false) ∈ th.holds → s = some tid
  stray : ∀ tid, th.lease = none → (tid, false) ∈ th.holds →
    (r.slot tid).stray = th.attached ∧ ∀ i, (i, false) ∈ th.holds → i = tid
  unstray : ∀ tid b, th.Claims tid b → b = true ∨ th.lease ≠ none → (r.slot tid).stray = 0

theorem sound_default (r : Registry) : Sound (default : Thread ν κ) r where
  outer := fun _ h => absurd h List.not_mem_nil
  publishing := fun _ _ _ _ h => nomatch h
  pinning := fun _ h => absurd h List.not_mem_nil
  single := List.nodup_nil
  counted := fun _ _ h => by
    cases h
    rfl
  leased := fun _ _ _ _ h => absurd h List.not_mem_nil
  stray := fun _ h => nomatch h
  unstray := fun tid b h _ => by
    cases b
    · cases h
    · exact absurd h List.not_mem_nil

/-- The books depend on nothing but the counts in the slots that the thread claims. -/
theorem Sound.congr {th : Thread ν κ} {r r' : Registry} (h : th.Sound r)
    (hr : ∀ tid b, th.Claims tid b → (r'.slot tid).stray = (r.slot tid).stray) : th.Sound r' :=
  { h with
    stray := fun tid hl hm => by
      rw [hr tid false ((claims_of_gone hl tid).mpr hm)]
      exact h.stray tid hl hm
    unstray := fun tid b hc hb => (hr tid b hc).trans (h.unstray tid b hc hb) }

/-- A change that keeps the handle's lease and what is held keeps the books. -/
theorem Sound.keep {th th' : Thread ν κ} {r : Registry} (h : th.Sound r) (hl : th'.lease = th.lease)
    (hp : th'.holds.Perm th.holds) (hpins : ∀ p ∈ th'.pins, p ∈ th.pins)
    (houter : ∀ c ∈ th'.calls.tail, c.phase.isFreeing = true)
    (hpub : ∀ c rest tid e, th'.calls = c :: rest → c.phase = .publish tid e false → ∃ s, th.lease = some (s, 1)) :
    th'.Sound r where
  outer := houter
  publishing := fun c rest tid e hc hp => hl ▸ hpub c rest tid e hc hp
  pinning := fun tid hm => hl ▸ h.pinning tid (hpins _ hm)
  single := (hp.filter _).nodup_iff.mpr h.single
  counted := fun s n hs => (hp.countP_eq _).trans (h.counted s n (hl ▸ hs))
  leased := fun s n tid hs hm => h.leased s n tid (hl ▸ hs) (hp.mem_iff.mp hm)
  stray := fun tid hs hm => by
    obtain ⟨h1, h2⟩ := h.stray tid (hl ▸ hs) (hp.mem_iff.mp hm)
    exact ⟨h1.trans (hp.countP_eq _).symm, fun i hi => h2 i (hp.mem_iff.mp hi)⟩
  unstray := fun tid b hc hb =>
    h.unstray tid b ((claims_congr hl (fun _ => hp.mem_iff) tid b).mp hc) (by rwa [← hl])

end Thread

namespace Domain

/-- Somebody claims the slot of that id. -/
def Uses (d : Domain ν κ) (tid : Nat) : Prop := ∃ t b, (d.thread t).Claims tid b

/-- Slots in use have one owner each, and every owner's books are right. -/
structure Owned (d : Domain ν κ) : Prop where
  ids : d.registry.Ids d.Uses
  excl : ∀ t u tid b c, (d.thread t).Claims tid b → (d.thread u).Claims tid c → t = u ∧ b = c
  sound : ∀ t, (d.thread t).Sound d.registry

theorem owned_empty : ({} : Domain ν κ).Owned where
  ids := Registry.ids_empty.congr fun tid => by
    refine ⟨?_, False.elim⟩
    rintro ⟨t, b, h⟩
    cases b
    · cases h
    · exact absurd h List.not_mem_nil
  excl := fun t u tid b c h => by
    cases b
    · cases h
    · exact absurd h List.not_mem_nil
  sound := fun t => Thread.sound_default _

section

variable {d d' : Domain ν κ} {t : Nat}

/-- A detached guard does not have the slot of its thread's handle. -/
theorem Owned.detached_ne (h : d.Owned) {i tid : Nat} (hi : (d.thread t).Claims i true)
    (hc : (d.thread t).Claims tid false) : i ≠ tid := by
  rintro rfl
  cases (h.excl t t i true false hi hc).2

theorem uses_iff (hth : ∀ u, u ≠ t → d'.thread u = d.thread u) (tid : Nat) :
    d'.Uses tid ↔ (∃ b, (d'.thread t).Claims tid b) ∨ ∃ u b, u ≠ t ∧ (d.thread u).Claims tid b := by
  constructor
  · rintro ⟨u, b, h⟩
    by_cases e : u = t
    · exact Or.inl ⟨b, e ▸ h⟩
    · exact Or.inr ⟨u, b, e, hth u e ▸ h⟩
  · rintro (⟨b, h⟩ | ⟨u, b, e, h⟩)
    · exact ⟨t, b, h⟩
    · exact ⟨u, b, (hth u e).symm ▸ h⟩

/-- A move of `t` after which its claims are as before. -/
theorem Owned.keep (h : d.Owned) (hth : ∀ u, u ≠ t → d'.thread u = d.thread u)
    (hcl : ∀ tid b, (d'.thread t).Claims tid b ↔ (d.thread t).Claims tid b) (hids : d'.registry.Ids d.Uses)
    (hstray : ∀ u tid b, u ≠ t → (d.thread u).Claims tid b →
      (d'.registry.slot tid).stray = (d.registry.slot tid).stray)
    (hs : (d'.thread t).Sound d'.registry) : d'.Owned := by
  have hall : ∀ u tid b, (d'.thread u).Claims tid b ↔ (d.thread u).Claims tid b := by
    intro u tid b
    by_cases e : u = t
    · subst e; exact hcl tid b
    · rw [hth u e]
  refine ⟨hids.congr fun tid => exists_congr fun u => exists_congr fun b => hall u tid b,
    fun u v tid b c hu hv => h.excl u v tid b c ((hall u tid b).mp hu) ((hall v tid c).mp hv), fun u => ?_⟩
  by_cases e : u = t
  · subst e; exact hs
  · rw [hth u e]
    exact (h.sound u).congr fun tid b hc => hstray u tid b e hc

/-- A move of `t` that registers an id and claims it. -/
theorem Owned.gain (h : d.Owned) (hth : ∀ u, u ≠ t → d'.thread u = d.thread u) {c : Bool}
    (hreg : d'.registry = d.registry.register.2)
    (hcl : ∀ tid b, (d'.thread t).Claims tid b ↔
      (d.thread t).Claims tid b ∨ (tid = d.registry.register.1 ∧ b = c))
    (hs : (d'.thread t).Sound d'.registry) : d'.Owned := by
  have hfresh : ∀ u c, ¬ (d.thread u).Claims d.registry.register.1 c :=
    fun u c hc => h.ids.register_fresh ⟨u, c, hc⟩
  have hall : ∀ u tid b, (d'.thread u).Claims tid b →
      (d.thread u).Claims tid b ∨ (u = t ∧ tid = d.registry.register.1 ∧ b = c) := by
    intro u tid b hc
    by_cases e : u = t
    · subst e
      exact ((hcl tid b).mp hc).imp_right fun hr => ⟨rfl, hr⟩
    · exact Or.inl (hth u e ▸ hc)
  refine ⟨?_, fun u v tid b c hu hv => ?_, fun u => ?_⟩
  · rw [hreg]
    refine h.ids.register.congr fun tid => ?_
    rw [uses_iff hth]
    constructor
    · rintro (⟨b, hc⟩ | ⟨u, b, -, hc⟩)
      · rcases (hcl tid b).mp hc with hc | ⟨rfl, -⟩
        · exact Or.inl ⟨t, b, hc⟩
        · exact Or.inr rfl
      · exact Or.inl ⟨u, b, hc⟩
    · rintro (⟨u, b, hc⟩ | rfl)
      · by_cases e : u = t
        · subst e; exact Or.inl ⟨b, (hcl tid b).mpr (Or.inl hc)⟩
        · exact Or.inr ⟨u, b, e, hc⟩
      · exact Or.inl ⟨c, (hcl _ _).mpr (Or.inr ⟨rfl, rfl⟩)⟩
  · rcases hall u tid b hu with hu | ⟨hut, htid, hb⟩ <;> rcases hall v tid c hv with hv | ⟨hvt, htid', hc⟩
    · exact h.excl u v tid b c hu hv
    · exact absurd (htid' ▸ hu) (hfresh u b)
    · exact absurd (htid ▸ hv) (hfresh v c)
    · exact ⟨hut.trans hvt.symm, hb.trans hc.symm⟩
  · by_cases e : u = t
    · subst e; exact hs
    · rw [hth u e, hreg]
      exact (h.sound u).congr fun tid b _ => by rw [Registry.slot_register]

/-- A move of `t` that gives up a claim and releases the id; `r` is the registry just before
    the release. -/
theorem Owned.lose (h : d.Owned) (hth : ∀ u, u ≠ t → d'.thread u = d.thread u) {tid₀ : Nat} {b₀ : Bool}
    (hc₀ : (d.thread t).Claims tid₀ b₀) {r : Registry} (hr : r.Ids d.Uses)
    (hreg : d'.registry = (r.unpin tid₀).release tid₀) (h0 : (r.slot tid₀).stray = 0)
    (hslot : ∀ tid, tid ≠ tid₀ → r.slot tid = d.registry.slot tid)
    (hcl : ∀ tid b, (d'.thread t).Claims tid b ↔ (d.thread t).Claims tid b ∧ ¬ (tid = tid₀ ∧ b = b₀))
    (hs : (d'.thread t).Sound d'.registry) : d'.Owned := by
  have hall : ∀ u tid b, (d'.thread u).Claims tid b ↔ (d.thread u).Claims tid b ∧ tid ≠ tid₀ := by
    intro u tid b
    by_cases e : u = t
    · subst e
      rw [hcl]
      refine and_congr_right fun hc => not_congr ⟨And.left, fun ht => ⟨ht, ?_⟩⟩
      subst ht
      exact (h.excl u u tid b b₀ hc hc₀).2
    · rw [hth u e]
      refine ⟨fun hc => ⟨hc, ?_⟩, And.left⟩
      rintro rfl
      exact e (h.excl u t tid b b₀ hc hc₀).1
  have hslot' : ∀ tid, tid ≠ tid₀ → d'.registry.slot tid = d.registry.slot tid := by
    intro tid e
    rw [hreg, ← hslot tid e]
    show (r.unpin tid₀).slot tid = _
    rw [Registry.unpin, Registry.slot_pin _ _ _ (hr.hasSlot_of_used ⟨t, b₀, hc₀⟩), if_neg e]
  refine ⟨?_, fun u v tid b c hu hv => h.excl u v tid b c ((hall u tid b).mp hu).1 ((hall v tid c).mp hv).1,
    fun u => ?_⟩
  · rw [hreg]
    refine (hr.release ⟨t, b₀, hc₀⟩ h0).congr fun tid => ?_
    constructor
    · rintro ⟨u, b, hc⟩
      exact ⟨⟨u, b, ((hall u tid b).mp hc).1⟩, ((hall u tid b).mp hc).2⟩
    · rintro ⟨⟨u, b, hc⟩, hne⟩
      exact ⟨u, b, (hall u tid b).mpr ⟨hc, hne⟩⟩
  · by_cases e : u = t
    · subst e; exact hs
    · rw [hth u e]
      refine (h.sound u).congr fun tid b hc => ?_
      rw [hslot' tid]
      rintro rfl
      exact e (h.excl u t tid b b₀ hc hc₀).1

end

end Domain

end EpochQueue.Reclaim
