/-
  EpochQueue.Proofs.Reclaim.Overlap — as long as nobody exits, calls may overlap step by step.

  What a collection takes out too early, if others move between its steps, are orphans that came after
  its attempt to advance. `ReachStaying` are the runs in which every call may be interrupted anywhere, and
  no thread exits; so there are no orphans, and all that a collection looks at is its own, stamped
  before the attempt.

  A slot may be any number of epochs behind then, but whoever is pinned lets the global epoch advance
  once at most after his node was sealed (`Recent`). Guards protect in these runs, too
  (`ReachStaying.protects`).
-/

import EpochQueue.Proofs.Reclaim.LatePins
import EpochQueue.Proofs.Reclaim.Protection
import EpochQueue.Proofs.Reclaim.Ways

namespace EpochQueue.Reclaim.Domain

variable {ν κ : Type} {d d' : Domain ν κ} {t : Nat} {x : Option (Notice ν)}

/-- What the threads can bring a fresh domain to, step by step in any order, if none of them exits. -/
inductive ReachStaying : Domain ν κ → Prop
  | start : ReachStaying {}
  | move {d : Domain ν κ} (t : Nat) (m : Move ν κ) :
      ReachStaying d → d.may t m → m ≠ .exit → ReachStaying (d.move t m)

namespace ReachStaying

theorem reach (h : d.ReachStaying) : d.Reach := by
  induction h with
  | start => exact .start
  | move t m _ hm _ ih => exact .move t m ih hm

/-- Everybody has a handle, or will get one, and nobody has left anything behind. -/
theorem lodged (h : d.ReachStaying) : ∀ u, d.Lodged u := by
  induction h with
  | start => exact fun u => ⟨by rw [handle?_isSome]; rfl, rfl⟩
  | move t m _ hm hstay ih =>
    intro u
    obtain ⟨x, hx⟩ := Option.isSome_iff_exists.mp (ih t).1
    refine ⟨?_, orphans_move hx hstay (ih t).2⟩
    by_cases e : u = t
    · subst e; exact handle?_move hx hstay
    · rw [handle?_isSome, thread_move_of_ne e, ← handle?_isSome]
      exact (ih u).1

end ReachStaying

/-! ## No slot is ahead -/

/-- No slot holds an epoch that is still to come, and none is about to. -/
structure Abreast (d : Domain ν κ) : Prop where
  slot : ∀ tid, (d.registry.slot tid).epoch.toNat ≤ d.registry.epoch.toNat
  publishing : ∀ t tid e b, (d.thread t).point? = some (.publish tid e b) → e.toNat ≤ d.registry.epoch.toNat

theorem Abreast.turn (ha : d.Abreast) (h : Turn d t x d') (hx : x ≠ some (.advanced quiescent)) : d'.Abreast := by
  have hle := h.epoch_le hx
  refine ⟨fun tid => ?_, fun u tid e b hp => ?_⟩
  · rcases h.slots tid with hs | ⟨hs, -⟩ | ⟨b, hp⟩
    · rw [hs]; exact Nat.le_trans (ha.slot tid) hle
    · rw [hs]; exact Nat.zero_le _
    · exact Nat.le_trans (ha.publishing t tid _ b hp) hle
  · by_cases e : u = t
    · subst e
      rw [h.publishes tid _ b hp]
    · rw [h.others u e] at hp
      exact Nat.le_trans (ha.publishing u tid _ b hp) hle

theorem Reach.abreast (h : d.Reach) (hw : ¬ d.wrapped) : d.Abreast := by
  induction h with
  | start => exact ⟨fun tid => by rw [Registry.ids_empty.blank tid id]; exact Nat.zero_le _, nofun⟩
  | move t m hr hm ih =>
    obtain ⟨x, ht⟩ := hr.owned.turn hm
    obtain ⟨hw, hx⟩ := ht.not_wrapped hw
    exact (ih hw).turn ht hx

/-! ## What is retired under a guard -/

/-- Since a bag was sealed with a node that was retired under a live guard, the global epoch has
    advanced once at most. -/
def Recent (d : Domain ν κ) : Prop := ∀ g n b, d.Alive g → d.Under g n → d.Stored b → n ∈ b.nodes →
  d.registry.epoch.toNat ≤ b.epoch.toNat + 1

theorem Reach.slot_of_alive (h : d.Reach) (hw : ¬ d.wrapped) {g : Guard} (hg : d.Alive g) :
    (d.registry.slot g.tid).epoch ≠ quiescent := by
  obtain ⟨u, hu⟩ := hg
  exact h.shielded hw u (g.tid, g.detached) (List.mem_append_right _ (List.mem_map.mpr ⟨g, hu, rfl⟩))

/-- The slot of the guard lets the global epoch advance only from the epoch that it holds, and the bag
    is no older than that. -/
theorem Recent.turn (hn : d.Recent) (hs : d.Shielded) (hd : d.Reach) (h : Turn d t x d') (hw : ¬ d.wrapped)
    (hx : x ≠ some (.advanced quiescent)) : d'.Recent := by
  intro g n b hg hu hb hmem
  have hold := h.under hd.recorded hg hu
  rcases h.stored hb with hb | ⟨hstamp, -⟩
  · have hu₀ : d.Under g n := hold.2.resolve_right fun e => h.retires n e (hd.accounted.bag b hb n hmem)
    have hbag := hn g n b hold.1 hu₀ hb hmem
    rcases h.epoch with ⟨hsame, -⟩ | ⟨hobserved, hnext, -, -⟩
    · rw [hsame]; exact hbag
    · have hslot := (Registry.eq_of_allObserved hobserved g.tid).resolve_left (hd.slot_of_alive hw hold.1)
      have hcov := hs.bag g n b hold.1 hu₀ hb hmem
      rw [hslot] at hcov
      rw [hnext, toNat_succ (hnext ▸ h.epoch_ne hx (hd.stamped hw).positive)]
      exact Nat.succ_le_succ hcov
  · rcases h.epoch with ⟨hsame, -⟩ | ⟨-, hnext, -, -⟩
    · rw [hsame, hstamp]; exact Nat.le_succ _
    · rw [hnext, toNat_succ (hnext ▸ h.epoch_ne hx (hd.stamped hw).positive), hstamp]

/-- Nothing that is among a thread's own bags has expired for its collection, if it was retired under a live guard. -/
theorem Recent.spared (hn : d.Recent) (hst : d.Stamped) {g : Guard} {n : ν} {p : Purpose} {e : Epoch} {b : Bag ν}
    (hg : d.Alive g) (hu : d.Under g n) (hp : (d.thread t).point? = some (.select p e)) (hb : b ∈ (d.thread t).bags)
    (he : b.isExpired e = true) : n ∉ b.nodes := by
  intro hmem
  have hbag := hn g n b hg hu ⟨t, List.mem_append_left _ hb⟩ hmem
  obtain ⟨-, hle, hown⟩ := hst.select t p e hp
  have hyoung := hown b hb
  rw [Bag.isExpired_iff, UInt64.toNat_sub_of_le _ _ (UInt64.le_iff_toNat_le.mpr hyoung)] at he
  omega

namespace ReachStaying

theorem spares (h : d.ReachStaying) (hw : ¬ d.wrapped) : d.Shielded ∧ d.Recent := by
  induction h with
  | start =>
    exact ⟨⟨fun g _ _ h => absurd h (not_alive_empty g), fun g _ _ h => absurd h (not_alive_empty g), nofun⟩,
      fun g _ _ h => absurd h (not_alive_empty g)⟩
  | @move d t m hr hm _ ih =>
    have hreach := hr.reach
    obtain ⟨x, ht⟩ := hreach.owned.turn hm
    obtain ⟨hw, hx⟩ := ht.not_wrapped hw
    obtain ⟨hs, hn⟩ := ih hw
    refine ⟨hs.turn ht hreach.owned hreach.recorded hreach.accounted (fun g _ => (hreach.abreast hw).slot g.tid)
      fun g n p e b hg hu hp hb he => ?_, hn.turn hs hreach ht hw hx⟩
    rw [pool, (hr.lodged t).2, List.append_nil] at hb
    exact hn.spared (hreach.stamped hw) hg hu hp hb he

theorem timely (h : d.ReachStaying) (hw : ¬ d.wrapped) : d.Tells fun before y => y.Timely before := by
  induction h with
  | start => exact tells_empty _
  | move t m hr hm _ ih =>
    have hreach := hr.reach
    obtain ⟨x, ht⟩ := hreach.owned.turn hm
    obtain ⟨hw, -⟩ := ht.not_wrapped hw
    exact (ih hw).turn ht fun y hy => ht.timely hreach.recorded hreach.accounted (hr.spares hw).1 hy

/-- A node retired after a guard was made is not destroyed before the guard is dropped, whatever
    steps of their calls other threads stand between, as long as nobody exits. -/
theorem protects (h : d.ReachStaying) (hw : ¬ d.wrapped) {i j k : Nat} {g : Guard} {n : ν}
    (hi : d.trace[i]? = some (.pinned g)) (hj : d.trace[j]? = some (.retired n)) (hij : i < j)
    (hk : d.trace[k]? = some (.freed n)) : ∃ m, i < m ∧ m < k ∧ d.trace[m]? = some (.unpinned g) :=
  (h.timely hw).protects hi hj hij hk

end ReachStaying

end EpochQueue.Reclaim.Domain
