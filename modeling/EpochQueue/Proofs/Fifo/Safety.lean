/-
  EpochQueue.Proofs.Fifo.Safety — operations never touch a link that was freed.

  `Shelter` is what the guard of an operation gives: from the place where the head was when it
  was made, no link of the queue is freed, and what has become garbage since became so under the
  guard. Every pointer of the operation stands behind that place (`Sheltered`), so what it touches
  is there (`keeps_off_freed`).

  Calls into the domain happen one at a time here; accesses alternate with them at will.
-/

import EpochQueue.Proofs.Fifo.Keeping
import EpochQueue.Proofs.Fifo.Schedules
import EpochQueue.Proofs.Reclaim.Protection

namespace EpochQueue.Fifo

open Reclaim (Guard Notice Domain)

variable {α : Type}

/-- The same while calls happen one at a time. -/
structure Guarded (w : World α) (lay : Nat → Layout) : Prop extends Kept w lay where
  domain : w.domain.ReachAlone

theorem Guarded.step {w : World α} {lay lay' : Nat → Layout} {t : Nat} {m : Move α} (hg : Guarded w lay)
    (hturn : w.inTurn t m) (hm : w.may t m) (hd : Did w lay t m (w.move t m) lay') : Guarded (w.move t m) lay' := by
  refine ⟨hg.toKept.step hm hd, ?_⟩
  rcases hg.domain_move hd with h | ⟨hstands, x, hx, h⟩
  · exact h ▸ hg.domain
  · refine h ▸ hg.domain.move t x (hturn.resolve_right fun hacc => ?_) hx
    rw [hstands] at hacc
    cases hacc.2

/-! ## Under a guard -/

/-- From the place `b` on no link is freed, and what became garbage there did so under `g`. -/
structure Shelter (w : World α) (L : Layout) (g : Guard) (b : Nat) : Prop where
  head : b ≤ L.head
  unfreed : ∀ i n, b ≤ i → L.nodes[i]? = some n → (w.store.link n).freed = false
  under : ∀ i n, b ≤ i → L.nodes[i]? = some n → .retired (.link n) ∈ w.domain.story → w.domain.Under g (.link n)

/-- Every operation that has a guard stays where the guard shelters it. -/
def Sheltered (w : World α) (lay : Nat → Layout) : Prop :=
  ∀ t, ∀ p ∈ w.stack t, ∀ g, p.1.guard = some g →
    ∃ b, p.1.point.Fits (lay p.1.queue) b ∧ Shelter w (lay p.1.queue) g b

section

variable {w w' : World α} {lay lay' : Nat → Layout} {t : Nat} {m : Move α}

/-- Nothing that happens while the guard is alive takes its shelter away. -/
theorem Shelter.did (hg : Guarded w lay) (hd : Did w lay t m w' lay') (hw : ¬ w.domain.wrapped) {u : Nat}
    {p : Operation α × Bool} (hp : p ∈ w.stack u) {g : Guard} (hpg : p.1.guard = some g) {b : Nat}
    (hs : Shelter w (lay p.1.queue) g b) {l : List (Notice Garbage)}
    (hstory : w'.domain.story = w.domain.story ++ l) : Shelter w' (lay' p.1.queue) g b := by
  have hq := (hg.opsFit.sits u p hp).queue
  have hl := hg.opsFit.laid _ hq
  have halive : w.domain.Alive g := ⟨u, (hg.minds u p hp).held g hpg⟩
  refine ⟨Nat.le_trans hs.head (hd.grows hq).head, fun i n hi hn => ?_, fun i n hi hn hr => ?_⟩
  · rcases hd.joins hq hn with hold | ⟨p', hp', -, hst⟩
    · have hmem := Laid.mem hold
      rcases hd.frees hg.opsFit (hl.bound n hmem) with h | ⟨h, -⟩ | ⟨q, j, hquiet, hlt, hj, -⟩
      · rw [h]
        exact hs.unfreed i n hi hold
      · -- a collection does not take what was retired under a live guard
        have hretired := hg.domain.reach.accounted.todo t _ h
        exact absurd h ((hg.domain.shielded hw).todo g _ t halive (hs.under i n hi hold hretired))
      · have hhome : q = p.1.queue := ((hg.opsFit.laid q hlt).home n (Laid.mem hj)).symm.trans (hl.home n hmem)
        exact absurd (hhome ▸ hquiet) (World.not_quiet hp)
    · exact hg.brought hd hp' hst
  · rcases hd.joins hq hn with hold | ⟨p', hp', hqueue, hst⟩
    · rcases hd.retires hg.opsFit hr with h | ⟨h, -⟩
      · have hunder := hs.under i n hi hold h
        unfold Domain.Under at hunder ⊢
        exact hstory ▸ hunder.trans (List.sublist_append_left _ _)
      · have hpinned := hg.pinned hp hpg
        unfold Domain.Under
        rw [h]
        exact (List.singleton_sublist.mpr hpinned).append (List.Sublist.refl _)
    · rcases hd.retires hg.opsFit hr with h | ⟨-, ⟨q, j, hlt, hj, -⟩, -⟩
      · exact absurd h (hg.brought_unretired hp' hst)
      · obtain ⟨hnew, v, hv⟩ := (hg.opsFit.sits t p' hp').brought n hst
        have hhome : q = p'.1.queue := ((hg.opsFit.laid q hlt).home n (Laid.mem hj)).symm.trans hv.home
        exact absurd (hhome ▸ Laid.mem hj) hnew

/-- A guard that was just made shelters everything from the head on. -/
theorem Guarded.shelter (hg : Guarded w lay) {q : Nat} (hopen : w.store.isOpen q = true) (g : Guard) :
    Shelter w (lay q) g (lay q).head where
  head := Nat.le_refl _
  unfreed := hg.live q hopen
  under := fun _ _ hi hn hr => absurd (hg.lt_head (Store.isOpen_lt hopen) hn hr) (Nat.not_lt_of_le hi)

theorem Sheltered.did (hs : Sheltered w lay) (hg : Guarded w lay) (hd : Did w lay t m w' lay') (hg' : Guarded w' lay')
    (hw : ¬ w.domain.wrapped) {l : List (Notice Garbage)} (hstory : w'.domain.story = w.domain.story ++ l)
    (hk : ∀ u, u ≠ t → w'.stack u = w.stack u) : Sheltered w' lay' := by
  intro u p hp' g hpg
  have hkeep : p ∈ w.stack u → ∃ b, p.1.point.Fits (lay' p.1.queue) b ∧ Shelter w' (lay' p.1.queue) g b := fun hp => by
    obtain ⟨b, hfits, hshelter⟩ := hs u p hp g hpg
    exact ⟨b, hfits.grows (hd.grows (hg.opsFit.sits u p hp).queue), hshelter.did hg hd hw hp hpg hstory⟩
  by_cases e : u = t
  case neg => exact hkeep (hk u e ▸ hp')
  subst e
  rcases hd.comes hp' with hp | hcomes
  · exact hkeep hp
  cases hcomes with
  | began o r hst _ =>
    rw [hst.guard] at hpg
    cases hpg
  | accessed o spot hp ho hv _ _ =>
    have hog : o.guard = some g := hv.guard.symm.trans hpg
    obtain ⟨b, hfits, hshelter⟩ := hs u _ ho g hog
    rw [show (o, false).1.point = _ from hp] at hfits
    rw [hv.queue]
    exact ⟨b, hv.fits b hshelter.head hfits, hshelter.did hg hd hw ho hog hstory⟩
  | took o head next ho _ =>
    obtain ⟨b, -, hshelter⟩ := hs u _ ho g hpg
    exact ⟨b, trivial, hshelter.did hg hd hw ho hpg hstory⟩
  | resumed o g' ho _ _ =>
    have hopen := (hg'.minds u _ hp').opened
    have hnone : o.guard = none := Option.isNone_iff_eq_none.mp (hg.minds u _ ho).waits.symm
    exact ⟨_, (hg.minds u _ ho).start hnone _ _, hg'.shelter hopen g⟩

end

/-- A run keeps it, and every operation sheltered. -/
theorem World.ReachAlone.sheltered {w : World α} (h : w.ReachAlone) :
    ∃ lay, Guarded w lay ∧ (¬ w.domain.wrapped → Sheltered w lay) := by
  induction h with
  | start =>
    exact ⟨_, ⟨.empty, .start⟩, fun _ => nofun⟩
  | move t m _ hturn hm ih =>
    obtain ⟨lay, hg, hs⟩ := ih
    obtain ⟨lay', hd⟩ := hg.opsFit.did hm
    have hg' := hg.step hturn hm hd
    obtain ⟨l, hl⟩ := hg.story hd
    refine ⟨lay', hg', fun hw => ?_⟩
    have hbefore := hg.not_wrapped hd hw
    exact (hs hbefore).did hg hd hg' hbefore hl fun u e => World.stack_of_ne e m

theorem World.ReachAlone.domain {w : World α} (h : w.ReachAlone) : w.domain.ReachAlone := by
  obtain ⟨_, hg, -⟩ := h.sheltered
  exact hg.domain

/-! ## What is touched, and what is retired -/

/-- The head of its queue has moved past the link. -/
def World.Passed (w : World α) (n : Nat) : Prop :=
  n ∉ w.store.chain (w.store.link n).home ∧
    (w.store.queue (w.store.link n).home).head ∈ w.store.follow w.store.nextLink (w.store.link n).next

theorem Laid.passed {w : World α} {q i n : Nat} {L : Layout} (hl : Laid w.store q L) (hi : L.nodes[i]? = some n)
    (hlt : i < L.head) : w.Passed n := by
  unfold World.Passed
  rw [hl.home n (Laid.mem hi), hl.chain_eq, hl.next i n hi, hl.follow_eq, List.take_of_length_le]
  · refine ⟨fun hm => ?_, ?_⟩
    · obtain ⟨j, hj, hn⟩ := Laid.mem_drop hm
      exact absurd (hl.place hi hn) (by omega)
    · refine List.mem_of_getElem? (i := L.head - (i + 1)) ?_
      rw [List.getElem?_drop, show i + 1 + (L.head - (i + 1)) = L.head by omega]
      exact hl.head
  · rw [List.length_drop]
    exact Nat.le_trans (Nat.sub_le _ _) hl.length_le

/-- An operation touches no link that was freed. A link is retired once, and only when the head
    has moved past it. -/
theorem World.ReachAlone.keeps_off_freed {w : World α} (h : w.ReachAlone) :
    (¬ w.domain.wrapped → ∀ t o, w.operation t = some o → ∀ n ∈ o.point.touches,
      n < w.store.nextLink ∧ (w.store.link n).freed = false) ∧
    (∀ (i j : Nat) n, w.domain.trace[i]? = some (.retired (.link n)) →
      w.domain.trace[j]? = some (.retired (.link n)) → i = j) ∧
    ∀ t m n, w.may t m → (w.move t m).domain.wasRetired (.link n) → w.Passed n := by
  obtain ⟨lay, hg, hs⟩ := h.sheltered
  refine ⟨fun hw t o ho n hn => ?_, fun i j n hi hj => hg.domain.reach.retired_once hi hj, fun t m n hm hr => ?_⟩
  · have hmem : (o, false) ∈ w.stack t := World.stack_active ho ▸ List.mem_cons_self
    have hguard := Option.isNone_eq_false_iff.mp (hg.minds t _ hmem).waits.symm
    obtain ⟨g, hog⟩ := Option.isSome_iff_exists.mp hguard
    obtain ⟨b, hfits, hshelter⟩ := hs hw t _ hmem g hog
    obtain ⟨i, hi, hin⟩ := hfits.touches hn
    exact ⟨(hg.opsFit.laid _ (hg.opsFit.sits t _ hmem).queue).bound n (Laid.mem hin), hshelter.unfreed i n hi hin⟩
  · obtain ⟨lay', hd⟩ := hg.opsFit.did hm
    have hr := (Domain.mem_story rfl).mpr hr
    obtain ⟨q, i, hq, hi, hlt⟩ : ∃ q i, q < w.store.nextQueue ∧ (lay q).nodes[i]? = some n ∧ i < (lay q).head := by
      rcases hd.retires hg.opsFit hr with h | ⟨-, h, -⟩
      · exact hg.retired n h
      · exact h
    exact (hg.opsFit.laid q hq).passed hi hlt

/-- Thread 1 sees the sentinel and stops in front of its next pointer. Thread 0 dequeues, so the
    sentinel is garbage, and flushes three times. -/
def World.staleRun : List (Nat × Move Nat) :=
  [(0, .newQueue .standard), (0, .tryEnqueue 0 7 true)] ++ List.replicate 8 (0, .step) ++
    [(0, .tryEnqueue 0 8 true)] ++ List.replicate 8 (0, .step) ++ [(1, .dequeue 0)] ++ List.replicate 4 (1, .step) ++
    [(0, .dequeue 0)] ++ List.replicate 10 (0, .step) ++
    (List.replicate 3 ((0, .flush) :: List.replicate 3 (0, .step))).flatten

theorem World.staleRun_plays : (({} : World Nat).playAlone World.staleRun).isSome = true := by decide +kernel

def World.staleEnd : World Nat := (({} : World Nat).playAlone World.staleRun).get World.staleRun_plays

theorem World.staleEnd_reached : World.staleEnd.ReachAlone :=
  .of_playAlone .start (Option.some_get World.staleRun_plays).symm

theorem World.stale_head_unfreed : (∃ o, World.staleEnd.operation 1 = some o ∧ o.point.touches = [0]) ∧
    World.staleEnd.domain.trace[12]? = some (.retired (.link 0)) ∧ (World.staleEnd.store.link 0).freed = false ∧
    (∀ j : Nat, World.staleEnd.domain.trace[j]? = some (.retired (.link 0)) → 12 = j) ∧ World.staleEnd.Passed 0 := by
  have ho : (World.staleEnd.operation 1).map (·.point.touches) = some [0] := by decide +kernel
  have hr : World.staleEnd.domain.trace[12]? = some (.retired (.link 0)) := by decide +kernel
  have hw : ¬ World.staleEnd.domain.wrapped :=
    Domain.Reach.not_wrapped_of_size World.staleEnd_reached.domain.reach (by decide +kernel)
  have hm : World.staleEnd.may 0 .flush := by decide +kernel
  have hr' : .retired (.link 0) ∈ (World.staleEnd.move 0 .flush).domain.trace := by decide +kernel
  obtain ⟨hsafe, honce, hpassed⟩ := World.ReachAlone.keeps_off_freed World.staleEnd_reached
  obtain ⟨o, ho, ht⟩ := Option.map_eq_some_iff.mp ho
  exact ⟨⟨o, ho, ht⟩, hr, (hsafe hw 1 o ho 0 (by rw [ht]; exact List.mem_singleton_self 0)).2,
    fun j hj => honce 12 j 0 hr hj, hpassed 0 .flush 0 hm hr'⟩

end EpochQueue.Fifo
