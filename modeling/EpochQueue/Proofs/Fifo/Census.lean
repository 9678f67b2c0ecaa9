/-
  EpochQueue.Proofs.Fifo.Census — a queue counts the links that it has allocated and that are not freed.

  They are of three kinds: the chain from the sentinel on, the links that enqueues have yet to link,
  and those that the head has moved past (`LinksPlaced.parts`); the last are garbage, or about to become so
  by the dequeue that moved the head (`LinksPlaced.overtaken`). When nobody works on the queue they are what
  was retired and not freed (`LinksPlaced.overtaken_eq`), and once it was torn down nothing else is left
  (`LinksPlaced.members_of_closed`).

  `World.Census` says it of one queue, `World.Reach.census` of every queue in every run.
-/

import EpochQueue.Proofs.Fifo.Safety
import EpochQueue.Proofs.Fifo.Underway
import EpochQueue.Proofs.Fifo.Whereabouts

namespace EpochQueue.Fifo

open Reclaim (Domain)

variable {α : Type}

namespace World

instance (w : World α) (n : Nat) : Decidable (w.Passed n) := inferInstanceAs (Decidable (_ ∧ _))

instance (w : World α) (g : Garbage) : Decidable (w.domain.wasRetired g) :=
  inferInstanceAs (Decidable (.retired g ∈ w.domain.trace))

/-- The links of `q` that the head has moved past and that are not freed. -/
def overtaken (w : World α) (q : Nat) : List Nat :=
  (List.range w.store.nextLink).filter fun n =>
    (w.store.link n).home = q ∧ (w.store.link n).freed = false ∧ w.Passed n

/-- The links of `q` that were retired and not freed. -/
def unreclaimed (w : World α) (q : Nat) : List Nat :=
  (List.range w.store.nextLink).filter fun n =>
    (w.store.link n).home = q ∧ w.domain.wasRetired (.link n) ∧ .freed (.link n) ∉ w.domain.trace

/-- Every retired link of `q` was freed. -/
def reclaimed (w : World α) (q : Nat) : Prop :=
  ∀ n, (w.store.link n).home = q → w.domain.wasRetired (.link n) → .freed (.link n) ∈ w.domain.trace

/-- What the count of a queue says. -/
structure Census (w : World α) (q : Nat) : Prop where
  live : w.store.isOpen q = true → (w.store.queue q).live =
    (w.store.chain q).length + (w.unlinked q).length + (w.overtaken q).length
  /-- Nothing is counted twice. -/
  nodup : w.store.isOpen q = true → (w.store.chain q ++ w.unlinked q ++ w.overtaken q).Nodup
  overtaken : ∀ n ∈ w.overtaken q, w.domain.wasRetired (.link n) ∨
    ∃ t, ∃ o ∈ w.operations t, o.queue = q ∧ ∃ next, o.point = .take n next
  quiet : w.store.isOpen q = true → w.isQuiet q →
    (w.store.queue q).live = 1 + (w.store.values q).length + (w.unreclaimed q).length
  drained : w.store.isOpen q = true → w.isQuiet q → w.store.values q = [] → w.reclaimed q → (w.store.queue q).live = 1
  /-- Once it was torn down. -/
  closed : w.store.isOpen q = false → (w.store.queue q).live = (w.unreclaimed q).length
  gone : w.store.isOpen q = false → ((w.store.queue q).live = 0 ↔ w.reclaimed q)

end World

namespace LinksPlaced

variable {w : World α} {lay : Nat → Layout} {q n : Nat}

/-! ## The three kinds of links -/

theorem mem_chain (hr : LinksPlaced w lay) (hq : q < w.store.nextQueue) :
    n ∈ w.store.chain q ↔ ∃ i, (lay q).head ≤ i ∧ (lay q).nodes[i]? = some n := by
  rw [(hr.opsFit.laid q hq).chain_eq]
  refine ⟨Laid.mem_drop, fun ⟨i, hle, hi⟩ => List.mem_of_getElem? (i := i - (lay q).head) ?_⟩
  rw [List.getElem?_drop, Nat.add_sub_cancel' hle, hi]

theorem mem_overtaken : n ∈ w.overtaken q ↔
    n < w.store.nextLink ∧ (w.store.link n).home = q ∧ (w.store.link n).freed = false ∧ w.Passed n := by
  simp only [World.overtaken, List.mem_filter, List.mem_range, decide_eq_true_eq]

theorem mem_unreclaimed : n ∈ w.unreclaimed q ↔ n < w.store.nextLink ∧ (w.store.link n).home = q ∧
    w.domain.wasRetired (.link n) ∧ .freed (.link n) ∉ w.domain.trace := by
  simp only [World.unreclaimed, List.mem_filter, List.mem_range, decide_eq_true_eq]

/-- A link that waits to be linked has been passed by nobody. -/
theorem not_passed_of_waiting (hr : LinksPlaced w lay) {t : Nat} {p : Operation α × Bool} (hp : p ∈ w.stack t)
    (hn : p.1.point.stage = .waiting n) : ¬ w.Passed n := by
  obtain ⟨-, v, hv⟩ := (hr.opsFit.sits t p hp).brought n hn
  intro hpassed
  have hfollow := hpassed.2
  rw [hv.next] at hfollow
  cases hnl : w.store.nextLink <;> rw [hnl, Store.follow] at hfollow <;> cases hfollow

/-- A link that is not freed is in one of three places. -/
theorem places (hr : LinksPlaced w lay) (hn : n ∈ w.store.members q) : q < w.store.nextQueue ∧
    (n ∈ w.store.chain q ∨ n ∈ w.unlinked q ∨ n ∈ w.overtaken q ∧ ∃ i, (lay q).nodes[i]? = some n ∧ i < (lay q).head) := by
  obtain ⟨hlt, rfl, hf⟩ := Store.mem_members.mp hn
  obtain ⟨hq, hm | ⟨t, p, hp, hst⟩⟩ := hr.home n hlt
  · refine ⟨hq, ?_⟩
    obtain ⟨i, hi⟩ := Laid.exists_place hm
    rcases Nat.lt_or_ge i (lay (w.store.link n).home).head with h | h
    · exact Or.inr (Or.inr ⟨mem_overtaken.mpr ⟨hlt, rfl, hf, (hr.opsFit.laid _ hq).passed hi h⟩, i, hi, h⟩)
    · exact Or.inl ((hr.mem_chain hq).mpr ⟨i, h, hi⟩)
  · obtain ⟨-, v, hv⟩ := (hr.opsFit.sits t p hp).brought n hst
    exact ⟨hq, Or.inr (Or.inl (World.mem_unlinked.mpr ⟨t, p, hp, hv.home.symm, hst⟩))⟩

/-- What the head has passed stands in front of it. -/
theorem place_of_overtaken (hr : LinksPlaced w lay) (hn : n ∈ w.overtaken q) :
    q < w.store.nextQueue ∧ ∃ i, (lay q).nodes[i]? = some n ∧ i < (lay q).head := by
  obtain ⟨hlt, hhome, hf, hpassed⟩ := mem_overtaken.mp hn
  obtain ⟨hq, h | h | ⟨-, h⟩⟩ := hr.places (Store.mem_members.mpr ⟨hlt, hhome, hf⟩)
  · exact absurd (hhome ▸ h) hpassed.1
  · obtain ⟨t, p, hp, -, hst⟩ := World.mem_unlinked.mp h
    exact absurd hpassed (hr.not_passed_of_waiting hp hst)
  · exact ⟨hq, h⟩

theorem overtaken (hr : LinksPlaced w lay) (hn : n ∈ w.overtaken q) : w.domain.wasRetired (.link n) ∨
    ∃ t, ∃ o ∈ w.operations t, o.queue = q ∧ ∃ next, o.point = .take n next := by
  obtain ⟨hq, i, hi, hlt⟩ := hr.place_of_overtaken hn
  rcases hr.passed q hq i n hi hlt with hf | hret | ⟨t, p, hp, next, hpt⟩
  · rw [(mem_overtaken.mp hn).2.2.1] at hf
    cases hf
  · exact Or.inl ((Domain.mem_story rfl).mp hret)
  · have hl := hr.opsFit.laid _ (hr.opsFit.sits t p hp).queue
    have hqueue : p.1.queue = q :=
      (hl.home n (hr.opsFit.mem_of_take hp hpt)).symm.trans (mem_overtaken.mp hn).2.1
    refine Or.inr ⟨t, p.1, ?_, hqueue, next, hpt⟩
    rw [World.operations_eq]
    exact List.mem_map_of_mem hp

theorem nodup_parts (hr : LinksPlaced w lay) (hq : q < w.store.nextQueue) :
    (w.store.chain q ++ w.unlinked q ++ w.overtaken q).Nodup := by
  have hl := hr.opsFit.laid q hq
  have hchain : (w.store.chain q).Nodup := hl.chain_eq ▸ hl.nodup.drop
  have hunlinked := World.nodup_unlinked hr.opsFit q
  have hovertaken : (w.overtaken q).Nodup := List.nodup_range.filter _
  refine List.nodup_append.mpr ⟨List.nodup_append.mpr ⟨hchain, hunlinked, fun a ha b hb e => ?_⟩, hovertaken,
    fun a ha b hb e => ?_⟩ <;> subst e
  · obtain ⟨i, -, hi⟩ := (hr.mem_chain hq).mp ha
    obtain ⟨t, p, hp, rfl, hst⟩ := World.mem_unlinked.mp hb
    exact ((hr.opsFit.sits t p hp).brought a hst).1 (Laid.mem hi)
  · obtain ⟨-, hhome, -, hpassed⟩ := mem_overtaken.mp hb
    rcases List.mem_append.mp ha with ha | ha
    · exact hpassed.1 (hhome.symm ▸ ha)
    · obtain ⟨t, p, hp, -, hst⟩ := World.mem_unlinked.mp ha
      exact hr.not_passed_of_waiting hp hst hpassed

/-- The links of an open queue that are not freed. -/
theorem parts (hr : LinksPlaced w lay) (hopen : w.store.isOpen q = true) :
    (w.store.members q).Perm (w.store.chain q ++ w.unlinked q ++ w.overtaken q) := by
  have hq := Store.isOpen_lt hopen
  have hl := hr.opsFit.laid q hq
  refine (List.perm_ext_iff_of_nodup (Store.nodup_members _ _) (hr.nodup_parts hq)).mpr fun n => ?_
  rw [List.mem_append, List.mem_append]
  constructor
  · intro hn
    obtain ⟨-, h | h | ⟨h, -⟩⟩ := hr.places hn
    · exact Or.inl (Or.inl h)
    · exact Or.inl (Or.inr h)
    · exact Or.inr h
  · rintro ((h | h) | h)
    · obtain ⟨i, hle, hi⟩ := (hr.mem_chain hq).mp h
      exact Store.mem_members.mpr ⟨hl.bound n (Laid.mem hi), hl.home n (Laid.mem hi), hr.live q hopen i n hle hi⟩
    · obtain ⟨t, p, hp, rfl, hst⟩ := World.mem_unlinked.mp h
      obtain ⟨-, v, hv⟩ := (hr.opsFit.sits t p hp).brought n hst
      exact Store.mem_members.mpr ⟨hv.bound, hv.home, (hr.minds t p hp).brought n hst⟩
    · obtain ⟨hlt, hhome, hf, -⟩ := mem_overtaken.mp h
      exact Store.mem_members.mpr ⟨hlt, hhome, hf⟩

/-! ## When nobody works on the queue -/

/-- What the head has passed is what waits to be freed. -/
theorem overtaken_eq (hr : LinksPlaced w lay) (hq : w.isQuiet q) : w.overtaken q = w.unreclaimed q := by
  refine List.filter_congr fun n hlt => decide_eq_decide.mpr ?_
  have hlt := List.mem_range.mp hlt
  refine and_congr_right fun hhome => ?_
  constructor
  · intro ⟨hf, hpassed⟩
    rcases hr.overtaken (mem_overtaken.mpr ⟨hlt, hhome, hf, hpassed⟩) with hret | ⟨t, o, ho, hoq, -⟩
    · refine ⟨hret, fun hsaid => ?_⟩
      rw [(hr.said n ((Domain.mem_story rfl).mpr hret)).mpr ((Domain.mem_story rfl).mpr hsaid)] at hf
      cases hf
    · exact absurd hoq (hq t o ho)
  · intro ⟨hret, hunsaid⟩
    have hret := (Domain.mem_story rfl).mpr hret
    obtain ⟨p, i, hp, hi, hih⟩ := hr.retired n hret
    exact ⟨Bool.of_not_eq_true fun hf => hunsaid ((Domain.mem_story rfl).mp ((hr.said n hret).mp hf)),
      (hr.opsFit.laid p hp).passed hi hih⟩

theorem unreclaimed_eq_nil (hr : LinksPlaced w lay) : w.unreclaimed q = [] ↔ w.reclaimed q := by
  rw [List.eq_nil_iff_forall_not_mem]
  constructor
  · intro h n hhome hret
    have hlt := hr.retired_lt ((Domain.mem_story rfl).mpr hret)
    exact Decidable.of_not_not fun hsaid => h n (mem_unreclaimed.mpr ⟨hlt, hhome, hret, hsaid⟩)
  · intro h n hn
    obtain ⟨-, hhome, hret, hsaid⟩ := mem_unreclaimed.mp hn
    exact hsaid (h n hhome hret)

/-- Of a queue that was torn down only garbage is left. -/
theorem members_of_closed (hr : LinksPlaced w lay) (hq : q < w.store.nextQueue) (hclosed : w.store.isOpen q = false) :
    (w.store.members q).Perm (w.unreclaimed q) := by
  have hl := hr.opsFit.laid q hq
  have hquiet := hr.isQuiet_of_closed hclosed
  rw [← hr.overtaken_eq hquiet]
  refine (List.perm_ext_iff_of_nodup (Store.nodup_members _ _) (List.nodup_range.filter _)).mpr fun n => ⟨fun hn => ?_,
    fun hn => ?_⟩
  · obtain ⟨-, h | h | ⟨h, -⟩⟩ := hr.places hn
    · -- the one link that is left in the chain is freed
      obtain ⟨i, hle, hi⟩ := (hr.mem_chain hq).mp h
      have hlt := (lay q).lt_of_getElem? hi
      have hlen := hr.closed q hq hclosed
      cases (by omega : i = (lay q).head)
      rw [Option.some.inj (hi.symm.trans hl.head)] at hn
      rw [Store.isOpen_iff.mpr ⟨hq, (Store.mem_members.mp hn).2.2⟩] at hclosed
      cases hclosed
    · rw [World.unlinked_of_isQuiet hquiet] at h
      cases h
    · exact h
  · obtain ⟨hlt, hhome, hf, -⟩ := mem_overtaken.mp hn
    exact Store.mem_members.mpr ⟨hlt, hhome, hf⟩

theorem counts (hr : LinksPlaced w lay) (hq : q < w.store.nextQueue) : w.Census q := by
  have hl := hr.opsFit.laid q hq
  have hlive : w.store.isOpen q = true → (w.store.queue q).live =
      (w.store.chain q).length + (w.unlinked q).length + (w.overtaken q).length := fun hopen => by
    rw [hr.counted q, (hr.parts hopen).length_eq, List.length_append, List.length_append]
  have hquiet : w.store.isOpen q = true → w.isQuiet q →
      (w.store.queue q).live = 1 + (w.store.values q).length + (w.unreclaimed q).length := fun hopen h => by
    have hlen := hl.length_values
    rw [hlive hopen, World.unlinked_of_isQuiet h, hr.overtaken_eq h, hl.chain_eq, List.length_drop, List.length_nil]
    omega
  have hclosed : w.store.isOpen q = false → (w.store.queue q).live = (w.unreclaimed q).length := fun h => by
    rw [hr.counted q, (hr.members_of_closed hq h).length_eq]
  refine ⟨hlive, fun _ => hr.nodup_parts hq, fun n hn => hr.overtaken hn, hquiet, fun hopen h hnil hfreed => ?_,
    hclosed, fun h => ?_⟩
  · rw [hquiet hopen h, hnil, hr.unreclaimed_eq_nil.mpr hfreed]
    rfl
  · rw [hclosed h, List.length_eq_zero_iff, hr.unreclaimed_eq_nil]

end LinksPlaced

/-- Every queue counts its links right, between any two accesses. -/
theorem World.Reach.census {w : World α} (h : w.Reach) {q : Nat} (hq : q < w.store.nextQueue) : w.Census q := by
  obtain ⟨lay, hr⟩ := h.linksPlaced
  exact hr.counts hq

/-- Thread 0 has enqueued twice and dequeued once. Then thread 1 has allocated a link and not linked it,
    and thread 2 has swung the head and not retired the old sentinel. -/
def World.crowdedRun : List (Nat × Move Nat) :=
  [(0, .newQueue .standard), (0, .tryEnqueue 0 7 true)] ++ List.replicate 8 (0, .step) ++
    [(0, .tryEnqueue 0 8 true)] ++ List.replicate 8 (0, .step) ++ [(0, .dequeue 0)] ++ List.replicate 10 (0, .step) ++
    [(1, .tryEnqueue 0 9 true)] ++ List.replicate 3 (1, .step) ++ [(2, .dequeue 0)] ++ List.replicate 7 (2, .step)

theorem World.crowdedRun_plays : (({} : World Nat).play World.crowdedRun).isSome = true := by decide +kernel

def World.crowdedEnd : World Nat := (({} : World Nat).play World.crowdedRun).get World.crowdedRun_plays

theorem World.crowdedEnd_reached : World.crowdedEnd.Reach := .of_play .start (Option.some_get World.crowdedRun_plays).symm

theorem World.crowdedEnd_census : World.crowdedEnd.store.chain 0 = [2] ∧ World.crowdedEnd.unlinked 0 = [3] ∧
    World.crowdedEnd.overtaken 0 = [0, 1] ∧ (World.crowdedEnd.store.queue 0).live = 4 ∧
    World.crowdedEnd.domain.wasRetired (.link 0) ∧ World.crowdedEnd.Census 0 := by
  have hchain : World.crowdedEnd.store.chain 0 = [2] := by decide +kernel
  have hunlinked : World.crowdedEnd.unlinked 0 = [3] := by decide +kernel
  have hovertaken : World.crowdedEnd.overtaken 0 = [0, 1] := by decide +kernel
  have hcensus := World.Reach.census World.crowdedEnd_reached (q := 0) (by decide +kernel)
  have hlive := hcensus.live (by decide +kernel)
  rw [hchain, hunlinked, hovertaken] at hlive
  exact ⟨hchain, hunlinked, hovertaken, hlive, by decide +kernel, hcensus⟩

end EpochQueue.Fifo
