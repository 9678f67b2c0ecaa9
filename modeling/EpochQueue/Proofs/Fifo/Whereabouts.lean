/-
  EpochQueue.Proofs.Fifo.Whereabouts — where every link is, from its allocation to its end.

  A link that was allocated is in the list of its queue, or an enqueue brings it. One that the head
  has moved past is freed, or garbage, or about to be made garbage by the dequeue that moved the head;
  what was garbage is freed just when the domain says so. Up to the head no link carries a value,
  but for the one that a dequeue is about to take. A queue that was torn down has nothing left behind
  its head. With that, every queue counts its links right (`LinksPlaced`, `World.Reach.linksPlaced`).
-/

import EpochQueue.Proofs.Fifo.Keeping
import EpochQueue.Proofs.Reclaim.Books

namespace EpochQueue.Fifo

open Reclaim (Notice Domain)

variable {α : Type}

/-- Every link that was allocated is in its place: in a list, or brought by an enqueue, and once the head
    has moved past it garbage or about to become that. -/
structure LinksPlaced (w : World α) (lay : Nat → Layout) : Prop extends Kept w lay where
  counted : w.store.Counted
  home : ∀ n, n < w.store.nextLink → (w.store.link n).home < w.store.nextQueue ∧
    (n ∈ (lay (w.store.link n).home).nodes ∨ ∃ t, ∃ p ∈ w.stack t, p.1.point.stage = .waiting n)
  passed : ∀ q, q < w.store.nextQueue → ∀ i n, (lay q).nodes[i]? = some n → i < (lay q).head →
    (w.store.link n).freed = true ∨ .retired (.link n) ∈ w.domain.story ∨
      ∃ t, ∃ p ∈ w.stack t, ∃ next, p.1.point = .take n next
  said : ∀ n, .retired (.link n) ∈ w.domain.story →
    ((w.store.link n).freed = true ↔ .freed (.link n) ∈ w.domain.story)
  leaving : ∀ t, ∀ p ∈ w.stack t, ∀ n next, p.1.point = .take n next → (w.store.link n).freed = false
  closed : ∀ q, q < w.store.nextQueue → w.store.isOpen q = false → (lay q).nodes.length ≤ (lay q).head + 1
  spent : ∀ q, q < w.store.nextQueue → ∀ i n, (lay q).nodes[i]? = some n → i ≤ (lay q).head →
    (w.store.link n).value = none ∨ ∃ t, ∃ p ∈ w.stack t, p.1.point.stage = .taking n

section

variable {w w' : World α} {lay lay' : Nat → Layout} {t : Nat} {m : Move α}

/-! ## What operations have in hand -/

/-- An enqueue keeps the link that it brings until it has linked it. -/
theorem Goes.waiting {p : Operation α × Bool} (hgo : Goes w t w' lay lay' p) {n : Nat}
    (hn : p.1.point.stage = .waiting n) :
    (∃ p' ∈ w'.stack t, p'.1.point.stage = .waiting n) ∨ n ∈ (lay' p.1.queue).nodes := by
  cases hgo with
  | accessed o spot hp hf _ hk =>
    rw [show (o, false).1.point = _ from hp] at hn
    rcases hf with hf | ⟨node, _, _, rfl, -, -, hnodes, -⟩ | ⟨_, _, _, rfl, -⟩
    · rcases hf.stage with h | ⟨h, -⟩ | ⟨⟨_, _, rfl⟩, -⟩
      · exact Or.inl ⟨_, hk, h.trans hn⟩
      · rw [hn] at h; cases h
      · cases hn
    · cases hn
      exact Or.inr (hnodes ▸ List.mem_append_right _ List.mem_cons_self)
    · cases hn
  | took o head next hp => rw [show (o, false).1.point = _ from hp] at hn; cases hn
  | resumed o g hk => exact Or.inl ⟨_, hk, hn⟩
  | left o r hp =>
    rw [show (o, false).1.point = _ from hp] at hn
    rcases r with _ | ⟨_ | _⟩ | _ <;> cases hn

/-- A dequeue that has moved the head takes the value and retires the old sentinel. -/
theorem Goes.take {p : Operation α × Bool} (hgo : Goes w t w' lay lay' p) {head next : Nat}
    (hp : p.1.point = .take head next) : (∃ p' ∈ w'.stack t, p'.1.point = .take head next) ∨
      .retired (.link head) ∈ w'.domain.story ∧ w'.store = (w.store.takeValue next).2 := by
  cases hgo with
  | accessed o spot h => rw [show (o, false).1.point = _ from h] at hp; cases hp
  | took o head next h hs hst =>
    rw [show (o, false).1.point = _ from h] at hp
    cases hp
    exact Or.inr ⟨hst, hs⟩
  | resumed o g hk => exact Or.inl ⟨_, hk, hp⟩
  | left o r h => rw [show (o, false).1.point = _ from h] at hp; cases hp

/-- So it goes with every dequeue, whatever the move is. -/
theorem Did.take_kept (hd : Did w lay t m w' lay') (hk : ∀ u, u ≠ t → w'.stack u = w.stack u) {u : Nat}
    {p : Operation α × Bool} (hp : p ∈ w.stack u) {head next : Nat} (hpt : p.1.point = .take head next) :
    (∃ p' ∈ w'.stack u, p'.1.point = .take head next) ∨
      .retired (.link head) ∈ w'.domain.story ∧ w'.store = (w.store.takeValue next).2 := by
  rcases hd.goes hk hp with hp' | ⟨rfl, hgo⟩
  · exact Or.inl ⟨p, hp', hpt⟩
  · exact hgo.take hpt

/-- The old sentinel is in the list still. -/
theorem OpsFit.mem_of_take (hw : OpsFit w lay) {p : Operation α × Bool} (hp : p ∈ w.stack t) {head next : Nat}
    (hpt : p.1.point = .take head next) : head ∈ (lay p.1.queue).nodes := by
  have hfit := (hw.sits t p hp).fits
  rw [hpt] at hfit
  obtain ⟨i, -, -, hi, -⟩ := hfit
  exact Laid.mem hi

theorem Point.take_of_taking {p : Point α} {n : Nat} (h : p.stage = .taking n) : ∃ head, p = .take head n := by
  unfold Point.stage at h
  split at h <;> cases h
  exact ⟨_, rfl⟩

/-! ## Garbage -/

/-- What a collection has still to destroy was not destroyed. -/
theorem QueueInv.unsaid (hs : QueueInv w lay) {n : Garbage} (hn : n ∈ (w.domain.thread t).todo) :
    .freed n ∉ w.domain.story := by
  intro h
  have hb := hs.reach.balanced
  have hnodup := hb.perm.nodup_iff.mp hb.nodup
  exact (List.nodup_append.mp hnodup).2.2 n (Domain.mem_frees.mpr ((Domain.mem_story rfl).mp h)) n
    (Domain.mem_books.mpr (Or.inl ⟨t, Or.inr (Or.inr hn)⟩)) rfl

/-- What was destroyed was garbage. -/
theorem QueueInv.retired_of_freed (hs : QueueInv w lay) {n : Garbage} (h : .freed n ∈ w.domain.story) :
    .retired n ∈ w.domain.story := by
  have hmem := Domain.mem_frees.mpr ((Domain.mem_story rfl).mp h)
  exact (Domain.mem_story rfl).mpr (Domain.mem_retirements.mp
    (hs.reach.balanced.perm.mem_iff.mpr (List.mem_append_left _ hmem)))

/-- What a thread has to destroy was retired. -/
theorem QueueInv.retired_of_stock (hs : QueueInv w lay) {n : Garbage} (h : n ∈ (w.domain.thread t).stock) :
    .retired n ∈ w.domain.story := by
  have hbooks := Domain.mem_books_iff_stock.mpr (.inl ⟨t, h⟩)
  exact (Domain.mem_story rfl).mpr (Domain.mem_retirements.mp
    (hs.reach.balanced.perm.mem_iff.mpr (List.mem_append_right _ hbooks)))

/-! ## Every move -/

namespace LinksPlaced

theorem home' (hr : LinksPlaced w lay) (hd : Did w lay t m w' lay') (hk : ∀ u, u ≠ t → w'.stack u = w.stack u) {n : Nat}
    (hn : n < w'.store.nextLink) : (w'.store.link n).home < w'.store.nextQueue ∧
      (n ∈ (lay' (w'.store.link n).home).nodes ∨ ∃ u, ∃ p ∈ w'.stack u, p.1.point.stage = .waiting n) := by
  rcases Nat.lt_or_ge n w.store.nextLink with hold | hnew
  case inr =>
    obtain ⟨hq, h⟩ := hd.allocates hn hnew
    exact ⟨hq, h.imp_right fun h => ⟨t, h⟩⟩
  obtain ⟨hq, h⟩ := hr.home n hold
  rw [(hd.ages hold).home]
  refine ⟨Nat.lt_of_lt_of_le hq hd.nextQueue_le, ?_⟩
  rcases h with hm | ⟨u, p, hp, hst⟩
  · exact Or.inl ((hd.grows hq).nodes.subset hm)
  · rcases hd.goes hk hp with hp' | ⟨rfl, hgo⟩
    · exact Or.inr ⟨u, p, hp', hst⟩
    · refine (hgo.waiting hst).symm.imp (fun hm => ?_) fun h => ⟨u, h⟩
      obtain ⟨-, v, hv⟩ := (hr.opsFit.sits u p hp).brought n hst
      rwa [hv.home]

theorem passed' (hr : LinksPlaced w lay) (hd : Did w lay t m w' lay') (hk : ∀ u, u ≠ t → w'.stack u = w.stack u)
    {l : List (Notice Garbage)} (hst : w'.domain.story = w.domain.story ++ l) {q : Nat} (hq : q < w'.store.nextQueue)
    {i n : Nat} (hi : (lay' q).nodes[i]? = some n) (hlt : i < (lay' q).head) :
    (w'.store.link n).freed = true ∨ .retired (.link n) ∈ w'.domain.story ∨
      ∃ u, ∃ p ∈ w'.stack u, ∃ next, p.1.point = .take n next := by
  rcases Nat.lt_or_ge q w.store.nextQueue with hold | hnew
  case inr =>
    rw [(hd.queue_new hq hnew).1] at hlt
    exact absurd hlt (Nat.not_lt_zero i)
  have hin := hd.place_of_le_head hr.opsFit hold (Nat.le_of_lt hlt) hi
  -- the head has passed the link before, or the move has taken it there
  have hbefore : i < (lay q).head → (w'.store.link n).freed = true ∨
      .retired (.link n) ∈ w'.domain.story ∨ ∃ u, ∃ p ∈ w'.stack u, ∃ next, p.1.point = .take n next := fun hih => by
    rcases hr.passed q hold i n hin hih with hf | hret | ⟨u, p, hp, next, hpt⟩
    · exact Or.inl ((hd.ages ((hr.opsFit.laid q hold).bound n (Laid.mem hin))).freed hf)
    · exact Or.inr (Or.inl (hst ▸ List.mem_append_left l hret))
    · rcases hd.take_kept hk hp hpt with ⟨p', hp', hpt'⟩ | ⟨hret, -⟩
      · exact Or.inr (Or.inr ⟨u, p', hp', next, hpt'⟩)
      · exact Or.inr (Or.inl hret)
  rcases Nat.lt_or_ge i (lay q).head with hih | hih
  · exact hbefore hih
  rcases hd.heads hr.opsFit hold with hsame | ⟨p, hp', head, next, hpt, hn, -, hmoved⟩ | ⟨-, hempty⟩
  · exact hbefore (by omega)
  · cases Nat.le_antisymm (by omega : i ≤ (lay q).head) hih
    cases Option.some.inj (hin.symm.trans hn)
    exact Or.inr (Or.inr ⟨t, p, hp', next, hpt⟩)
  · exact Or.inl ((hempty i n hin).1 hih hlt)

theorem spent' (hr : LinksPlaced w lay) (hd : Did w lay t m w' lay') (hk : ∀ u, u ≠ t → w'.stack u = w.stack u)
    {q : Nat} (hq : q < w'.store.nextQueue) {i n : Nat} (hi : (lay' q).nodes[i]? = some n) (hle : i ≤ (lay' q).head) :
    (w'.store.link n).value = none ∨ ∃ u, ∃ p ∈ w'.stack u, p.1.point.stage = .taking n := by
  rcases Nat.lt_or_ge q w.store.nextQueue with hold | hnew
  case inr =>
    obtain ⟨hlay, hlink⟩ := hd.queue_new hq hnew
    rw [hlay] at hi
    cases List.mem_singleton.mp (List.mem_of_getElem? hi)
    exact Or.inl (by rw [hlink])
  have hin := hd.place_of_le_head hr.opsFit hold hle hi
  have hbefore : i ≤ (lay q).head → (w'.store.link n).value = none ∨
      ∃ u, ∃ p ∈ w'.stack u, p.1.point.stage = .taking n := fun hih => by
    rcases hr.spent q hold i n hin hih with hv | ⟨u, p, hp, hst⟩
    · refine Or.inl ?_
      rcases (hd.ages ((hr.opsFit.laid q hold).bound n (Laid.mem hin))).value with h | h
      · rw [h, hv]
      · exact h
    · obtain ⟨head, hpt⟩ := Point.take_of_taking hst
      rcases hd.take_kept hk hp hpt with ⟨p', hp', hpt'⟩ | ⟨-, hs⟩
      · exact Or.inr ⟨u, p', hp', by rw [hpt']; rfl⟩
      · exact Or.inl (by rw [hs, Store.link_takeValue, if_pos rfl])
  rcases Nat.lt_or_ge (lay q).head i with hih | hih
  case inr => exact hbefore hih
  rcases hd.heads hr.opsFit hold with hsame | ⟨p, hp', head, next, hpt, -, hn, hmoved⟩ | ⟨-, hempty⟩
  · exact hbefore (by omega)
  · cases Nat.le_antisymm (by omega : i ≤ (lay q).head + 1) hih
    cases Option.some.inj (hin.symm.trans hn)
    exact Or.inr ⟨t, p, hp', by rw [hpt]; rfl⟩
  · exact ((hempty i n hin).2 hih).imp_right fun h => absurd hle (Nat.not_le_of_lt h)

/-- Nobody frees the old sentinel before the dequeue that moved the head makes it garbage. -/
theorem unfreed_of_take (hr : LinksPlaced w lay) (hd : Did w lay t m w' lay') {u : Nat} {p : Operation α × Bool}
    (hp : p ∈ w.stack u) {n next : Nat} (hpt : p.1.point = .take n next) : (w'.store.link n).freed = false := by
  have hl := hr.opsFit.laid _ (hr.opsFit.sits u p hp).queue
  have hmem := hr.opsFit.mem_of_take hp hpt
  refine hr.unfreed hd (hl.bound n hmem) (hr.leaving u p hp n next hpt) (hr.taking u p hp n next hpt) fun hquiet => ?_
  rw [hl.home n hmem] at hquiet
  exact absurd hquiet (World.not_quiet hp)

theorem leaving' (hr : LinksPlaced w lay) (hd : Did w lay t m w' lay') (hk : ∀ u, u ≠ t → w'.stack u = w.stack u)
    {u : Nat} {p : Operation α × Bool} (hp' : p ∈ w'.stack u) {n next : Nat} (hpt : p.1.point = .take n next) :
    (w'.store.link n).freed = false := by
  by_cases e : u = t
  case neg => exact hr.unfreed_of_take hd (hk u e ▸ hp') hpt
  subst e
  rcases hd.comes hp' with hp | hcomes
  · exact hr.unfreed_of_take hd hp hpt
  cases hcomes with
  | began o r hst =>
    generalize w'.store = s at hst
    cases hst <;> cases hpt
  | accessed o spot hp ho hv hf =>
    -- it has just swung the head from there
    have hq := (hr.opsFit.sits u _ ho).queue
    have hhead := Served.taking hf hpt
    have hl := hr.opsFit.laid _ hq
    refine hr.unfreed hd (hl.bound n (Laid.mem hhead)) (hr.live _ (hr.minds u _ ho).opened _ n (Nat.le_refl _) hhead)
      (fun hret => Nat.lt_irrefl _ (hr.lt_head hq hhead hret)) fun hquiet => ?_
    rw [hl.home n (Laid.mem hhead)] at hquiet
    exact absurd hquiet (World.not_quiet ho)
  | took => cases hpt
  | resumed o g ho => exact hr.unfreed_of_take hd ho hpt

/-- What has become garbage just now is not freed yet. -/
theorem said' (hr : LinksPlaced w lay) (hd : Did w lay t m w' lay') {l : List (Notice Garbage)}
    (hst : w'.domain.story = w.domain.story ++ l) {n : Nat} (hn : .retired (.link n) ∈ w'.domain.story) :
    (w'.store.link n).freed = true ↔ .freed (.link n) ∈ w'.domain.story := by
  rcases hd.retires hr.opsFit hn with hret | ⟨hstory, -, -, p, hp, next, hpt⟩
  · obtain ⟨q, i, hq, hi, -⟩ := hr.retired n hret
    have hb := (hr.opsFit.laid q hq).bound n (Laid.mem hi)
    refine ⟨fun hf => ?_, fun hf => ?_⟩
    · rcases hd.frees hr.opsFit hb with h | ⟨-, h⟩ | ⟨p, j, -, hp, hj, hle, -⟩
      · rw [hst]
        exact List.mem_append_left _ ((hr.said n hret).mp (h ▸ hf))
      · exact h
      · -- what an only owner frees is not garbage
        exact absurd (hr.lt_head hp hj hret) (Nat.not_lt_of_le hle)
    · rcases hd.says_freed hf with h | h
      · exact (hd.ages hb).freed ((hr.said n hret).mpr h)
      · exact h
  · rw [hr.unfreed_of_take hd hp hpt, hstory, List.mem_append]
    refine ⟨nofun, fun h => ?_⟩
    exact absurd (hr.retired_of_freed (h.resolve_right (by simp))) (hr.taking t p hp n next hpt)

theorem closed' (hr : LinksPlaced w lay) (hd : Did w lay t m w' lay') (hw' : OpsFit w' lay') {q : Nat}
    (hq : q < w'.store.nextQueue) (hclosed : w'.store.isOpen q = false) :
    (lay' q).nodes.length ≤ (lay' q).head + 1 := by
  rcases Nat.lt_or_ge q w.store.nextQueue with hold | hnew
  case inr =>
    rw [(hd.queue_new hq hnew).1]
    exact Nat.le_refl 1
  have hl' := hw'.laid q hq
  cases hopen : w.store.isOpen q with
  | false =>
    -- nothing happens to a queue that is not open
    rcases hd.still hold with hlay | h | ⟨p, hp, rfl⟩
    · exact hlay ▸ hr.closed q hold hopen
    · rw [hopen] at h; cases h
    · rw [(hr.minds t p hp).opened] at hopen; cases hopen
  | true =>
    refine Nat.le_of_not_lt fun hmore => ?_
    have hf := hr.standing hd hopen (fun _ => Or.inr hmore) (Nat.le_refl _) hl'.head
    rw [Store.isOpen_iff.mpr ⟨hq, hf⟩] at hclosed
    cases hclosed

theorem counted' (hr : LinksPlaced w lay) (hd : Did w lay t m w' lay') : w'.store.Counted := by
  have hstands : ∀ {q}, w.store.isOpen q = true → Laid.Stands w.store (lay q) := fun h i n hi hn => hr.live _ h i n hi hn
  cases hd with
  | called _ _ hs => exact hs ▸ hr.counted
  | freed n hn _ _ hs =>
    have hret := hr.reach.accounted.todo t _ hn
    obtain ⟨q, i, hq, hi, -⟩ := hr.retired n hret
    rw [hs]
    refine hr.counted.free ((hr.opsFit.laid q hq).bound n (Laid.mem hi)) (Bool.of_not_eq_true fun hf => ?_)
    exact hr.unsaid hn ((hr.said n hret).mp hf)
  | made limits _ _ hs =>
    rw [hs]
    refine hr.counted.newQueue (List.eq_nil_iff_forall_not_mem.mpr fun n hn => ?_) limits
    obtain ⟨hlt, hhome, -⟩ := Store.mem_members.mp hn
    exact Nat.lt_irrefl _ (hhome ▸ (hr.home n hlt).1)
  | began o r hst =>
    generalize w'.store = s at hst
    cases hst with
    | enqueue q v b => exact hr.counted.alloc q _
    | _ => exact hr.counted
  | accessed o spot _ _ _ _ _ _ _ _ hs => exact hs ▸ hr.counted.steady (Store.steady_access _ _ _)
  | took _ _ next _ _ _ _ _ _ hs => exact hs ▸ hr.counted.takeValue next
  | resumed _ _ _ _ _ _ _ _ hs => exact hs ▸ hr.counted
  | left _ _ _ _ _ _ _ _ hs => exact hs ▸ hr.counted
  | popped q _ _ _ _ hopen _ _ _ _ _ _ _ _ _ hs =>
    exact hs ▸ (hr.opsFit.laid q (Store.isOpen_lt hopen)).counted_pop (hstands hopen) hr.counted
  | tornDown q _ _ hopen _ _ _ _ _ _ _ _ hs =>
    exact hs ▸ (hr.opsFit.laid q (Store.isOpen_lt hopen)).counted_tearDown (hstands hopen) hr.counted

/-- No move loses a link. -/
theorem step (hr : LinksPlaced w lay) (hm : w.may t m) (hd : Did w lay t m (w.move t m) lay') :
    LinksPlaced (w.move t m) lay' := by
  have hk : ∀ u, u ≠ t → (w.move t m).stack u = w.stack u := fun u e => World.stack_of_ne e m
  have hkept := hr.toKept.step hm hd
  obtain ⟨l, hst⟩ := hr.story hd
  exact ⟨hkept, hr.counted' hd, fun n hn => hr.home' hd hk hn, fun q hq i n hi hlt => hr.passed' hd hk hst hq hi hlt,
    fun n hn => hr.said' hd hst hn, fun u p hp n next hpt => hr.leaving' hd hk hp hpt,
    fun q hq hc => hr.closed' hd hkept.opsFit hq hc, fun q hq i n hi hle => hr.spent' hd hk hq hi hle⟩

theorem empty : LinksPlaced ({} : World α) fun _ => ⟨[], 0, 0⟩ :=
  ⟨.empty, fun _ => rfl, nofun, nofun, nofun, nofun, nofun, nofun⟩

end LinksPlaced

end

theorem World.Reach.linksPlaced {w : World α} (h : w.Reach) : ∃ lay, LinksPlaced w lay := by
  induction h with
  | start => exact ⟨_, .empty⟩
  | move t m _ hm ih =>
    obtain ⟨lay, hr⟩ := ih
    obtain ⟨lay', hd⟩ := hr.opsFit.did hm
    exact ⟨lay', hr.step hm hd⟩

end EpochQueue.Fifo
