/-
  EpochQueue.Proofs.Fifo.Heedless — what holds of queues whoever uses them, and how.

  Nobody is asked here to leave a queue alone that was torn down or that others work on. Links
  are freed too early then, but they keep their places: every queue has its layout, garbage
  stands in front of the head, and the tail is the last link or the one before it (`QueueInv`). So
  no link is retired twice, and whoever works on a queue alone gets through.

  `QueueInv.did` is about the moves that heed the others, `QueueInv.began` and `QueueInv.emptied` about
  those that need not: an operation that begins on whatever queue, and a queue that is popped from
  or torn down at whatever time.
-/

import EpochQueue.Proofs.Fifo.Fates

namespace EpochQueue.Fifo

open Reclaim (Domain)

variable {α : Type}

/-- An enqueue that is about to link behind a link has seen the tail there. -/
def Point.Trails (L : Layout) : Point α → Prop
  | .access (.enqueue _ (.loadNext tail)) | .access (.enqueue _ (.reloadTail tail _))
  | .access (.enqueue _ (.link tail)) => ∃ i, i ≤ L.tail ∧ L.nodes[i]? = some tail
  | _ => True

theorem Point.Trails.grows {p : Point α} {L L' : Layout} (h : p.Trails L) (hg : L.Grows L') : p.Trails L' := by
  unfold Point.Trails at h ⊢
  split at h
  case h_4 => trivial
  all_goals
    obtain ⟨i, hi, hn⟩ := h
    exact ⟨i, Nat.le_trans hi hg.tail, hg.getElem? hn⟩

/-- The tail is at most one link behind. -/
def Layout.Taut (L : Layout) : Prop := L.nodes.length ≤ L.tail + 2

theorem Layout.Grows.taut {L L' : Layout} (hg : L.Grows L') (hn : L'.nodes = L.nodes) (h : L.Taut) : L'.Taut := by
  have := hg.tail
  unfold Taut at h ⊢
  rw [hn]
  omega

namespace Laid

variable {s : Store α} {o : Operation α} {spot : Spot} {L L' : Layout}

theorem trails_access (hl : Laid s o.queue L) (hg : L.Grows L') (h : (Point.access spot : Point α).Trails L) :
    (s.access o spot).op.point.Trails L' := by
  refine Point.Trails.grows (L := L) ?_ hg
  rcases spot with ⟨node, place⟩ | place | place
  · cases place with
    | loadTail => exact ⟨L.tail, Nat.le_refl _, hl.tail⟩
    | loadNext tail => exact h
    | reloadTail tail next =>
      simp only [Store.access, Store.accessEnqueue]
      split
      · trivial
      · cases next with
        | none => exact h
        | some next => trivial
    | helpTail tail next => trivial
    | link tail =>
      simp only [Store.access, Store.accessEnqueue]
      split <;> trivial
    | swingTail tail => trivial
  · cases place with
    | reloadHead head tail next =>
      simp only [Store.access, Store.accessDequeue]
      split
      · trivial
      · cases next with
        | none => trivial
        | some next => dsimp only; split <;> trivial
    | swingHead head next =>
      simp only [Store.access, Store.accessDequeue]
      split <;> trivial
    | _ => trivial
  · cases place <;> trivial

/-- Whoever links behind the last link has the tail there. -/
theorem taut_access (hl : Laid s o.queue L) (hv : Served s o spot L L')
    (hf : Served.Idle s o spot L L' ∨ Served.Appends s o spot L L' ∨ Served.Removes s o spot L L')
    (h : (Point.access spot : Point α).Trails L) (ht : L.Taut) : L'.Taut := by
  rcases hf with hf | ⟨node, tail, v, rfl, hacc, -, hnodes, -⟩ | ⟨_, _, _, -, -, -, hnodes, -⟩
  · exact hv.grows.taut hf.nodes ht
  · obtain ⟨i, hi, hn⟩ := h
    have hnone : (s.link tail).next = none := by
      cases hnext : (s.link tail).next with
      | none => rfl
      | some m => simp [Store.access, Store.accessEnqueue, Store.casNext, hnext] at hacc
    have hlen := hl.last_of_next_none hn hnone
    have := hv.grows.tail
    unfold Layout.Taut
    rw [hnodes, List.length_append, List.length_singleton]
    omega
  · exact hv.grows.taut hnodes ht

end Laid

namespace Store

/-! ## What is made, and when -/

theorem next_pop (s : Store α) (q : Nat) :
    (s.pop q).2.nextQueue = s.nextQueue ∧ (s.pop q).2.nextLink = s.nextLink := by
  unfold pop
  dsimp only
  split <;> exact ⟨rfl, rfl⟩

theorem next_popAll (q : Nat) : ∀ (fuel : Nat) (s : Store α),
    (s.popAll q fuel).2.nextQueue = s.nextQueue ∧ (s.popAll q fuel).2.nextLink = s.nextLink := by
  intro fuel
  induction fuel with
  | zero => exact fun _ => ⟨rfl, rfl⟩
  | succ fuel ih =>
    intro s
    have hpop := next_pop s q
    unfold popAll
    split
    next s' h => rw [h] at hpop; exact hpop
    next v s' h => rw [h] at hpop; exact ⟨(ih s').1.trans hpop.1, (ih s').2.trans hpop.2⟩

theorem next_tearDown (s : Store α) (q : Nat) :
    (s.tearDown q).2.nextQueue = s.nextQueue ∧ (s.tearDown q).2.nextLink = s.nextLink :=
  next_popAll q s.nextLink s

end Store

/-- What holds of the queues whatever callers do: operations fit the layouts, garbage stands in front of
    the head, no link is about to be retired again, and the tail is at most one link behind. -/
structure QueueInv (w : World α) (lay : Nat → Layout) : Prop where
  opsFit : OpsFit w lay
  reach : w.domain.Reach
  retired : ∀ n, .retired (.link n) ∈ w.domain.story →
    ∃ q i, q < w.store.nextQueue ∧ (lay q).nodes[i]? = some n ∧ i < (lay q).head
  taking : ∀ t, ∀ p ∈ w.stack t, ∀ head next, p.1.point = .take head next → .retired (.link head) ∉ w.domain.story
  taut : ∀ q, q < w.store.nextQueue → (lay q).Taut
  trails : ∀ t, ∀ p ∈ w.stack t, p.1.point.Trails (lay p.1.queue)

namespace QueueInv

variable {w w' : World α} {lay lay' : Nat → Layout} {t : Nat} {m : Move α}

theorem empty : QueueInv ({} : World α) fun _ => ⟨[], 0, 0⟩ :=
  ⟨⟨nofun, nofun, .empty⟩, .start, nofun, nofun, nofun, nofun⟩

/-- Garbage stands in front of the head. -/
theorem lt_head (hs : QueueInv w lay) {q i n : Nat} (hq : q < w.store.nextQueue) (hi : (lay q).nodes[i]? = some n)
    (hr : .retired (.link n) ∈ w.domain.story) : i < (lay q).head := by
  obtain ⟨p, j, hp, hj, hlt⟩ := hs.retired n hr
  have hl := hs.opsFit.laid q hq
  have hpq : p = q := ((hs.opsFit.laid p hp).home n (Laid.mem hj)).symm.trans (hl.home n (Laid.mem hi))
  subst hpq
  rwa [hl.place hi hj]

/-- What was retired was allocated before. -/
theorem retired_lt (hs : QueueInv w lay) {n : Nat} (hr : .retired (.link n) ∈ w.domain.story) :
    n < w.store.nextLink := by
  obtain ⟨q, i, hq, hi, -⟩ := hs.retired n hr
  exact (hs.opsFit.laid q hq).bound n (Laid.mem hi)

/-! ## Moves that heed the others -/

theorem taut' (hs : QueueInv w lay) (hd : Did w lay t m w' lay') : ∀ q, q < w'.store.nextQueue → (lay' q).Taut := by
  intro q hq
  rcases Nat.lt_or_ge q w.store.nextQueue with hlt | hge
  · have hold := hs.taut q hlt
    have hrelay : ∀ {p L}, (q = p → L.Taut) → (relay lay p L q).Taut := fun {p L} h => by
      by_cases e : q = p
      · subst e; rw [relay_self]; exact h rfl
      · rw [relay_of_ne e]; exact hold
    cases hd with
    | made => rw [relay_of_ne (Nat.ne_of_lt hlt)]; exact hold
    | accessed o spot L' rest hp ho hv hf =>
      refine hrelay fun e => ?_
      have hmem : (o, false) ∈ w.stack t := ho ▸ List.mem_cons_self
      have htrails : (Point.access spot : Point α).Trails (lay o.queue) := hp ▸ hs.trails t _ hmem
      exact (hs.opsFit.laid _ (hs.opsFit.sits t _ hmem).queue).taut_access hv hf htrails (e ▸ hold)
    | popped _ _ _ _ _ _ _ _ hg hnodes => exact hrelay fun e => by subst e; exact hg.taut hnodes hold
    | tornDown _ _ _ _ _ hg hnodes => exact hrelay fun e => by subst e; exact hg.taut hnodes hold
    | _ => exact hold
  · rw [(hd.queue_new hq hge).1]
    exact Nat.le_succ 1

theorem did (hs : QueueInv w lay) (hd : Did w lay t m w' lay') (hr : w'.domain.Reach)
    (hu : ∀ u, u ≠ t → w'.stack u = w.stack u) : QueueInv w' lay' where
  opsFit := hd.opsFit hs.opsFit hu
  reach := hr
  retired := fun n hn => by
    obtain ⟨q, i, hq, hi, hlt⟩ : ∃ q i, q < w.store.nextQueue ∧ (lay q).nodes[i]? = some n ∧ i < (lay q).head := by
      rcases hd.retires hs.opsFit hn with h | ⟨-, h, -⟩
      · exact hs.retired n h
      · exact h
    have hgrow := hd.grows hq
    exact ⟨q, i, Nat.lt_of_lt_of_le hq hd.nextQueue_le, hgrow.getElem? hi, Nat.lt_of_lt_of_le hlt hgrow.head⟩
  taking := fun u p hp' head next h hret => by
    have hkept : p ∈ w.stack u → False := fun hp => by
      rcases hd.retires hs.opsFit hret with hret | ⟨-, -, hno, -⟩
      · exact hs.taking u p hp head next h hret
      · exact hno u p hp hp' next h
    by_cases e : u = t
    case neg => exact hkept (hu u e ▸ hp')
    subst e
    rcases hd.comes hp' with hp | hcomes
    · exact hkept hp
    cases hcomes with
    | began o r hst =>
      generalize w'.store = s at hst
      cases hst <;> cases h
    | accessed o spot hp ho hv hf hdom =>
      rw [hdom] at hret
      exact Nat.lt_irrefl _ (hs.lt_head (hs.opsFit.sits u _ ho).queue (Served.taking hf h) hret)
    | took => cases h
    | resumed o g ho hc => exact hs.taking u _ ho head next h (hc.retired head hret)
  taut := hs.taut' hd
  trails := fun u p hp' => by
    have hkept : p ∈ w.stack u → p.1.point.Trails (lay' p.1.queue) := fun hp =>
      (hs.trails u p hp).grows (hd.grows (hs.opsFit.sits u p hp).queue)
    by_cases e : u = t
    case neg => exact hkept (hu u e ▸ hp')
    subst e
    rcases hd.comes hp' with hp | hcomes
    · exact hkept hp
    cases hcomes with
    | began o r hst =>
      generalize w'.store = s at hst
      cases hst <;> trivial
    | accessed o spot hp ho hv =>
      have htrails : (Point.access spot : Point α).Trails (lay o.queue) := hp ▸ hs.trails u _ ho
      rw [hv.queue]
      exact (hs.opsFit.laid _ (hs.opsFit.sits u _ ho).queue).trails_access hv.grows htrails
    | took o head next => exact trivial
    | resumed o g ho => exact (hs.trails u _ ho).grows (hd.grows (hs.opsFit.sits u _ ho).queue)

/-! ## Moves that need not -/

/-- The domain moves, and retires no link. -/
theorem called (hs : QueueInv w lay) {d : Domain Garbage (Option (Operation α))} (hr : d.Reach)
    (hk : ∀ u, ({ w with domain := d } : World α).stack u = w.stack u)
    (hret : ∀ n, .retired (.link n) ∈ d.story → .retired (.link n) ∈ w.domain.story) :
    QueueInv { w with domain := d } lay :=
  ⟨hs.opsFit.keep hk hs.opsFit.laid hs.opsFit.sits, hr, fun n hn => hs.retired n (hret n hn),
    fun u p hp head next h hn => hs.taking u p (hk u ▸ hp) head next h (hret head hn), hs.taut,
    fun u p hp => hs.trails u p (hk u ▸ hp)⟩

/-- An operation begins, on an open queue or not. -/
theorem began (hs : QueueInv w lay) (hr : w'.domain.Reach) (hu : ∀ u, u ≠ t → w'.stack u = w.stack u)
    {o : Operation α} {r : Request α} (hst : Starts w.store w'.store o r) (hq : o.queue < w.store.nextQueue)
    (hk : w'.stack t = (o, true) :: w.stack t) (hstory : w'.domain.story = w.domain.story) : QueueInv w' lay := by
  have hnq : w'.store.nextQueue = w.store.nextQueue := by
    generalize w'.store = s at hst
    cases hst <;> rfl
  have hmem : ∀ u, ∀ p ∈ w'.stack u, p = (o, true) ∨ p ∈ w.stack u := fun u p hp => by
    by_cases e : u = t
    · subst e; exact List.mem_cons.mp (hk ▸ hp)
    · exact Or.inr (hu u e ▸ hp)
  refine ⟨hs.opsFit.began hu hst hq hk, hr, ?_, fun u p hp head next h => ?_, ?_, fun u p hp => ?_⟩
  · rw [hstory, hnq]; exact hs.retired
  · rw [hstory]
    rcases hmem u p hp with rfl | hp
    · generalize w'.store = s at hst
      cases hst <;> cases h
    · exact hs.taking u p hp head next h
  · rw [hnq]; exact hs.taut
  · rcases hmem u p hp with rfl | hp
    · generalize w'.store = s at hst
      cases hst <;> trivial
    · exact hs.trails u p hp

/-- Somebody takes from a queue as if it were his alone. -/
theorem emptied (hs : QueueInv w lay) {q : Nat} (hq : q < w.store.nextQueue) {s : Store α} {L' : Layout}
    (hl : Laid s q L') (hnodes : L'.nodes = (lay q).nodes) (hhead : (lay q).head ≤ L'.head)
    (htail : (lay q).tail ≤ L'.tail) (hoff : Laid.Off w.store s q (lay q).nodes) :
    QueueInv { w with store := s } (relay lay q L') := by
  have hg : (lay q).Grows L' := ⟨hnodes ▸ List.prefix_refl _, hhead, htail⟩
  have hgrow : ∀ p, (lay p).Grows (relay lay q L' p) := fun p => hg.relay
  refine ⟨hs.opsFit.keep (fun _ => rfl) (hs.opsFit.laid_off hl hoff hq) fun u p hp => ?_, hs.reach, fun n hn => ?_,
    hs.taking, fun p hp => ?_, fun u p hp => (hs.trails u p hp).grows (hgrow _)⟩
  · exact (hs.opsFit.sits u p hp).off (hs.opsFit.laid q hq) hg hoff fun n _ _ hn => hnodes ▸ hn
  · obtain ⟨p, i, hp, hi, hlt⟩ := hs.retired n hn
    exact ⟨p, i, hoff.nextQueue.symm ▸ hp, (hgrow p).getElem? hi, Nat.lt_of_lt_of_le hlt (hgrow p).head⟩
  · have hp : p < w.store.nextQueue := hoff.nextQueue ▸ hp
    by_cases e : p = q
    · subst e; rw [relay_self]; exact hg.taut hnodes (hs.taut p hp)
    · rw [relay_of_ne e]; exact hs.taut p hp

theorem popped (hs : QueueInv w lay) {q : Nat} (hq : q < w.store.nextQueue) :
    ∃ lay', QueueInv { w with store := (w.store.pop q).2 } lay' := by
  have hl := hs.opsFit.laid q hq
  cases hn : (lay q).nodes[(lay q).head + 1]? with
  | none =>
    rw [Laid.pop_none (q := q) w.store ((hl.next _ _ hl.head).trans hn)]
    exact ⟨lay, hs⟩
  | some n =>
    obtain ⟨v, L', -, hl', hnodes, hhead, htail, hoff, -⟩ := hl.pop_some hn
    exact ⟨_, hs.emptied hq hl' hnodes (hhead ▸ Nat.le_succ _) htail hoff⟩

theorem drained (hs : QueueInv w lay) {q : Nat} (hq : q < w.store.nextQueue) :
    ∃ lay', QueueInv { w with store := (w.store.drain q).2 } lay' := by
  have hl := hs.opsFit.laid q hq
  obtain ⟨L', hl', hnodes, hhead, htail, -, hoff, -⟩ :=
    Laid.popAll q w.store.nextLink hl (Nat.le_trans hl.length_le (Nat.le_add_left _ _))
  exact ⟨_, hs.emptied hq hl' hnodes hhead htail hoff⟩

theorem tornDown (hs : QueueInv w lay) {q : Nat} (hq : q < w.store.nextQueue) :
    ∃ lay', QueueInv { w with store := (w.store.tearDown q).2 } lay' := by
  obtain ⟨L', hl', hnodes, hhead, htail, hoff, -⟩ := (hs.opsFit.laid q hq).tearDown
  exact ⟨_, hs.emptied hq hl' hnodes hhead htail hoff⟩

end QueueInv

end EpochQueue.Fifo
