/-
  EpochQueue.Proofs.Fifo.Fates — what a move can do to the links, queues and guards that an
  operation relies on.

  Read off `Did`, one lemma for each kind of thing: how layouts grow and who joins (`Did.joins`),
  who may free a link (`Did.frees`), which links become garbage (`Did.retires`), which queues
  stay open, and that operations keep their guards. No invariant here, only what one move does.
-/

import EpochQueue.Proofs.Fifo.Emptying
import EpochQueue.Proofs.Fifo.Fitting

namespace EpochQueue.Fifo

open Reclaim (Guard Domain)

variable {α : Type}

theorem Starts.isOpen {s s' : Store α} {o : Operation α} {r : Request α} (h : Starts s s' o r)
    {L : Layout} (hl : Laid s o.queue L) (ho : s.isOpen o.queue = true) : s'.isOpen o.queue = true := by
  cases h with
  | enqueue q v b =>
    obtain ⟨hlt, hf⟩ := Store.isOpen_iff.mp ho
    refine Store.isOpen_iff.mpr ⟨hlt, ?_⟩
    rw [Store.head_alloc, Store.link_alloc, if_neg (Nat.ne_of_lt (hl.bound _ (Laid.mem hl.head)))]
    exact hf
  | _ => exact ho

theorem Starts.guard {s s' : Store α} {o : Operation α} {r : Request α} (h : Starts s s' o r) : o.guard = none := by
  cases h <;> rfl

/-- An enqueue that links its own link found nothing behind the tail it saw. -/
theorem Store.access_link_won {s : Store α} {o : Operation α} {node tail : Nat}
    (h : (s.access o (.enqueue node (.link tail))).access = .cas true) : (s.link tail).next = none ∧
      s.access o (.enqueue node (.link tail)) =
        { access := .cas true, op := o.goto (.enqueue node (.swingTail tail)),
          store := { s with links := s.links.modify tail fun l => { l with next := some node } } } := by
  cases hnext : (s.link tail).next with
  | none =>
    refine ⟨rfl, ?_⟩
    simp [access, accessEnqueue, casNext, hnext]
  | some m => simp [access, accessEnqueue, casNext, hnext] at h

/-- An operation that is on top of the stack after a move, or waits there, and was not before. -/
inductive Comes (w : World α) (t : Nat) (w' : World α) (lay lay' : Nat → Layout) : Operation α × Bool → Prop
  | began (o : Operation α) (r : Request α) (hst : Starts w.store w'.store o r)
      (hopen : w.store.isOpen o.queue = true) : Comes w t w' lay lay' (o, true)
  | accessed (o : Operation α) (spot : Spot) (hp : o.point = .access spot) (ho : (o, false) ∈ w.stack t)
      (hv : Served w.store o spot (lay o.queue) (lay' o.queue))
      (hf : Served.Idle w.store o spot (lay o.queue) (lay' o.queue) ∨
        Served.Appends w.store o spot (lay o.queue) (lay' o.queue) ∨
        Served.Removes w.store o spot (lay o.queue) (lay' o.queue))
      (hd : w'.domain = w.domain) : Comes w t w' lay lay' ((w.store.access o spot).op, false)
  | took (o : Operation α) (head next : Nat) (ho : (o, false) ∈ w.stack t)
      (hg : (w'.domain.thread t).guards = (w.domain.thread t).guards) :
      Comes w t w' lay lay' (o.leave (.dequeued (w.store.link next).value), false)
  | resumed (o : Operation α) (g : Guard) (ho : (o, true) ∈ w.stack t) (hc : w.Calls t w')
      (hg : g ∈ (w'.domain.thread t).guards) : Comes w t w' lay lay' ({ o with guard := some g }, false)

/-- What becomes of the operation on top of the stack if it does not stay as it is. -/
inductive Goes (w : World α) (t : Nat) (w' : World α) (lay lay' : Nat → Layout) : Operation α × Bool → Prop
  | accessed (o : Operation α) (spot : Spot) (hp : o.point = .access spot)
      (hf : Served.Idle w.store o spot (lay o.queue) (lay' o.queue) ∨
        Served.Appends w.store o spot (lay o.queue) (lay' o.queue) ∨
        Served.Removes w.store o spot (lay o.queue) (lay' o.queue))
      (hs : w'.store = (w.store.access o spot).store) (hk : ((w.store.access o spot).op, false) ∈ w'.stack t) :
      Goes w t w' lay lay' (o, false)
  | took (o : Operation α) (head next : Nat) (hp : o.point = .take head next)
      (hs : w'.store = (w.store.takeValue next).2) (hst : .retired (.link head) ∈ w'.domain.story) :
      Goes w t w' lay lay' (o, false)
  | resumed (o : Operation α) (g : Guard) (hk : ({ o with guard := some g }, false) ∈ w'.stack t) :
      Goes w t w' lay lay' (o, true)
  | left (o : Operation α) (r : Outcome α) (hp : o.point = .leave r) : Goes w t w' lay lay' (o, false)

namespace Did

variable {w w' : World α} {lay lay' : Nat → Layout} {t : Nat} {m : Move α}

/-- Whatever is on the stack of `t` was there, or comes in one of four ways. -/
theorem comes (hd : Did w lay t m w' lay') {p : Operation α × Bool} (hp' : p ∈ w'.stack t) :
    p ∈ w.stack t ∨ Comes w t w' lay lay' p := by
  have htop : ∀ {e e' : Operation α × Bool} {rest}, w.stack t = e :: rest → w'.stack t = e' :: rest →
      p = e' ∨ p ∈ w.stack t := fun ho hk =>
    (List.mem_cons.mp (hk ▸ hp')).imp_right fun h => ho ▸ List.mem_cons_of_mem _ h
  cases hd with
  | called _ _ _ hk => exact Or.inl (hk ▸ hp')
  | freed _ _ _ _ _ hk => exact Or.inl (hk ▸ hp')
  | made _ _ _ _ hk => exact Or.inl (hk ▸ hp')
  | popped _ _ _ _ _ _ _ _ _ _ _ _ _ _ _ _ hk => exact Or.inl (hk ▸ hp')
  | tornDown _ _ _ _ _ _ _ _ _ _ _ _ _ hk => exact Or.inl (hk ▸ hp')
  | left _ _ _ _ _ ho _ _ _ hk => exact Or.inl (by rw [ho]; exact List.mem_cons_of_mem _ (hk ▸ hp'))
  | began o r hst hopen _ _ hk =>
    rw [hk] at hp'
    rcases List.mem_cons.mp hp' with rfl | hp
    · exact Or.inr (.began o r hst hopen)
    · exact Or.inl hp
  | accessed o spot L' rest hp ho hv hf _ hd _ hk =>
    rcases htop ho hk with rfl | hp''
    · have hlay : relay lay o.queue L' o.queue = L' := relay_self _ _ _
      exact Or.inr (.accessed o spot hp (ho ▸ List.mem_cons_self) (hlay.symm ▸ hv) (hlay.symm ▸ hf) hd)
    · exact Or.inl hp''
  | took o head next rest _ _ ho _ hd _ hk =>
    rcases htop ho hk with rfl | hp
    · obtain ⟨_, -, -, hg, -⟩ := Domain.calls_retire w.domain t (.link head)
        (some (o.leave (.dequeued (w.store.link next).value)))
      exact Or.inr (.took o head next (ho ▸ List.mem_cons_self) (by rw [hd, hg]))
    · exact Or.inl hp
  | resumed o g rest ho _ hc hg _ _ hk =>
    rcases htop ho hk with rfl | hp
    · exact Or.inr (.resumed o g (ho ▸ List.mem_cons_self) hc (by rw [hg]; exact List.mem_cons_self))
    · exact Or.inl hp

/-- Whatever was on a stack is there, or goes in one of four ways. -/
theorem goes (hd : Did w lay t m w' lay') (hu : ∀ u, u ≠ t → w'.stack u = w.stack u) {u : Nat}
    {p : Operation α × Bool} (hmem : p ∈ w.stack u) : p ∈ w'.stack u ∨ u = t ∧ Goes w t w' lay lay' p := by
  by_cases e : u = t
  case neg => exact Or.inl ((hu u e).symm ▸ hmem)
  subst e
  have htop : ∀ {e e' : Operation α × Bool} {rest}, w.stack u = e :: rest → w'.stack u = e' :: rest →
      p = e ∨ p ∈ w'.stack u := fun ho hk =>
    (List.mem_cons.mp (ho ▸ hmem)).imp_right fun h => hk ▸ List.mem_cons_of_mem _ h
  cases hd with
  | called _ _ _ hk => exact Or.inl (hk ▸ hmem)
  | freed _ _ _ _ _ hk => exact Or.inl (hk ▸ hmem)
  | made _ _ _ _ hk => exact Or.inl (hk ▸ hmem)
  | popped _ _ _ _ _ _ _ _ _ _ _ _ _ _ _ _ hk => exact Or.inl (hk ▸ hmem)
  | tornDown _ _ _ _ _ _ _ _ _ _ _ _ _ hk => exact Or.inl (hk ▸ hmem)
  | began _ _ _ _ _ _ hk => exact Or.inl (hk ▸ List.mem_cons_of_mem _ hmem)
  | accessed o spot L' rest hp ho _ hf _ _ hs hk =>
    rcases htop ho hk with rfl | h
    · have hlay : relay lay o.queue L' o.queue = L' := relay_self _ _ _
      exact Or.inr ⟨rfl, .accessed o spot hp (hlay.symm ▸ hf) hs (hk ▸ List.mem_cons_self)⟩
    · exact Or.inl h
  | took o head next rest hp _ ho _ hd hs hk =>
    rcases htop ho hk with rfl | h
    · obtain ⟨_, -, -, -, hst⟩ := Domain.calls_retire w.domain u (.link head)
        (some (o.leave (.dequeued (w.store.link next).value)))
      refine Or.inr ⟨rfl, .took o head next hp hs ?_⟩
      rw [hd, hst]
      exact List.mem_append_right _ List.mem_cons_self
    · exact Or.inl h
  | resumed o g rest ho _ _ _ _ _ hk =>
    rcases htop ho hk with rfl | h
    · exact Or.inr ⟨rfl, .resumed o g (hk ▸ List.mem_cons_self)⟩
    · exact Or.inl h
  | left o r rest hp _ ho _ _ _ hk =>
    rcases List.mem_cons.mp (ho ▸ hmem) with rfl | h
    · exact Or.inr ⟨rfl, .left o r hp⟩
    · exact Or.inl (hk ▸ h)

/-- Operations work on queues that were there before the move. -/
theorem queue_lt (hd : Did w lay t m w' lay') (hw : OpsFit w lay) (hu : ∀ u, u ≠ t → w'.stack u = w.stack u) {u : Nat}
    {p : Operation α × Bool} (hp' : p ∈ w'.stack u) : p.1.queue < w.store.nextQueue := by
  by_cases e : u = t
  case neg => exact (hw.sits u p (hu u e ▸ hp')).queue
  subst e
  rcases hd.comes hp' with hp | hcomes
  · exact (hw.sits u p hp).queue
  cases hcomes with
  | began o r _ hopen => exact Store.isOpen_lt hopen
  | accessed o spot _ ho hv => exact hv.queue ▸ (hw.sits u _ ho).queue
  | took o head next ho => exact (hw.sits u _ ho).queue
  | resumed o g ho => exact (hw.sits u _ ho).queue

theorem grows (hd : Did w lay t m w' lay') {q : Nat} (hq : q < w.store.nextQueue) : (lay q).Grows (lay' q) := by
  cases hd with
  | made => rw [relay_of_ne (Nat.ne_of_lt hq)]; exact .refl _
  | accessed _ _ _ _ _ _ hv => exact hv.grows.relay
  | popped _ _ _ _ _ _ _ _ hg => exact hg.relay
  | tornDown _ _ _ _ _ hg => exact hg.relay
  | _ => exact .refl _

/-- At most one queue is made, and it consists of a new sentinel. -/
theorem queues (hd : Did w lay t m w' lay') : w'.store.nextQueue = w.store.nextQueue ∨
    w'.store.nextQueue = w.store.nextQueue + 1 ∧ lay' w.store.nextQueue = ⟨[w.store.nextLink], 0, 0⟩ ∧
      w'.store.link w.store.nextLink = ⟨none, none, w.store.nextQueue, false⟩ := by
  cases hd with
  | called _ _ hs => exact Or.inl (by rw [hs])
  | freed _ _ _ _ hs => exact Or.inl (by rw [hs]; rfl)
  | made limits _ _ hs =>
    exact Or.inr ⟨by rw [hs]; rfl, relay_self _ _ _, by rw [hs, (Laid.newQueue w.store limits).2.1, if_pos rfl]⟩
  | began o r hst =>
    generalize w'.store = s at hst
    cases hst <;> exact Or.inl rfl
  | accessed _ _ _ _ _ _ hv _ _ _ hs => exact Or.inl (by rw [hs, hv.off.nextQueue])
  | took _ _ _ _ _ _ _ _ _ hs => exact Or.inl (by rw [hs]; rfl)
  | resumed _ _ _ _ _ _ _ _ hs => exact Or.inl (by rw [hs])
  | left _ _ _ _ _ _ _ _ hs => exact Or.inl (by rw [hs])
  | popped _ _ _ _ _ _ _ _ _ _ _ ho _ _ _ hs => exact Or.inl (by rw [hs, ho.nextQueue])
  | tornDown _ _ _ _ _ _ _ ho _ _ _ _ hs => exact Or.inl (by rw [hs, ho.nextQueue])

/-- A queue that was not there before has only its sentinel. -/
theorem queue_new (hd : Did w lay t m w' lay') {q : Nat} (hq : q < w'.store.nextQueue) (hnew : w.store.nextQueue ≤ q) :
    lay' q = ⟨[w.store.nextLink], 0, 0⟩ ∧ w'.store.link w.store.nextLink = ⟨none, none, q, false⟩ := by
  rcases hd.queues with h | ⟨h, hlay, hlink⟩
  · exact absurd (h ▸ hq) (Nat.not_lt_of_le hnew)
  · cases Nat.le_antisymm (Nat.le_of_lt_succ (Nat.lt_of_lt_of_eq hq h)) hnew
    exact ⟨hlay, hlink⟩

theorem nextQueue_le (hd : Did w lay t m w' lay') : w.store.nextQueue ≤ w'.store.nextQueue := by
  rcases hd.queues with h | ⟨h, -⟩
  · exact Nat.le_of_eq h.symm
  · exact h ▸ Nat.le_succ _

theorem nextLink_le (hd : Did w lay t m w' lay') : w.store.nextLink ≤ w'.store.nextLink := by
  cases hd with
  | called _ _ hs => exact Nat.le_of_eq (by rw [hs])
  | freed _ _ _ _ hs => rw [hs]; exact Nat.le_refl _
  | made limits _ _ hs => rw [hs]; exact Nat.le_succ _
  | began o r hst =>
    generalize w'.store = s at hst
    cases hst with
    | enqueue => exact Nat.le_succ _
    | _ => exact Nat.le_refl _
  | accessed _ _ _ _ _ _ hv _ _ _ hs => rw [hs]; exact hv.off.nextLink
  | took _ _ _ _ _ _ _ _ _ hs => rw [hs]; exact Nat.le_refl _
  | resumed _ _ _ _ _ _ _ _ hs => exact Nat.le_of_eq (by rw [hs])
  | left _ _ _ _ _ _ _ _ hs => exact Nat.le_of_eq (by rw [hs])
  | popped _ _ _ _ _ _ _ _ _ _ _ ho _ _ _ hs => rw [hs]; exact ho.nextLink
  | tornDown _ _ _ _ _ _ _ ho _ _ _ _ hs => rw [hs]; exact ho.nextLink

/-- A link is allocated as the sentinel of a new queue, or for an enqueue that begins. -/
theorem allocates (hd : Did w lay t m w' lay') {n : Nat} (hn : n < w'.store.nextLink) (hnew : w.store.nextLink ≤ n) :
    (w'.store.link n).home < w'.store.nextQueue ∧
      (n ∈ (lay' (w'.store.link n).home).nodes ∨ ∃ p ∈ w'.stack t, p.1.point.stage = .waiting n) := by
  have hnone : w'.store.nextLink = w.store.nextLink → (w'.store.link n).home < w'.store.nextQueue ∧
      (n ∈ (lay' (w'.store.link n).home).nodes ∨ ∃ p ∈ w'.stack t, p.1.point.stage = .waiting n) := fun h =>
    absurd (h ▸ hn) (Nat.not_lt_of_le hnew)
  cases hd with
  | called _ _ hs => exact hnone (by rw [hs])
  | freed _ _ _ _ hs => exact hnone (by rw [hs]; rfl)
  | made limits _ _ hs =>
    rw [hs] at hn ⊢
    cases Nat.le_antisymm hnew (Nat.le_of_lt_succ hn)
    rw [(Laid.newQueue w.store limits).2.1, if_pos rfl]
    exact ⟨Nat.lt_succ_self _, Or.inl (by rw [relay_self]; exact List.mem_cons_self)⟩
  | began o r hst hopen _ _ hk =>
    generalize w'.store = s at hst hn hnone
    cases hst with
    | enqueue q v b =>
      cases Nat.le_antisymm hnew (Nat.le_of_lt_succ hn)
      rw [Store.link_alloc, if_pos rfl]
      exact ⟨Store.isOpen_lt (s := w.store) hopen, Or.inr ⟨_, hk ▸ List.mem_cons_self, rfl⟩⟩
    | _ => exact hnone rfl
  | accessed _ _ _ _ _ _ _ _ _ _ hs => exact hnone (by rw [hs, (Store.steady_access _ _ _).nextLink])
  | took _ _ _ _ _ _ _ _ _ hs => exact hnone (by rw [hs]; rfl)
  | resumed _ _ _ _ _ _ _ _ hs => exact hnone (by rw [hs])
  | left _ _ _ _ _ _ _ _ hs => exact hnone (by rw [hs])
  | popped _ _ _ _ _ _ _ _ _ _ _ _ _ _ _ hs => exact hnone (by rw [hs, Store.nextLink_pop])
  | tornDown _ _ _ _ _ _ _ _ _ _ _ _ hs => exact hnone (by rw [hs, Store.nextLink_tearDown])

/-- Only the link that an enqueue of `t` brings can join. -/
theorem joins (hd : Did w lay t m w' lay') {q i n : Nat} (hq : q < w.store.nextQueue)
    (hi : (lay' q).nodes[i]? = some n) : (lay q).nodes[i]? = some n ∨
      ∃ p ∈ w.stack t, p.1.queue = q ∧ p.1.point.stage = .waiting n := by
  have hrelay : ∀ {p L}, L.nodes = (lay p).nodes → (relay lay p L q).nodes = (lay q).nodes := fun {p L} h => by
    by_cases e : q = p
    · subst e; rw [relay_self, h]
    · rw [relay_of_ne e]
  cases hd with
  | made => rw [relay_of_ne (Nat.ne_of_lt hq)] at hi; exact Or.inl hi
  | accessed o spot L' rest hp ho _ hf =>
    rcases hf with hf | ⟨node, tail, v, rfl, -, -, hnodes, -⟩ | ⟨_, _, _, -, -, -, hnodes, -⟩
    · exact Or.inl (hrelay hf.nodes ▸ hi)
    · by_cases e : q = o.queue
      · subst e
        rw [relay_self, hnodes] at hi
        rcases Nat.lt_or_ge i (lay o.queue).nodes.length with hlt | hge
        · rw [List.getElem?_append_left hlt] at hi
          exact Or.inl hi
        · have hn : n ∈ [node] := by
            rw [List.getElem?_append_right hge] at hi
            exact List.mem_of_getElem? hi
          cases List.mem_singleton.mp hn
          exact Or.inr ⟨(o, false), ho ▸ List.mem_cons_self, rfl, by rw [show (o, false).1.point = _ from hp]; rfl⟩
      · rw [relay_of_ne e] at hi
        exact Or.inl hi
    · exact Or.inl (hrelay hnodes ▸ hi)
  | popped _ _ _ _ _ _ _ _ _ hnodes => exact Or.inl (hrelay hnodes ▸ hi)
  | tornDown _ _ _ _ _ _ hnodes => exact Or.inl (hrelay hnodes ▸ hi)
  | _ => exact Or.inl hi

/-- The list of a queue stays as it is, or an enqueue of `t` links its own link behind the last
    one and is about to swing the tail. -/
theorem nodes_eq (hd : Did w lay t m w' lay') {q : Nat} (hq : q < w.store.nextQueue) :
    (lay' q).nodes = (lay q).nodes ∨ ∃ o node tail, (o, false) ∈ w.stack t ∧ o.queue = q ∧
      o.point = .access (.enqueue node (.link tail)) ∧ (w.store.link tail).next = none ∧
      (w'.store.queue q).tail = (w.store.queue q).tail ∧
      (o.goto (.enqueue node (.swingTail tail)), false) ∈ w'.stack t := by
  have hrelay : ∀ {p L}, L.nodes = (lay p).nodes → (relay lay p L q).nodes = (lay q).nodes := fun {p L} h => by
    by_cases e : q = p
    · subst e; rw [relay_self, h]
    · rw [relay_of_ne e]
  cases hd with
  | made => exact Or.inl (by rw [relay_of_ne (Nat.ne_of_lt hq)])
  | popped _ _ _ _ _ _ _ _ _ hnodes => exact Or.inl (hrelay hnodes)
  | tornDown _ _ _ _ _ _ hnodes => exact Or.inl (hrelay hnodes)
  | accessed o spot L' rest hp ho _ hf _ _ hs hk =>
    rcases hf with hf | ⟨node, tail, v, rfl, hacc, -⟩ | ⟨_, _, _, -, -, -, hnodes, -⟩
    · exact Or.inl (hrelay hf.nodes)
    · by_cases e : q = o.queue
      case neg => exact Or.inl (by rw [relay_of_ne e])
      subst e
      obtain ⟨hnext, hacc⟩ := Store.access_link_won hacc
      rw [hacc] at hs hk
      exact Or.inr ⟨o, node, tail, ho ▸ List.mem_cons_self, rfl, hp, hnext, by rw [hs]; rfl, hk ▸ List.mem_cons_self⟩
    · exact Or.inl (hrelay hnodes)
  | _ => exact Or.inl rfl

/-- The head of a queue stays where it is, or a dequeue of `t` swings it and is about to take the
    value, or an only owner moves it, who frees what he leaves behind and takes the values. -/
theorem heads (hd : Did w lay t m w' lay') (hw : OpsFit w lay) {q : Nat} (hq : q < w.store.nextQueue) :
    (lay' q).head = (lay q).head ∨
    (∃ p ∈ w'.stack t, ∃ head next, p.1.point = .take head next ∧ (lay q).nodes[(lay q).head]? = some head ∧
      (lay q).nodes[(lay q).head + 1]? = some next ∧ (lay' q).head = (lay q).head + 1) ∨
    (lay' q).nodes = (lay q).nodes ∧ ∀ i n, (lay q).nodes[i]? = some n →
      ((lay q).head ≤ i → i < (lay' q).head → (w'.store.link n).freed = true) ∧
      ((lay q).head < i → (w'.store.link n).value = none ∨ (lay' q).head < i) := by
  have hl := hw.laid q hq
  have hrelay : ∀ {p L}, (q = p → L.head = (lay p).head) → (relay lay p L q).head = (lay q).head := fun {p L} h => by
    by_cases e : q = p
    · subst e; rw [relay_self, h rfl]
    · rw [relay_of_ne e]
  cases hd with
  | made => exact Or.inl (by rw [relay_of_ne (Nat.ne_of_lt hq)])
  | accessed o spot L' rest hp ho hv hf _ _ _ hk =>
    by_cases e : q = o.queue
    case neg => exact Or.inl (by rw [relay_of_ne e])
    subst e
    have hlen := hl.length_values
    have hlen' := hv.laid.length_values
    rw [relay_self]
    rcases hf with hf | ⟨_, _, v, -, -, -, hnodes, -, hvals⟩ | ⟨head, next, v, -, -, hpt, hnodes, hhead, hhead', -⟩
    · rw [hf.values, hf.nodes] at hlen'
      exact Or.inl (by omega)
    · rw [hvals, hnodes, List.length_append, List.length_append] at hlen'
      exact Or.inl (by simp only [List.length_singleton] at hlen'; omega)
    · have hfit := hv.fits 0 (Nat.zero_le _) (by
        have := (hw.sits t _ (ho ▸ List.mem_cons_self)).fits
        rwa [show (o, false).1.point = _ from hp] at this)
      rw [hpt] at hfit
      obtain ⟨i, -, -, hi, hn⟩ := hfit
      rw [hnodes] at hi hn
      cases hl.place hi hhead
      exact Or.inr (Or.inl ⟨_, hk ▸ List.mem_cons_self, head, next, hpt, hhead, hn, hhead'⟩)
  | popped p k v L' hquiet hopen hk hl' _ hnodes hhead hoff _ _ _ hs =>
    by_cases e : q = p
    case neg => exact Or.inl (by rw [relay_of_ne e])
    subst e
    refine Or.inr (Or.inr ⟨by rw [relay_self, hnodes], fun i n hi => ?_⟩)
    obtain ⟨hvalue, hfreed⟩ := hl.pop_link hk hi
    rw [relay_self, hhead, hs, hvalue, hfreed]
    refine ⟨fun h₁ h₂ => if_pos (by omega), fun h => ?_⟩
    rcases Nat.lt_or_ge ((lay q).head + 1) i with hlt | hge
    · exact Or.inr hlt
    · exact Or.inl (if_pos (by omega))
  | tornDown p L' hquiet hopen hl' _ hnodes hoff _ _ _ _ hs =>
    by_cases e : q = p
    case neg => exact Or.inl (by rw [relay_of_ne e])
    subst e
    refine Or.inr (Or.inr ⟨by rw [relay_self, hnodes], fun i n hi => ?_⟩)
    obtain ⟨hvalue, hfreed⟩ := hl.tearDown_link hi
    rw [hs, hvalue, hfreed]
    exact ⟨fun h _ => if_pos h, fun h => Or.inl (if_pos h)⟩
  | _ => exact Or.inl rfl

/-- Up to the head no link is new. -/
theorem place_of_le_head (hd : Did w lay t m w' lay') (hw : OpsFit w lay) {q i n : Nat} (hq : q < w.store.nextQueue)
    (hle : i ≤ (lay' q).head) (hi : (lay' q).nodes[i]? = some n) : (lay q).nodes[i]? = some n := by
  have hhead := (hw.laid q hq).head_lt
  have hold : i < (lay q).nodes.length → (lay q).nodes[i]? = some n := fun h => by
    rw [← hi, (hd.grows hq).getElem? (List.getElem?_eq_getElem h), List.getElem?_eq_getElem h]
  rcases hd.heads hw hq with h | ⟨_, -, _, next, -, -, hnext, h⟩ | ⟨hnodes, -⟩
  · exact hold (by omega)
  · have := (lay q).lt_of_getElem? hnext
    exact hold (by omega)
  · exact hnodes ▸ hi

/-- What follows a link does not change any more once something does. -/
theorem next_kept (hd : Did w lay t m w' lay') (hw : OpsFit w lay) (hw' : OpsFit w' lay') {n k : Nat}
    (hn : n < w.store.nextLink) (hk : (w.store.link n).next = some k) : (w'.store.link n).next = some k := by
  by_cases hmem : ∃ q, q < w.store.nextQueue ∧ n ∈ (lay q).nodes
  · -- a link in the list of a queue keeps its place, and so does the one behind it
    obtain ⟨q, hq, hm⟩ := hmem
    obtain ⟨i, hi⟩ := Laid.exists_place hm
    have hg := hd.grows hq
    rw [(hw'.laid q (Nat.lt_of_lt_of_le hq hd.nextQueue_le)).next i n (hg.getElem? hi)]
    exact hg.getElem? (((hw.laid q hq).next i n hi).symm.trans hk)
  · have hout : ∀ {q}, q < w.store.nextQueue → n ∉ (lay q).nodes := fun hq hm => hmem ⟨_, hq, hm⟩
    cases hd with
    | called _ _ hs => rw [hs, hk]
    | freed i _ _ _ hs =>
      rw [hs, Store.link_free]
      split
      · subst n; exact hk
      · exact hk
    | made limits _ _ hs => rw [hs, (Laid.newQueue w.store limits).2.1, if_neg (Nat.ne_of_lt hn), hk]
    | began o r hst =>
      generalize w'.store = s at hst
      cases hst with
      | enqueue q v b => rw [Store.link_alloc, if_neg (Nat.ne_of_lt hn), hk]
      | _ => exact hk
    | accessed o _ _ _ _ ho hv _ _ _ hs =>
      rw [hs, hv.off.link n (hout (hw.sits t _ (ho ▸ List.mem_cons_self)).queue), hk]
    | took _ _ next _ _ _ _ _ _ hs =>
      rw [hs, Store.link_takeValue]
      split
      · subst n; exact hk
      · exact hk
    | resumed _ _ _ _ _ _ _ _ hs => rw [hs, hk]
    | left _ _ _ _ _ _ _ _ hs => rw [hs, hk]
    | popped q _ _ _ _ hopen _ _ _ _ _ hoff _ _ _ hs => rw [hs, hoff.link n (hout (Store.isOpen_lt hopen)), hk]
    | tornDown q _ _ hopen _ _ _ hoff _ _ _ _ hs => rw [hs, hoff.link n (hout (Store.isOpen_lt hopen)), hk]

/-- A link is freed by a collection, or by the only owner of its queue, who leaves it behind. -/
theorem frees (hd : Did w lay t m w' lay') (hw : OpsFit w lay) {n : Nat} (hn : n < w.store.nextLink) :
    (w'.store.link n).freed = (w.store.link n).freed ∨
      .link n ∈ (w.domain.thread t).todo ∧ .freed (.link n) ∈ w'.domain.story ∨
      ∃ q i, w.isQuiet q ∧ q < w.store.nextQueue ∧ (lay q).nodes[i]? = some n ∧ (lay q).head ≤ i ∧
        (w'.store.isOpen q = false ∧ (lay' q).nodes.length ≤ (lay' q).head + 1 ∨
          ∀ j, (lay' q).nodes[j]? = some n → j < (lay' q).head) := by
  cases hd with
  | called _ _ hs => exact Or.inl (by rw [hs])
  | freed k hk _ _ hs _ hst =>
    by_cases e : n = k
    · exact Or.inr (Or.inl ⟨e ▸ hk, e ▸ hst⟩)
    · exact Or.inl (by rw [hs, Store.link_free, if_neg e])
  | made limits _ _ hs => exact Or.inl (by rw [hs, (Laid.newQueue w.store limits).2.1, if_neg (Nat.ne_of_lt hn)])
  | began o r hst =>
    refine Or.inl ?_
    generalize w'.store = s at hst
    cases hst with
    | enqueue q v b => rw [Store.link_alloc, if_neg (Nat.ne_of_lt hn)]
    | _ => rfl
  | accessed _ _ _ _ _ _ hv _ _ _ hs => exact Or.inl (by rw [hs, (hv.kept n).2])
  | took _ _ next _ _ _ _ _ _ hs =>
    refine Or.inl ?_
    rw [hs, Store.link_takeValue]
    split
    · subst n; rfl
    · rfl
  | resumed _ _ _ _ _ _ _ _ hs => exact Or.inl (by rw [hs])
  | left _ _ _ _ _ _ _ _ hs => exact Or.inl (by rw [hs])
  | popped q k v L' hq hopen hk hl _ hnodes hhead hoff _ _ _ hs =>
    have hlt := Store.isOpen_lt hopen
    have hlq := hw.laid q hlt
    by_cases e : n = (w.store.queue q).head
    · refine Or.inr (Or.inr ⟨q, _, hq, hlt, e ▸ hlq.head, Nat.le_refl _, Or.inr fun j hj => ?_⟩)
      rw [relay_self] at hj ⊢
      rw [hnodes] at hj
      rw [hlq.place hj (e ▸ hlq.head), hhead]
      exact Nat.lt_succ_self _
    · obtain ⟨-, -, -, -, hlink⟩ := Laid.pop_frame w.store ((hlq.next _ _ hlq.head).trans hk)
      exact Or.inl (by rw [hs, hlink]; simp only [e, if_false])
  | tornDown q L' hq hopen hl _ _ hoff hvals hclosed _ _ hs =>
    have hlt := Store.isOpen_lt hopen
    by_cases e : n ∈ (lay q).nodes
    · obtain ⟨i, hi⟩ := Laid.exists_place e
      rcases Nat.lt_or_ge i (lay q).head with hbefore | hfrom
      · exact Or.inl (by rw [hs, ((hw.laid q hlt).tearDown_link hi).2, if_neg (Nat.not_le_of_lt hbefore)])
      · refine Or.inr (Or.inr ⟨q, i, hq, hlt, hi, hfrom, Or.inl ⟨by rw [hs]; exact hclosed, ?_⟩⟩)
        rw [relay_self]
        have hlen := hl.length_values
        rw [hvals, List.length_nil] at hlen
        omega
    · exact Or.inl (by rw [hs, hoff.link n e])

/-- A link becomes garbage when the dequeue that swung the head over it takes its value. -/
theorem retires (hd : Did w lay t m w' lay') (hw : OpsFit w lay) {n : Nat}
    (hn : .retired (.link n) ∈ w'.domain.story) : .retired (.link n) ∈ w.domain.story ∨
      w'.domain.story = w.domain.story ++ [.retired (.link n)] ∧
      (∃ q i, q < w.store.nextQueue ∧ (lay q).nodes[i]? = some n ∧ i < (lay q).head) ∧
      (∀ u p, p ∈ w.stack u → p ∈ w'.stack u → ∀ next, p.1.point ≠ .take n next) ∧
      ∃ p ∈ w.stack t, ∃ next, p.1.point = .take n next := by
  cases hd with
  | called _ hc => exact Or.inl (hc.retired n hn)
  | freed _ _ _ hc => exact Or.inl (hc.retired n hn)
  | made _ _ hd => exact Or.inl (by rwa [hd] at hn)
  | began _ _ _ _ _ hc => exact Or.inl (hc.retired n hn)
  | accessed _ _ _ _ _ _ _ _ _ hd => exact Or.inl (by rwa [hd] at hn)
  | resumed _ _ _ _ _ hc => exact Or.inl (hc.retired n hn)
  | left o r rest _ _ _ _ hd =>
    refine Or.inl ?_
    rw [hd] at hn
    cases hg : o.guard with
    | none => rwa [hg] at hn
    | some g =>
      rw [hg] at hn
      dsimp only at hn
      rw [(Domain.unpin_frame w.domain t g).2.2] at hn
      exact (List.mem_append.mp hn).resolve_right (by simp)
  | popped _ _ _ _ _ _ _ _ _ _ _ _ _ _ hd => exact Or.inl (by rwa [hd] at hn)
  | tornDown _ _ _ _ _ _ _ _ _ _ _ hd => exact Or.inl (by rwa [hd] at hn)
  | took o head next rest hp _ ho _ hd hs hk =>
    obtain ⟨q, -, -, -, hst⟩ := Domain.calls_retire w.domain t (.link head)
      (some (o.leave (.dequeued (w.store.link next).value)))
    rw [← hd] at hst
    rw [hst] at hn
    refine (List.mem_append.mp hn).imp_right fun hn => ?_
    cases List.mem_singleton.mp hn
    have hmem : (o, false) ∈ w.stack t := ho ▸ List.mem_cons_self
    have hsits := hw.sits t _ hmem
    have hfit : (Point.take n next : Point α).Fits (lay o.queue) 0 := hp ▸ hsits.fits
    obtain ⟨i, -, hi, hni, hnext⟩ := hfit
    refine ⟨hst, ⟨o.queue, i, hsits.queue, hni, hi⟩, fun u p hpu hpu' next' hp' => ?_, _, hmem, next, hp⟩
    -- two operations that take over the same link would take the value of the same link
    have hl := hw.laid _ hsits.queue
    have hsits' := hw.sits u p hpu
    have hfit' : (Point.take n next' : Point α).Fits (lay p.1.queue) 0 := hp' ▸ hsits'.fits
    obtain ⟨j, -, -, hnj, hnext'⟩ := hfit'
    have hq : p.1.queue = o.queue :=
      ((hw.laid _ hsits'.queue).home n (Laid.mem hnj)).symm.trans (hl.home n (Laid.mem hni))
    rw [hq] at hnj hnext'
    cases hl.place hni hnj
    have hmark : p.1.point.mark? = some next := by
      rw [hp', ← Option.some.inj (hnext.symm.trans hnext')]
      rfl
    have hmark' : o.point.mark? = some next := by rw [hp]; rfl
    obtain ⟨rfl, hrest⟩ := hw.mark_top ho hmark' hpu hmark
    rw [hk] at hpu'
    rcases List.mem_cons.mp hpu' with rfl | hpu'
    · cases hp'
    · exact hrest hpu'

/-! ## Queues that stay open -/

theorem still (hd : Did w lay t m w' lay') {q : Nat} (hq : q < w.store.nextQueue) :
    lay' q = lay q ∨ w.store.isOpen q = true ∨ ∃ p ∈ w.stack t, p.1.queue = q := by
  have hrelay : ∀ {p L}, (q = p → w.store.isOpen q = true ∨ ∃ p ∈ w.stack t, p.1.queue = q) →
      relay lay p L q = lay q ∨ w.store.isOpen q = true ∨ ∃ p ∈ w.stack t, p.1.queue = q := fun {p L} h => by
    by_cases e : q = p
    · exact Or.inr (h e)
    · exact Or.inl (relay_of_ne e)
  cases hd with
  | made => exact Or.inl (relay_of_ne (Nat.ne_of_lt hq))
  | accessed o _ _ _ _ ho => exact hrelay fun e => Or.inr ⟨(o, false), ho ▸ List.mem_cons_self, e.symm⟩
  | popped _ _ _ _ _ hopen => exact hrelay fun e => Or.inl (e ▸ hopen)
  | tornDown _ _ _ hopen => exact hrelay fun e => Or.inl (e ▸ hopen)
  | _ => exact Or.inl rfl

/-- No link is used again. -/
theorem ages (hd : Did w lay t m w' lay') {n : Nat} (hn : n < w.store.nextLink) :
    Link.Ages (w.store.link n) (w'.store.link n) := by
  have hsame : ∀ {l : Link α}, l = w.store.link n → Link.Ages (w.store.link n) l := fun e => e ▸ .refl _
  cases hd with
  | called _ _ hs => exact hsame (by rw [hs])
  | freed k _ _ _ hs => rw [hs]; exact Store.ages_free _ _ n
  | made limits _ _ hs => exact hsame (by rw [hs, (Laid.newQueue w.store limits).2.1, if_neg (Nat.ne_of_lt hn)])
  | began o r hst =>
    generalize w'.store = s at hst
    cases hst with
    | enqueue q v b => exact hsame (by rw [Store.link_alloc, if_neg (Nat.ne_of_lt hn)])
    | _ => exact .refl _
  | accessed _ _ _ _ _ _ _ _ _ _ hs => rw [hs]; exact (Store.steady_access _ _ _).ages n
  | took _ _ next _ _ _ _ _ _ hs => rw [hs]; exact Store.ages_takeValue _ _ n
  | resumed _ _ _ _ _ _ _ _ hs => exact hsame (by rw [hs])
  | left _ _ _ _ _ _ _ _ hs => exact hsame (by rw [hs])
  | popped _ _ _ _ _ _ _ _ _ _ _ _ _ _ _ hs => rw [hs]; exact Store.ages_pop _ _ n
  | tornDown _ _ _ _ _ _ _ _ _ _ _ _ hs => rw [hs]; exact Store.ages_tearDown _ _ n

/-- What the domain says was freed is. -/
theorem says_freed (hd : Did w lay t m w' lay') {n : Nat} (hn : .freed (.link n) ∈ w'.domain.story) :
    .freed (.link n) ∈ w.domain.story ∨ (w'.store.link n).freed = true := by
  cases hd with
  | called _ hc => exact hc.freed n hn
  | freed _ _ _ hc => exact hc.freed n hn
  | made _ _ hd => exact Or.inl (by rwa [hd] at hn)
  | began _ _ _ _ _ hc => exact hc.freed n hn
  | accessed _ _ _ _ _ _ _ _ _ hd => exact Or.inl (by rwa [hd] at hn)
  | took o head next _ _ _ _ _ hd =>
    obtain ⟨_, -, -, -, hst⟩ := Domain.calls_retire w.domain t (.link head)
      (some (o.leave (.dequeued (w.store.link next).value)))
    rw [hd, hst] at hn
    exact Or.inl ((List.mem_append.mp hn).resolve_right (by simp))
  | resumed _ _ _ _ _ hc => exact hc.freed n hn
  | left o _ _ _ _ _ _ hd =>
    rw [hd] at hn
    cases hg : o.guard with
    | none => rw [hg] at hn; exact Or.inl hn
    | some g =>
      rw [hg] at hn
      dsimp only at hn
      rw [(Domain.unpin_frame w.domain t g).2.2] at hn
      exact Or.inl ((List.mem_append.mp hn).resolve_right (by simp))
  | popped _ _ _ _ _ _ _ _ _ _ _ _ _ _ hd => exact Or.inl (by rwa [hd] at hn)
  | tornDown _ _ _ _ _ _ _ _ _ _ _ hd => exact Or.inl (by rwa [hd] at hn)

/-- A queue that is open was so before. -/
theorem open_of_open (hd : Did w lay t m w' lay') (hw : OpsFit w lay) (hw' : OpsFit w' lay')
    (hopen : ∀ p ∈ w.stack t, w.store.isOpen p.1.queue = true) {q : Nat} (hq : q < w.store.nextQueue)
    (h : w'.store.isOpen q = true) : w.store.isOpen q = true := by
  obtain ⟨hq', hf'⟩ := Store.isOpen_iff.mp h
  rcases hd.still hq with hlay | hopen' | ⟨p, hp, rfl⟩
  · have hl := hw.laid q hq
    have hhead : (w'.store.queue q).head = (w.store.queue q).head := by
      have := (hw'.laid q hq').head
      rw [hlay, hl.head] at this
      exact (Option.some.inj this).symm
    refine Bool.of_not_eq_false fun hclosed => ?_
    have hf : (w.store.link (w.store.queue q).head).freed = true := Bool.of_not_eq_false fun hf => by
      rw [Store.isOpen_iff.mpr ⟨hq, hf⟩] at hclosed
      cases hclosed
    rw [hhead, (hd.ages (hl.bound _ (Laid.mem hl.head))).freed hf] at hf'
    cases hf'
  · exact hopen'
  · exact hopen p hp

/-! ## Guards -/

/-- An operation that goes on keeps its guard. -/
theorem guards (hd : Did w lay t m w' lay') (hu : ∀ u, u ≠ t → w'.domain.thread u = w.domain.thread u)
    (ha : Apart w.grips) {u : Nat} {p : Operation α × Bool} (hp : p ∈ w.stack u)
    (hp' : p ∈ w'.stack u) {g : Guard} (hg : p.1.guard = some g) (hm : g ∈ (w.domain.thread u).guards) :
    g ∈ (w'.domain.thread u).guards := by
  by_cases e : u = t
  case neg => rwa [hu u e]
  subst e
  have hop : ∃ o ∈ w.operations u, o.guard = some g :=
    ⟨p.1, by rw [World.operations_eq]; exact List.mem_map_of_mem hp, hg⟩
  cases hd with
  | called _ hc => exact hc.guards g hm hop
  | freed _ _ _ hc => exact hc.guards g hm hop
  | made _ _ hd => rwa [hd]
  | began _ _ _ _ _ hc => exact hc.guards g hm hop
  | accessed _ _ _ _ _ _ _ _ _ hd => rwa [hd]
  | took o head next rest _ _ _ _ hd =>
    obtain ⟨_, -, -, hgs, -⟩ := Domain.calls_retire w.domain u (.link head)
      (some (o.leave (.dequeued (w.store.link next).value)))
    rwa [hd, hgs]
  | resumed _ _ _ _ _ hc => exact hc.guards g hm hop
  | left o r rest _ _ ho _ hd _ hk =>
    rw [hd]
    cases hgo : o.guard with
    | none => exact hm
    | some g' =>
      dsimp only
      rw [(Domain.calls_unpin w.domain u g').2]
      refine (List.mem_erase_of_ne ?_).mpr hm
      rintro rfl
      have hnd := ha.nodup u
      rw [World.grips, ho, List.filterMap_cons, show (o, false).1.guard = _ from hgo] at hnd
      exact (List.nodup_cons.mp hnd).1 (List.mem_filterMap.mpr ⟨p, hk ▸ hp', hg⟩)
  | popped _ _ _ _ _ _ _ _ _ _ _ _ _ _ hd => rwa [hd]
  | tornDown _ _ _ _ _ _ _ _ _ _ _ hd => rwa [hd]

end Did

end EpochQueue.Fifo
