/-
  EpochQueue.Proofs.Fifo.Keeping — what callers keep to, and what that keeps.

  Callers use no queue that was torn down, and take from a queue alone only when no operation on
  it is under way. So the links that an open queue has from its head on are not freed, a link that
  an enqueue brings is not, every operation that is past its pin holds a guard that nobody else
  has, and its queue is open (`Kept`). No interleaving breaks that (`World.Reach.kept`).
-/

import EpochQueue.Proofs.Fifo.Heedless
import EpochQueue.Proofs.Reclaim.Garbage

namespace EpochQueue.Fifo

open Reclaim (Guard Domain)

variable {α : Type}

/-- What an operation under way relies on. -/
structure World.Minds (w : World α) (t : Nat) (p : Operation α × Bool) : Prop where
  waits : p.2 = p.1.guard.isNone
  start : p.1.guard = none → ∀ L b, p.1.point.Fits L b
  held : ∀ g, p.1.guard = some g → g ∈ (w.domain.thread t).guards
  opened : w.store.isOpen p.1.queue = true
  brought : ∀ n, p.1.point.stage = .waiting n → (w.store.link n).freed = false

/-- What holds of queues, operations and garbage as long as callers keep to the rules. -/
structure Kept (w : World α) (lay : Nat → Layout) : Prop extends QueueInv w lay where
  idle : ∀ t, (w.operation t).isSome = true → w.domain.mayCall t = true
  apart : Apart w.grips
  minds : ∀ t, ∀ p ∈ w.stack t, w.Minds t p
  live : ∀ q, w.store.isOpen q = true → ∀ i n, (lay q).head ≤ i → (lay q).nodes[i]? = some n →
    (w.store.link n).freed = false

theorem World.not_quiet {w : World α} {u : Nat} {p : Operation α × Bool} (hp : p ∈ w.stack u) :
    ¬ w.isQuiet p.1.queue := fun hq =>
  hq u p.1 (by rw [World.operations_eq]; exact List.mem_map_of_mem hp) rfl

namespace Kept

variable {w w' : World α} {lay lay' : Nat → Layout} {t : Nat} {m : Move α}

/-- Nobody works on a queue that was torn down. -/
theorem isQuiet_of_closed (hg : Kept w lay) {q : Nat} (hclosed : w.store.isOpen q = false) : w.isQuiet q := by
  rintro t o ho rfl
  rw [World.operations_eq] at ho
  obtain ⟨p, hp, rfl⟩ := List.mem_map.mp ho
  rw [(hg.minds t p hp).opened] at hclosed
  cases hclosed

/-! ## What is no garbage -/

theorem brought_unretired (hg : Kept w lay) {u : Nat} {p : Operation α × Bool} (hp : p ∈ w.stack u) {n : Nat}
    (hn : p.1.point.stage = .waiting n) : .retired (.link n) ∉ w.domain.story := by
  intro hr
  obtain ⟨q, j, hq, hj, -⟩ := hg.retired n hr
  obtain ⟨hnew, v, hv⟩ := (hg.opsFit.sits u p hp).brought n hn
  have hpq : q = p.1.queue := ((hg.opsFit.laid q hq).home n (Laid.mem hj)).symm.trans hv.home
  exact hnew (hpq ▸ Laid.mem hj)

/-- What is no garbage is not freed, unless an only owner leaves it behind. -/
theorem unfreed (hg : Kept w lay) (hd : Did w lay t m w' lay') {n : Nat} (hn : n < w.store.nextLink)
    (hf : (w.store.link n).freed = false) (hr : .retired (.link n) ∉ w.domain.story)
    (hq : w.isQuiet (w.store.link n).home → (w'.store.isOpen (w.store.link n).home = true ∨
      (lay' (w.store.link n).home).head + 1 < (lay' (w.store.link n).home).nodes.length) ∧
      ∃ i, (lay' (w.store.link n).home).nodes[i]? = some n ∧ (lay' (w.store.link n).home).head ≤ i) :
    (w'.store.link n).freed = false := by
  rcases hd.frees hg.opsFit hn with h | ⟨h, -⟩ | ⟨q, i, hquiet, hlt, hi, -, hend⟩
  · rw [h, hf]
  · exact absurd (hg.reach.accounted.todo t _ h) hr
  · have hhome := (hg.opsFit.laid q hlt).home n (Laid.mem hi)
    rw [hhome] at hq
    obtain ⟨hopen, j, hj, hle⟩ := hq hquiet
    rcases hend with ⟨hclosed, hlen⟩ | hend
    · rcases hopen with hopen | hmore
      · rw [hopen] at hclosed; cases hclosed
      · exact absurd hlen (Nat.not_le_of_lt hmore)
    · exact absurd (hend j hj) (Nat.not_lt_of_le hle)

/-- An open queue keeps its links from the head on, unless its only owner leaves but one. -/
theorem standing (hg : Kept w lay) (hd : Did w lay t m w' lay') {q : Nat} (hopen : w.store.isOpen q = true)
    (hq : w.isQuiet q → w'.store.isOpen q = true ∨ (lay' q).head + 1 < (lay' q).nodes.length) {i n : Nat}
    (hle : (lay' q).head ≤ i) (hi : (lay' q).nodes[i]? = some n) : (w'.store.link n).freed = false := by
  have hlt := Store.isOpen_lt hopen
  have hl := hg.opsFit.laid q hlt
  rcases hd.joins hlt hi with hold | ⟨p, hp, rfl, hst⟩
  · have hle' := Nat.le_trans (hd.grows hlt).head hle
    have hhome := hl.home n (Laid.mem hold)
    refine hg.unfreed hd (hl.bound n (Laid.mem hold)) (hg.live q hopen i n hle' hold) (fun hr => ?_) fun hquiet => ?_
    · exact absurd (hg.lt_head hlt hold hr) (Nat.not_lt_of_le hle')
    · rw [hhome] at hquiet ⊢
      exact ⟨hq hquiet, i, hi, hle⟩
  · obtain ⟨-, v, hv⟩ := (hg.opsFit.sits t p hp).brought n hst
    refine hg.unfreed hd hv.bound ((hg.minds t p hp).brought n hst) (hg.brought_unretired hp hst) fun hquiet => ?_
    rw [hv.home] at hquiet
    exact absurd hquiet (World.not_quiet hp)

theorem stays_open (hg : Kept w lay) (hd : Did w lay t m w' lay') (hw' : OpsFit w' lay') {u : Nat}
    {p : Operation α × Bool} (hp : p ∈ w.stack u) : w'.store.isOpen p.1.queue = true := by
  have hopen := (hg.minds u p hp).opened
  have hlt := Nat.lt_of_lt_of_le (Store.isOpen_lt hopen) hd.nextQueue_le
  have hl := hw'.laid _ hlt
  exact Store.isOpen_iff.mpr ⟨hlt, hg.standing hd hopen (fun h => absurd h (World.not_quiet hp)) (Nat.le_refl _) hl.head⟩

/-! ## Operations -/

theorem brought (hg : Kept w lay) (hd : Did w lay t m w' lay') {u : Nat} {p : Operation α × Bool}
    (hp : p ∈ w.stack u) {n : Nat} (hn : p.1.point.stage = .waiting n) : (w'.store.link n).freed = false := by
  obtain ⟨-, v, hv⟩ := (hg.opsFit.sits u p hp).brought n hn
  refine hg.unfreed hd hv.bound ((hg.minds u p hp).brought n hn) (hg.brought_unretired hp hn) fun hquiet => ?_
  rw [hv.home] at hquiet
  exact absurd hquiet (World.not_quiet hp)

/-- An operation that does nothing itself. -/
theorem minds_keep (hg : Kept w lay) (hd : Did w lay t m w' lay') (hw' : OpsFit w' lay')
    (hu : ∀ u, u ≠ t → w'.domain.thread u = w.domain.thread u) {u : Nat} {p : Operation α × Bool}
    (hp : p ∈ w.stack u) (hp' : p ∈ w'.stack u) : w'.Minds u p where
  waits := (hg.minds u p hp).waits
  start := (hg.minds u p hp).start
  held := fun g h => hd.guards hu hg.apart hp hp' h ((hg.minds u p hp).held g h)
  opened := hg.stays_open hd hw' hp
  brought := fun _ hn => hg.brought hd hp hn

theorem minds_began (hg : Kept w lay) {o : Operation α} {r : Request α} (hst : Starts w.store w'.store o r)
    (hopen : w.store.isOpen o.queue = true) : w'.Minds t (o, true) := by
  have hopen' := hst.isOpen (hg.opsFit.laid _ (Store.isOpen_lt hopen)) hopen
  refine ⟨by rw [hst.guard]; rfl, fun _ L b => ?_, fun g h => ?_, hopen', fun n hn => ?_⟩
  · generalize w'.store = s at hst
    cases hst <;> trivial
  · rw [hst.guard] at h; cases h
  · generalize w'.store = s at hst
    cases hst with
    | enqueue q v b =>
      cases hn
      rw [Store.link_alloc, if_pos rfl]
    | dequeue => cases hn
    | isEmpty => cases hn

/-- The operation on top of the stack goes on. -/
theorem minds_turn (hg : Kept w lay) (hd : Did w lay t m w' lay') (hw' : OpsFit w' lay') {o o' : Operation α}
    {b : Bool} (ho : (o, b) ∈ w.stack t) (hq : o'.queue = o.queue) (hsome : o'.guard.isSome = true)
    (hheld : ∀ g, o'.guard = some g → g ∈ (w'.domain.thread t).guards)
    (hwait : ∀ n, o'.point.stage = .waiting n → o.point.stage = .waiting n) : w'.Minds t (o', false) where
  waits := by rw [Option.isNone_eq_false_iff.mpr hsome]
  start := fun h => by rw [h] at hsome; cases hsome
  held := hheld
  opened := hq ▸ hg.stays_open hd hw' ho
  brought := fun n hn => hg.brought hd ho (hwait n hn)

theorem minds' (hg : Kept w lay) (hd : Did w lay t m w' lay') (hw' : OpsFit w' lay')
    (hu : ∀ u, u ≠ t → w'.domain.thread u = w.domain.thread u) (hk : ∀ u, u ≠ t → w'.stack u = w.stack u) :
    ∀ u, ∀ p ∈ w'.stack u, w'.Minds u p := by
  intro u p hp'
  by_cases e : u = t
  case neg => exact hg.minds_keep hd hw' hu (hk u e ▸ hp') hp'
  subst e
  -- an operation that waits for no guard has one
  have hsome : ∀ {o}, (o, false) ∈ w.stack u → o.guard.isSome = true := fun ho =>
    Option.isNone_eq_false_iff.mp (hg.minds u _ ho).waits.symm
  rcases hd.comes hp' with hp | hcomes
  · exact hg.minds_keep hd hw' hu hp hp'
  cases hcomes with
  | began o r hst hopen => exact hg.minds_began hst hopen
  | accessed o spot hp ho hv hf hdom =>
    refine hg.minds_turn hd hw' ho hv.queue (hv.guard ▸ hsome ho) (fun g h => ?_) fun n hn => ?_
    · rw [hdom]; exact (hg.minds u _ ho).held g (hv.guard ▸ h)
    · rw [hp]; exact (Served.waiting hf hn).1
  | took o head next ho hgs =>
    refine hg.minds_turn hd hw' ho rfl (show o.guard.isSome = true from hsome ho) (fun g h => ?_) fun n hn => ?_
    · rw [hgs]; exact (hg.minds u _ ho).held g h
    · cases hval : (w.store.link next).value <;> rw [hval] at hn <;> cases hn
  | resumed o g ho hc hgs =>
    refine hg.minds_turn hd hw' ho rfl rfl (fun g' h => ?_) fun n hn => hn
    cases h
    exact hgs

/-! ## The domain -/

/-- The domain rests, or moves as it may; then it is no access that `t` makes. -/
theorem domain_move (hg : Kept w lay) (hd : Did w lay t m w' lay') : w'.domain = w.domain ∨
    w.nextAccess? t = none ∧ ∃ x, w.domain.may t x ∧ w'.domain = w.domain.move t x := by
  have hcalls : w.Calls t w' → w'.domain = w.domain ∨
      w.nextAccess? t = none ∧ ∃ x, w.domain.may t x ∧ w'.domain = w.domain.move t x := fun hc =>
    hc.move.imp_right fun ⟨ho, hx⟩ => ⟨by rw [World.nextAccess?, ho]; rfl, hx⟩
  have hstands : ∀ {o}, w.operation t = some o → o.point.next? = none → w.nextAccess? t = none := fun ho hp => by
    rw [World.nextAccess?, ho, Option.bind_some, hp]
  cases hd with
  | called _ hc => exact hcalls hc
  | freed _ _ _ hc => exact hcalls hc
  | made _ _ hd => exact Or.inl hd
  | began _ _ _ _ _ hc => exact hcalls hc
  | accessed _ _ _ _ _ _ _ _ _ hd => exact Or.inl hd
  | took o head next rest hp hop ho _ hd =>
    have hnew := hg.taking t _ (ho ▸ List.mem_cons_self) head next hp
    refine Or.inr ⟨hstands hop (by rw [hp]; rfl), .retire (.link head) _,
      ⟨hg.idle t (by rw [hop]; rfl), fun h => ?_⟩, hd⟩
    exact hnew ((Domain.mem_story rfl).mpr h)
  | resumed _ _ _ _ _ hc => exact hcalls hc
  | left o r rest hp hop ho _ hd =>
    have hmem : (o, false) ∈ w.stack t := ho ▸ List.mem_cons_self
    cases hgo : o.guard with
    | none => rw [hgo] at hd; exact Or.inl hd
    | some g =>
      rw [hgo] at hd
      exact Or.inr ⟨hstands hop (by rw [hp]; rfl), .unpin g,
        ⟨hg.idle t (by rw [hop]; rfl), (hg.minds t _ hmem).held g hgo⟩, hd⟩
  | popped _ _ _ _ _ _ _ _ _ _ _ _ _ _ hd => exact Or.inl hd
  | tornDown _ _ _ _ _ _ _ _ _ _ _ hd => exact Or.inl hd

/-- A guard that an operation holds was made before. -/
theorem pinned (hg : Kept w lay) {u : Nat} {p : Operation α × Bool} (hp : p ∈ w.stack u) {g : Guard}
    (h : p.1.guard = some g) : .pinned g ∈ w.domain.story :=
  ((hg.reach.recorded.alive g).mp ⟨u, (hg.minds u p hp).held g h⟩).1

theorem apart' (hg : Kept w lay) (hd : Did w lay t m w' lay') 
    (hk : ∀ u, u ≠ t → w'.stack u = w.stack u) : Apart w'.grips := by
  have hu : ∀ u, u ≠ t → w'.grips u = w.grips u := fun u e => by rw [World.grips, hk u e]; rfl
  have hsub : (w'.grips t).Sublist (w.grips t) → Apart w'.grips := fun h => hg.apart.shrink hu h
  have hsame : w'.stack t = w.stack t → Apart w'.grips := fun h =>
    hsub (by rw [World.grips, h]; exact List.Sublist.refl _)
  have hcons : ∀ {v : World α} {o b rest}, v.stack t = (o, b) :: rest →
      v.grips t = o.guard.toList ++ rest.filterMap (·.1.guard) := fun h => by
    rw [World.grips, h, filterMap_cons_toList]
  have hmove := hg.domain_move hd
  have hturn : ∀ {o o' : Operation α} {b b' rest}, w.stack t = (o, b) :: rest → w'.stack t = (o', b') :: rest →
      (o'.guard = none ∨ o'.guard = o.guard ∨ ∃ g, o'.guard = some g ∧ ∀ u, g ∉ w.grips u) → Apart w'.grips :=
    fun h h' hy => hg.apart.turn hu (hcons h) (hcons h') hy
  cases hd with
  | called _ _ _ h => exact hsame h
  | freed _ _ _ _ _ h => exact hsame h
  | made _ _ _ _ h => exact hsame h
  | popped _ _ _ _ _ _ _ _ _ _ _ _ _ _ _ _ h => exact hsame h
  | tornDown _ _ _ _ _ _ _ _ _ _ _ _ _ h => exact hsame h
  | left _ _ _ _ _ ho _ _ _ h =>
    exact hsub (by rw [hcons ho, World.grips, h]; exact List.sublist_append_right _ _)
  | began o r hst _ _ _ h =>
    exact hsub (by rw [hcons h, hst.guard]; exact List.Sublist.refl _)
  | accessed _ _ _ _ _ ho hv _ _ _ _ h => exact hturn ho h (Or.inr (Or.inl hv.guard))
  | took _ _ _ _ _ _ ho _ _ _ h => exact hturn ho h (Or.inr (Or.inl rfl))
  | resumed o g rest ho _ _ hgs hst _ h =>
    refine hturn ho h (Or.inr (Or.inr ⟨g, rfl, fun u hm => ?_⟩))
    obtain ⟨p, hp, hpg⟩ := List.mem_filterMap.mp hm
    have hold := hg.pinned hp hpg
    -- a guard is made with a serial number of its own
    rcases hmove with hdom | ⟨-, x, hx, hdom⟩
    · rw [hdom] at hst
      exact absurd (congrArg List.length hst) (by simp)
    · obtain ⟨y, hturn⟩ := hg.reach.owned.turn hx
      have hy := hturn.story
      rw [← hdom, hst] at hy
      have hy : y = some (.pinned g) := Option.toList_eq_singleton_iff.mp (List.append_cancel_left hy).symm
      have hserial := hturn.guards
      rw [hy] at hserial
      exact Nat.lt_irrefl _ (hserial.1 ▸ hg.reach.recorded.serial g hold)

/-- A call that returns leaves the thread where it may call. -/
theorem idle' (hg : Kept w lay) (hm : w.may t m) {u : Nat} (h : ((w.move t m).operation u).isSome = true) :
    (w.move t m).domain.mayCall u = true := by
  by_cases e : u = t
  case neg =>
    rw [(World.move_of_ne e m).1] at h
    have := hg.idle u h
    rwa [Domain.mayCall_eq, ← (World.move_of_ne e m).2, ← Domain.mayCall_eq] at this
  subst e
  rw [Domain.mayCall_eq]
  rcases World.active_move hm with hn | ⟨hs, hc⟩ | ⟨c, hc⟩
  · rw [hn] at h; cases h
  · rw [hc, ← Domain.mayCall_eq]
    exact hg.idle u hs
  · have houter := (hg.reach.owned.sound u).outer
    rw [hc, List.tail_cons] at houter
    cases hcalls : ((w.move u m).domain.thread u).calls with
    | nil => rfl
    | cons c' rest => exact houter c' (hcalls ▸ List.mem_cons_self)

theorem live' (hg : Kept w lay) (hd : Did w lay t m w' lay') (hw' : OpsFit w' lay') {q : Nat}
    (hopen : w'.store.isOpen q = true) {i n : Nat} (hle : (lay' q).head ≤ i) (hi : (lay' q).nodes[i]? = some n) :
    (w'.store.link n).freed = false := by
  rcases Nat.lt_or_ge q w.store.nextQueue with hq | hq
  · have hold := hd.open_of_open hg.opsFit hw' (fun p hp => (hg.minds t p hp).opened) hq hopen
    exact hg.standing hd hold (fun _ => Or.inl hopen) hle hi
  · obtain ⟨hlay, hlink⟩ := hd.queue_new (Store.isOpen_lt hopen) hq
    rw [hlay] at hi
    cases List.mem_singleton.mp (List.mem_of_getElem? hi)
    rw [hlink]

/-- No move breaks it. -/
theorem step (hg : Kept w lay) (hm : w.may t m) (hd : Did w lay t m (w.move t m) lay') :
    Kept (w.move t m) lay' := by
  have hk : ∀ u, u ≠ t → (w.move t m).stack u = w.stack u := fun u e => World.stack_of_ne e m
  have hw' := hd.opsFit hg.opsFit hk
  refine ⟨hg.toQueueInv.did hd ?_ hk, fun u h => hg.idle' hm h, hg.apart' hd hk,
    hg.minds' hd hw' (fun u e => (World.move_of_ne e m).2) hk, fun q ho i n hle hi => hg.live' hd hw' ho hle hi⟩
  rcases hg.domain_move hd with h | ⟨-, x, hx, h⟩
  · exact h ▸ hg.reach
  · exact h ▸ hg.reach.move t x hx

/-- A move only adds to the story. -/
theorem story (hg : Kept w lay) (hd : Did w lay t m w' lay') : ∃ l, w'.domain.story = w.domain.story ++ l := by
  rcases hg.domain_move hd with h | ⟨-, x, hx, h⟩
  · exact ⟨[], by rw [h, List.append_nil]⟩
  · obtain ⟨y, hturn⟩ := hg.reach.owned.turn hx
    exact ⟨y.toList, h ▸ hturn.story⟩

/-- An epoch that has overflowed has done so for good. -/
theorem not_wrapped (hg : Kept w lay) (hd : Did w lay t m w' lay') (hw : ¬ w'.domain.wrapped) : ¬ w.domain.wrapped := by
  obtain ⟨l, hl⟩ := hg.story hd
  rw [Domain.wrapped_iff, hl, List.mem_append, not_or, ← Domain.wrapped_iff] at hw
  exact hw.1

theorem empty : Kept ({} : World α) fun _ => ⟨[], 0, 0⟩ := ⟨.empty, nofun, .empty, nofun, nofun⟩

end Kept

theorem World.Reach.kept {w : World α} (h : w.Reach) : ∃ lay, Kept w lay := by
  induction h with
  | start => exact ⟨_, .empty⟩
  | move t m _ hm ih =>
    obtain ⟨lay, hg⟩ := ih
    obtain ⟨lay', hd⟩ := hg.opsFit.did hm
    exact ⟨lay', hg.step hm hd⟩

end EpochQueue.Fifo
