/-
  EpochQueue.Proofs.Fifo.Shape — the list of links behind the head, between any two accesses.

  Only an enqueue that has linked its link and not swung the tail yet leaves the tail one link
  behind, and the tail catches up no later than that enqueue is through (`Swinging`): whoever swings
  the tail first makes the later attempt fail. The tail is never two links behind, since nobody links
  behind a link that the tail has not reached (`QueueInv.taut`).

  `Shape` says of one queue what that comes to: following next from the head leads over the tail to
  the one last link, to none twice. `World.Reach.shape` is for every run, at single accesses, and
  says too that what follows a link never changes once something does.
-/

import EpochQueue.Proofs.Fifo.Safety

namespace EpochQueue.Fifo

variable {α : Type}

/-- `w'` comes later in a run than `w`, or is the same. -/
inductive World.Leads (w : World α) : World α → Prop
  | here : Leads w w
  | move {w' : World α} (t : Nat) (m : Move α) : Leads w w' → w'.may t m → Leads w (w'.move t m)

theorem World.Leads.reach {w w' : World α} (h : w.Leads w') (hr : w.Reach) : w'.Reach := by
  induction h with
  | here => exact hr
  | move t m _ hm ih => exact .move t m ih hm

/-- The enqueue has linked its link and stands before the swing of the tail. -/
def Operation.Swings (o : Operation α) : Prop := ∃ node tail, o.point = .access (.enqueue node (.swingTail tail))

/-- What the links behind the head are like, `last` being the last of them. -/
structure World.Shape (w : World α) (q last : Nat) : Prop where
  nodup : (w.store.chain q).Nodup
  head : (w.store.chain q).head? = some (w.store.queue q).head
  next : ∀ i n, (w.store.chain q)[i]? = some n → (w.store.link n).next = (w.store.chain q)[i + 1]?
  mem : last ∈ w.store.chain q
  ends : ∀ n ∈ w.store.chain q, (w.store.link n).next = none ↔ n = last
  tail : (w.store.queue q).tail ∈ w.store.chain q
  near : (w.store.queue q).tail = last ∨ (w.store.link (w.store.queue q).tail).next = some last
  /-- The tail is behind only while an enqueue stands between its two swaps. -/
  swung : (∀ t, ∀ o ∈ w.operations t, o.queue = q → ¬ o.Swings) → (w.store.queue q).tail = last
  /-- The head has not moved past the tail. -/
  passed : ¬ w.Passed (w.store.queue q).tail

/-- When the tail of a queue is behind, an enqueue stands before swinging it from there. -/
def Swinging (w : World α) (lay : Nat → Layout) : Prop :=
  ∀ q, q < w.store.nextQueue → (lay q).tail + 1 < (lay q).nodes.length → ∃ u, ∃ p ∈ w.stack u, ∃ node,
    p.1.queue = q ∧ p.1.point = .access (.enqueue node (.swingTail (w.store.queue q).tail))

section

variable {w w' : World α} {lay lay' : Nat → Layout} {t : Nat} {m : Move α}

/-- An enqueue that swings the tail from where it is does not leave it there. -/
theorem Goes.swung (hw : OpsFit w lay) {p : Operation α × Bool} (hp : p ∈ w.stack t) (hgo : Goes w t w' lay lay' p)
    {node : Nat} (hpt : p.1.point = .access (.enqueue node (.swingTail (w.store.queue p.1.queue).tail))) :
    (∃ p' ∈ w'.stack t, p'.1.queue = p.1.queue ∧ p'.1.point = p.1.point) ∨
      (w'.store.queue p.1.queue).tail ≠ (w.store.queue p.1.queue).tail := by
  cases hgo with
  | accessed o spot hacc _ hs _ =>
    refine Or.inr ?_
    have hspot : spot = .enqueue node (.swingTail (w.store.queue o.queue).tail) := by
      rw [show o.point = _ from hacc] at hpt
      exact Point.access.inj hpt
    have hfit := (hw.sits t _ hp).fits
    rw [show (o, false).1.point = _ from hacc, hspot] at hfit
    obtain ⟨i, hi, hn⟩ := hfit
    have hmoved : (w'.store.queue o.queue).tail = node := by
      rw [hs, hspot]
      simp [Store.access, Store.accessEnqueue, Store.casTail, Store.queue_modifyQueue]
    rw [hmoved]
    intro e
    have := (hw.laid _ (hw.sits t _ hp).queue).place hi (e ▸ hn)
    omega
  | took o head next h => rw [show (o, false).1.point = _ from h] at hpt; cases hpt
  | resumed o g hk => exact Or.inl ⟨_, hk, rfl, rfl⟩
  | left o r h => rw [show (o, false).1.point = _ from h] at hpt; cases hpt

theorem Swinging.did (hsw : Swinging w lay) (hs : QueueInv w lay) (hd : Did w lay t m w' lay') (hw' : OpsFit w' lay')
    (hu : ∀ u, u ≠ t → w'.stack u = w.stack u) : Swinging w' lay' := by
  intro q hq' hlag'
  rcases Nat.lt_or_ge q w.store.nextQueue with hq | hge
  case inr =>
    rw [(hd.queue_new hq' hge).1] at hlag'
    exact absurd hlag' (Nat.lt_irrefl 1)
  have hl := hs.opsFit.laid q hq
  have hl' := hw'.laid q hq'
  have hg := hd.grows hq
  have htaut := hs.taut q hq
  have hmoved := hg.tail
  unfold Layout.Taut at htaut
  rcases hd.nodes_eq hq with hnodes | ⟨o, node, tail, ho, rfl, hpt, hnext, htail, hk⟩
  · rw [hnodes] at hlag'
    obtain ⟨u, p, hp, node, rfl, hpt⟩ := hsw q hq (by omega)
    -- as long as the tail is behind it has not moved
    have hsame : (lay' p.1.queue).tail = (lay p.1.queue).tail := by omega
    have htail : (w'.store.queue p.1.queue).tail = (w.store.queue p.1.queue).tail :=
      Option.some.inj (hl'.tail.symm.trans (hsame ▸ hg.getElem? hl.tail))
    rcases hd.goes hu hp with hp' | ⟨rfl, hgo⟩
    · exact ⟨u, p, hp', node, rfl, htail.symm ▸ hpt⟩
    · rcases hgo.swung hs.opsFit hp hpt with ⟨p', hp', hqueue, hpt'⟩ | hne
      · exact ⟨u, p', hp', node, hqueue, htail.symm ▸ hpt'.trans hpt⟩
      · exact absurd htail hne
  · -- the link behind which it was linked was the last one, and the tail had reached it
    have htrails := hs.trails t _ ho
    rw [show (o, false).1.point = _ from hpt] at htrails
    obtain ⟨i, hi, hin⟩ : ∃ i, i ≤ (lay o.queue).tail ∧ (lay o.queue).nodes[i]? = some tail := htrails
    have hlen := hl.last_of_next_none hin hnext
    have hlt := (lay o.queue).lt_of_getElem? hl.tail
    have hit : i = (lay o.queue).tail := by omega
    have hseen : tail = (w.store.queue o.queue).tail := Option.some.inj (hin.symm.trans (hit ▸ hl.tail))
    exact ⟨t, _, hk, node, rfl, by rw [htail, ← hseen]; rfl⟩

/-- What the layout says about the chain. -/
theorem QueueInv.shaped (hs : QueueInv w lay) (hsw : Swinging w lay) {q : Nat} (hq : q < w.store.nextQueue) :
    ∃ last, w.Shape q last := by
  have hl := hs.opsFit.laid q hq
  have hchain := hl.chain_eq
  have hhead := hl.head_lt
  have htl := (lay q).lt_of_getElem? hl.tail
  have horder := hl.order
  have hmem : ∀ {i n}, (lay q).head ≤ i → (lay q).nodes[i]? = some n → n ∈ w.store.chain q := fun {i n} hi hn => by
    rw [hchain]
    refine List.mem_of_getElem? (i := i - (lay q).head) ?_
    rw [List.getElem?_drop, Nat.add_sub_cancel' hi, hn]
  have htail := hmem horder hl.tail
  have hhome := hl.home _ (Laid.mem hl.tail)
  obtain ⟨n, hn⟩ : ∃ n, (lay q).nodes[(lay q).nodes.length - 1]? = some n :=
    ⟨_, List.getElem?_eq_getElem (by omega)⟩
  have hlast : ∀ k ∈ w.store.chain q, (w.store.link k).next = none ↔ k = n := fun k hk => by
    rw [hchain] at hk
    obtain ⟨i, -, hi⟩ := Laid.mem_drop hk
    have hlt := (lay q).lt_of_getElem? hi
    rw [hl.next i k hi, List.getElem?_eq_none_iff]
    constructor
    · intro hle
      have hin : i = (lay q).nodes.length - 1 := by omega
      exact Option.some.inj (hi.symm.trans (hin ▸ hn))
    · rintro rfl
      have := hl.place hi hn
      omega
  have hend : (lay q).tail + 1 = (lay q).nodes.length → (w.store.queue q).tail = n := fun h => by
    have hin : (lay q).tail = (lay q).nodes.length - 1 := by omega
    exact Option.some.inj (hl.tail.symm.trans (hin ▸ hn))
  refine ⟨n, hchain ▸ hl.nodup.drop, ?_, fun i k hk => ?_, hmem (by omega) hn, hlast, htail, ?_, fun hno => ?_,
    fun hpassed => hpassed.1 (hhome.symm ▸ htail)⟩
  · rw [hchain, List.head?_drop, hl.head]
  · rw [hchain, List.getElem?_drop] at hk ⊢
    rw [hl.next _ k hk, Nat.add_assoc]
  · have htaut := hs.taut q hq
    unfold Layout.Taut at htaut
    rcases Nat.lt_or_ge ((lay q).tail + 1) (lay q).nodes.length with hlag | hge
    · refine Or.inr ?_
      have hin : (lay q).tail + 1 = (lay q).nodes.length - 1 := by omega
      rw [hl.next _ _ hl.tail, hin, hn]
    · exact Or.inl (hend (by omega))
  · refine hend (Nat.le_antisymm htl (Nat.le_of_not_lt fun hlag => ?_))
    obtain ⟨u, p, hp, node, hqueue, hpt⟩ := hsw q hq hlag
    exact hno u p.1 (by rw [World.operations_eq]; exact List.mem_map_of_mem hp) hqueue ⟨node, _, hpt⟩

end

theorem World.Reach.swinging {w : World α} (h : w.Reach) : ∃ lay, Kept w lay ∧ Swinging w lay := by
  induction h with
  | start => exact ⟨_, .empty, nofun⟩
  | move t m _ hm ih =>
    obtain ⟨lay, hg, hsw⟩ := ih
    obtain ⟨lay', hd⟩ := hg.opsFit.did hm
    have hg' := hg.step hm hd
    exact ⟨lay', hg', hsw.did hg.toQueueInv hd hg'.opsFit fun u e => World.stack_of_ne e m⟩

theorem World.Reach.next_kept {w w' : World α} (h : w.Reach) (hrun : w.Leads w') {n k : Nat}
    (hn : n < w.store.nextLink) (hk : (w.store.link n).next = some k) :
    n < w'.store.nextLink ∧ (w'.store.link n).next = some k := by
  induction hrun with
  | here => exact ⟨hn, hk⟩
  | move t m hrun hm ih =>
    obtain ⟨lay, hw⟩ := (hrun.reach h).opsFit
    obtain ⟨lay', hd⟩ := hw.did hm
    have hw' := hd.opsFit hw fun u e => World.stack_of_ne e m
    exact ⟨Nat.lt_of_lt_of_le ih.1 hd.nextLink_le, hd.next_kept hw hw' ih.1 ih.2⟩

/-- Every queue has its shape, and a link that has a successor keeps it. -/
theorem World.Reach.shape {w : World α} (h : w.Reach) :
    (∀ q, q < w.store.nextQueue → ∃ last, w.Shape q last) ∧
    ∀ w', w.Leads w' → ∀ n k, n < w.store.nextLink → (w.store.link n).next = some k →
      (w'.store.link n).next = some k := by
  obtain ⟨lay, hg, hsw⟩ := h.swinging
  exact ⟨fun q hq => hg.toQueueInv.shaped hsw hq, fun w' hrun n k hn hk => (h.next_kept hrun hn hk).2⟩

/-- Thread 0 has linked the second of its two links and not swung the tail there; thread 1, which
    dequeues, has seen head and tail. -/
def World.laggingRun : List (Nat × Move Nat) :=
  [(0, .newQueue .standard), (0, .tryEnqueue 0 7 true)] ++ List.replicate 8 (0, .step) ++
    [(0, .tryEnqueue 0 8 true)] ++ List.replicate 6 (0, .step) ++ [(1, .dequeue 0)] ++ List.replicate 4 (1, .step)

theorem World.laggingRun_plays : (({} : World Nat).play World.laggingRun).isSome = true := by decide +kernel

def World.laggingEnd : World Nat := (({} : World Nat).play World.laggingRun).get World.laggingRun_plays

theorem World.laggingEnd_reached : World.laggingEnd.Reach := .of_play .start (Option.some_get World.laggingRun_plays).symm

theorem World.laggingEnd_shape : World.laggingEnd.store.chain 0 = [0, 1, 2] ∧
    (World.laggingEnd.store.queue 0).tail = 1 ∧ World.laggingEnd.Shape 0 2 ∧
    ∀ w', World.laggingEnd.Leads w' → (w'.store.link 1).next = some 2 := by
  have hchain : World.laggingEnd.store.chain 0 = [0, 1, 2] := by decide +kernel
  have hlast : (World.laggingEnd.store.link 2).next = none := by decide +kernel
  obtain ⟨hshape, hkept⟩ := World.Reach.shape World.laggingEnd_reached
  obtain ⟨last, hs⟩ := hshape 0 (by decide +kernel)
  cases (hs.ends 2 (by rw [hchain]; decide)).mp hlast
  exact ⟨hchain, by decide +kernel, hs, fun w' hrun => hkept w' hrun 1 2 (by decide +kernel) (by decide +kernel)⟩

end EpochQueue.Fifo
