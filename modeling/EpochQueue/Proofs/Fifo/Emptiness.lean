/-
  EpochQueue.Proofs.Fifo.Emptiness — is-empty was right at some moment between its two loads.

  Is-empty loads the head and then what follows that link, and does not look at the head again. In
  between others may have filled and drained the queue any number of times, and the link may be one
  that the head has long left behind. If nothing follows it, it is the head still, and the queue is
  empty at the second load. If something does, it did so at the first load already, or an enqueue has
  linked it there since, and at that moment the head was on that very link (`Sighted`): then there was
  a value, though there may be none any more.

  The moments are the worlds that a schedule of the others leads through (`World.through`).
-/

import EpochQueue.Proofs.Fifo.Fates
import EpochQueue.Proofs.Fifo.Schedules

namespace EpochQueue.Fifo

variable {α : Type}

namespace World

/-- The worlds that a schedule leads through, the first and the last among them. -/
def through (w : World α) : List (Nat × Move α) → List (World α)
  | [] => [w]
  | (t, m) :: ms => w :: (w.move t m).through ms

/-- Whatever others do before, with its next step `t` returns `r`. -/
def Returns (w : World α) (t : Nat) (r : Outcome α) : Prop :=
  ∀ ms w', (∀ e ∈ ms, e.1 ≠ t) → w.play ms = some w' → (w'.step t).2 = .finished r

variable {w w' : World α} {t q i n : Nat} {ms : List (Nat × Move α)}

theorem mem_through (w : World α) (ms : List (Nat × Move α)) : w ∈ w.through ms := by
  cases ms <;> exact List.mem_cons_self

/-- Others leave the operation of `t` alone. -/
theorem operation_of_play (hothers : ∀ e ∈ ms, e.1 ≠ t) (h : w.play ms = some w') :
    w'.operation t = w.operation t := by
  induction ms generalizing w with
  | nil => cases h; rfl
  | cons e ms ih =>
    rw [play] at h
    split at h
    · rw [ih (fun e' he => hothers e' (List.mem_cons_of_mem _ he)) h]
      exact (move_of_ne (Ne.symm (hothers e List.mem_cons_self)) e.2).1
    · cases h

theorem returns_of_leave {o : Operation α} {r : Outcome α} (ho : w.operation t = some o) (hp : o.point = .leave r) :
    w.Returns t r := fun ms w' hothers h => by
  rw [← operation_of_play hothers h] at ho
  unfold step
  rw [ho]
  simp only [stepOperation, hp]

/-! ## A link that was the head -/

/-- The link `n` stands at the place `i`, which the head had reached. -/
structure Sighted (w : World α) (lay : Nat → Layout) (q i n : Nat) : Prop where
  opsFit : OpsFit w lay
  queue : q < w.store.nextQueue
  reached : i ≤ (lay q).head
  stands : (lay q).nodes[i]? = some n

variable {lay lay' : Nat → Layout}

theorem Sighted.laid (hs : w.Sighted lay q i n) : Laid w.store q (lay q) := hs.opsFit.laid q hs.queue

theorem Sighted.move (hs : w.Sighted lay q i n) {m : Move α} (hd : Did w lay t m (w.move t m) lay') :
    (w.move t m).Sighted lay' q i n :=
  ⟨hd.opsFit hs.opsFit fun _ e => stack_of_ne e m, Nat.lt_of_lt_of_le hs.queue hd.nextQueue_le,
    Nat.le_trans hs.reached (hd.grows hs.queue).head, (hd.grows hs.queue).getElem? hs.stands⟩

/-- If nothing follows the link, the queue is empty. -/
theorem Sighted.empty (hs : w.Sighted lay q i n) (hn : (w.store.link n).next = none) : w.store.values q = [] := by
  have hlen := hs.laid.last_of_next_none hs.stands hn
  have hreached := hs.reached
  exact hs.laid.values_nil (by omega)

/-- If the head is on the link and something follows it, there is a value. -/
theorem Sighted.occupied (hs : w.Sighted lay q i n) (hhead : (lay q).head = i) (hlen : i + 1 < (lay q).nodes.length) :
    w.store.values q ≠ [] := fun h => by
  have hvals := hs.laid.length_values
  rw [h, List.length_nil] at hvals
  omega

/-- When something comes to follow the link, the head is on it. -/
theorem Sighted.filled (hs : w.Sighted lay q i n) {m : Move α} (hd : Did w lay t m (w.move t m) lay')
    (hlast : (lay q).nodes.length = i + 1) (hlen : i + 1 < (lay' q).nodes.length) :
    (w.move t m).store.values q ≠ [] := by
  have hlt := hs.laid.head_lt
  have hreached := hs.reached
  have hnodes : (lay' q).nodes ≠ (lay q).nodes := fun e => by rw [e] at hlen; omega
  refine (hs.move hd).occupied ?_ hlen
  rcases hd.heads hs.opsFit hs.queue with hhead | ⟨_, -, _, next, -, -, hnext, -⟩ | ⟨hsame, -⟩
  · omega
  · -- the head does not move on while nothing follows it
    have := (lay q).lt_of_getElem? hnext
    omega
  · exact absurd hsame hnodes

/-- Along a schedule: if something follows the link at the end, and did so not at the beginning, there was
    a value on the way. -/
theorem Sighted.along (hs : w.Sighted lay q i n) (h : w.play ms = some w') :
    ∃ lay', w'.Sighted lay' q i n ∧ w' ∈ w.through ms ∧
      (i + 1 < (lay' q).nodes.length → i + 1 < (lay q).nodes.length ∨ ∃ v ∈ w.through ms, v.store.values q ≠ []) := by
  induction ms generalizing w lay with
  | nil =>
    cases h
    exact ⟨lay, hs, mem_through _ _, Or.inl⟩
  | cons e ms ih =>
    rw [play] at h
    split at h
    case isFalse => cases h
    rename_i hm
    obtain ⟨lay₁, hd⟩ := hs.opsFit.did hm
    obtain ⟨lay', hs', hmem, hlen⟩ := ih (hs.move hd) h
    refine ⟨lay', hs', List.mem_cons_of_mem _ hmem, fun hlt => ?_⟩
    rcases hlen hlt with hlt₁ | ⟨v, hv, hvals⟩
    · rcases Nat.lt_or_ge (i + 1) (lay q).nodes.length with hold | hold
      · exact Or.inl hold
      · have hstands := (lay q).lt_of_getElem? hs.stands
        exact Or.inr ⟨_, List.mem_cons_of_mem _ (mem_through _ _), hs.filled hd (by omega) hlt₁⟩
    · exact Or.inr ⟨v, List.mem_cons_of_mem _ hv, hvals⟩

/-- The load of the head sights it. -/
theorem Reach.sights (h : w.Reach) {o : Operation α} (ho : w.operation t = some o)
    (hp : o.point = .access (.isEmpty .loadHead)) : ∃ lay,
      (w.move t .step).Sighted lay o.queue (lay o.queue).head (w.store.queue o.queue).head ∧
      (w.move t .step).operation t = some (o.goto (.isEmpty (.loadNext (w.store.queue o.queue).head))) := by
  obtain ⟨lay, hw⟩ := h.opsFit
  have hq := (hw.sits t (o, false) (stack_active ho ▸ List.mem_cons_self)).queue
  have hmove : w.move t .step = { w with
      active := w.active.set t (some (o.goto (.isEmpty (.loadNext (w.store.queue o.queue).head)))) } := by
    dsimp only [World.move, step]
    rw [ho]
    simp only [stepOperation, hp, Store.access, Store.accessEmpty]
  obtain ⟨lay', hd⟩ := hw.did (m := .step) fun hr => by rw [hr.1] at ho; cases ho
  have hw' := hd.opsFit hw fun _ e => stack_of_ne e .step
  rw [hmove] at hw' ⊢
  exact ⟨lay', ⟨hw', hq, Nat.le_refl _, (hw'.laid _ hq).head⟩, operation_of_set rfl⟩

/-- Others do what they like between the two loads of is-empty, and before it returns: the answer is what
    the queue was like at one moment from the first load to the second. -/
theorem Reach.emptiness (h : w.Reach) {o : Operation α} (ho : w.operation t = some o)
    (hp : o.point = .access (.isEmpty .loadHead)) (hothers : ∀ e ∈ ms, e.1 ≠ t)
    (hplay : (w.move t .step).play ms = some w') :
    ∃ b, (w'.step t).2 = .accessed (.load b) none ∧ (w'.move t .step).Returns t (.emptiness b) ∧
      ∃ v ∈ (w.move t .step).through ms, (b = true ↔ v.store.values o.queue = []) := by
  obtain ⟨lay, hs, hop⟩ := h.sights ho hp
  obtain ⟨lay', hs', hmem, hlen⟩ := hs.along hplay
  rw [← operation_of_play hothers hplay] at hop
  have hmove : w'.step t = ({ w' with active := w'.active.set t (some (o.leave
      (.emptiness (w'.store.link (w.store.queue o.queue).head).next.isNone))) },
      .accessed (.load (w'.store.link (w.store.queue o.queue).head).next.isNone) none) := by
    unfold step
    rw [hop]
    rfl
  have hleaves := operation_of_set (w := (w'.move t .step)) (by dsimp only [World.move]; rw [hmove])
  refine ⟨_, by rw [hmove], returns_of_leave hleaves rfl, ?_⟩
  cases hn : (w'.store.link (w.store.queue o.queue).head).next with
  | none => exact ⟨w', hmem, iff_of_true rfl (hs'.empty hn)⟩
  | some k =>
    have hnext := (lay' o.queue).lt_of_getElem? ((hs'.laid.next _ _ hs'.stands).symm.trans hn)
    rcases hlen hnext with hold | ⟨v, hv, hvals⟩
    · exact ⟨_, mem_through _ _, iff_of_false Bool.false_ne_true (hs.occupied rfl hold)⟩
    · exact ⟨v, hv, iff_of_false Bool.false_ne_true hvals⟩

/-- Thread 1 is about to load the head of the empty queue. -/
def askingRun : List (Nat × Move Nat) := [(0, .newQueue .standard), (1, .isEmpty 0)] ++ List.replicate 2 (1, .step)

theorem askingRun_plays : (({} : World Nat).play askingRun).isSome = true := by decide +kernel

def askingEnd : World Nat := (({} : World Nat).play askingRun).get askingRun_plays

theorem askingEnd_reached : askingEnd.Reach := .of_play .start (Option.some_get askingRun_plays).symm

/-- Thread 0 enqueues 7 and gets it back. -/
def passingRun : List (Nat × Move Nat) :=
  (0, .tryEnqueue 0 7 true) :: List.replicate 8 (0, .step) ++ (0, .dequeue 0) :: List.replicate 10 (0, .step)

theorem passingRun_plays : ((askingEnd.move 1 .step).play passingRun).isSome = true := by decide +kernel

/-- The value has come and gone when thread 1 loads what follows the old head, and it answers no. -/
theorem askingEnd_emptiness : askingEnd.store.values 0 = [] ∧
    ∃ w', (askingEnd.move 1 .step).play passingRun = some w' ∧ w'.store.values 0 = [] ∧
      (w'.move 1 .step).Returns 1 (.emptiness false) ∧
      ∃ v ∈ (askingEnd.move 1 .step).through passingRun, v.store.values 0 ≠ [] := by
  have hplay := (Option.some_get passingRun_plays).symm
  have hfirst : askingEnd.store.values 0 = [] := by decide +kernel
  have hlast : (((askingEnd.move 1 .step).play passingRun).get passingRun_plays).store.values 0 = [] := by
    decide +kernel
  have hload : (((((askingEnd.move 1 .step).play passingRun).get passingRun_plays)).step 1).2 =
      .accessed (.load false) none := rfl
  have hothers : ∀ e ∈ passingRun, e.1 ≠ 1 := by simp [passingRun]
  obtain ⟨o, ho, hqueue, hp⟩ : ∃ o, askingEnd.operation 1 = some o ∧ o.queue = 0 ∧
      o.point = .access (.isEmpty .loadHead) := ⟨_, rfl, rfl, rfl⟩
  obtain ⟨b, hb, hreturns, v, hv, hvals⟩ := askingEnd_reached.emptiness ho hp hothers hplay
  rw [hload] at hb
  cases hb
  rw [hqueue] at hvals
  exact ⟨hfirst, _, hplay, hlast, hreturns, v, hv, fun h => Bool.false_ne_true (hvals.mpr h)⟩

end World

end EpochQueue.Fifo
