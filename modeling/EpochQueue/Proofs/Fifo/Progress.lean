/-
  EpochQueue.Proofs.Fifo.Progress — what an operation has done so far.

  `Progress` reads the deeds of an operation off the stage that it has come to. Others do not
  touch it (`Progress.keep`, `Did.kept`), an access of its own takes it to the next stage
  (`Progress.access`), and at the end it accounts for the outcome (`Progress.account`).
-/

import EpochQueue.Proofs.Fifo.Simulation

namespace EpochQueue.Fifo

variable {α : Type}

/-! ## The deeds of one operation -/

section

variable {id q : Nat} {ds new : List (Deed α)}

theorem deedsOf_append (id : Nat) (ds new : List (Deed α)) : deedsOf id (ds ++ new) = deedsOf id ds ++ deedsOf id new :=
  List.filter_append _ _

theorem deedsOf_nil (h : ∀ d ∈ ds, d.author? ≠ some id) : deedsOf id ds = [] := by
  refine List.filter_eq_nil_iff.mpr fun d hd hb => ?_
  rw [Bool.and_eq_true, beq_iff_eq] at hb
  exact h d hd hb.1

theorem deedsOf_others (ds : List (Deed α)) (h : ∀ d ∈ new, d.author? ≠ some id) :
    deedsOf id (ds ++ new) = deedsOf id ds := by
  rw [deedsOf_append, deedsOf_nil h, List.append_nil]

theorem mem_of_mem_deedsOf {i : Nat} {d : Deed α} (h : d ∈ deedsOf i ds) : d ∈ ds := List.mem_of_mem_filter h

/-- Whatever comes after the last look leaves it the last. -/
theorem FoundEmpty.keep (h : FoundEmpty id q ds) (hn : ∀ p, .looked id p ∉ new) : FoundEmpty id q (ds ++ new) := by
  obtain ⟨before, after, rfl, hb, ha, hh⟩ := h
  refine ⟨before, after ++ new, by rw [List.append_assoc, List.cons_append], hb, fun p hp => ?_, hh⟩
  exact (List.mem_append.mp hp).elim (ha p) (hn p)

theorem Account.keep {r : Outcome α} (h : Account id ds r) (hn : ∀ d ∈ new, d.author? ≠ some id) :
    Account id (ds ++ new) r := by
  have hd := deedsOf_others ds hn
  match r, h with
  | .enqueued, ⟨q, v, h⟩ => exact ⟨q, v, hd.trans h⟩
  | .dequeued (some v), ⟨q, h⟩ => exact ⟨q, hd.trans h⟩
  | .dequeued none, ⟨q, h, he⟩ => exact ⟨q, hd.trans h, he.keep fun p hp => hn _ hp rfl⟩
  | .emptiness b, ⟨q, h⟩ => exact ⟨q, hd.trans h⟩

end

/-! ## Progress -/

/-- What an operation under way has done, at each stage. -/
def Progress (s : Store α) (ds : List (Deed α)) (id q : Nat) : Stage α → Prop
  | .waiting n => ∃ v, (s.link n).value = some v ∧ deedsOf id ds = [.began id q (.enqueue v)]
  | .linked => ∃ v, deedsOf id ds = [.began id q (.enqueue v), .appended id q v]
  | .looking => deedsOf id ds = [.began id q .dequeue]
  | .unfound => deedsOf id ds = [.began id q .dequeue] ∧ FoundEmpty id q ds
  | .taking n => ∃ v, (s.link n).value = some v ∧ deedsOf id ds = [.began id q .dequeue, .removed id q v]
  | .taken v => deedsOf id ds = [.began id q .dequeue, .removed id q v]
  | .asking => deedsOf id ds = [.began id q .isEmpty]

namespace Progress

variable {s s' : Store α} {ds new : List (Deed α)} {id q : Nat}

/-- Others do something, and not to the operation's own link. -/
theorem keep {p : Point α} (h : Progress s ds id q p.stage) (hn : ∀ d ∈ new, d.author? ≠ some id)
    (hv : ∀ n, p.mark? = some n → (s'.link n).value = (s.link n).value) : Progress s' (ds ++ new) id q p.stage := by
  have hd := deedsOf_others ds hn
  unfold Point.mark? at hv
  cases hst : p.stage with
  | waiting n =>
    rw [hst] at h hv
    obtain ⟨v, hl, h⟩ := h
    exact ⟨v, (hv n rfl).trans hl, hd.trans h⟩
  | taking n =>
    rw [hst] at h hv
    obtain ⟨v, hl, h⟩ := h
    exact ⟨v, (hv n rfl).trans hl, hd.trans h⟩
  | linked =>
    rw [hst] at h
    obtain ⟨v, h⟩ := h
    exact ⟨v, hd.trans h⟩
  | unfound =>
    rw [hst] at h
    exact ⟨hd.trans h.1, h.2.keep fun p hp => hn _ hp rfl⟩
  | _ =>
    rw [hst] at h
    exact hd.trans h

/-- It has not ended. -/
theorem not_ended {st : Stage α} (h : Progress s ds id q st) (r : Outcome α) : .ended id r ∉ ds := by
  intro hm
  have hm : .ended id r ∈ deedsOf id ds := List.mem_filter.mpr ⟨hm, by simp [Deed.author?, Deed.isLook]⟩
  cases st with
  | waiting n => obtain ⟨v, -, h⟩ := h; rw [h] at hm; simp at hm
  | linked => obtain ⟨v, h⟩ := h; rw [h] at hm; simp at hm
  | unfound => rw [h.1] at hm; simp at hm
  | taking n => obtain ⟨v, -, h⟩ := h; rw [h] at hm; simp at hm
  | _ => rw [show deedsOf id ds = _ from h] at hm; simp at hm

/-- An operation that ends now accounts for its outcome. -/
theorem account {r : Outcome α} (h : Progress s ds id q (Point.leave r).stage) :
    Account id (ds ++ [.ended id r]) r := by
  have hend : deedsOf id [.ended id r] = [.ended id r] := by simp [deedsOf, Deed.author?, Deed.isLook]
  have hd := deedsOf_append id ds [.ended id r]
  rw [hend] at hd
  match r, h with
  | .enqueued, ⟨v, h⟩ => exact ⟨q, v, by rw [hd, h]; rfl⟩
  | .dequeued (some v), h => exact ⟨q, by rw [hd, show deedsOf id ds = _ from h]; rfl⟩
  | .dequeued none, ⟨h, he⟩ => exact ⟨q, by rw [hd, h]; rfl, he.keep fun p => by simp⟩
  | .emptiness b, h => exact ⟨q, by rw [hd, show deedsOf id ds = _ from h]; rfl⟩

/-- A look that finds nothing behind the head is one at an empty queue. -/
theorem looked {o : Operation α} {spot : Spot} {L L' : Layout} {head tail : Nat}
    (hs : spot = .dequeue (.loadNext head tail))
    (hi : Served.Idle s o spot L L') (hq : q = o.queue) (hh : Holds q ds (s.values q))
    (h : Progress s ds id q (Point.access spot : Point α).stage) :
    Progress s' (ds ++ [.looked id q]) id q (s.access o spot).op.point.stage := by
  subst hs hq
  have hlook : deedsOf id [(.looked id o.queue : Deed α)] = [] := by simp [deedsOf, Deed.isLook]
  have hd : deedsOf id (ds ++ [.looked id o.queue]) = [.began id o.queue .dequeue] := by
    rw [deedsOf_append, hlook, List.append_nil]
    exact h
  rcases hi.stage with hst | ⟨hst, -⟩ | ⟨-, hst, hnil⟩
  · rw [hst]; exact hd
  · cases hst
  · rw [hst]
    rw [hnil] at hh
    have hb : .began id o.queue .dequeue ∈ deedsOf id ds := by
      rw [show deedsOf id ds = _ from h]
      exact List.mem_cons_self
    exact ⟨hd, ds, [], rfl, mem_of_mem_deedsOf hb, nofun, hh⟩

/-- An access by the operation itself. -/
theorem access {o : Operation α} {spot : Spot} {L L' : Layout} (hv : Served s o spot L L')
    (hf : Served.Idle s o spot L L' ∨ Served.Appends s o spot L L' ∨ Served.Removes s o spot L L')
    (hh : Holds o.queue ds (s.values o.queue)) (h : Progress s ds id o.queue (Point.access spot : Point α).stage) :
    Progress (s.access o spot).store (ds ++ (spot.deed? s o id).toList) id o.queue
      (s.access o spot).op.point.stage := by
  rcases hf with hf | hf | hf
  · rcases Spot.deed?_of_not_wins (i := id) hf.wins with hd | ⟨⟨head, tail, hs⟩, hd⟩
    · rw [hd]
      rcases hf.stage with hst | ⟨hst, hst'⟩ | ⟨⟨head, tail, hs⟩, -, -⟩
      · rw [hst]
        exact h.keep nofun fun n _ => (hv.kept n).1
      · rw [hst] at h
        rw [hst', Option.toList_none, List.append_nil]
        exact h.1
      · rw [hs] at hd; cases hd
    · rw [hd]
      exact looked hs hf rfl hh h
  · obtain ⟨v, hd, ⟨node, hst, hval⟩, -⟩ := Spot.deed?_of_appends (i := id) hf
    obtain ⟨_, _, _, -, -, hst', -⟩ := hf
    rw [hst] at h
    obtain ⟨v', hval', h⟩ := h
    cases hval.symm.trans hval'
    rw [hd, hst']
    refine ⟨v, ?_⟩
    rw [deedsOf_append, h]
    simp [deedsOf, Deed.author?, Deed.isLook]
  · obtain ⟨v, hd, ⟨next, hst, hval⟩, -⟩ := Spot.deed?_of_removes (i := id) hf
    obtain ⟨_, _, _, hs, -⟩ := hf
    subst hs
    rw [hd, hst]
    refine ⟨v, (hv.kept next).1.trans hval, ?_⟩
    rw [deedsOf_append, show deedsOf id ds = _ from h]
    simp [deedsOf, Deed.author?, Deed.isLook]

end Progress

/-! ## What a move keeps -/

namespace Did

variable {w w' : World α} {lay lay' : Nat → Layout} {t : Nat} {m : Move α}

/-- The links that the operations have for themselves keep their values. -/
theorem kept (hd : Did w lay t m w' lay') (hw : OpsFit w lay) {u : Nat} {p : Operation α × Bool} (hp : p ∈ w.stack u)
    (hp' : p ∈ w'.stack u) {n : Nat} (hn : p.1.point.mark? = some n) :
    (w'.store.link n).value = (w.store.link n).value := by
  obtain ⟨hlt, hhome⟩ := hw.mark hp hn
  have hquiet : ∀ {q} {s : Store α}, w.isQuiet q → q < w.store.nextQueue → Laid.Off w.store s q (lay q).nodes →
      (s.link n).value = (w.store.link n).value := by
    intro q s hq hlt ho
    rw [ho.link n fun hm => ?_]
    refine hq u p.1 (by rw [World.operations_eq]; exact List.mem_map_of_mem hp) ?_
    exact hhome.symm.trans ((hw.laid q hlt).home n hm)
  cases hd with
  | called _ _ hs => rw [hs]
  | freed k _ _ _ hs => rw [hs, Laid.value_free]
  | made limits _ _ hs => rw [hs, (Laid.newQueue w.store limits).2.1, if_neg (Nat.ne_of_lt hlt)]
  | began o r hst =>
    generalize w'.store = s at hst
    cases hst with
    | enqueue q v b => rw [Store.link_alloc, if_neg (Nat.ne_of_lt hlt)]
    | _ => rfl
  | accessed o spot L' rest _ _ hv _ _ _ hs => rw [hs, (hv.kept n).1]
  | took o head next rest hpt _ ho _ _ hs hk =>
    rw [hs, Store.link_takeValue, if_neg]
    rintro rfl
    have hmine : o.point.mark? = some n := by rw [hpt]; rfl
    obtain ⟨rfl, hrest⟩ := hw.mark_top ho hmine hp hn
    rw [hk] at hp'
    rcases List.mem_cons.mp hp' with rfl | hp'
    · cases hval : (w.store.link n).value <;> rw [hval] at hn <;> cases hn
    · exact hrest hp'
  | resumed _ _ _ _ _ _ _ _ hs => rw [hs]
  | left _ _ _ _ _ _ _ _ hs => rw [hs]
  | popped q k v L' hq hopen _ _ _ _ _ ho _ _ _ hs => rw [hs]; exact hquiet hq (Store.isOpen_lt hopen) ho
  | tornDown q L' hq hopen _ _ _ ho _ _ _ _ hs => rw [hs]; exact hquiet hq (Store.isOpen_lt hopen) ho

end Did

end EpochQueue.Fifo
