/-
  EpochQueue.Proofs.Fifo.Simulation — the abstract queue follows every move.

  `Did.alters` is the forward simulation: a move whose deed appends or removes does just that to
  the list of values, and every other move leaves the list alone. Which deed a move is depends on
  whether it is an access that wins a race (`Spot.deed?_of_appends`, `Spot.deed?_of_removes`) or
  not (`Spot.deed?_of_not_wins`).
-/

import EpochQueue.Proofs.Fifo.Fitting

namespace EpochQueue.Fifo

variable {α : Type}

/-- The list of values after a move, by what the move means. -/
def Altered (q : Nat) (l l' : List α) : Option (Deed α) → Prop
  | some d => d.Alters q l l'
  | none => l' = l

theorem Altered.same {q : Nat} {l : List α} {d : Option (Deed α)} (h : ∀ x, d = some x → x.concerns q = false) :
    Altered q l l d := by
  cases d with
  | none => rfl
  | some d => exact .rest l (h d rfl)

theorem Altered.inv {q : Nat} {l l' : List α} {d : Option (Deed α)} (h : Altered q l l' d) : l' = l ∨
    ∃ x, d = some x ∧ x.concerns q = true := by
  cases d with
  | none => exact Or.inl h
  | some x =>
    cases hc : x.concerns q with
    | true => exact Or.inr ⟨x, rfl, hc⟩
    | false =>
      cases h with
      | rest _ _ => exact Or.inl rfl
      | _ => simp [Deed.concerns] at hc

theorem Deed.Alters.appended {q i : Nat} {v : α} {l l' : List α} (h : (Deed.appended i q v).Alters q l l') :
    l' = l ++ [v] := by
  cases h with
  | append => rfl
  | rest _ hc => simp [Deed.concerns] at hc

theorem Deed.Alters.removed {q i : Nat} {v : α} {l l' : List α} (h : (Deed.removed i q v).Alters q l l') :
    l = v :: l' := by
  cases h with
  | remove => rfl
  | rest _ hc => simp [Deed.concerns] at hc

/-- An access is recorded as a change only if it wins a race. -/
theorem Spot.deed?_of_not_wins {s : Store α} {o : Operation α} {i : Nat} {spot : Spot}
    (h : spot.wins (s.access o spot).access = false) :
    spot.deed? s o i = none ∨ (∃ head tail, spot = .dequeue (.loadNext head tail)) ∧
      spot.deed? s o i = some (.looked i o.queue) := by
  rcases spot with ⟨node, _ | _ | _ | _ | t | _⟩ | (_ | _ | ⟨head, tail⟩ | _ | _ | ⟨head, next⟩) | _
  case enqueue.link =>
    have hne : (s.access o (.enqueue node (.link t))).access ≠ .cas true := fun e => by rw [e] at h; cases h
    exact Or.inl (if_neg hne)
  case dequeue.swingHead =>
    have hne : (s.access o (.dequeue (.swingHead head next))).access ≠ .cas true := fun e => by rw [e] at h; cases h
    exact Or.inl (if_neg hne)
  case dequeue.loadNext => exact Or.inr ⟨⟨head, tail, rfl⟩, rfl⟩
  all_goals exact Or.inl rfl

theorem Spot.deed?_of_appends {s : Store α} {o : Operation α} {i : Nat} {spot : Spot} {L L' : Layout}
    (h : Served.Appends s o spot L L') : ∃ v, spot.deed? s o i = some (.appended i o.queue v) ∧
      (∃ node, (Point.access spot : Point α).stage = .waiting node ∧ (s.link node).value = some v) ∧
      (s.access o spot).store.values o.queue = s.values o.queue ++ [v] := by
  obtain ⟨node, tail, v, rfl, hacc, -, -, hv, hvals⟩ := h
  refine ⟨v, ?_, ⟨node, rfl, hv⟩, hvals⟩
  unfold Spot.deed?
  dsimp only
  rw [if_pos hacc, hv]
  rfl

theorem Spot.deed?_of_removes {s : Store α} {o : Operation α} {i : Nat} {spot : Spot} {L L' : Layout}
    (h : Served.Removes s o spot L L') : ∃ v, spot.deed? s o i = some (.removed i o.queue v) ∧
      (∃ next, (s.access o spot).op.point.stage = .taking next ∧ (s.link next).value = some v) ∧
      s.values o.queue = v :: (s.access o spot).store.values o.queue := by
  obtain ⟨head, next, v, rfl, hacc, hpt, -, -, -, hv, hvals⟩ := h
  refine ⟨v, ?_, ⟨next, by rw [hpt]; rfl, hv⟩, hvals⟩
  unfold Spot.deed?
  dsimp only
  rw [if_pos hacc, hv]
  rfl

theorem Spot.author?_deed? {s : Store α} {o : Operation α} {id : Nat} {spot : Spot} {x : Deed α}
    (h : spot.deed? s o id = some x) : x.author? = some id ∧ (∀ i r, x ≠ .ended i r) ∧ ∀ i q r, x ≠ .began i q r := by
  unfold Spot.deed? at h
  split at h
  · split at h
    · obtain ⟨v, -, rfl⟩ := Option.map_eq_some_iff.mp h; exact ⟨rfl, nofun, nofun⟩
    · cases h
  · split at h
    · obtain ⟨v, -, rfl⟩ := Option.map_eq_some_iff.mp h; exact ⟨rfl, nofun, nofun⟩
    · cases h
  · cases h; exact ⟨rfl, nofun, nofun⟩
  · cases h

theorem Spot.concerns_deed? {s : Store α} {o : Operation α} {id : Nat} {spot : Spot} {x : Deed α}
    (h : spot.deed? s o id = some x) {q : Nat} (hq : (o.queue == q) = false) : x.concerns q = false := by
  unfold Spot.deed? at h
  split at h
  · split at h
    · obtain ⟨v, -, rfl⟩ := Option.map_eq_some_iff.mp h; exact hq
    · cases h
  · split at h
    · obtain ⟨v, -, rfl⟩ := Option.map_eq_some_iff.mp h; exact hq
    · cases h
  · cases h; rfl
  · cases h

/-- The one step of the simulation. -/
theorem Did.alters {w w' : World α} {lay lay' : Nat → Layout} {t : Nat} {m : Move α} (hd : Did w lay t m w' lay')
    (hw : OpsFit w lay) {q : Nat} (hq : q < w.store.nextQueue) (fresh mine : Nat) :
    Altered q (w.store.values q) (w'.store.values q) (w.deed? t fresh mine m) := by
  have hl := hw.laid q hq
  -- another queue than the one that changes
  have hoff : ∀ {s : Store α} {p}, p < w.store.nextQueue → q ≠ p → Laid.Off w.store s p (lay p).nodes →
      s.values q = w.store.values q := fun hp e ho => (hl.off ho e ((hw.laid _ hp).disjoint hl e)).2
  cases hd with
  | called hdeed _ hs => rw [hdeed, hs]; rfl
  | freed n _ hdeed _ hs =>
    rw [hdeed, hs]
    exact hl.values_congr (hl.free n) fun _ m _ _ => Laid.value_free w.store n m
  | made limits hdeed _ hs =>
    rw [hdeed, hs, ((Laid.newQueue w.store limits).2.2 q _ (Nat.ne_of_lt hq) hl).2]
    exact .rest _ rfl
  | began o r hst _ hdeed =>
    have hvals : w'.store.values q = w.store.values q := by
      generalize w'.store = s at hst
      cases hst with
      | enqueue p v b =>
        refine hl.values_congr (hl.alloc p _) fun _ n _ hn => ?_
        rw [Store.link_alloc, if_neg (Nat.ne_of_lt (hl.bound n (Laid.mem hn)))]
      | _ => rfl
    rw [hdeed, hvals]
    exact .rest _ rfl
  | accessed o spot L' rest hp ho hv hf hdeed _ hs =>
    have hqo := (hw.sits t (o, false) (ho ▸ List.mem_cons_self)).queue
    rw [hdeed, hs]
    by_cases e : q = o.queue
    · subst e
      rcases hf with hf | hf | hf
      · rw [hf.values]
        refine .same fun x hx => ?_
        rcases Spot.deed?_of_not_wins (i := mine) hf.wins with h | ⟨-, h⟩
        · rw [h] at hx; cases hx
        · rw [h] at hx; cases hx; rfl
      · obtain ⟨v, hdeed, -, hvals⟩ := Spot.deed?_of_appends (i := mine) hf
        rw [hdeed, hvals]
        exact .append mine v _
      · obtain ⟨v, hdeed, -, hvals⟩ := Spot.deed?_of_removes (i := mine) hf
        rw [hdeed, hvals]
        exact .remove mine v _
    · rw [hoff hqo e hv.off]
      exact .same fun x hx => Spot.concerns_deed? hx (beq_eq_false_iff_ne.mpr (Ne.symm e))
  | took o head next rest hp _ ho hdeed _ hs =>
    have hm : next ∈ w.marks t := List.mem_filterMap.mpr ⟨(o, false), ho ▸ List.mem_cons_self, by
      unfold Point.mark?; rw [show (o, false).1.point = _ from hp]; rfl⟩
    rw [hdeed, hs]
    exact hl.values_takeValue fun i hi => Nat.le_of_not_lt fun hlt => hw.unmarked hq hi hlt t hm
  | resumed _ _ _ _ hdeed _ _ _ hs => rw [hdeed, hs]; rfl
  | left _ _ _ _ _ _ hdeed _ hs => rw [hdeed, hs]; exact .rest _ rfl
  | popped p n v L' _ hopen _ _ _ _ _ ho hvals hdeed _ hs =>
    rw [hdeed, hs]
    by_cases e : q = p
    · subst e
      rw [hvals]
      exact .pop v _
    · rw [hoff (Store.isOpen_lt hopen) e ho]
      exact .rest _ (beq_eq_false_iff_ne.mpr (Ne.symm e))
  | tornDown p L' _ hopen _ _ _ ho hvals _ hdeed _ hs =>
    rw [hdeed, hs]
    by_cases e : q = p
    · subst e
      rw [hvals]
      exact .tearDown _
    · rw [hoff (Store.isOpen_lt hopen) e ho]
      exact .rest _ (beq_eq_false_iff_ne.mpr (Ne.symm e))

/-- Nothing happens to a queue before it is made. -/
theorem Did.unmade {w w' : World α} {lay lay' : Nat → Layout} {t : Nat} {m : Move α} (hd : Did w lay t m w' lay')
    (hw : OpsFit w lay) {q : Nat} (hq : w.store.nextQueue ≤ q) (fresh mine : Nat) {x : Deed α}
    (hx : w.deed? t fresh mine m = some x) : x.concerns q = false := by
  have hne : ∀ {p}, p < w.store.nextQueue → (p == q) = false := fun hp =>
    beq_eq_false_iff_ne.mpr (Nat.ne_of_lt (Nat.lt_of_lt_of_le hp hq))
  have hsome : ∀ {d}, w.deed? t fresh mine m = some d → d.concerns q = false → x.concerns q = false := fun hd hc => by
    rw [hd] at hx
    exact Option.some.inj hx ▸ hc
  have hnone : w.deed? t fresh mine m = none → x.concerns q = false := fun hd => by rw [hd] at hx; cases hx
  cases hd with
  | called hdeed => exact hnone (hdeed _ _)
  | freed _ _ hdeed => exact hnone (hdeed _ _)
  | made _ hdeed => exact hsome (hdeed _ _) rfl
  | began _ _ _ _ hdeed => exact hsome (hdeed _ _) rfl
  | accessed o _ _ _ _ ho _ _ hdeed =>
    rw [hdeed] at hx
    exact Spot.concerns_deed? hx (hne (hw.sits t (o, false) (ho ▸ List.mem_cons_self)).queue)
  | took _ _ _ _ _ _ _ hdeed => exact hnone (hdeed _ _)
  | resumed _ _ _ _ hdeed => exact hnone (hdeed _ _)
  | left _ _ _ _ _ _ hdeed => exact hsome (hdeed _ _) rfl
  | popped _ _ _ _ _ hopen _ _ _ _ _ _ _ hdeed => exact hsome (hdeed _ _) (hne (Store.isOpen_lt hopen))
  | tornDown _ _ _ hopen _ _ _ _ _ _ hdeed => exact hsome (hdeed _ _) (hne (Store.isOpen_lt hopen))

theorem Altered.holds {q : Nat} {ds : List (Deed α)} {l l' : List α} {d : Option (Deed α)} (hh : Holds q ds l)
    (ha : Altered q l l' d) : Holds q (ds ++ d.toList) l' := by
  cases d with
  | none =>
    cases ha
    rwa [Option.toList_none, List.append_nil]
  | some d => exact hh.snoc ha

end EpochQueue.Fifo
