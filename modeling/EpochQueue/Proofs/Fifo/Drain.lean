/-
  EpochQueue.Proofs.Fifo.Drain — popping alone, value by value, and what is given back by it.

  A queue that stands (`Store.Standing`) is laid out in links of which none from the head on was
  freed, with the tail at any of these. A pop then either finds nothing and changes nothing, or it gives
  the front value and frees the head, and the queue stands again with one value and one link less
  (`Standing.pop_cons`). Everything else follows the values one by one: what so many pops give
  (`Standing.pops`), and what is left to tear down afterwards (`Standing.tearDown`).

  `Frees` says which links were freed, in which order, and that none was freed already.
-/

import EpochQueue.Proofs.Fifo.Emptying

namespace EpochQueue.Fifo

variable {α : Type}

namespace Store

/-! ## What is given back -/

/-- No link was freed between the two, and no count changed. -/
structure Retains (s s' : Store α) : Prop where
  freed : ∀ n, (s'.link n).freed = (s.link n).freed
  live : ∀ q, (s'.queue q).live = (s.queue q).live

/-- From one store to the other these links are freed, in this order. None of them was freed before, and no
    other link is freed. -/
inductive Frees : Store α → List Nat → Store α → Prop
  | nothing {s s' : Store α} (h : s.Retains s') : Frees s [] s'
  | next {s s₁ s' : Store α} {n : Nat} {ns : List Nat} (hn : (s.link n).freed = false) (h : s.Retains s₁)
      (hrest : Frees (s₁.free n) ns s') : Frees s (n :: ns) s'

variable {s s' s'' : Store α} {q n : Nat} {ns ns' : List Nat}

theorem Retains.refl (s : Store α) : s.Retains s := ⟨fun _ => rfl, fun _ => rfl⟩

theorem Retains.trans (h : s.Retains s') (h' : s'.Retains s'') : s.Retains s'' :=
  ⟨fun n => (h'.freed n).trans (h.freed n), fun q => (h'.live q).trans (h.live q)⟩

theorem Frees.one (hn : (s.link n).freed = false) (h : s.Retains s') : Frees s [n] (s'.free n) :=
  .next hn h (.nothing (.refl _))

theorem Frees.trans (h : Frees s ns s') (h' : Frees s' ns' s'') : Frees s (ns ++ ns') s'' := by
  induction h with
  | nothing hkeep =>
    cases h' with
    | nothing hkeep' => exact .nothing (hkeep.trans hkeep')
    | next hn hkeep' hrest => exact .next (hkeep.freed _ ▸ hn) (hkeep.trans hkeep') hrest
  | next hn hkeep _ ih => exact .next hn hkeep (ih h')

/-- What is freed stays freed, and nothing else is. -/
theorem Frees.freed_iff (h : Frees s ns s') (m : Nat) : (s'.link m).freed = true ↔ m ∈ ns ∨ (s.link m).freed = true := by
  induction h with
  | nothing hkeep => simp [hkeep.freed]
  | @next s s₁ s' n ns hn hkeep _ ih =>
    rw [ih, link_free, List.mem_cons]
    by_cases e : m = n
    · subst e; simp
    · simp [e, hkeep.freed]

/-- Nothing is freed twice. -/
theorem Frees.nodup (h : Frees s ns s') : ns.Nodup ∧ ∀ m ∈ ns, (s.link m).freed = false := by
  induction h with
  | nothing => simp
  | @next s s₁ s' n ns hn hkeep _ ih =>
    obtain ⟨hnodup, hunfreed⟩ := ih
    have hold : ∀ m ∈ ns, m ≠ n ∧ (s.link m).freed = false := by
      intro m hm
      have hfree := hunfreed m hm
      rw [link_free] at hfree
      by_cases e : m = n
      · simp [e] at hfree
      · rw [if_neg e, hkeep.freed] at hfree
        exact ⟨e, hfree⟩
    refine ⟨List.nodup_cons.mpr ⟨fun hmem => (hold n hmem).1 rfl, hnodup⟩, ?_⟩
    intro m hm
    obtain rfl | hm := List.mem_cons.mp hm
    · exact hn
    · exact (hold m hm).2

/-! ## Queues that stand -/

/-- The queue is laid out, and no link of it from the head on was freed. -/
def Standing (s : Store α) (q : Nat) : Prop := ∃ L, Laid s q L ∧ Laid.Stands s L

/-- The tail is set to some link. -/
def setTail (s : Store α) (q n : Nat) : Store α := s.modifyQueue q fun x => { x with tail := n }

/-- So many pops. -/
def pops (q : Nat) : Nat → Store α → List (Option α) × Store α
  | 0, s => ([], s)
  | n + 1, s =>
    let (v, s) := s.pop q
    let (vs, s) := pops q n s
    (v :: vs, s)

theorem pops_succ (s : Store α) (q n : Nat) : (s.pops q (n + 1)).2 = ((s.pops q n).2.pop q).2 := by
  induction n generalizing s with
  | zero => rfl
  | succ n ih => exact ih (s.pop q).2

namespace Standing

variable {v : α} {vs : List α}

theorem tail_unfreed (h : s.Standing q) : (s.link (s.queue q).tail).freed = false := by
  obtain ⟨L, hl, hstands⟩ := h
  exact hstands L.tail _ hl.order hl.tail

theorem length_values_le (h : s.Standing q) : (s.values q).length ≤ s.nextLink := by
  obtain ⟨L, hl, -⟩ := h
  have := hl.length_values
  have := hl.length_le
  omega

/-- Wherever the tail is set to, as long as it is in the chain. -/
theorem setTail (h : s.Standing q) (hn : n ∈ s.chain q) :
    (s.setTail q n).Standing q ∧ (s.setTail q n).values q = s.values q ∧ (s.setTail q n).chain q = s.chain q := by
  obtain ⟨L, hl, hstands⟩ := h
  rw [hl.chain_eq] at hn
  obtain ⟨i, hle, hi⟩ := Laid.mem_drop hn
  have hl' : Laid (s.setTail q n) q { L with tail := i } :=
    { nodup := hl.nodup, bound := hl.bound, home := hl.home, next := hl.next
      head := by rw [Store.setTail, queue_modifyQueue, if_pos rfl]; exact hl.head
      tail := by rw [Store.setTail, queue_modifyQueue, if_pos rfl]; exact hi
      order := hle, value := hl.value }
  exact ⟨⟨_, hl', hstands⟩, hl'.values_eq.trans hl.values_eq.symm, hl'.chain_eq.trans hl.chain_eq.symm⟩

theorem pop_nil (h : s.Standing q) (hv : s.values q = []) : s.pop q = (none, s) ∧ s.chain q = [(s.queue q).head] := by
  obtain ⟨L, hl, -⟩ := h
  have hlen := hl.length_values
  rw [hv, List.length_nil] at hlen
  refine ⟨Laid.pop_none s ((hl.next _ _ hl.head).trans (List.getElem?_eq_none_iff.mpr (by omega))), ?_⟩
  rw [hl.chain_eq, List.drop_eq_getElem_cons hl.head_lt, List.drop_eq_nil_of_le (by omega)]
  exact congrArg (fun n => [n]) (List.getElem?_eq_some_iff.mp hl.head).2

/-- A pop gives the front value and frees the old head. -/
theorem pop_cons (h : s.Standing q) (hv : s.values q = v :: vs) :
    s.pop q = (some v, (s.pop q).2) ∧ (s.pop q).2.Standing q ∧ (s.pop q).2.values q = vs ∧
      s.chain q = (s.queue q).head :: (s.pop q).2.chain q ∧ Frees s [(s.queue q).head] (s.pop q).2 := by
  obtain ⟨L, hl, hstands⟩ := h
  have hlen := hl.length_values
  rw [hv, List.length_cons] at hlen
  have hlt : L.head + 1 < L.nodes.length := by omega
  have hn : L.nodes[L.head + 1]? = some L.nodes[L.head + 1] := List.getElem?_eq_getElem hlt
  obtain ⟨w, L', hw, hl', hnodes, hhead, -, -, hvals⟩ := hl.pop_some hn
  rw [hv] at hvals
  obtain ⟨rfl, rfl⟩ := List.cons.inj hvals
  refine ⟨Prod.ext hw rfl, ⟨L', hl', hl.stands_pop hn hstands hnodes hhead⟩, rfl, ?_, ?_⟩
  · rw [hl.chain_eq, hl'.chain_eq, hnodes, hhead, List.drop_eq_getElem_cons hl.head_lt]
    exact congrArg (· :: _) (List.getElem?_eq_some_iff.mp hl.head).2
  · have hnext : (s.link (s.queue q).head).next = some L.nodes[L.head + 1] := (hl.next _ _ hl.head).trans hn
    have hpop : (s.pop q).2 = ((s.takeValue L.nodes[L.head + 1]).2.modifyQueue q fun x => { x with
        head := L.nodes[L.head + 1], tail := if x.tail = (s.queue q).head then L.nodes[L.head + 1] else x.tail }).free
          (s.queue q).head := by
      unfold Store.pop
      simp only [hnext]
    rw [hpop]
    refine .one (hstands _ _ (Nat.le_refl _) hl.head) ⟨fun m => ?_, fun p => ?_⟩
    · rw [link_modifyQueue, link_takeValue]
      split
      · subst m; rfl
      · rfl
    · rw [queue_modifyQueue]
      split
      · subst p; rfl
      · rfl

/-- The values come out in order, and then nothing does. -/
theorem pops (h : s.Standing q) (n : Nat) : ∃ ns, (s.pops q n).1 = (List.range n).map (fun i => (s.values q)[i]?) ∧
    (s.pops q n).2.Standing q ∧ (s.pops q n).2.values q = (s.values q).drop n ∧
    s.chain q = ns ++ (s.pops q n).2.chain q ∧ ns.length = min n (s.values q).length ∧ Frees s ns (s.pops q n).2 := by
  induction n generalizing s with
  | zero => exact ⟨[], rfl, h, rfl, rfl, (Nat.zero_min _).symm, .nothing (.refl s)⟩
  | succ n ih =>
    unfold Store.pops
    rw [List.range_succ_eq_map, List.map_cons, List.map_map]
    cases hv : s.values q with
    | nil =>
      obtain ⟨ns, hanswers, hstands, hvals, hchain, hlen, hfrees⟩ := ih h
      rw [hv] at hanswers hvals hlen
      rw [(h.pop_nil hv).1]
      refine ⟨ns, ?_, hstands, ?_, hchain, ?_, hfrees⟩
      · dsimp only
        rw [hanswers]
        rfl
      · simpa using hvals
      · simpa using hlen
    | cons v vs =>
      obtain ⟨hpop, hstands₁, hvals₁, hchain₁, hfrees₁⟩ := h.pop_cons hv
      obtain ⟨ns, hanswers, hstands, hvals, hchain, hlen, hfrees⟩ := ih hstands₁
      rw [hvals₁] at hanswers hvals hlen
      rw [hpop]
      refine ⟨(s.queue q).head :: ns, ?_, hstands, hvals, ?_, ?_, hfrees₁.trans hfrees⟩
      · dsimp only
        rw [hanswers]
        rfl
      · rw [hchain₁, hchain]
        rfl
      · rw [List.length_cons, List.length_cons, hlen]
        omega

theorem popAll (h : s.Standing q) {fuel : Nat} (hfuel : (s.values q).length ≤ fuel) :
    ∃ ns, (s.popAll q fuel).1 = s.values q ∧ s.chain q = ns ++ [((s.popAll q fuel).2.queue q).head] ∧
      (s.popAll q fuel).2.Standing q ∧ Frees s ns (s.popAll q fuel).2 := by
  induction fuel generalizing s with
  | zero =>
    have hv : s.values q = [] := List.eq_nil_of_length_eq_zero (Nat.le_zero.mp hfuel)
    exact ⟨[], hv.symm, (h.pop_nil hv).2, h, .nothing (.refl s)⟩
  | succ fuel ih =>
    unfold Store.popAll
    cases hv : s.values q with
    | nil =>
      rw [(h.pop_nil hv).1]
      exact ⟨[], rfl, (h.pop_nil hv).2, h, .nothing (.refl s)⟩
    | cons v vs =>
      obtain ⟨hpop, hstands₁, hvals₁, hchain₁, hfrees₁⟩ := h.pop_cons hv
      rw [hv, List.length_cons] at hfuel
      obtain ⟨ns, hanswers, hchain, hstands, hfrees⟩ := ih hstands₁ (by rw [hvals₁]; omega)
      rw [hvals₁] at hanswers
      rw [hpop]
      refine ⟨(s.queue q).head :: ns, ?_, ?_, hstands, hfrees₁.trans hfrees⟩
      · dsimp only
        rw [hanswers]
      · rw [hchain₁, hchain]
        rfl

/-- Tearing down gives what is left, and frees the chain to the last link. -/
theorem tearDown (h : s.Standing q) : (s.tearDown q).1 = s.values q ∧ Frees s (s.chain q) (s.tearDown q).2 := by
  obtain ⟨ns, hanswers, hchain, ⟨L, hl, hstands⟩, hfrees⟩ := h.popAll h.length_values_le
  refine ⟨hanswers, ?_⟩
  rw [hchain]
  exact hfrees.trans (.one (hstands _ _ (Nat.le_refl _) hl.head) (.refl _))

end Standing

end Store

end EpochQueue.Fifo
