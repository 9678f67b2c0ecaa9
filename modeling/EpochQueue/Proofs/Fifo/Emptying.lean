/-
  EpochQueue.Proofs.Fifo.Emptying — links as time goes by, and what an only owner makes of them.

  A link keeps its queue and its successor, loses its value at most, and stays freed once it is
  (`Store.Ages`). Popping takes the value out of the link behind the head and frees the head;
  tearing down does so up to the last link and frees that too (`Laid.tearDown_link`).

  A queue counts its links that are not freed (`Store.Counted`), and goes on counting them right as
  long as nothing is freed twice.
-/

import EpochQueue.Proofs.Fifo.Layout
import EpochQueue.Fifo.Operation

namespace EpochQueue.Fifo

variable {α : Type}

/-! ## Age -/

/-- What can become of a link. -/
structure Link.Ages (l l' : Link α) : Prop where
  home : l'.home = l.home
  value : l'.value = l.value ∨ l'.value = none
  freed : l.freed = true → l'.freed = true

theorem Link.Ages.refl (l : Link α) : l.Ages l := ⟨rfl, Or.inl rfl, id⟩

namespace Store

/-- No link is used again. -/
def Ages (s s' : Store α) : Prop := ∀ n, Link.Ages (s.link n) (s'.link n)

variable {s s' s'' : Store α} {q n : Nat}

theorem Ages.refl (s : Store α) : s.Ages s := fun _ => .refl _

theorem Ages.trans (h : s.Ages s') (h' : s'.Ages s'') : s.Ages s'' := fun n =>
  ⟨(h' n).home.trans (h n).home, (h' n).value.elim (fun e => (h n).value.imp e.trans e.trans) Or.inr,
    (h' n).freed ∘ (h n).freed⟩

theorem ages_free (s : Store α) (n : Nat) : s.Ages (s.free n) := fun m => by
  rw [link_free]
  split
  · subst m; exact ⟨rfl, Or.inl rfl, fun _ => rfl⟩
  · exact Ages.refl s m

theorem ages_takeValue (s : Store α) (n : Nat) : s.Ages (s.takeValue n).2 := fun m => by
  rw [link_takeValue]
  split
  · subst m; exact ⟨rfl, Or.inr rfl, id⟩
  · exact Ages.refl s m

theorem ages_pop (s : Store α) (q : Nat) : s.Ages (s.pop q).2 := by
  cases hn : (s.link (s.queue q).head).next with
  | none => rw [Laid.pop_none s hn]; exact .refl s
  | some n =>
    intro m
    rw [(Laid.pop_frame s hn).2.2.2.2 m]
    refine ⟨rfl, ?_, fun hf => ?_⟩
    · dsimp only
      split
      · exact Or.inr rfl
      · exact Or.inl rfl
    · dsimp only
      rw [hf, ite_self]

/-- Only the ends of queues and the next pointers of links change. -/
structure Steady (s s' : Store α) : Prop where
  nextLink : s'.nextLink = s.nextLink
  home : ∀ n, (s'.link n).home = (s.link n).home
  value : ∀ n, (s'.link n).value = (s.link n).value
  freed : ∀ n, (s'.link n).freed = (s.link n).freed
  live : ∀ q, (s'.queue q).live = (s.queue q).live

theorem Steady.refl (s : Store α) : s.Steady s := ⟨rfl, fun _ => rfl, fun _ => rfl, fun _ => rfl, fun _ => rfl⟩

theorem Steady.ages (h : s.Steady s') : s.Ages s' := fun n =>
  ⟨h.home n, Or.inl (h.value n), (h.freed n).trans⟩

theorem steady_modifyQueue (s : Store α) (q : Nat) {f : Queue → Queue} (hf : ∀ x, (f x).live = x.live) :
    s.Steady (s.modifyQueue q f) :=
  ⟨rfl, fun _ => rfl, fun _ => rfl, fun _ => rfl, fun p => by
    rw [queue_modifyQueue]
    split
    · subst p; exact hf _
    · rfl⟩

theorem steady_casTail (s : Store α) (q seen new : Nat) : s.Steady (s.casTail q seen new).2 := by
  unfold casTail
  split
  · exact s.steady_modifyQueue q fun _ => rfl
  · exact .refl s

theorem steady_casHead (s : Store α) (q seen new : Nat) : s.Steady (s.casHead q seen new).2 := by
  unfold casHead
  split
  · exact s.steady_modifyQueue q fun _ => rfl
  · exact .refl s

theorem steady_casNext (s : Store α) (n new : Nat) : s.Steady (s.casNext n new).2 := by
  unfold casNext
  split
  · have hlink : ∀ m, Store.link { s with links := s.links.modify n fun l => { l with next := some new } } m =
        if m = n then { s.link n with next := some new } else s.link m := fun m => Table.get_modify _ _ _ _
    refine ⟨rfl, fun m => ?_, fun m => ?_, fun m => ?_, fun _ => rfl⟩
    all_goals
      rw [hlink]
      split
      · subst m; rfl
      · rfl
  · exact .refl s

theorem steady_access (s : Store α) (o : Operation α) (spot : Spot) : s.Steady (s.access o spot).store := by
  rcases spot with ⟨node, place⟩ | place | place
  · cases place with
    | helpTail tail next => exact s.steady_casTail _ _ _
    | swingTail tail => exact s.steady_casTail _ _ _
    | link tail =>
      simp only [Store.access, accessEnqueue]
      split <;> exact s.steady_casNext _ _
    | _ => exact .refl s
  · cases place with
    | helpTail tail next => exact s.steady_casTail _ _ _
    | swingHead head next =>
      simp only [Store.access, accessDequeue]
      split <;> exact s.steady_casHead _ _ _
    | _ => exact .refl s
  · cases place <;> exact .refl s

/-- What holds of a store, and still does after a pop, holds when all is popped. -/
theorem popAll_induct {P : Store α → Prop} (hpop : ∀ s, P s → P (s.pop q).2) :
    ∀ (fuel : Nat) {s : Store α}, P s → P (s.popAll q fuel).2 := by
  intro fuel
  induction fuel with
  | zero => exact id
  | succ fuel ih =>
    intro s hs
    have hs' := hpop s hs
    unfold popAll
    split
    next s' h => rwa [h] at hs'
    next v s' h => rw [h] at hs'; exact ih hs'

theorem ages_tearDown (s : Store α) (q : Nat) : s.Ages (s.tearDown q).2 :=
  (popAll_induct (fun s' h => h.trans (ages_pop s' q)) s.nextLink (Ages.refl s)).trans (ages_free _ _)

theorem nextLink_pop (s : Store α) (q : Nat) : (s.pop q).2.nextLink = s.nextLink := by
  cases hn : (s.link (s.queue q).head).next with
  | none => rw [Laid.pop_none s hn]
  | some n => exact (Laid.pop_frame s hn).2.1

theorem nextLink_tearDown (s : Store α) (q : Nat) : (s.tearDown q).2.nextLink = s.nextLink :=
  popAll_induct (P := fun s' => s'.nextLink = s.nextLink) (fun s' h => (nextLink_pop s' q).trans h) s.nextLink rfl

/-! ## Counting links -/

/-- The links of a queue that are not freed. -/
def members (s : Store α) (q : Nat) : List Nat :=
  (List.range s.nextLink).filter fun n => (s.link n).home == q && !(s.link n).freed

theorem mem_members : n ∈ s.members q ↔ n < s.nextLink ∧ (s.link n).home = q ∧ (s.link n).freed = false := by
  simp [members]

theorem nodup_members (s : Store α) (q : Nat) : (s.members q).Nodup := List.nodup_range.filter _

def Counted (s : Store α) : Prop := ∀ q, (s.queue q).live = (s.members q).length

theorem members_congr (hn : s'.nextLink = s.nextLink) (hhome : ∀ n, (s'.link n).home = (s.link n).home)
    (hfreed : ∀ n, (s'.link n).freed = (s.link n).freed) (q : Nat) : s'.members q = s.members q := by
  unfold members
  rw [hn]
  exact List.filter_congr fun n _ => by rw [hhome, hfreed]

theorem Counted.steady (hc : s.Counted) (h : s.Steady s') : s'.Counted := fun q => by
  rw [h.live, members_congr h.nextLink h.home h.freed]
  exact hc q

theorem members_alloc (s : Store α) (q p : Nat) (v : Option α) :
    (s.alloc q v).2.members p = s.members p ++ if p = q then [s.nextLink] else [] := by
  have hold : ∀ n ∈ List.range s.nextLink, (s.alloc q v).2.link n = s.link n := fun n hn => by
    rw [link_alloc, if_neg (Nat.ne_of_lt (List.mem_range.mp hn))]
  have hnew : (s.alloc q v).2.link s.nextLink = ⟨v, none, q, false⟩ := by rw [link_alloc, if_pos rfl]
  unfold members
  rw [show (s.alloc q v).2.nextLink = s.nextLink + 1 from rfl, List.range_succ, List.filter_append,
    List.filter_congr fun n hn => by rw [hold n hn]]
  congr 1
  by_cases e : p = q
  · subst e; simp [hnew]
  · simp [hnew, e, Ne.symm e]

theorem Counted.alloc (hc : s.Counted) (q : Nat) (v : Option α) : (s.alloc q v).2.Counted := fun p => by
  rw [members_alloc, List.length_append, queue_alloc]
  by_cases e : p = q
  · subst e
    rw [if_pos rfl, if_pos rfl, ← hc p]
    rfl
  · rw [if_neg e, if_neg e]
    exact hc p

/-- The count goes down by the one link that is freed. -/
theorem Counted.free (hc : s.Counted) (hn : n < s.nextLink) (hf : (s.link n).freed = false) : (s.free n).Counted := by
  intro p
  have hmem : n ∈ s.members (s.link n).home := mem_members.mpr ⟨hn, rfl, hf⟩
  rw [queue_free]
  split
  · subst p
    have herase : (s.free n).members (s.link n).home = (s.members (s.link n).home).erase n := by
      rw [(nodup_members s _).erase_eq_filter]
      unfold members
      rw [List.filter_filter]
      refine List.filter_congr fun m _ => ?_
      rw [link_free]
      by_cases e : m = n
      · subst e; simp
      · simp [e]
    rw [herase, List.length_erase_of_mem hmem, hc]
  · rename_i e
    have hsame : (s.free n).members p = s.members p := by
      unfold members
      refine List.filter_congr fun m _ => ?_
      rw [link_free]
      by_cases em : m = n
      · subst em; simp [Ne.symm e]
      · simp [em]
    rw [hsame]
    exact hc p

theorem Counted.takeValue (hc : s.Counted) (n : Nat) : (s.takeValue n).2.Counted := fun q => by
  have hlink : ∀ m, ((s.takeValue n).2.link m).home = (s.link m).home ∧
      ((s.takeValue n).2.link m).freed = (s.link m).freed := fun m => by
    rw [link_takeValue]
    split
    · subst m; exact ⟨rfl, rfl⟩
    · exact ⟨rfl, rfl⟩
  have hmembers : (s.takeValue n).2.members q = s.members q :=
    members_congr (by rfl) (fun m => (hlink m).1) (fun m => (hlink m).2) q
  rw [queue_takeValue, hmembers]
  exact hc q

/-- A queue that has no links yet is made with one. -/
theorem Counted.newQueue (hc : s.Counted) (hnone : s.members s.nextQueue = []) (limits : Limits) :
    (s.newQueue limits).2.Counted := by
  have hset : Counted { s with queues := s.queues.set s.nextQueue { limits }, nextQueue := s.nextQueue + 1 } := by
    intro p
    have hqueue : Store.queue { s with queues := s.queues.set s.nextQueue { limits }, nextQueue := s.nextQueue + 1 } p =
        if p = s.nextQueue then { limits } else s.queue p := Table.get_set _ _ _ _
    rw [hqueue]
    split
    · subst p
      exact (congrArg List.length hnone).symm
    · exact hc p
  exact (hset.alloc s.nextQueue none).steady (steady_modifyQueue _ _ fun _ => rfl)

end Store

/-! ## Popping and tearing down -/

namespace Laid

variable {s : Store α} {q : Nat} {L : Layout}

/-- A pop that finds a value, link by link. -/
theorem pop_link (hl : Laid s q L) {n : Nat} (hn : L.nodes[L.head + 1]? = some n) {i m : Nat}
    (hi : L.nodes[i]? = some m) :
    ((s.pop q).2.link m).value = (if i = L.head + 1 then none else (s.link m).value) ∧
    ((s.pop q).2.link m).freed = if i = L.head then true else (s.link m).freed := by
  obtain ⟨-, -, -, -, hlink⟩ := pop_frame s ((hl.next _ _ hl.head).trans hn)
  have hnext : m = n ↔ i = L.head + 1 :=
    ⟨fun e => hl.place hi (e ▸ hn), fun e => Option.some.inj (hi.symm.trans (e ▸ hn))⟩
  have hhead : m = (s.queue q).head ↔ i = L.head :=
    ⟨fun e => hl.place hi (e ▸ hl.head), fun e => Option.some.inj (hi.symm.trans (e ▸ hl.head))⟩
  rw [hlink]
  simp only [hnext, hhead, and_self]

theorem popAll_link (q : Nat) : ∀ (fuel : Nat) {s : Store α} {L : Layout}, Laid s q L →
    L.nodes.length ≤ L.head + 1 + fuel → ∀ {i m : Nat}, L.nodes[i]? = some m →
    ((s.popAll q fuel).2.link m).value = (if L.head < i then none else (s.link m).value) ∧
    ((s.popAll q fuel).2.link m).freed =
      if L.head ≤ i ∧ i + 1 < L.nodes.length then true else (s.link m).freed := by
  intro fuel
  induction fuel with
  | zero =>
    intro s L hl hlen i m hi
    have hlt := L.lt_of_getElem? hi
    rw [if_neg (by omega), if_neg (by omega)]
    exact ⟨rfl, rfl⟩
  | succ fuel ih =>
    intro s L hl hlen i m hi
    have hlt := L.lt_of_getElem? hi
    unfold Store.popAll
    cases hn : L.nodes[L.head + 1]? with
    | none =>
      have hlast := List.getElem?_eq_none_iff.mp hn
      rw [pop_none (q := q) s ((hl.next _ _ hl.head).trans hn), if_neg (by omega), if_neg (by omega)]
      exact ⟨rfl, rfl⟩
    | some n =>
      have hmore := L.lt_of_getElem? hn
      obtain ⟨v, L', hv, hl', hnodes, hhead, -⟩ := hl.pop_some hn
      obtain ⟨hvalue, hfreed⟩ := ih hl' (by rw [hnodes, hhead]; omega) (hnodes.symm ▸ hi)
      rw [(hl.pop_link hn hi).1, hhead] at hvalue
      rw [(hl.pop_link hn hi).2, hhead, hnodes] at hfreed
      rw [show s.pop q = (some v, (s.pop q).2) from Prod.ext hv rfl]
      dsimp only
      rw [hvalue, hfreed]
      constructor
      · split_ifs <;> first | rfl | omega
      · split_ifs <;> first | rfl | omega

/-- After a queue was torn down, nothing from its head on carries a value or is left. -/
theorem tearDown_link (hl : Laid s q L) {i m : Nat} (hi : L.nodes[i]? = some m) :
    ((s.tearDown q).2.link m).value = (if L.head < i then none else (s.link m).value) ∧
    ((s.tearDown q).2.link m).freed = if L.head ≤ i then true else (s.link m).freed := by
  have hlen := Nat.le_trans hl.length_le (Nat.le_add_left s.nextLink (L.head + 1))
  obtain ⟨hvalue, hfreed⟩ := popAll_link q s.nextLink hl hlen hi
  obtain ⟨L', hl', hnodes, -, -, hlast, -⟩ := popAll q s.nextLink hl hlen
  have hlt := L.lt_of_getElem? hi
  have hhead := hl.head_lt
  have hhead' := hl'.head_lt
  rw [hnodes] at hlast hhead'
  have hend : m = ((s.popAll q s.nextLink).2.queue q).head ↔ i + 1 = L.nodes.length := by
    have hmem := hl'.head
    rw [hnodes] at hmem
    constructor
    · intro e
      have := hl.place hi (e ▸ hmem)
      omega
    · intro e
      rw [show L'.head = i by omega, hi] at hmem
      exact Option.some.inj hmem
  have hdown : (s.tearDown q).2 = (s.popAll q s.nextLink).2.free ((s.popAll q s.nextLink).2.queue q).head := rfl
  rw [hdown, value_free, Store.link_free]
  refine ⟨hvalue, ?_⟩
  by_cases e : i + 1 = L.nodes.length
  · rw [if_pos (hend.mpr e), if_pos (by omega)]
  · rw [if_neg (mt hend.mp e), hfreed]
    split_ifs <;> first | rfl | omega

/-! ## Counting -/

/-- The links that a queue has from the head on are not freed. -/
def Stands (s : Store α) (L : Layout) : Prop :=
  ∀ i n, L.head ≤ i → L.nodes[i]? = some n → (s.link n).freed = false

theorem stands_pop (hl : Laid s q L) {n : Nat} (hn : L.nodes[L.head + 1]? = some n) (h : Stands s L) {L' : Layout}
    (hnodes : L'.nodes = L.nodes) (hhead : L'.head = L.head + 1) : Stands (s.pop q).2 L' := fun i m hi hm => by
  rw [hnodes] at hm
  rw [hhead] at hi
  rw [(hl.pop_link hn hm).2, if_neg (by omega)]
  exact h i m (Nat.le_of_succ_le hi) hm

/-- A pop frees a link that was not freed. -/
theorem counted_pop (hl : Laid s q L) (h : Stands s L) (hc : s.Counted) : (s.pop q).2.Counted := by
  cases hn : (s.link (s.queue q).head).next with
  | none => rwa [pop_none s hn]
  | some n =>
    have hpop : (s.pop q).2 = (((s.takeValue n).2.modifyQueue q fun x => { x with
        head := n, tail := if x.tail = (s.queue q).head then n else x.tail }).free (s.queue q).head) := by
      unfold Store.pop
      simp only [hn]
    rw [hpop]
    have hends : Store.Counted ((s.takeValue n).2.modifyQueue q fun x => { x with
        head := n, tail := if x.tail = (s.queue q).head then n else x.tail }) :=
      (hc.takeValue n).steady (Store.steady_modifyQueue _ q fun _ => rfl)
    refine hends.free (hl.bound _ (mem hl.head)) ?_
    rw [Store.link_modifyQueue, Store.link_takeValue]
    have hfreed := h _ _ (Nat.le_refl _) hl.head
    split
    · rename_i e; rw [e] at hfreed; exact hfreed
    · exact hfreed

theorem counted_popAll (q : Nat) : ∀ (fuel : Nat) {s : Store α} {L : Layout}, Laid s q L → Stands s L → s.Counted →
    (s.popAll q fuel).2.Counted := by
  intro fuel
  induction fuel with
  | zero => exact fun _ _ hc => hc
  | succ fuel ih =>
    intro s L hl h hc
    unfold Store.popAll
    cases hn : L.nodes[L.head + 1]? with
    | none => rwa [pop_none (q := q) s ((hl.next _ _ hl.head).trans hn)]
    | some n =>
      obtain ⟨v, L', hv, hl', hnodes, hhead, -⟩ := hl.pop_some hn
      rw [show s.pop q = (some v, (s.pop q).2) from Prod.ext hv rfl]
      exact ih hl' (hl.stands_pop hn h hnodes hhead) (hl.counted_pop h hc)

theorem counted_tearDown (hl : Laid s q L) (h : Stands s L) (hc : s.Counted) : (s.tearDown q).2.Counted := by
  have hlen := Nat.le_trans hl.length_le (Nat.le_add_left s.nextLink (L.head + 1))
  obtain ⟨L', hl', hnodes, hhead, -, hlast, -⟩ := popAll q s.nextLink hl hlen
  have hmem := hl'.head
  have hlt := hl'.head_lt
  refine (counted_popAll q s.nextLink hl h hc).free (hl'.bound _ (mem hmem)) ?_
  rw [hnodes] at hmem hlt hlast
  rw [(popAll_link q s.nextLink hl hlen hmem).2, if_neg (by omega)]
  exact h _ _ hhead hmem

end Laid

end EpochQueue.Fifo
