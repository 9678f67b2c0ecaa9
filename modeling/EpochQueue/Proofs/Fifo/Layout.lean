/-
  EpochQueue.Proofs.Fifo.Layout — a queue as the list of all links that were ever linked in it.

  `Layout` is that list, in the order in which the links follow each other, with the places that
  head and tail have reached. `Laid s q L` says that the store looks like that: links in front
  of the head stay in the list, so a place once known keeps its meaning, however far the head has
  moved. What the queue holds is what the links after the head carry (`Laid.values_eq`).

  Linking, swinging an end, taking a value, popping and tearing down each lead from one layout
  to another; a store that changes for one queue keeps the layouts of the others (`Laid.off`).
-/

import EpochQueue.Fifo.Exclusive
import Mathlib.Data.List.Basic

namespace EpochQueue.Fifo

variable {α : Type}

namespace Store

variable (s : Store α)

/-! ## Frames -/

theorem queue_modifyQueue (q p : Nat) (f : Queue → Queue) :
    (s.modifyQueue q f).queue p = if p = q then f (s.queue q) else s.queue p :=
  Table.get_modify _ _ _ _

@[simp] theorem link_modifyQueue (q n : Nat) (f : Queue → Queue) : (s.modifyQueue q f).link n = s.link n := rfl

theorem link_alloc (q n : Nat) (v : Option α) :
    (s.alloc q v).2.link n = if n = s.nextLink then ⟨v, none, q, false⟩ else s.link n :=
  Table.get_set _ _ _ _
theorem queue_alloc (q p : Nat) (v : Option α) : (s.alloc q v).2.queue p =
    if p = q then { s.queue q with live := (s.queue q).live + 1 } else s.queue p :=
  Table.get_modify _ _ _ _

theorem link_free (n m : Nat) : (s.free n).link m = if m = n then { s.link n with freed := true } else s.link m :=
  Table.get_modify _ _ _ _
theorem queue_free (n p : Nat) : (s.free n).queue p =
    if p = (s.link n).home then { s.queue p with live := (s.queue p).live - 1 } else s.queue p := by
  refine (Table.get_modify _ _ _ _).trans ?_
  split
  · subst p; rfl
  · rfl

theorem link_takeValue (n m : Nat) :
    (s.takeValue n).2.link m = if m = n then { s.link n with value := none } else s.link m :=
  Table.get_modify _ _ _ _
@[simp] theorem queue_takeValue (n p : Nat) : (s.takeValue n).2.queue p = s.queue p := rfl

@[simp] theorem head_free (n p : Nat) : ((s.free n).queue p).head = (s.queue p).head := by
  rw [queue_free]; split <;> rfl
@[simp] theorem tail_free (n p : Nat) : ((s.free n).queue p).tail = (s.queue p).tail := by
  rw [queue_free]; split <;> rfl
@[simp] theorem head_alloc (q p : Nat) (v : Option α) : ((s.alloc q v).2.queue p).head = (s.queue p).head := by
  rw [queue_alloc]; split <;> simp_all
@[simp] theorem tail_alloc (q p : Nat) (v : Option α) : ((s.alloc q v).2.queue p).tail = (s.queue p).tail := by
  rw [queue_alloc]; split <;> simp_all

end Store

/-! ## Layouts -/

structure Layout where
  /-- Every link that was ever linked, the first sentinel first. -/
  nodes : List Nat
  /-- How far the head has come. -/
  head : Nat
  tail : Nat

/-- What becomes of a layout: links join at the end, and the ends move on. -/
structure Layout.Grows (L L' : Layout) : Prop where
  nodes : L.nodes <+: L'.nodes
  head : L.head ≤ L'.head
  tail : L.tail ≤ L'.tail

namespace Layout

variable {L L' L'' : Layout}

theorem Grows.refl (L : Layout) : L.Grows L := ⟨List.prefix_refl _, Nat.le_refl _, Nat.le_refl _⟩

theorem Grows.getElem? (h : L.Grows L') {i n : Nat} (hi : L.nodes[i]? = some n) : L'.nodes[i]? = some n := by
  obtain ⟨rest, hr⟩ := h.nodes
  rw [← hr, List.getElem?_append_left (List.getElem?_eq_some_iff.mp hi).1, hi]

theorem lt_of_getElem? {i n : Nat} (hi : L.nodes[i]? = some n) : i < L.nodes.length :=
  (List.getElem?_eq_some_iff.mp hi).1

end Layout

/-- The store looks as the layout says. -/
structure Laid (s : Store α) (q : Nat) (L : Layout) : Prop where
  nodup : L.nodes.Nodup
  bound : ∀ n ∈ L.nodes, n < s.nextLink
  home : ∀ n ∈ L.nodes, (s.link n).home = q
  next : ∀ i n, L.nodes[i]? = some n → (s.link n).next = L.nodes[i + 1]?
  head : L.nodes[L.head]? = some (s.queue q).head
  tail : L.nodes[L.tail]? = some (s.queue q).tail
  order : L.head ≤ L.tail
  /-- Behind the head every link carries a value. -/
  value : ∀ i n, L.head < i → L.nodes[i]? = some n → ∃ v, (s.link n).value = some v

namespace Laid

variable {s s' : Store α} {q p n : Nat} {L : Layout}

/-- A link has one place. -/
theorem place (hl : Laid s q L) {i j : Nat} (hi : L.nodes[i]? = some n) (hj : L.nodes[j]? = some n) : i = j :=
  (List.getElem?_inj (L.lt_of_getElem? hi) hl.nodup).mp (hi.trans hj.symm)

theorem mem {L : Layout} {i n : Nat} (hi : L.nodes[i]? = some n) : n ∈ L.nodes := List.mem_of_getElem? hi

theorem exists_place (hn : n ∈ L.nodes) : ∃ i : Nat, L.nodes[i]? = some n := List.mem_iff_getElem?.mp hn

/-- Nothing follows a link only at the end. -/
theorem last_of_next_none (hl : Laid s q L) {i : Nat} (hi : L.nodes[i]? = some n) (hn : (s.link n).next = none) :
    L.nodes.length = i + 1 := by
  have h1 := L.lt_of_getElem? hi
  have h2 : L.nodes.length ≤ i + 1 := List.getElem?_eq_none_iff.mp ((hl.next i n hi).symm.trans hn)
  omega

theorem head_lt (hl : Laid s q L) : L.head < L.nodes.length := L.lt_of_getElem? hl.head

/-! ## What the queue holds -/

theorem follow_eq (hl : Laid s q L) (fuel i : Nat) : s.follow fuel L.nodes[i]? = (L.nodes.drop i).take fuel := by
  induction fuel generalizing i with
  | zero => simp [Store.follow]
  | succ fuel ih =>
    cases hi : L.nodes[i]? with
    | none => simp [Store.follow, List.drop_eq_nil_of_le (List.getElem?_eq_none_iff.mp hi)]
    | some n =>
      obtain ⟨hlt, hn⟩ := List.getElem?_eq_some_iff.mp hi
      rw [Store.follow, hl.next i n hi, ih, List.drop_eq_getElem_cons hlt, List.take_succ_cons, hn]

theorem length_le (hl : Laid s q L) : L.nodes.length ≤ s.nextLink := by
  have hsub : L.nodes ⊆ List.range s.nextLink := fun n hn => List.mem_range.mpr (hl.bound n hn)
  have hlen := hl.nodup.length_le_of_subset hsub
  rwa [List.length_range] at hlen

theorem chain_eq (hl : Laid s q L) : s.chain q = L.nodes.drop L.head := by
  rw [Store.chain, ← hl.head, hl.follow_eq, List.take_of_length_le]
  rw [List.length_drop]
  exact Nat.le_trans (Nat.sub_le _ _) hl.length_le

theorem values_eq (hl : Laid s q L) :
    s.values q = (L.nodes.drop (L.head + 1)).filterMap fun n => (s.link n).value := by
  rw [Store.values, hl.chain_eq, List.tail_drop]

/-- The front value is in the link after the head. -/
theorem values_cons (hl : Laid s q L) {v : α} (hn : L.nodes[L.head + 1]? = some n) (hv : (s.link n).value = some v) :
    s.values q = v :: (L.nodes.drop (L.head + 2)).filterMap fun n => (s.link n).value := by
  obtain ⟨hlt, rfl⟩ := List.getElem?_eq_some_iff.mp hn
  rw [hl.values_eq, List.drop_eq_getElem_cons hlt, List.filterMap_cons]
  simp only [hv]

theorem values_nil (hl : Laid s q L) (h : L.nodes.length ≤ L.head + 1) : s.values q = [] := by
  rw [hl.values_eq, List.drop_eq_nil_of_le h]
  rfl

theorem mem_drop {i m : Nat} {ns : List Nat} (hm : m ∈ ns.drop i) : ∃ j, i ≤ j ∧ ns[j]? = some m := by
  obtain ⟨k, hk⟩ := List.mem_iff_getElem?.mp hm
  rw [List.getElem?_drop] at hk
  exact ⟨i + k, Nat.le_add_right _ _, hk⟩

/-- Every link behind the head counts. -/
theorem length_values (hl : Laid s q L) : (s.values q).length + L.head + 1 = L.nodes.length := by
  have hlt := hl.head_lt
  have hall : ∀ n ∈ L.nodes.drop (L.head + 1), ((s.link n).value).isSome = true := fun n hn => by
    obtain ⟨i, hi, hn⟩ := mem_drop hn
    obtain ⟨v, hv⟩ := hl.value i n hi hn
    rw [hv]
    rfl
  rw [hl.values_eq, List.length_filterMap_eq_countP, List.countP_eq_length.mpr hall, List.length_drop]
  omega

theorem values_congr (hl : Laid s q L) (hl' : Laid s' q L)
    (hv : ∀ i n, L.head < i → L.nodes[i]? = some n → (s'.link n).value = (s.link n).value) :
    s'.values q = s.values q := by
  rw [hl.values_eq, hl'.values_eq]
  refine List.filterMap_congr fun n hn => ?_
  obtain ⟨i, hi, hn⟩ := mem_drop hn
  exact hv i n hi hn

/-! ## Changes -/

/-- What the links of the layout say, and where the ends point, is all that matters. -/
theorem congr (hl : Laid s q L) (hbound : s.nextLink ≤ s'.nextLink)
    (hlink : ∀ n ∈ L.nodes, (s'.link n).home = (s.link n).home ∧ (s'.link n).next = (s.link n).next)
    (hvalue : ∀ i n, L.head < i → L.nodes[i]? = some n → (s'.link n).value = (s.link n).value)
    (hhead : (s'.queue q).head = (s.queue q).head) (htail : (s'.queue q).tail = (s.queue q).tail) : Laid s' q L where
  nodup := hl.nodup
  bound := fun n hn => Nat.lt_of_lt_of_le (hl.bound n hn) hbound
  home := fun n hn => (hlink n hn).1.trans (hl.home n hn)
  next := fun i n hi => (hlink n (mem hi)).2.trans (hl.next i n hi)
  head := hhead ▸ hl.head
  tail := htail ▸ hl.tail
  order := hl.order
  value := fun i n hi hn => by rw [hvalue i n hi hn]; exact hl.value i n hi hn

theorem alloc (hl : Laid s q L) (p : Nat) (v : Option α) : Laid (s.alloc p v).2 q L := by
  have hold : ∀ n ∈ L.nodes, (s.alloc p v).2.link n = s.link n := fun n hn => by
    rw [Store.link_alloc, if_neg (Nat.ne_of_lt (hl.bound n hn))]
  exact hl.congr (Nat.le_succ _) (fun n hn => by rw [hold n hn]; exact ⟨rfl, rfl⟩)
    (fun i n _ hn => by rw [hold n (mem hn)]) (by simp) (by simp)

theorem value_free (s : Store α) (n m : Nat) : ((s.free n).link m).value = (s.link m).value := by
  rw [Store.link_free]
  split
  · subst m; rfl
  · rfl

theorem free (hl : Laid s q L) (n : Nat) : Laid (s.free n) q L := by
  refine hl.congr (Nat.le_refl _) (fun m _ => ?_) (fun i m _ _ => value_free s n m) (by simp) (by simp)
  rw [Store.link_free]
  split
  · subst m; exact ⟨rfl, rfl⟩
  · exact ⟨rfl, rfl⟩

/-- The value of a link that the head has reached is of no account. -/
theorem takeValue (hl : Laid s q L) (hn : ∀ i, L.nodes[i]? = some n → i ≤ L.head) : Laid (s.takeValue n).2 q L := by
  refine hl.congr (Nat.le_refl _) (fun m _ => ?_) (fun i m hi hm => ?_) rfl rfl
  · rw [Store.link_takeValue]
    split
    · subst m; exact ⟨rfl, rfl⟩
    · exact ⟨rfl, rfl⟩
  · rw [Store.link_takeValue, if_neg]
    rintro rfl
    exact absurd (hn i hm) (Nat.not_le_of_lt hi)

theorem values_takeValue (hl : Laid s q L) (hn : ∀ i, L.nodes[i]? = some n → i ≤ L.head) :
    (s.takeValue n).2.values q = s.values q := by
  refine hl.values_congr (hl.takeValue hn) fun i m hi hm => ?_
  rw [Store.link_takeValue, if_neg]
  rintro rfl
  exact absurd (hn i hm) (Nat.not_le_of_lt hi)

theorem swingTail (hl : Laid s q L) {new : Nat} (hn : L.nodes[L.tail + 1]? = some new) :
    Laid (s.modifyQueue q fun x => { x with tail := new }) q { L with tail := L.tail + 1 } where
  nodup := hl.nodup
  bound := hl.bound
  home := hl.home
  next := hl.next
  head := by rw [Store.queue_modifyQueue, if_pos rfl]; exact hl.head
  tail := by rw [Store.queue_modifyQueue, if_pos rfl]; exact hn
  order := Nat.le_succ_of_le hl.order
  value := hl.value

theorem swingHead (hl : Laid s q L) {new : Nat} (hlt : L.head < L.tail) (hn : L.nodes[L.head + 1]? = some new) :
    Laid (s.modifyQueue q fun x => { x with head := new }) q { L with head := L.head + 1 } where
  nodup := hl.nodup
  bound := hl.bound
  home := hl.home
  next := hl.next
  head := by rw [Store.queue_modifyQueue, if_pos rfl]; exact hn
  tail := by rw [Store.queue_modifyQueue, if_pos rfl]; exact hl.tail
  order := hlt
  value := fun i n hi => hl.value i n (Nat.lt_of_succ_lt hi)

/-- A link of this queue that carries a value and is not in the list yet joins at the end. -/
theorem append (hl : Laid s q L) {t : Nat} {v : α} (ht : t ∈ L.nodes) (hlast : (s.link t).next = none)
    (hnew : n ∉ L.nodes) (hb : n < s.nextLink) (hh : (s.link n).home = q) (hv : (s.link n).value = some v)
    (hnext : (s.link n).next = none) :
    Laid { s with links := s.links.modify t fun l => { l with next := some n } } q
      { L with nodes := L.nodes ++ [n] } := by
  obtain ⟨i, hi⟩ := exists_place ht
  have hlen := hl.last_of_next_none hi hlast
  have hlink : ∀ m, Store.link { s with links := s.links.modify t fun l => { l with next := some n } } m =
      if m = t then { s.link t with next := some n } else s.link m := fun m => Table.get_modify _ _ _ _
  have hold : ∀ {j m}, L.nodes[j]? = some m → (L.nodes ++ [n])[j]? = some m := fun hj => by
    rw [List.getElem?_append_left (L.lt_of_getElem? hj), hj]
  have hcases : ∀ {j m}, (L.nodes ++ [n])[j]? = some m → L.nodes[j]? = some m ∨ j = i + 1 ∧ m = n := by
    intro j m hj
    by_cases hlt : j < L.nodes.length
    · exact Or.inl (by rwa [List.getElem?_append_left hlt] at hj)
    · have := (List.getElem?_eq_some_iff.mp hj).1
      rw [List.length_append, List.length_singleton] at this
      have hji : j = i + 1 := by omega
      rw [List.getElem?_append_right (by omega), hji, hlen, Nat.sub_self] at hj
      exact Or.inr ⟨hji, (Option.some.inj hj).symm⟩
  have hnt : n ≠ t := fun e => hnew (e ▸ ht)
  refine ⟨?_, ?_, ?_, ?_, hold hl.head, hold hl.tail, hl.order, ?_⟩
  · exact List.nodup_append.mpr ⟨hl.nodup, by simp, fun a ha b hb => by
      cases List.mem_singleton.mp hb
      exact fun e => hnew (e ▸ ha)⟩
  · intro m hm
    rcases List.mem_append.mp hm with hm | hm
    · exact hl.bound m hm
    · cases List.mem_singleton.mp hm; exact hb
  · intro m hm
    rw [hlink]
    rcases List.mem_append.mp hm with hm | hm
    · have := hl.home m hm
      split
      · subst m; exact this
      · exact this
    · cases List.mem_singleton.mp hm
      rw [if_neg hnt]
      exact hh
  · intro j m hj
    rw [hlink]
    rcases hcases hj with hj | ⟨rfl, rfl⟩
    · by_cases e : m = t
      · subst e
        cases hl.place hi hj
        rw [if_pos rfl, ← hlen, List.getElem?_append_right (Nat.le_refl _), Nat.sub_self]
        rfl
      · have hne : j ≠ i := fun e' => e (Option.some.inj (hj.symm.trans (e' ▸ hi)))
        have hlt := L.lt_of_getElem? hj
        rw [if_neg e, hl.next j m hj, List.getElem?_append_left (by omega)]
    · rw [if_neg hnt, hnext]
      exact (List.getElem?_eq_none_iff.mpr (by rw [List.length_append, List.length_singleton]; omega)).symm
  · intro j m hij hj
    rw [hlink]
    rcases hcases hj with hj | ⟨rfl, rfl⟩
    · obtain ⟨w, hw⟩ := hl.value j m hij hj
      refine ⟨w, ?_⟩
      split
      · subst m; exact hw
      · exact hw
    · exact ⟨v, by rw [if_neg hnt]; exact hv⟩

theorem values_append (hl : Laid s q L) {t : Nat} {v : α} (hnt : n ≠ t) (hv : (s.link n).value = some v)
    (hl' : Laid { s with links := s.links.modify t fun l => { l with next := some n } } q
      { L with nodes := L.nodes ++ [n] }) :
    Store.values { s with links := s.links.modify t fun l => { l with next := some n } } q = s.values q ++ [v] := by
  have hlink : ∀ m, Store.link { s with links := s.links.modify t fun l => { l with next := some n } } m =
      if m = t then { s.link t with next := some n } else s.link m := fun m => Table.get_modify _ _ _ _
  rw [hl'.values_eq, hl.values_eq, List.drop_append_of_le_length hl.head_lt, List.filterMap_append]
  congr 1
  · refine List.filterMap_congr fun m _ => ?_
    rw [hlink]
    split
    · subst m; rfl
    · rfl
  · rw [List.filterMap_cons, hlink, if_neg hnt]
    simp [hv]

/-! ## Other queues -/

/-- The store changes only in the ends of `q` and in the links of `ns`. -/
structure Off (s s' : Store α) (q : Nat) (ns : List Nat) : Prop where
  nextLink : s.nextLink ≤ s'.nextLink
  nextQueue : s'.nextQueue = s.nextQueue
  head : ∀ p, p ≠ q → (s'.queue p).head = (s.queue p).head
  tail : ∀ p, p ≠ q → (s'.queue p).tail = (s.queue p).tail
  link : ∀ n, n ∉ ns → s'.link n = s.link n

theorem Off.refl (s : Store α) (q : Nat) (ns : List Nat) : Off s s q ns :=
  ⟨Nat.le_refl _, rfl, fun _ _ => rfl, fun _ _ => rfl, fun _ _ => rfl⟩

theorem Off.trans {s'' : Store α} {ns : List Nat} (h : Off s s' q ns) (h' : Off s' s'' q ns) : Off s s'' q ns :=
  ⟨Nat.le_trans h.nextLink h'.nextLink, h'.nextQueue.trans h.nextQueue,
    fun p hp => (h'.head p hp).trans (h.head p hp), fun p hp => (h'.tail p hp).trans (h.tail p hp),
    fun n hn => (h'.link n hn).trans (h.link n hn)⟩

theorem off (hl : Laid s p L) {ns : List Nat} (ho : Off s s' q ns) (hp : p ≠ q) (hd : ∀ n ∈ L.nodes, n ∉ ns) :
    Laid s' p L ∧ s'.values p = s.values p := by
  have hl' : Laid s' p L := hl.congr ho.nextLink (fun n hn => by rw [ho.link n (hd n hn)]; exact ⟨rfl, rfl⟩)
    (fun i n _ hn => by rw [ho.link n (hd n (mem hn))]) (ho.head p hp) (ho.tail p hp)
  exact ⟨hl', hl.values_congr hl' fun i n _ hn => by rw [ho.link n (hd n (mem hn))]⟩

/-- Two queues share no links. -/
theorem disjoint {L' : Layout} (hl : Laid s q L) (hl' : Laid s p L') (hp : p ≠ q) : ∀ n ∈ L'.nodes, n ∉ L.nodes :=
  fun n hn hn' => hp ((hl'.home n hn).symm.trans (hl.home n hn'))

/-! ## Making queues, and emptying them alone -/

theorem newQueue (s : Store α) (limits : Limits) :
    Laid (s.newQueue limits).2 s.nextQueue ⟨[s.nextLink], 0, 0⟩ ∧
      (∀ n, (s.newQueue limits).2.link n = if n = s.nextLink then ⟨none, none, s.nextQueue, false⟩ else s.link n) ∧
      ∀ p L, p ≠ s.nextQueue → Laid s p L →
        Laid (s.newQueue limits).2 p L ∧ (s.newQueue limits).2.values p = s.values p := by
  have hlink : ∀ n, (s.newQueue limits).2.link n =
      if n = s.nextLink then ⟨none, none, s.nextQueue, false⟩ else s.link n := fun n => Table.get_set _ _ _ _
  have hqueue : ∀ p, ((s.newQueue limits).2.queue p).head = (if p = s.nextQueue then s.nextLink else (s.queue p).head) ∧
      ((s.newQueue limits).2.queue p).tail = if p = s.nextQueue then s.nextLink else (s.queue p).tail := by
    intro p
    have h := Store.queue_modifyQueue
      (Store.alloc { s with queues := s.queues.set s.nextQueue { limits }, nextQueue := s.nextQueue + 1 }
        s.nextQueue none).2 s.nextQueue p fun x => { x with head := s.nextLink, tail := s.nextLink }
    by_cases e : p = s.nextQueue
    · rw [if_pos e, if_pos e]
      rw [if_pos e] at h
      exact ⟨congrArg Queue.head h, congrArg Queue.tail h⟩
    · rw [if_neg e, if_neg e]
      rw [if_neg e] at h
      have hold : Store.queue { s with queues := s.queues.set s.nextQueue { limits }, nextQueue := s.nextQueue + 1 } p
          = s.queue p := (Table.get_set _ _ _ _).trans (if_neg e)
      exact ⟨(congrArg Queue.head h).trans ((Store.head_alloc _ _ _ _).trans (congrArg Queue.head hold)),
        (congrArg Queue.tail h).trans ((Store.tail_alloc _ _ _ _).trans (congrArg Queue.tail hold))⟩
  refine ⟨⟨by simp, fun n hn => ?_, fun n hn => ?_, fun i n hi => ?_, ?_, ?_, Nat.le_refl _, fun i n hi hn => ?_⟩,
    hlink, fun p L hp hl => ?_⟩
  · cases List.mem_singleton.mp hn; exact Nat.lt_succ_self _
  · cases List.mem_singleton.mp hn; rw [hlink, if_pos rfl]
  · match i with
    | 0 => cases hi; rw [hlink, if_pos rfl]; rfl
    | i + 1 => simp at hi
  · rw [(hqueue _).1, if_pos rfl]; rfl
  · rw [(hqueue _).2, if_pos rfl]; rfl
  · match i with
    | 0 => cases hi
    | i + 1 => simp at hn
  · have hold : ∀ n ∈ L.nodes, (s.newQueue limits).2.link n = s.link n := fun n hn =>
      (hlink n).trans (if_neg (Nat.ne_of_lt (hl.bound n hn)))
    have hl' : Laid (s.newQueue limits).2 p L := hl.congr (Nat.le_succ _)
      (fun n hn => by rw [hold n hn]; exact ⟨rfl, rfl⟩) (fun i n _ hn => by rw [hold n (mem hn)])
      ((hqueue p).1.trans (if_neg hp)) ((hqueue p).2.trans (if_neg hp))
    exact ⟨hl', hl.values_congr hl' fun i n _ hn => by rw [hold n (mem hn)]⟩

theorem pop_none (s : Store α) (h : (s.link (s.queue q).head).next = none) : s.pop q = (none, s) := by
  unfold Store.pop
  simp only [h]

/-- What a pop that finds a value does to links and ends. -/
theorem pop_frame (s : Store α) (hn : (s.link (s.queue q).head).next = some n) :
    (s.pop q).1 = (s.link n).value ∧ (s.pop q).2.nextLink = s.nextLink ∧ (s.pop q).2.nextQueue = s.nextQueue ∧
    (∀ p, ((s.pop q).2.queue p).head = (if p = q then n else (s.queue p).head) ∧ ((s.pop q).2.queue p).tail =
      if p = q ∧ (s.queue q).tail = (s.queue q).head then n else (s.queue p).tail) ∧
    ∀ m, (s.pop q).2.link m = { s.link m with
      value := if m = n then none else (s.link m).value
      freed := if m = (s.queue q).head then true else (s.link m).freed } := by
  unfold Store.pop
  simp only [hn]
  refine ⟨rfl, rfl, rfl, fun p => ?_, fun m => ?_⟩
  · rw [Store.head_free, Store.tail_free, Store.queue_modifyQueue, Store.queue_takeValue, Store.queue_takeValue]
    by_cases e : p = q
    · subst e
      simp only [if_true, true_and]
    · simp only [e, if_false, false_and, and_self]
  · rw [Store.link_free, Store.link_modifyQueue, Store.link_modifyQueue, Store.link_takeValue, Store.link_takeValue]
    by_cases e : m = (s.queue q).head <;> by_cases e' : m = n <;> simp_all

/-- The owner takes the front value; the old sentinel is freed. -/
theorem pop_some (hl : Laid s q L) (hn : L.nodes[L.head + 1]? = some n) : ∃ v L', (s.pop q).1 = some v ∧
    Laid (s.pop q).2 q L' ∧ L'.nodes = L.nodes ∧ L'.head = L.head + 1 ∧ L.tail ≤ L'.tail ∧
    Off s (s.pop q).2 q L.nodes ∧ s.values q = v :: (s.pop q).2.values q := by
  obtain ⟨v, hv⟩ := hl.value (L.head + 1) n (Nat.lt_succ_self _) hn
  obtain ⟨h1, hnl, hnq, hqueue, hlink⟩ := pop_frame s ((hl.next _ _ hl.head).trans hn)
  have htail : (s.queue q).tail = (s.queue q).head ↔ L.tail = L.head := by
    constructor
    · intro e
      exact hl.place (hl.tail.trans (congrArg some e)) hl.head
    · intro e
      have := hl.tail
      rw [e, hl.head] at this
      exact (Option.some.inj this).symm
  have hl' : Laid (s.pop q).2 q ⟨L.nodes, L.head + 1, if L.tail = L.head then L.head + 1 else L.tail⟩ := by
    refine ⟨hl.nodup, fun m hm => hnl ▸ hl.bound m hm, fun m hm => ?_, fun i m hm => ?_, ?_, ?_, ?_,
      fun i m hi hm => ?_⟩
    · rw [hlink]; exact hl.home m hm
    · rw [hlink]; exact hl.next i m hm
    · rw [(hqueue q).1, if_pos rfl]; exact hn
    · rw [(hqueue q).2]
      by_cases e : L.tail = L.head
      · simp only [htail.mpr e, e, if_true, and_self]; exact hn
      · simp only [mt htail.mp e, e, if_false, and_false]; exact hl.tail
    · have := hl.order
      dsimp only
      split <;> omega
    · have hmn : m ≠ n := by
        rintro rfl
        exact absurd (hl.place hm hn) (Nat.ne_of_gt hi)
      rw [hlink]
      simp only [hmn, if_false]
      exact hl.value i m (Nat.lt_of_succ_lt hi) hm
  refine ⟨v, _, h1.trans hv, hl', rfl, rfl, ?_, ⟨Nat.le_of_eq hnl.symm, hnq, fun p hp => ?_, fun p hp => ?_,
    fun m hm => ?_⟩, ?_⟩
  · dsimp only
    split <;> omega
  · rw [(hqueue p).1, if_neg hp]
  · rw [(hqueue p).2, if_neg fun h => hp h.1]
  · have hmn : m ≠ n := fun e => hm (e ▸ mem hn)
    have hmh : m ≠ (s.queue q).head := fun e => hm (e ▸ mem hl.head)
    rw [hlink, if_neg hmn, if_neg hmh]
  · rw [hl.values_cons hn hv, hl'.values_eq]
    congr 1
    refine List.filterMap_congr fun m hm => ?_
    obtain ⟨i, hi, hm⟩ := mem_drop hm
    have hmn : m ≠ n := by
      rintro rfl
      have := hl.place hm hn
      omega
    rw [hlink]
    simp only [hmn, if_false]

/-- Popping until nothing comes leaves the last link as the sentinel. -/
theorem popAll (q : Nat) : ∀ (fuel : Nat) {s : Store α} {L : Layout}, Laid s q L → L.nodes.length ≤ L.head + 1 + fuel →
    ∃ L', Laid (s.popAll q fuel).2 q L' ∧ L'.nodes = L.nodes ∧ L.head ≤ L'.head ∧ L.tail ≤ L'.tail ∧
      L'.nodes.length ≤ L'.head + 1 ∧ Off s (s.popAll q fuel).2 q L.nodes ∧ (s.popAll q fuel).1 = s.values q := by
  intro fuel
  induction fuel with
  | zero =>
    intro s L hl hlen
    exact ⟨L, hl, rfl, Nat.le_refl _, Nat.le_refl _, hlen, Off.refl _ _ _, (hl.values_nil hlen).symm⟩
  | succ fuel ih =>
    intro s L hl hlen
    cases hn : L.nodes[L.head + 1]? with
    | none =>
      have hlast := List.getElem?_eq_none_iff.mp hn
      have hp := pop_none (q := q) s ((hl.next _ _ hl.head).trans hn)
      unfold Store.popAll
      simp only [hp]
      exact ⟨L, hl, rfl, Nat.le_refl _, Nat.le_refl _, hlast, Off.refl _ _ _, (hl.values_nil hlast).symm⟩
    | some n =>
      obtain ⟨v, L₁, hv, hl₁, hnodes, hhead, htail, hoff, hvals⟩ := hl.pop_some hn
      obtain ⟨L', hl', hnodes', hhead', htail', hlast, hoff', hvals'⟩ := ih hl₁ (by rw [hnodes, hhead]; omega)
      have hp : s.pop q = (some v, (s.pop q).2) := Prod.ext hv rfl
      unfold Store.popAll
      rw [hp]
      dsimp only
      exact ⟨L', hl', hnodes'.trans hnodes, by omega, Nat.le_trans htail htail', hlast,
        hoff.trans (hnodes ▸ hoff'), by rw [hvals', hvals]⟩

/-- What was left comes out in order, and nothing remains. -/
theorem tearDown (hl : Laid s q L) : ∃ L', Laid (s.tearDown q).2 q L' ∧ L'.nodes = L.nodes ∧ L.head ≤ L'.head ∧
    L.tail ≤ L'.tail ∧ Off s (s.tearDown q).2 q L.nodes ∧ (s.tearDown q).1 = s.values q ∧
    (s.tearDown q).2.values q = [] ∧ (s.tearDown q).2.isOpen q = false := by
  obtain ⟨L', hl', hnodes, hhead, htail, hlast, hoff, hvals⟩ :=
    popAll q s.nextLink hl (Nat.le_trans hl.length_le (Nat.le_add_left _ _))
  have hfree := hl'.free ((s.popAll q s.nextLink).2.queue q).head
  have hmem : ((s.popAll q s.nextLink).2.queue q).head ∈ L.nodes := hnodes ▸ mem hl'.head
  have hend : (s.tearDown q).2 = (s.popAll q s.nextLink).2.free ((s.popAll q s.nextLink).2.queue q).head := rfl
  rw [hend]
  refine ⟨L', hfree, hnodes, hhead, htail, hoff.trans ⟨Nat.le_refl _, rfl, fun p _ => Store.head_free _ _ _,
    fun p _ => Store.tail_free _ _ _, fun m hm => ?_⟩, hvals, hfree.values_nil hlast, ?_⟩
  · rw [Store.link_free, if_neg]
    rintro rfl
    exact hm hmem
  · unfold Store.isOpen
    rw [Store.head_free, Store.link_free, if_pos rfl]
    simp

end Laid

end EpochQueue.Fifo
