/-
  EpochQueue.Proofs.Reclaim.Books — no retired node is lost, and none is destroyed twice.

  The books list every node that waits: in the batches and bags of the threads, among the
  orphans, and in the hands of the collections that have taken it out. The nodes retired are at
  any time those destroyed together with those in the books, none of them twice
  (`Reach.balanced`): a move shifts nodes from one place to another, enters the one it retires
  and strikes out the one it destroys (`Handled.books`). Beside that, a batch that is not full
  counts its nodes, a bag has as many nodes as it says, one at least and a full batch at most
  (`Neat`).
-/

import Mathlib.Algebra.Order.Group.Multiset
import EpochQueue.Proofs.Ledger
import EpochQueue.Proofs.Reclaim.Handling
import EpochQueue.Proofs.Reclaim.Protection

namespace EpochQueue.Reclaim

variable {ν κ : Type}

/-! ## What the trace says -/

namespace Notice

def retired? : Notice ν → Option ν
  | .retired n => some n
  | _ => none

def freed? : Notice ν → Option ν
  | .freed n => some n
  | _ => none

/-- How many nodes a call says that it destroyed. -/
def count : Notice ν → Nat
  | .returned n => n
  | _ => 0

end Notice

namespace Domain

variable {d d' : Domain ν κ} {t : Nat} {x : Option (Notice ν)}

/-- The nodes that were retired, in the order in which they were. -/
def retirements (d : Domain ν κ) : List ν := d.trace.toList.filterMap (·.retired?)

/-- The nodes that were destroyed, in the order in which they were. -/
def frees (d : Domain ν κ) : List ν := d.trace.toList.filterMap (·.freed?)

theorem mem_retirements {n : ν} : n ∈ d.retirements ↔ .retired n ∈ d.trace := by
  rw [retirements, List.mem_filterMap]
  constructor
  · rintro ⟨y, hy, e⟩
    cases y <;> cases e
    exact Array.mem_toList_iff.mp hy
  · exact fun h => ⟨_, Array.mem_toList_iff.mpr h, rfl⟩

theorem mem_frees {n : ν} : n ∈ d.frees ↔ .freed n ∈ d.trace := by
  rw [frees, List.mem_filterMap]
  constructor
  · rintro ⟨y, hy, e⟩
    cases y <;> cases e
    exact Array.mem_toList_iff.mp hy
  · exact fun h => ⟨_, Array.mem_toList_iff.mpr h, rfl⟩

/-- Whoever skips asides reads the same off the trace and off the story. -/
theorem filterMap_of_aside {β : Type} {f : Notice ν → Option β} (hf : ∀ y, y.isAside = true → f y = none)
    (l : List (Notice ν)) : (l.filter (!·.isAside)).filterMap f = l.filterMap f := by
  rw [List.filterMap_filter]
  refine congrArg (List.filterMap · l) (funext fun y => ?_)
  cases hy : y.isAside with
  | true => exact (hf y hy).symm
  | false => rfl

theorem retirements_eq : d.retirements = d.story.filterMap (·.retired?) :=
  (filterMap_of_aside (fun y hy => by cases y <;> first | rfl | cases hy) _).symm

theorem frees_eq : d.frees = d.story.filterMap (·.freed?) :=
  (filterMap_of_aside (fun y hy => by cases y <;> first | rfl | cases hy) _).symm

theorem Turn.retirements_append (h : Turn d t x d') :
    d'.retirements = d.retirements ++ (x.bind (·.retired?)).toList := by
  rw [retirements_eq, retirements_eq, h.story, List.filterMap_append]
  cases x with
  | none => rfl
  | some y => cases y <;> rfl

theorem Turn.frees_append (h : Turn d t x d') : d'.frees = d.frees ++ (x.bind (·.freed?)).toList := by
  rw [frees_eq, frees_eq, h.story, List.filterMap_append]
  cases x with
  | none => rfl
  | some y => cases y <;> rfl

end Domain

/-! ## The books -/

def Hoard.nodes (h : Hoard ν) : List ν := h.batch ++ Bag.contents h.bags

/-- What is with the thread: hoarded, or taken out to be destroyed. -/
def Thread.stock (th : Thread ν κ) : List ν := th.hoard.nodes ++ th.todo

namespace Domain

/-- All that waits to be destroyed. -/
def books (d : Domain ν κ) : List ν := d.threads.ledger Thread.stock ++ Bag.contents d.orphans

theorem mem_books_iff_stock {d : Domain ν κ} {n : ν} :
    n ∈ d.books ↔ (∃ t, n ∈ (d.thread t).stock) ∨ n ∈ Bag.contents d.orphans := by
  rw [books, List.mem_append, Table.mem_ledger (by rfl)]
  rfl

theorem mem_books {d : Domain ν κ} {n : ν} : n ∈ d.books ↔
    (∃ t, n ∈ (d.thread t).batch ∨ n ∈ Bag.contents (d.thread t).bags ∨ n ∈ (d.thread t).todo) ∨
      n ∈ Bag.contents d.orphans := by
  rw [mem_books_iff_stock]
  refine or_congr_left (exists_congr fun t => ?_)
  rw [Thread.stock, Hoard.nodes, List.mem_append, List.mem_append, Thread.batch_hoard, Thread.bags_hoard, or_assoc]

end Domain

namespace Bag

/-- The bag says how many nodes it has, and has some. -/
structure Filled (b : Bag ν) : Prop where
  len_eq : b.len = b.nodes.length
  pos : 1 ≤ b.len
  le : b.len ≤ bagCapacity

theorem filled_single (e : Epoch) (n : ν) : (single e n).Filled :=
  ⟨rfl, Nat.le_refl 1, (by decide : 1 ≤ bagCapacity)⟩

@[simp] theorem contents_append (bs cs : List (Bag ν)) : contents (bs ++ cs) = contents bs ++ contents cs :=
  List.flatMap_append

@[simp] theorem contents_singleton (b : Bag ν) : contents [b] = b.nodes := List.append_nil _

theorem contents_filter_perm (p : Bag ν → Bool) (bs : List (Bag ν)) :
    (contents (bs.filter p) ++ contents (bs.filter (!p ·))).Perm (contents bs) := by
  rw [← contents_append]
  exact (List.filter_append_perm p bs).flatMap_right _

end Bag

namespace Hoard

/-- The batch is not full and counts its nodes, and the bags are filled. -/
structure Neat (h : Hoard ν) : Prop where
  batchLen_eq : h.batchLen = h.batch.length
  room : h.batchLen < bagCapacity
  bags : ∀ b ∈ h.bags, b.Filled

theorem neat_empty : ({} : Hoard ν).Neat := ⟨rfl, (by decide : 0 < bagCapacity), nofun⟩

variable {h : Hoard ν} {e : Epoch}

theorem Neat.filled_bag (hb : h.batchLen = h.batch.length) (h0 : h.batchLen ≠ 0) (hle : h.batchLen ≤ bagCapacity) :
    (⟨e, h.batch, h.batchLen⟩ : Bag ν).Filled :=
  ⟨hb, Nat.pos_of_ne_zero h0, hle⟩

theorem sealed_neat (hb : h.batchLen = h.batch.length) (hle : h.batchLen ≤ bagCapacity)
    (hbags : ∀ b ∈ h.bags, b.Filled) : (h.sealed e).Neat := by
  unfold sealed
  split
  · rename_i h0
    exact ⟨hb, by rw [h0]; decide, hbags⟩
  · rename_i h0
    refine ⟨rfl, (by decide : 0 < bagCapacity), fun b hmem => ?_⟩
    rcases List.mem_append.mp hmem with hmem | hmem
    · exact hbags b hmem
    · rw [List.mem_singleton.mp hmem]
      exact Neat.filled_bag hb h0 hle

theorem nodes_sealed (h : Hoard ν) (e : Epoch) : (h.sealed e).nodes.Perm h.nodes := by
  unfold sealed
  split
  · exact List.Perm.refl _
  · simp only [nodes, Bag.contents_append, Bag.contents_singleton, List.nil_append]
    exact List.perm_append_comm

theorem Neat.batch_sealed (hn : h.Neat) : (h.sealed e).batch = [] := by
  unfold sealed
  split
  · rename_i h0
    exact List.length_eq_zero_iff.mp (hn.batchLen_eq ▸ h0)
  · rfl

theorem nodes_add (h : Hoard ν) (n : ν) : (h.add n).nodes = n :: h.nodes := rfl

end Hoard

namespace Domain

variable {d d' : Domain ν κ} {t : Nat} {x : Option (Notice ν)}

/-! ## Sizes -/

/-- Every batch and every bag has the size that it says. -/
structure Neat (d : Domain ν κ) : Prop where
  hoard : ∀ t, (d.thread t).hoard.Neat
  orphans : ∀ b ∈ d.orphans, b.Filled

theorem Neat.pool (hn : d.Neat) : ∀ b ∈ d.pool t, b.Filled := fun b hb => by
  rcases List.mem_append.mp hb with hb | hb
  · exact (hn.hoard t).bags b (Thread.bags_hoard (d.thread t) ▸ hb)
  · exact hn.orphans b hb

theorem Handled.neat (h : Handled d t d' x) (ht : Turn d t x d') (hn : d.Neat) : d'.Neat := by
  -- it is enough to look at the thread that moves
  have key : ∀ {d' : Domain ν κ}, (∀ u, u ≠ t → d'.thread u = d.thread u) → (d'.thread t).hoard.Neat →
      (∀ b ∈ d'.orphans, b.Filled) → d'.Neat := fun hoth hmine horph => by
    refine ⟨fun u => ?_, horph⟩
    by_cases e : u = t
    · exact e ▸ hmine
    · rw [hoth u e]; exact hn.hoard u
  have hmine := hn.hoard t
  have hroom : ∀ n, ((d.thread t).hoard.add n).batchLen = ((d.thread t).hoard.add n).batch.length := fun n =>
    congrArg (· + 1) hmine.batchLen_eq
  cases h with
  | kept hx hoard orphans todo => exact key ht.others (hoard ▸ hmine) (orphans ▸ hn.orphans)
  | batched n room hoard orphans todo =>
    exact key ht.others (hoard ▸ ⟨hroom n, room, hmine.bags⟩) (orphans ▸ hn.orphans)
  | filled n full hoard orphans todo =>
    exact key ht.others (hoard ▸ Hoard.sealed_neat (hroom n) hmine.room hmine.bags) (orphans ▸ hn.orphans)
  | cast n hoard orphans todo =>
    refine key ht.others (hoard ▸ hmine) fun b hb => ?_
    rw [orphans] at hb
    rcases List.mem_append.mp hb with hb | hb
    · exact hn.orphans b hb
    · rw [List.mem_singleton.mp hb]
      exact Bag.filled_single _ _
  | sealed hoard orphans todo =>
    exact key ht.others (hoard ▸ Hoard.sealed_neat hmine.batchLen_eq (Nat.le_of_lt hmine.room) hmine.bags)
      (orphans ▸ hn.orphans)
  | left hoard orphans todo =>
    refine key ht.others (hoard ▸ Hoard.neat_empty) fun b hb => ?_
    rw [orphans] at hb
    rcases List.mem_append.mp hb with hb | hb
    · exact hn.orphans b hb
    · exact (Hoard.sealed_neat hmine.batchLen_eq (Nat.le_of_lt hmine.room) hmine.bags).bags b hb
  | sorted g batch batchLen pool todo =>
    have hpool : ∀ b ∈ d'.pool t, b.Filled := fun b hb => hn.pool b (List.mem_filter.mp (pool ▸ hb)).1
    refine key ht.others ⟨by rw [batch, batchLen]; exact hmine.batchLen_eq, by rw [batchLen]; exact hmine.room,
      fun b hb => ?_⟩ fun b hb => hpool b (List.mem_append_right _ hb)
    exact hpool b (List.mem_append_left _ (Thread.bags_hoard (d'.thread t) ▸ hb))
  | destroyed n hoard orphans todo => exact key ht.others (hoard ▸ hmine) (orphans ▸ hn.orphans)

theorem Reach.neat (h : d.Reach) : d.Neat := by
  induction h with
  | start => exact ⟨fun t => Hoard.neat_empty, nofun⟩
  | move t m hr hm ih =>
    obtain ⟨x, ht, hh⟩ := hr.owned.handled hm
    exact hh.neat ht ih

/-! ## The balance -/

/-- What is with `t` and among the orphans is what was, with the node retired and without the
    one destroyed. -/
theorem Handled.stock (h : Handled d t d' x) (hn : d.Neat) :
    ((x.bind (·.freed?)).toList ++ (d'.thread t).stock ++ Bag.contents d'.orphans).Perm
      ((x.bind (·.retired?)).toList ++ (d.thread t).stock ++ Bag.contents d.orphans) := by
  have hsealed : ∀ h : Hoard ν, ((h.sealed d.registry.epoch).nodes : Multiset ν) = h.nodes := fun h =>
    Multiset.coe_eq_coe.mpr (h.nodes_sealed _)
  unfold Thread.stock
  rw [← Multiset.coe_eq_coe]
  simp only [← Multiset.coe_add]
  cases h with
  | kept hx hoard orphans todo =>
    have hnone : x.bind (·.freed?) = none ∧ x.bind (·.retired?) = none := by
      cases x with
      | none => exact ⟨rfl, rfl⟩
      | some y => cases y <;> first | exact ⟨rfl, rfl⟩ | cases hx
    rw [hnone.1, hnone.2, hoard, orphans, todo]
  | batched n room hoard orphans todo =>
    rw [hoard, orphans, todo, Hoard.nodes_add, ← List.singleton_append, ← Multiset.coe_add]
    show (([] : List ν) : Multiset ν) + _ + _ = ([n] : Multiset ν) + _ + _
    rw [Multiset.coe_nil, zero_add, add_assoc ([n] : Multiset ν)]
  | filled n full hoard orphans todo =>
    rw [hoard, orphans, todo, hsealed, Hoard.nodes_add, ← List.singleton_append, ← Multiset.coe_add]
    show (([] : List ν) : Multiset ν) + _ + _ = ([n] : Multiset ν) + _ + _
    rw [Multiset.coe_nil, zero_add, add_assoc ([n] : Multiset ν)]
  | cast n hoard orphans todo =>
    rw [hoard, orphans, todo, Bag.contents_append, Bag.contents_singleton, ← Multiset.coe_add]
    show (([] : List ν) : Multiset ν) + _ + (_ + ([n] : Multiset ν)) = ([n] : Multiset ν) + _ + _
    rw [Multiset.coe_nil, zero_add]
    ac_rfl
  | sealed hoard orphans todo => rw [hoard, orphans, todo, hsealed]; rfl
  | left hoard orphans todo =>
    have hbags : ((d.thread t).hoard.sealed d.registry.epoch).nodes =
        Bag.contents ((d.thread t).hoard.sealed d.registry.epoch).bags := by
      rw [Hoard.nodes, (hn.hoard t).batch_sealed, List.nil_append]
    rw [hoard, orphans, todo, Bag.contents_append, ← Multiset.coe_add, ← hbags, hsealed]
    show _ + ((([] : List ν) : Multiset ν) + _) + (_ + _) = _
    rw [Multiset.coe_nil, zero_add]
    ac_rfl
  | sorted g batch batchLen pool todo =>
    -- the nodes with the thread's bags and the orphans are those of its pool
    have hpool : ∀ e : Domain ν κ, (Bag.contents (e.thread t).bags : Multiset ν) + Bag.contents e.orphans =
        Bag.contents (e.pool t) := fun e => by rw [Domain.pool, Bag.contents_append, ← Multiset.coe_add]
    have hfilter : (Bag.contents ((d.pool t).filter (·.isExpired g)) : Multiset ν) + Bag.contents (d'.pool t) =
        Bag.contents (d.pool t) := by
      rw [pool, Multiset.coe_add]
      exact Multiset.coe_eq_coe.mpr (Bag.contents_filter_perm _ _)
    simp only [Hoard.nodes, Thread.bags_hoard, batch, todo, ← Multiset.coe_add]
    rw [← hpool d, ← hpool d'] at hfilter
    show _ + (_ + _ + (_ + _)) + _ = _ + (_ + _ + _) + _
    calc _ = ((d.thread t).hoard.batch : Multiset ν) + (d.thread t).todo +
          ((Bag.contents ((d.pool t).filter (·.isExpired g)) : Multiset ν) +
            ((Bag.contents (d'.thread t).bags : Multiset ν) + Bag.contents d'.orphans)) := by
          rw [show ((Option.bind (none : Option (Notice ν)) (·.freed?)).toList : Multiset ν) = 0 from rfl, zero_add]
          ac_rfl
      _ = _ := by
          rw [hfilter, show ((Option.bind (none : Option (Notice ν)) (·.retired?)).toList : Multiset ν) = 0 from rfl,
            zero_add]
          ac_rfl
  | destroyed n hoard orphans todo =>
    rw [hoard, orphans, todo, ← List.singleton_append, ← Multiset.coe_add]
    show ([n] : Multiset ν) + _ + _ = (([] : List ν) : Multiset ν) + _ + _
    rw [Multiset.coe_nil, zero_add]
    ac_rfl

/-- What comes to the thread was retired just now, or was orphaned. -/
theorem Handled.mem_stock (h : Handled d t d' x) (hn : d.Neat) {n : ν} (hmem : n ∈ (d'.thread t).stock) :
    x = some (.retired n) ∨ n ∈ (d.thread t).stock ∨ n ∈ Bag.contents d.orphans := by
  have hall := (h.stock hn).subset (List.mem_append_left _ (List.mem_append_right _ hmem))
  rw [List.append_assoc] at hall
  refine (List.mem_append.mp hall).imp (fun hx => ?_) List.mem_append.mp
  obtain ⟨y, rfl, hy⟩ := Option.bind_eq_some_iff.mp (Option.mem_toList.mp hx)
  cases y <;> cases hy
  rfl

theorem Handled.books (h : Handled d t d' x) (ht : Turn d t x d') (hn : d.Neat) :
    ((x.bind (·.freed?)).toList ++ d'.books).Perm ((x.bind (·.retired?)).toList ++ d.books) := by
  obtain ⟨rest, hold, hnew⟩ := Table.exists_rest (g := Thread.stock) (t := d.threads) (s := d'.threads) (i := t) rfl
    fun u hu => ht.others u hu
  have hstock := Multiset.coe_eq_coe.mpr (h.stock hn)
  rw [← Multiset.coe_eq_coe] at hold hnew ⊢
  simp only [Domain.books, ← Multiset.coe_add] at hold hnew hstock ⊢
  have hregroup : ∀ a b c : Multiset ν, a + (b + rest + c) = a + b + c + rest := fun a b c => by ac_rfl
  rw [hold, hnew, hregroup, hregroup]
  exact congrArg (· + (rest : Multiset ν)) hstock

/-- The nodes retired are the ones destroyed and the ones in the books. -/
structure Balanced (d : Domain ν κ) : Prop where
  perm : d.retirements.Perm (d.frees ++ d.books)
  nodup : d.retirements.Nodup

theorem Balanced.frees_le (hb : d.Balanced) : d.frees.length ≤ d.retirements.length := by
  rw [hb.perm.length_eq, List.length_append]
  exact Nat.le_add_right _ _

theorem Balanced.turn (hb : d.Balanced) (hn : d.Neat) (ht : Turn d t x d') (h : Handled d t d' x) : d'.Balanced := by
  refine ⟨?_, ?_⟩
  · have hbooks := h.books ht hn
    rw [ht.retirements_append, ht.frees_append, List.append_assoc]
    refine (hb.perm.append_right _).trans ?_
    rw [List.append_assoc]
    exact (List.perm_append_comm.trans hbooks.symm).append_left _
  · rw [ht.retirements_append]
    rcases hx : x.bind (·.retired?) with - | n
    · simpa using hb.nodup
    · obtain ⟨y, rfl, hy⟩ := Option.bind_eq_some_iff.mp hx
      cases y <;> cases hy
      have hnew : n ∉ d.retirements := by
        rw [mem_retirements, ← mem_story rfl]
        exact ht.retires n rfl
      exact List.nodup_append.mpr ⟨hb.nodup, List.pairwise_singleton _ _, fun a ha b hb => by
        rintro rfl
        exact hnew (List.mem_singleton.mp hb ▸ ha)⟩

theorem Reach.balanced (h : d.Reach) : d.Balanced := by
  induction h with
  | start => exact ⟨List.Perm.refl _, List.nodup_nil⟩
  | move t m hr hm ih =>
    obtain ⟨x, ht, hh⟩ := hr.owned.handled hm
    exact ih.turn hr.neat ht hh

end Domain

end EpochQueue.Reclaim
