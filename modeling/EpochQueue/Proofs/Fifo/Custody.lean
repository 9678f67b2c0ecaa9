/-
  EpochQueue.Proofs.Fifo.Custody — who has a value, from the call that passes it in to its end.

  A `Custody` is a world with what its callers saw of values: those that they passed in, those that
  came back for want of memory, those that dequeues and only owners got, and those that were dropped
  with a queue. In between a value is in a link behind the head, or an operation under way has it in
  hand.

  A move passes values on and neither loses nor doubles one (`Did.balances`). So at any time the values
  passed in are, each once, those that are settled, those that the queue holds and those in hand
  (`Custody.Reach.settles`), and no other link carries one: freeing a link drops nothing.
-/

import EpochQueue.Proofs.Fifo.Progress
import EpochQueue.Proofs.Fifo.Safety
import EpochQueue.Proofs.Fifo.Underway
import EpochQueue.Proofs.Fifo.Whereabouts
import Mathlib.Algebra.Order.Group.Multiset

namespace EpochQueue.Fifo

open Reclaim (Domain)

variable {α : Type}

/-! ## What callers see -/

inductive Receipt (α : Type) where
  | passedIn (q : Nat) (v : α)
  /-- There was no memory for a link. -/
  | refused (q : Nat) (v : α)
  | dequeued (q : Nat) (v : α)
  /-- The only owner took it, or his iterator did. -/
  | popped (q : Nat) (v : α)
  /-- It was still there when the queue was torn down. -/
  | dropped (q : Nat) (v : α)

namespace Receipt

/-- The queue that the value was passed in to. -/
def queue : Receipt α → Nat
  | .passedIn q _ | .refused q _ | .dequeued q _ | .popped q _ | .dropped q _ => q

/-- The value that was passed in to `q`. -/
def entrusted? (q : Nat) : Receipt α → Option α
  | .passedIn p v => if p = q then some v else none
  | .refused _ _ | .dequeued _ _ | .popped _ _ | .dropped _ _ => none

/-- The value of `q` that came to its end. -/
def settled? (q : Nat) : Receipt α → Option α
  | .passedIn _ _ => none
  | .refused p v | .dequeued p v | .popped p v | .dropped p v => if p = q then some v else none

end Receipt

def entrusted (rs : List (Receipt α)) (q : Nat) : List α := rs.filterMap (·.entrusted? q)

def settled (rs : List (Receipt α)) (q : Nat) : List α := rs.filterMap (·.settled? q)

theorem entrusted_append (rs rs' : List (Receipt α)) (q : Nat) :
    entrusted (rs ++ rs') q = entrusted rs q ++ entrusted rs' q :=
  List.filterMap_append

theorem settled_append (rs rs' : List (Receipt α)) (q : Nat) : settled (rs ++ rs') q = settled rs q ++ settled rs' q :=
  List.filterMap_append

/-- The value that an operation returns. -/
def Outcome.value? : Outcome α → Option α
  | .dequeued v => v
  | .enqueued | .emptiness _ => none

def Signal.value? : Signal α → Option α
  | .finished r => r.value?
  | _ => none

/-- What callers see of values by a move of `t`. -/
def World.receipts (w : World α) (t : Nat) : Move α → List (Receipt α)
  | .tryEnqueue q v memory => .passedIn q v :: ((w.tryEnqueue t q v memory).1.map (.refused q)).toList
  | .pop q => ((w.pop q).1.map (.popped q)).toList
  | .tearDown q => (w.tearDown q).1.map (.dropped q)
  | .step => ((w.operation t).bind fun o => (w.step t).2.value?.map (.dequeued o.queue)).toList
  | _ => []

structure Custody (α : Type) where
  world : World α := {}
  receipts : List (Receipt α) := []

namespace Custody

def move (c : Custody α) (t : Nat) (m : Move α) : Custody α :=
  ⟨c.world.move t m, c.receipts ++ c.world.receipts t m⟩

inductive Reach : Custody α → Prop
  | start : Reach {}
  | move {c : Custody α} (t : Nat) (m : Move α) : Reach c → c.world.may t m → Reach (c.move t m)

theorem Reach.world {c : Custody α} (h : c.Reach) : c.world.Reach := by
  induction h with
  | start => exact .start
  | move t m _ hm ih => exact .move t m ih hm

end Custody

/-- Every run of the world can be watched like that. -/
theorem World.Reach.custody {w : World α} (h : w.Reach) : ∃ c : Custody α, c.Reach ∧ c.world = w := by
  induction h with
  | start => exact ⟨{}, .start, rfl⟩
  | move t m _ hm ih =>
    obtain ⟨c, hc, rfl⟩ := ih
    exact ⟨c.move t m, .move t m hc hm, rfl⟩

/-! ## Receipts and deeds -/

/-- What the receipts of a move are, by its deed. -/
def World.Records (w : World α) (t : Nat) (rs : List (Receipt α)) : Option (Deed α) → Prop
  | none => ∀ q, entrusted rs q = settled rs q
  | some (.began _ q (.enqueue v)) => rs = [.passedIn q v]
  | some (.ended _ r) => ∃ o, w.operation t = some o ∧ rs = (r.value?.map (.dequeued o.queue)).toList
  | some (.popped q v) => rs = [.popped q v]
  | some (.tornDown q) => rs = (w.store.tearDown q).1.map (.dropped q)
  | some _ => rs = []

/-- By an access alone callers see nothing. -/
theorem World.records_spot {w : World α} {t : Nat} {rs : List (Receipt α)} {s : Store α} {o : Operation α} {spot : Spot}
    {i : Nat} {d : Deed α} (hd : spot.deed? s o i = some d) : w.Records t rs (some d) ↔ rs = [] := by
  obtain ⟨hauthor, hended, hbegan⟩ := Spot.author?_deed? hd
  cases d with
  | began i q r => exact absurd rfl (hbegan i q r)
  | ended i r => exact absurd rfl (hended i r)
  | popped => cases hauthor
  | tornDown => cases hauthor
  | _ => exact Iff.rfl

theorem World.records_step {w : World α} {t : Nat} {o : Operation α} (ho : w.operation t = some o) (mine : Nat) :
    w.Records t (w.receipts t .step) (o.deed? w.store mine) := by
  have hrs : w.receipts t .step = ((w.stepOperation t o).2.value?.map (.dequeued o.queue)).toList := by
    dsimp only [receipts, step]
    rw [ho]
    rfl
  rw [hrs]
  unfold World.stepOperation
  unfold Operation.deed?
  cases hp : o.point with
  | access spot =>
    dsimp only
    cases hd : spot.deed? w.store o mine with
    | none => exact fun q => rfl
    | some d => exact (World.records_spot hd).mpr rfl
  | take head next => exact fun q => rfl
  | leave r => exact ⟨o, ho, rfl⟩

theorem World.records (w : World α) (t fresh mine : Nat) (m : Move α) :
    w.Records t (w.receipts t m) (w.deed? t fresh mine m) := by
  cases m with
  | tryEnqueue q v memory =>
    cases memory with
    | true => rfl
    | false =>
      intro p
      by_cases e : q = p <;>
        simp [World.receipts, World.tryEnqueue, entrusted, settled, Receipt.entrusted?, Receipt.settled?, e]
  | pop q =>
    dsimp only [World.deed?, World.receipts, World.pop]
    cases (w.store.pop q).1 with
    | none => exact fun _ => rfl
    | some v => rfl
  | step =>
    dsimp only [World.deed?]
    cases ho : w.operation t with
    | none =>
      unfold World.receipts
      rw [ho]
      exact fun _ => rfl
    | some o => exact World.records_step ho mine
  | newQueue limits => rfl
  | dequeue q => rfl
  | isEmpty q => rfl
  | tearDown q => rfl
  | _ => exact fun _ => rfl

/-! ## The balance of one move -/

/-- From `w` to `w'` values go from one place to another, by what callers see in `rs`. -/
def Balances (w w' : World α) (rs : List (Receipt α)) (q : Nat) : Prop :=
  (entrusted rs q ++ w.store.values q ++ w.carried q).Perm (settled rs q ++ w'.store.values q ++ w'.carried q)

section

variable {w w' : World α} {lay lay' : Nat → Layout} {t q : Nat} {m : Move α} {rs : List (Receipt α)}

/-- The balance without what the other operations have in hand. -/
theorem Balances.of_perm {a b others : List α} (ha : (w.carried q).Perm (a ++ others))
    (hb : (w'.carried q).Perm (b ++ others))
    (h : (entrusted rs q ++ w.store.values q ++ a).Perm (settled rs q ++ w'.store.values q ++ b)) :
    Balances w w' rs q := by
  have h := h.append_right others
  rw [List.append_assoc _ a, List.append_assoc _ b] at h
  exact (ha.append_left _).trans (h.trans (hb.append_left _).symm)

/-- Callers see nothing, or a value that comes back at once. -/
theorem Balances.calm {a b others : List α} (hr : entrusted rs q = settled rs q) (ha : (w.carried q).Perm (a ++ others))
    (hb : (w'.carried q).Perm (b ++ others)) (h : (w.store.values q ++ a).Perm (w'.store.values q ++ b)) :
    Balances w w' rs q := by
  refine .of_perm ha hb ?_
  rw [hr, List.append_assoc, List.append_assoc]
  exact h.append_left _

theorem Deed.Alters.of_not_concerns {d : Deed α} {l l' : List α} (h : d.Alters q l l') (hc : d.concerns q = false) :
    l' = l := by
  cases h with
  | rest => rfl
  | _ => simp [Deed.concerns] at hc

/-! ## Operations that begin, go on and end -/

/-- An operation begins with the value that was passed in, or with none. -/
theorem Starts.balances {o : Operation α} {r : Request α} (hst : Starts w.store w'.store o r) {i : Nat}
    (hrs : w.Records t rs (some (.began i o.queue r))) (hv : w'.store.values q = w.store.values q) {others : List α}
    (ha : (w.carried q).Perm others) (hb : (w'.carried q).Perm ((World.given? w'.store q o).toList ++ others)) :
    Balances w w' rs q := by
  refine .of_perm (a := []) ha hb ?_
  rw [hv]
  generalize w'.store = s at hst
  cases hst with
  | enqueue p v b =>
    rw [show rs = [.passedIn p v] from hrs]
    by_cases e : p = q
    · rw [World.given?_of_eq e]
      simpa [entrusted, settled, Receipt.entrusted?, Receipt.settled?, Point.stage, Stage.inHand?, Store.link_alloc, e]
        using (List.perm_append_singleton v (w.store.values q)).symm
    · rw [World.given?_of_ne e]
      simp [entrusted, settled, Receipt.entrusted?, Receipt.settled?, e]
  | dequeue p b | isEmpty p b =>
    rw [show rs = [] from hrs]
    by_cases e : p = q
    · rw [World.given?_of_eq e]; exact List.Perm.refl _
    · rw [World.given?_of_ne e]; exact List.Perm.refl _

theorem World.Records.of_spot {s : Store α} {o : Operation α} {spot : Spot} {i : Nat}
    (h : w.Records t rs (spot.deed? s o i)) : entrusted rs q = settled rs q := by
  cases hd : spot.deed? s o i with
  | none => rw [hd] at h; exact h q
  | some d =>
    rw [hd] at h
    rw [(World.records_spot hd).mp h]
    rfl

/-- An enqueue gives its value to the queue, a dequeue gets one from there. -/
theorem Served.balances {o : Operation α} {spot : Spot} {L L' : Layout} (hp : o.point = .access spot)
    (hv : Served w.store o spot L L')
    (hf : Served.Idle w.store o spot L L' ∨ Served.Appends w.store o spot L L' ∨ Served.Removes w.store o spot L L')
    (hs : w'.store = (w.store.access o spot).store) {i : Nat} (hrs : w.Records t rs (spot.deed? w.store o i))
    (hvalues : Altered q (w.store.values q) (w'.store.values q) (spot.deed? w.store o i)) {others : List α}
    (ha : (w.carried q).Perm ((World.given? w.store q o).toList ++ others))
    (hb : (w'.carried q).Perm ((World.given? w'.store q (w.store.access o spot).op).toList ++ others)) :
    Balances w w' rs q := by
  refine .calm hrs.of_spot ha hb ?_
  by_cases e : o.queue = q
  case neg =>
    rw [World.given?_of_ne e, World.given?_of_ne (hv.queue ▸ e)]
    rcases hvalues.inv with h | ⟨d, hd, hc⟩
    · rw [h]
    · rw [Spot.concerns_deed? hd (beq_eq_false_iff_ne.mpr e)] at hc
      cases hc
  subst e
  rw [World.given?_of_eq rfl, World.given?_of_eq hv.queue, hp, hs]
  rcases hf with hi | ⟨node, tail, v, rfl, -, hst, -, hval, hvals⟩ | ⟨head, next, v, rfl, -, hpt, -, -, -, hval, hvals⟩
  · rw [hi.values]
    refine List.Perm.of_eq (congrArg (_ ++ Option.toList ·) ?_)
    rcases hi.stage with h | ⟨h, h'⟩ | ⟨⟨head, tail, rfl⟩, h, -⟩
    · rw [h]
      exact (Stage.inHand?_congr (fun n => (hv.kept n).1) _).symm
    · rw [h, h']; rfl
    · rw [h]; rfl
  · rw [hst, hvals]
    simp [Point.stage, Stage.inHand?, hval]
  · rw [hpt, hvals]
    simpa [Point.stage, Stage.inHand?, (hv.kept next).1, hval] using (List.perm_append_singleton v _).symm

/-- An operation that ends returns what it has in hand. -/
theorem World.Records.balances_ended {o : Operation α} {r : Outcome α} (hop : w.operation t = some o)
    (hp : o.point = .leave r) {i : Nat} (hrs : w.Records t rs (some (.ended i r)))
    (hv : w'.store.values q = w.store.values q) (ha : (w.carried q).Perm ((World.given? w.store q o).toList ++ w'.carried q)) :
    Balances w w' rs q := by
  obtain ⟨o', ho', rfl⟩ := hrs
  cases hop.symm.trans ho'
  refine .of_perm (b := []) ha (List.Perm.refl _) ?_
  have hhand : o.point.stage.inHand? w.store = r.value? := by
    rw [hp]
    rcases r with _ | ⟨_ | v⟩ | b <;> rfl
  rw [hv]
  by_cases e : o.queue = q
  · rw [World.given?_of_eq e, hhand]
    cases r.value? with
    | none => exact List.Perm.refl _
    | some v => simp [entrusted, settled, Receipt.entrusted?, Receipt.settled?, e]
  · rw [World.given?_of_ne e]
    cases r.value? with
    | none => exact List.Perm.refl _
    | some v => simp [entrusted, settled, Receipt.entrusted?, Receipt.settled?, e]

namespace Did

/-! ## Every move -/

/-- An operation that goes on keeps what it has in hand. -/
theorem hand_kept (hd : Did w lay t m w' lay') (hw : OpsFit w lay) {u : Nat} {p : Operation α × Bool}
    (hp : p ∈ w.stack u) (hp' : p ∈ w'.stack u) :
    p.1.point.stage.inHand? w'.store = p.1.point.stage.inHand? w.store := by
  have hkept := fun n => hd.kept hw hp hp' (n := n)
  unfold Point.mark? at hkept
  cases hst : p.1.point.stage with
  | waiting n => rw [hst] at hkept; simp only [Stage.inHand?, hkept n rfl]
  | taking n => rw [hst] at hkept; simp only [Stage.inHand?, hkept n rfl]
  | _ => rfl

theorem inHand_kept (hd : Did w lay t m w' lay') (hw : OpsFit w lay) {u : Nat} {p : Operation α × Bool}
    (hp : p ∈ w.stack u) (hp' : p ∈ w'.stack u) : World.given? w'.store q p.1 = World.given? w.store q p.1 := by
  unfold World.given?
  rw [hd.hand_kept hw hp hp']

/-- What is in hand changes by what the operations on top of the stack of `t` have in hand. -/
theorem carried (hd : Did w lay t m w' lay') (hw : OpsFit w lay) (hk : ∀ u, u ≠ t → w'.stack u = w.stack u)
    (old new rest : List (Operation α × Bool)) (ho : w.stack t = old ++ rest) (hn : w'.stack t = new ++ rest) (q : Nat) :
    ∃ others, (w.carried q).Perm (old.filterMap (fun p => World.given? w.store q p.1) ++ others) ∧
      (w'.carried q).Perm (new.filterMap (fun p => World.given? w'.store q p.1) ++ others) := by
  have hrest : rest.filterMap (fun p => World.given? w'.store q p.1) =
      rest.filterMap fun p => World.given? w.store q p.1 := List.filterMap_congr fun p hp =>
    hd.inHand_kept hw (u := t) (ho ▸ List.mem_append_right _ hp) (hn ▸ List.mem_append_right _ hp)
  have hothers : ∀ u, u ≠ t → (w'.operations u).filterMap (World.given? w'.store q) =
      (w.operations u).filterMap (World.given? w.store q) := fun u hu => by
    rw [World.operations_eq, World.operations_eq, hk u hu, List.filterMap_map, List.filterMap_map]
    exact List.filterMap_congr fun p hp => hd.inHand_kept hw (u := u) hp (hk u hu ▸ hp)
  obtain ⟨others, hold, hnew⟩ := World.exists_rest hothers
  rw [World.operations_eq, List.filterMap_map, ho, List.filterMap_append, List.append_assoc] at hold
  rw [World.operations_eq, List.filterMap_map, hn, List.filterMap_append, List.append_assoc] at hnew
  rw [World.carried_eq, World.carried_eq]
  exact ⟨_, hold, hrest ▸ hnew⟩

/-- The one step: what a caller passes in is settled, or the queue gets it, or an operation has it. -/
theorem balances (hd : Did w lay t m w' lay') (hw : OpsFit w lay) (hk : ∀ u, u ≠ t → w'.stack u = w.stack u)
    (hq : q < w.store.nextQueue) : Balances w w' (w.receipts t m) q := by
  have hvalues := hd.alters hw hq 0 0
  have hrec := w.records t 0 0 m
  have hcarried := fun old new rest ho hn => hd.carried hw hk old new rest ho hn q
  -- the stack stays as it is, or the operation on top of it goes on
  have hsame : w'.stack t = w.stack t → (w'.carried q).Perm (w.carried q) := fun h => by
    obtain ⟨others, hold, hnew⟩ := hcarried [] [] _ rfl h
    exact hnew.trans hold.symm
  have hturn : ∀ {o o' b b' rest}, w.stack t = (o, b) :: rest → w'.stack t = (o', b') :: rest →
      ∃ others, (w.carried q).Perm ((World.given? w.store q o).toList ++ others) ∧
        (w'.carried q).Perm ((World.given? w'.store q o').toList ++ others) := fun {o o' b b' rest} ho hn => by
    obtain ⟨others, hold, hnew⟩ := hcarried [(o, b)] [(o', b')] rest ho hn
    rw [filterMap_cons_toList, List.filterMap_nil, List.append_nil] at hold hnew
    exact ⟨others, hold, hnew⟩
  have hcalm : entrusted (w.receipts t m) q = settled (w.receipts t m) q → w'.store.values q = w.store.values q →
      (w'.carried q).Perm (w.carried q) → Balances w w' (w.receipts t m) q := fun hr hv hc =>
    .calm (a := []) (b := []) hr hc.symm (List.Perm.refl _) (by rw [hv])
  cases hd with
  | called hdeed _ _ hk' =>
    rw [hdeed] at hvalues hrec
    exact hcalm (hrec q) hvalues (hsame hk')
  | freed _ _ hdeed _ _ hk' =>
    rw [hdeed] at hvalues hrec
    exact hcalm (hrec q) hvalues (hsame hk')
  | made _ hdeed _ _ hk' =>
    rw [hdeed] at hvalues hrec
    exact hcalm (hrec ▸ rfl) (hvalues.of_not_concerns rfl) (hsame hk')
  | began o r hst hopen hdeed _ hk' =>
    rw [hdeed] at hvalues hrec
    obtain ⟨others, hold, hnew⟩ := hcarried [] [(o, true)] _ rfl hk'
    rw [filterMap_cons_toList, List.filterMap_nil, List.append_nil] at hnew
    exact hst.balances hrec (hvalues.of_not_concerns rfl) hold hnew
  | accessed o spot L' rest hp ho hv hf hdeed _ hs hk' =>
    rw [hdeed] at hvalues hrec
    obtain ⟨others, hold, hnew⟩ := hturn ho hk'
    exact hv.balances hp hf hs hrec hvalues hold hnew
  | took o head next rest hp _ ho hdeed _ hs hk' =>
    rw [hdeed] at hvalues hrec
    obtain ⟨others, hold, hnew⟩ := hturn ho hk'
    refine hcalm (hrec q) hvalues (hnew.trans (List.Perm.trans (List.Perm.of_eq ?_) hold.symm))
    congr 2
    by_cases e : o.queue = q
    · rw [World.given?_of_eq e, World.given?_of_eq (show (o.leave _).queue = q from e), hp]
      cases hv : (w.store.link next).value <;> simp [Operation.leave, Point.stage, Stage.inHand?, hv]
    · rw [World.given?_of_ne e, World.given?_of_ne (show (o.leave _).queue ≠ q from e)]
  | resumed o g rest ho hdeed _ _ _ hs hk' =>
    rw [hdeed] at hvalues hrec
    obtain ⟨others, hold, hnew⟩ := hturn ho hk'
    exact hcalm (hrec q) hvalues (hnew.trans (hs ▸ hold.symm))
  | left o r rest hp hop ho hdeed _ hs hk' =>
    rw [hdeed] at hvalues hrec
    obtain ⟨others, hold, hnew⟩ := hcarried [(o, false)] [] rest ho hk'
    rw [filterMap_cons_toList, List.filterMap_nil, List.append_nil] at hold
    exact hrec.balances_ended hop hp (hvalues.of_not_concerns rfl) (hold.trans (hnew.symm.append_left _))
  | popped p n v L' _ hopen _ _ _ _ _ _ hvals hdeed _ hs hk' =>
    rw [hdeed] at hvalues hrec
    rw [show w.receipts t m = [.popped p v] from hrec]
    refine .of_perm (a := []) (b := []) (hsame hk').symm (List.Perm.refl _) ?_
    by_cases e : p = q
    · subst e
      rw [hs, hvals]
      simp [entrusted, settled, Receipt.entrusted?, Receipt.settled?]
    · rw [hvalues.of_not_concerns (beq_eq_false_iff_ne.mpr e)]
      simp [entrusted, settled, Receipt.entrusted?, Receipt.settled?, e]
  | tornDown p L' _ hopen hl' _ _ _ hnil _ hdeed _ hs hk' =>
    rw [hdeed] at hvalues hrec
    obtain ⟨-, -, -, -, -, -, hgot, -⟩ := (hw.laid p (Store.isOpen_lt hopen)).tearDown
    rw [show w.receipts t m = (w.store.tearDown p).1.map (.dropped p) from hrec, hgot]
    refine .of_perm (a := []) (b := []) (hsame hk').symm (List.Perm.refl _) ?_
    by_cases e : p = q
    · subst e
      rw [hs, hnil]
      simp [entrusted, settled, Receipt.entrusted?, Receipt.settled?, List.filterMap_map]
    · rw [hvalues.of_not_concerns (beq_eq_false_iff_ne.mpr e)]
      simp [entrusted, settled, Receipt.entrusted?, Receipt.settled?, List.filterMap_map, e]

end Did

/-! ## Every run -/

/-- Callers see values only of queues that were made. -/
theorem World.queue_of_receipt (hw : OpsFit w lay) (hm : w.may t m) {x : Receipt α} (hx : x ∈ w.receipts t m) :
    x.queue < w.store.nextQueue := by
  cases m with
  | tryEnqueue q v memory =>
    have hlt := Store.isOpen_lt hm.2
    rcases List.mem_cons.mp hx with rfl | hx
    · exact hlt
    · obtain ⟨v, -, rfl⟩ := Option.map_eq_some_iff.mp (Option.mem_toList.mp hx)
      exact hlt
  | pop q =>
    obtain ⟨v, -, rfl⟩ := Option.map_eq_some_iff.mp (Option.mem_toList.mp hx)
    exact Store.isOpen_lt hm.2.1
  | tearDown q =>
    obtain ⟨v, -, rfl⟩ := List.mem_map.mp hx
    exact Store.isOpen_lt hm.2.1
  | step =>
    obtain ⟨o, ho, hx⟩ := Option.bind_eq_some_iff.mp (Option.mem_toList.mp hx)
    obtain ⟨v, -, rfl⟩ := Option.map_eq_some_iff.mp hx
    exact (hw.sits t (o, false) (World.stack_active ho ▸ List.mem_cons_self)).queue
  | _ => cases hx

theorem entrusted_eq_nil (h : ∀ x ∈ rs, x.queue ≠ q) : entrusted rs q = [] :=
  List.filterMap_eq_nil_iff.mpr fun x hx => by
    cases x with
    | passedIn p v => exact if_neg (h _ hx)
    | _ => rfl

theorem settled_eq_nil (h : ∀ x ∈ rs, x.queue ≠ q) : settled rs q = [] :=
  List.filterMap_eq_nil_iff.mpr fun x hx => by
    cases x with
    | passedIn p v => rfl
    | _ => exact if_neg (h _ hx)

end

namespace Custody

variable {c : Custody α}

/-- What the receipts say of one queue. -/
structure Balanced (c : Custody α) (q : Nat) : Prop where
  /-- Every value is accounted for once. -/
  perm : (entrusted c.receipts q).Perm (settled c.receipts q ++ c.world.store.values q ++ c.world.carried q)
  quiet : c.world.isQuiet q → c.world.carried q = []
  closed : c.world.store.isOpen q = false → c.world.store.values q = [] ∧ c.world.carried q = []

/-- What a run keeps. -/
structure Audited (c : Custody α) (lay : Nat → Layout) : Prop extends LinksPlaced c.world lay where
  perm : ∀ q, q < c.world.store.nextQueue →
    (entrusted c.receipts q).Perm (settled c.receipts q ++ c.world.store.values q ++ c.world.carried q)
  unmade : ∀ x ∈ c.receipts, x.queue < c.world.store.nextQueue

namespace Audited

variable {lay lay' : Nat → Layout} {t : Nat} {m : Move α}

theorem perm' (ha : c.Audited lay) (hm : c.world.may t m) (hd : Did c.world lay t m (c.world.move t m) lay') {q : Nat}
    (hq : q < (c.world.move t m).store.nextQueue) : (entrusted (c.move t m).receipts q).Perm
      (settled (c.move t m).receipts q ++ (c.world.move t m).store.values q ++ (c.world.move t m).carried q) := by
  have hk : ∀ u, u ≠ t → (c.world.move t m).stack u = c.world.stack u := fun u e => World.stack_of_ne e m
  rcases Nat.lt_or_ge q c.world.store.nextQueue with hold | hnew
  · have hbefore := Multiset.coe_eq_coe.mpr (ha.perm q hold)
    have hstep := Multiset.coe_eq_coe.mpr (hd.balances ha.opsFit hk hold)
    rw [show (c.move t m).receipts = c.receipts ++ c.world.receipts t m from rfl, entrusted_append, settled_append]
    rw [← Multiset.coe_eq_coe]
    simp only [← Multiset.coe_add] at hbefore hstep ⊢
    have hregroup : ∀ a b d e : Multiset α, a + b + d + e = a + (e + b + d) := fun a b d e => by ac_rfl
    rw [hbefore, hregroup, hstep]
    ac_rfl
  · -- a queue that was just made has got nothing yet
    have hother : ∀ x ∈ (c.move t m).receipts, x.queue ≠ q := fun x hx e => by
      rcases List.mem_append.mp hx with hx | hx
      · exact absurd (e ▸ ha.unmade x hx) (Nat.not_lt_of_le hnew)
      · exact absurd (e ▸ World.queue_of_receipt ha.opsFit hm hx) (Nat.not_lt_of_le hnew)
    have hvalues : (c.world.move t m).store.values q = [] := by
      have hl := (hd.opsFit ha.opsFit hk).laid q hq
      rw [(hd.queue_new hq hnew).1] at hl
      exact hl.values_nil (Nat.le_refl 1)
    have hcarried : (c.world.move t m).carried q = [] := World.carried_of_isQuiet fun u o ho e => by
      rw [World.operations_eq] at ho
      obtain ⟨p, hp, rfl⟩ := List.mem_map.mp ho
      exact absurd (e ▸ hd.queue_lt ha.opsFit hk hp) (Nat.not_lt_of_le hnew)
    rw [entrusted_eq_nil hother, settled_eq_nil hother, hvalues, hcarried]
    exact List.Perm.refl _

theorem step (ha : c.Audited lay) (hm : c.world.may t m) (hd : Did c.world lay t m (c.world.move t m) lay') :
    (c.move t m).Audited lay' := by
  refine ⟨ha.toLinksPlaced.step hm hd, fun q hq => ha.perm' hm hd hq, fun x hx => Nat.lt_of_lt_of_le ?_ hd.nextQueue_le⟩
  rcases List.mem_append.mp hx with hx | hx
  · exact ha.unmade x hx
  · exact World.queue_of_receipt ha.opsFit hm hx

end Audited

theorem Reach.audited (h : c.Reach) : ∃ lay, c.Audited lay := by
  induction h with
  | start => exact ⟨_, .empty, nofun, nofun⟩
  | move t m _ hm ih =>
    obtain ⟨lay, ha⟩ := ih
    obtain ⟨lay', hd⟩ := ha.opsFit.did hm
    exact ⟨lay', ha.step hm hd⟩

end Custody

/-! ## Links without a value -/

/-- No value is in the link, but for one that a dequeue is about to take. -/
def World.Spent (w : World α) (n : Nat) : Prop :=
  (w.store.link n).value = none ∨ ∃ t, ∃ o ∈ w.operations t, o.point.stage = .taking n

theorem LinksPlaced.spent_of_le_head {w : World α} {lay : Nat → Layout} (hr : LinksPlaced w lay) {q i n : Nat}
    (hq : q < w.store.nextQueue) (hi : (lay q).nodes[i]? = some n) (hle : i ≤ (lay q).head) : w.Spent n := by
  refine (hr.spent q hq i n hi hle).imp_right fun ⟨t, p, hp, hst⟩ => ⟨t, p.1, ?_, hst⟩
  rw [World.operations_eq]
  exact List.mem_map_of_mem hp

/-- What is freed stands at or before the head. -/
theorem LinksPlaced.spent_of_freed {w : World α} {lay : Nat → Layout} (hr : LinksPlaced w lay) {n : Nat}
    (hn : n < w.store.nextLink) (hf : (w.store.link n).freed = true) : w.Spent n := by
  obtain ⟨hq, hm | ⟨t, p, hp, hst⟩⟩ := hr.home n hn
  · obtain ⟨i, hi⟩ := Laid.exists_place hm
    refine hr.spent_of_le_head hq hi (Nat.le_of_not_lt fun hlt => ?_)
    cases hopen : w.store.isOpen (w.store.link n).home with
    | true =>
      rw [hr.live _ hopen i n (Nat.le_of_lt hlt) hi] at hf
      cases hf
    | false =>
      have hlen := hr.closed _ hq hopen
      have := (lay (w.store.link n).home).lt_of_getElem? hi
      omega
  · rw [(hr.minds t p hp).brought n hst] at hf
    cases hf

/-- A dequeue that is about to take a value keeps the link from being freed. -/
theorem World.ReachAlone.unfreed_of_taking {w : World α} (h : w.ReachAlone) (hw : ¬ w.domain.wrapped) {t : Nat}
    {o : Operation α} (ho : o ∈ w.operations t) {n : Nat} (hn : o.point.stage = .taking n) :
    (w.store.link n).freed = false := by
  obtain ⟨lay, hg, hs⟩ := h.sheltered
  rw [World.operations_eq] at ho
  obtain ⟨p, hp, rfl⟩ := List.mem_map.mp ho
  obtain ⟨head, hpt⟩ := Point.take_of_taking hn
  cases hguard : p.1.guard with
  | none =>
    have hfit := (hg.minds t p hp).start hguard ⟨[], 0, 0⟩ 0
    rw [hpt] at hfit
    obtain ⟨i, -, hi, -⟩ := hfit
    exact absurd hi (Nat.not_lt_zero i)
  | some g =>
    obtain ⟨b, hfit, hshelter⟩ := hs hw t p hp g hguard
    rw [hpt] at hfit
    obtain ⟨i, hi, -, -, hnext⟩ := hfit
    exact hshelter.unfreed (i + 1) n (Nat.le_succ_of_le hi) hnext

/-- Every value passed in is accounted for, at any time of any run. One that is refused comes back and
    nothing else has happened, and a queue that is torn down drops what it holds. A link that is freed,
    retired or a sentinel carries no value, but for one that a dequeue is about to take, and such a link
    is not freed as long as calls into the domain happen one at a time. -/
theorem Custody.Reach.settles {c : Custody α} (h : c.Reach) :
    (∀ q, q < c.world.store.nextQueue → c.Balanced q) ∧
    (∀ t q v, c.world.tryEnqueue t q v false = (some v, c.world)) ∧
    (∀ t q, c.world.may t (.tearDown q) → (c.world.tearDown q).1 = c.world.store.values q) ∧
    (∀ n, n < c.world.store.nextLink → (c.world.store.link n).freed = true ∨ c.world.domain.wasRetired (.link n) ∨
      (∃ q, q < c.world.store.nextQueue ∧ n = (c.world.store.queue q).head) → c.world.Spent n) ∧
    (c.world.ReachAlone → ¬ c.world.domain.wrapped → ∀ n, n < c.world.store.nextLink →
      (c.world.store.link n).freed = true → (c.world.store.link n).value = none) := by
  obtain ⟨lay, ha⟩ := h.audited
  refine ⟨fun q hq => ⟨ha.perm q hq, World.carried_of_isQuiet, fun hclosed => ⟨?_, ?_⟩⟩, fun _ _ _ => rfl,
    fun t q hm => ?_, fun n hn hempty => ?_, fun halone hw n hn hf => ?_⟩
  · exact (ha.opsFit.laid q hq).values_nil (ha.closed q hq hclosed)
  · exact World.carried_of_isQuiet (ha.isQuiet_of_closed hclosed)
  · obtain ⟨-, -, -, -, -, -, hgot, -⟩ := (ha.opsFit.laid q (Store.isOpen_lt hm.2.1)).tearDown
    exact hgot
  · rcases hempty with hf | hret | ⟨q, hq, rfl⟩
    · exact ha.spent_of_freed hn hf
    · obtain ⟨q, i, hq, hi, hlt⟩ := ha.retired n ((Domain.mem_story rfl).mpr hret)
      exact ha.spent_of_le_head hq hi (Nat.le_of_lt hlt)
    · exact ha.spent_of_le_head hq (ha.opsFit.laid q hq).head (Nat.le_refl _)
  · refine (ha.spent_of_freed hn hf).resolve_right fun ⟨t, o, ho, hst⟩ => ?_
    rw [halone.unfreed_of_taking hw ho hst] at hf
    cases hf

def Custody.playAlone (c : Custody α) : List (Nat × Move α) → Option (Custody α)
  | [] => some c
  | (t, m) :: ms => if c.world.inTurn t m ∧ c.world.may t m then (c.move t m).playAlone ms else none

theorem Custody.Reach.of_playAlone {ms : List (Nat × Move α)} : ∀ {c c' : Custody α}, c.Reach → c.world.ReachAlone →
    c.playAlone ms = some c' → c'.Reach ∧ c'.world.ReachAlone := by
  induction ms with
  | nil => intro c c' h ha e; cases e; exact ⟨h, ha⟩
  | cons tm ms ih =>
    intro c c' h ha e
    rw [playAlone] at e
    split at e
    · rename_i hm
      exact ih (h.move tm.1 tm.2 hm.2) (ha.move tm.1 tm.2 hm.1 hm.2) e
    · cases e

/-- Of the first queue a value is dequeued, one is refused, one is popped and two are dropped with the
    queue. Of the second one value is about to be linked and one about to be taken. -/
def Custody.settlingRun : List (Nat × Move Nat) :=
  [(0, .newQueue .standard), (0, .newQueue .standard)] ++
    [7, 8, 9, 10].flatMap (fun v => (0, .tryEnqueue 0 v true) :: List.replicate 8 (0, .step)) ++
    [(0, .tryEnqueue 0 11 false), (0, .dequeue 0)] ++ List.replicate 10 (0, .step) ++
    [(0, .pop 0), (0, .tearDown 0), (0, .tryEnqueue 1 20 true)] ++ List.replicate 8 (0, .step) ++
    [(0, .tryEnqueue 1 21 true)] ++ List.replicate 3 (0, .step) ++ [(1, .dequeue 1)] ++ List.replicate 7 (1, .step)

theorem Custody.settlingRun_plays : (({} : Custody Nat).playAlone Custody.settlingRun).isSome = true := by decide +kernel

def Custody.settlingEnd : Custody Nat := (({} : Custody Nat).playAlone Custody.settlingRun).get Custody.settlingRun_plays

theorem Custody.settlingEnd_reached : Custody.settlingEnd.Reach ∧ Custody.settlingEnd.world.ReachAlone :=
  Custody.Reach.of_playAlone .start .start (Option.some_get Custody.settlingRun_plays).symm

theorem Custody.settlingEnd_settles : entrusted Custody.settlingEnd.receipts 0 = [7, 8, 9, 10, 11] ∧
    settled Custody.settlingEnd.receipts 0 = [11, 7, 8, 9, 10] ∧ Custody.settlingEnd.Balanced 0 ∧
    Custody.settlingEnd.world.carried 1 = [21, 20] ∧ Custody.settlingEnd.Balanced 1 ∧
    Custody.settlingEnd.world.Spent 6 ∧ (Custody.settlingEnd.world.store.link 5).value = none := by
  obtain ⟨hreach, halone⟩ := Custody.settlingEnd_reached
  have hw : ¬ Custody.settlingEnd.world.domain.wrapped :=
    Domain.Reach.not_wrapped_of_size halone.domain.reach (by decide +kernel)
  obtain ⟨hbalanced, -, -, hspent, hnone⟩ := Custody.Reach.settles hreach
  exact ⟨by decide +kernel, by decide +kernel, hbalanced 0 (by decide +kernel), by decide +kernel,
    hbalanced 1 (by decide +kernel),
    hspent 6 (by decide +kernel) (Or.inr (Or.inr ⟨1, by decide +kernel, by decide +kernel⟩)),
    hnone halone hw 5 (by decide +kernel) (by decide +kernel)⟩

end EpochQueue.Fifo
