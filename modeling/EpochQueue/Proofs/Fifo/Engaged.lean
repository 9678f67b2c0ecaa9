/-
  EpochQueue.Proofs.Fifo.Engaged — threads that work on one operation at a time.

  Such a thread is at a step of its operation, or waits for a call that the operation needs
  (`World.Engaged`), and between its operations it has nothing under way and holds no guard
  (`World.Idle`). `Engaged.worked` says what one step of it comes to: the operation gets on as
  `Standing.Turns` says, with fewer steps to take or fewer links to destroy, or it is over.

  The steps that it has to take do not become more by what others do, as long as the queue holds what
  it held (`Reach.load_calm`): a tail that lags may catch up, and that costs nobody a step
  (`Spot.left_eases`).
-/

import EpochQueue.Proofs.Fifo.Custody
import EpochQueue.Proofs.Fifo.LockFreedom
import EpochQueue.Proofs.Fifo.Undisturbed

namespace EpochQueue.Fifo

open Reclaim (Call Domain Notice)

variable {α : Type}

/-! ## What others do -/

namespace Store

variable (s : Store α) (q : Nat)

theorem lags_iff : s.lags q = true ↔ s.lag q = 1 := by
  unfold lag
  cases s.lags q <;> simp

theorem enqueueLeft_eq : s.enqueueLeft q = 5 + 4 * s.lag q := by
  unfold enqueueLeft lag
  cases s.lags q <;> rfl

theorem dequeueLeft_eq : s.dequeueLeft q = 5 + 5 * s.lag q := by
  unfold dequeueLeft lag
  cases s.lags q <;> rfl

end Store

/-- Nobody has more accesses to make when a tail catches up. -/
theorem Spot.left_eases {s s' : Store α} {q b : Nat} {L : Layout} {spot : Spot} (h : s.Eases s' q L)
    (hf : spot.Fits L b) : spot.left s' q ≤ spot.left s q := by
  have hlag := s.lag_le q
  rcases spot with ⟨node, place⟩ | place | place
  · cases place with
    | link tail =>
      obtain ⟨i, -, hi⟩ := hf
      have htail := h.tail
      simp only [left, EnqueueAt.left, h.next tail (Laid.mem hi), Store.enqueueLeft_eq]
      split <;> omega
    | _ =>
      simp only [left, EnqueueAt.left, Store.enqueueLeft_eq, Store.lags_iff]
      rcases h.tail with ⟨htail, hsame⟩ | ⟨hold, hnew⟩
      · simp only [htail, hsame, Nat.le_refl]
      · (repeat' split) <;> omega
  · cases place <;> simp only [left, DequeueAt.left, h.head, Store.dequeueLeft_eq] <;>
      rcases h.tail with ⟨htail, hsame⟩ | ⟨hold, hnew⟩
    all_goals first | simp only [htail, hsame, Nat.le_refl] | (repeat' split) <;> omega
  · cases place <;> exact Nat.le_refl _

namespace World

variable {w w' : World α} {lay : Nat → Layout} {t u q : Nat} {m : Move α}

/-- A thread does not get more to do by what others do, unless the queue that it works on changes. -/
theorem Reach.load_calm (h : w.Reach) (hm : w.may u m) (hu : t ≠ u)
    (hvals : ∀ o, w.operation t = some o → (w.move u m).store.values o.queue = w.store.values o.queue) :
    (w.move u m).load t ≤ w.load t := by
  obtain ⟨lay, hk⟩ := h.kept
  obtain ⟨lay', hd⟩ := hk.opsFit.did hm
  obtain ⟨hop, hth⟩ := move_of_ne (w := w) hu m
  unfold load opLoad
  rw [hop, hth]
  refine Nat.add_le_add_right ?_ _
  cases ho : w.operation t with
  | none => exact Nat.le_refl _
  | some o =>
    have hmem : (o, false) ∈ w.stack t := stack_active ho ▸ List.mem_cons_self
    have hsits := hk.opsFit.sits t _ hmem
    obtain ⟨hnodes, hhead⟩ := hd.calm hk.opsFit hmem (hvals o ho)
    have hw' := hd.opsFit hk.opsFit fun v e => stack_of_ne e m
    have heases := (hk.opsFit.laid _ hsits.queue).eases
      (hw'.laid _ (Nat.lt_of_lt_of_le hsits.queue hd.nextQueue_le)) (hd.grows hsits.queue)
      (hk.taut _ hsits.queue) hnodes hhead
    have hfits := hsits.fits
    simp only [Option.map_some, Option.getD_some]
    unfold Operation.left
    cases hpt : o.point with
    | access spot =>
      rw [show (o, false).1.point = _ from hpt] at hfits
      exact Nat.add_le_add_right (Spot.left_eases heases hfits) _
    | _ => exact Nat.le_refl _

/-- A move that means nothing to a queue leaves what it holds. -/
theorem Reach.values_kept (h : w.Reach) (hm : w.may t m) (hq : q < w.store.nextQueue)
    (hdeed : ∀ d, w.deed? t 0 0 m = some d → d.concerns q = false) :
    (w.move t m).store.values q = w.store.values q := by
  obtain ⟨lay, hk⟩ := h.kept
  obtain ⟨lay', hd⟩ := hk.opsFit.did hm
  refine (hd.alters hk.opsFit hq 0 0).inv.resolve_right fun ⟨d, hd, hc⟩ => ?_
  rw [hdeed d hd] at hc
  cases hc

/-! ## Values in hand -/

/-- The values that the operations of `t` have in hand. -/
def inHand (w : World α) (t : Nat) : List α := (w.operations t).filterMap fun o => o.point.stage.inHand? w.store

theorem Reach.inHand_of_ne (h : w.Reach) (hm : w.may u m) (hu : t ≠ u) : (w.move u m).inHand t = w.inHand t := by
  obtain ⟨lay, hk⟩ := h.kept
  obtain ⟨lay', hd⟩ := hk.opsFit.did hm
  have hstack := stack_of_ne hu m (w := w)
  unfold inHand
  rw [operations_eq, operations_eq, hstack, List.filterMap_map, List.filterMap_map]
  exact List.filterMap_congr fun p hp => hd.hand_kept hk.opsFit (u := t) hp (hstack ▸ hp)

/-! ## One operation at a time -/

/-- `t` works on `o` and on nothing else. It is at a step of it, or waits for the call `c`. -/
structure Engaged (w : World α) (t : Nat) (o : Operation α) (c : Option (Call Garbage (Option (Operation α)))) :
    Prop where
  operation : w.operation t = if c.isSome then none else some o
  calls : (w.domain.thread t).calls = c.toList
  ticket : ∀ c' ∈ c, c'.ticket = some o
  guards : (w.domain.thread t).guards = o.guard.toList

/-- `t` does nothing and holds no guard. -/
structure Idle (w : World α) (t : Nat) : Prop where
  rests : w.rests t
  guards : (w.domain.thread t).guards = []

/-- Whatever `t` has under way has found nothing. -/
def EmptyHanded (w : World α) (t : Nat) : Prop := ∀ o ∈ w.operations t, o.point.stage = .unfound

/-- Nothing but links is ever retired. -/
def LinksOnly (w : World α) : Prop := ∀ i, .retired (.object i) ∉ w.domain.story

section

variable {o : Operation α} {c : Option (Call Garbage (Option (Operation α)))}

theorem Engaged.of_ne (h : w.Engaged t o c) (hu : t ≠ u) (m : Move α) : (w.move u m).Engaged t o c := by
  obtain ⟨hop, hth⟩ := move_of_ne (w := w) hu m
  exact ⟨hop.trans h.operation, by rw [hth]; exact h.calls, h.ticket, by rw [hth]; exact h.guards⟩

theorem Idle.of_ne (h : w.Idle t) (hu : t ≠ u) (m : Move α) : (w.move u m).Idle t := by
  obtain ⟨hop, hth⟩ := move_of_ne (w := w) hu m
  exact ⟨⟨hop.trans h.rests.1, by rw [hth]; exact h.rests.2⟩, by rw [hth]; exact h.guards⟩

theorem Engaged.stack (h : w.Engaged t o c) : ∃ b, w.stack t = [(o, b)] := by
  cases c with
  | none => exact ⟨false, stack_eq h.operation h.calls⟩
  | some c =>
    refine ⟨c.phase.pin?.isSome, (stack_eq h.operation h.calls).trans ?_⟩
    simp [h.ticket c rfl]

theorem Engaged.not_rests (h : w.Engaged t o c) : ¬ w.rests t := by
  rintro ⟨hop, hcalls⟩
  cases c with
  | none => rw [h.operation] at hop; cases hop
  | some c => rw [h.calls] at hcalls; cases hcalls

theorem Engaged.operations (h : w.Engaged t o c) : w.operations t = [o] := by
  obtain ⟨b, hk⟩ := h.stack
  rw [operations_eq, hk]
  rfl

theorem Engaged.inHand (h : w.Engaged t o c) : w.inHand t = (o.point.stage.inHand? w.store).toList := by
  rw [World.inHand, h.operations, filterMap_cons_toList]
  exact List.append_nil _

theorem Engaged.emptyHanded_iff (h : w.Engaged t o c) : w.EmptyHanded t ↔ o.point.stage = .unfound := by
  unfold EmptyHanded
  rw [h.operations]
  exact List.forall_mem_singleton

theorem Idle.operations (h : w.Idle t) : w.operations t = [] := by
  rw [World.operations, h.rests.1, h.rests.2]
  rfl

theorem Idle.emptyHanded (h : w.Idle t) : w.EmptyHanded t := fun o ho => by
  rw [h.operations] at ho
  cases ho

theorem Idle.inHand (h : w.Idle t) : w.inHand t = [] := by
  rw [World.inHand, h.operations]
  rfl

theorem Idle.load (h : w.Idle t) : w.load t = 0 := load_eq h.rests.1 h.rests.2

theorem Idle.mayBegin (h : w.Idle t) : w.mayBegin t = true :=
  mayBegin_iff.mpr ⟨h.rests.1, by rw [Domain.mayCall_eq, h.rests.2]; rfl⟩

/-- What it works on is open. -/
theorem Engaged.opened (h : w.Engaged t o c) (hr : w.Reach) : w.store.isOpen o.queue = true := by
  obtain ⟨lay, hk⟩ := hr.kept
  obtain ⟨b, hstack⟩ := h.stack
  exact (hk.minds t (o, b) (hstack ▸ List.mem_cons_self)).opened

/-- The queue stays open while somebody works on it. -/
theorem Engaged.stays_open (h : w.Engaged t o c) (hr : w.Reach) (hm : w.may u m) :
    (w.move u m).store.isOpen o.queue = true := by
  obtain ⟨lay, hk⟩ := hr.kept
  obtain ⟨lay', hd⟩ := hk.opsFit.did hm
  obtain ⟨b, hstack⟩ := h.stack
  exact hk.stays_open hd (hd.opsFit hk.opsFit fun v e => stack_of_ne e m) (u := t) (p := (o, b))
    (hstack ▸ List.mem_cons_self)

/-- No operation has more steps to take. -/
theorem Engaged.load_le (h : w.Engaged t o c) : w.load t ≤ 19 := by
  cases c with
  | none =>
    have hleft := o.left_le w.store
    rw [load_eq h.operation h.calls]
    simp only [Option.isSome_none, Bool.false_eq_true, if_false, Option.map_some, Option.getD_some, Option.toList_none,
      callsLoad]
    omega
  | some c =>
    have hleft := c.phase.left_le
    have hwait : o.wait ≤ 15 := by unfold Operation.wait; split <;> decide
    rw [load_eq h.operation h.calls]
    simp only [Option.isSome_some, if_true, Option.map_none, Option.getD_none, Option.toList_some, callsLoad, callLoad,
      h.ticket c rfl, Option.map_some, Option.getD_some]
    omega

end

end World

/-! ## Steps -/

/-- How an operation stands: how far it has come, what it has in hand, and what its queue holds. -/
structure Standing (α : Type) where
  stage : Stage α
  hand : Option α
  held : List α

def Operation.standing (o : Operation α) (s : Store α) : Standing α :=
  ⟨o.point.stage, o.point.stage.inHand? s, s.values o.queue⟩

/-- How an operation stands after one more step. -/
inductive Standing.Turns : Standing α → Standing α → Prop
  | stays (x : Standing α) : Turns x x
  /-- The head has moved since nothing was found. -/
  | again (vs : List α) : Turns ⟨.unfound, none, vs⟩ ⟨.looking, none, vs⟩
  | unfound : Turns ⟨.looking, none, []⟩ ⟨.unfound, none, []⟩
  | linked (n : Nat) (v : α) (vs : List α) : Turns ⟨.waiting n, some v, vs⟩ ⟨.linked, none, vs ++ [v]⟩
  | swung (n : Nat) (v : α) (vs : List α) : Turns ⟨.looking, none, v :: vs⟩ ⟨.taking n, some v, vs⟩
  | took (n : Nat) (v : α) (vs : List α) : Turns ⟨.taking n, some v, vs⟩ ⟨.taken v, some v, vs⟩

/-- An operation stands as it did while its stage, its queue and the values in the links stay. -/
theorem Operation.standing_of_same {o o' : Operation α} {s s' : Store α} (hst : o'.point.stage = o.point.stage)
    (hq : o'.queue = o.queue) (hlinks : ∀ n, (s'.link n).value = (s.link n).value)
    (hvals : s'.values o.queue = s.values o.queue) : o'.standing s' = o.standing s := by
  unfold standing
  rw [hst, hq, hvals, Stage.inHand?_congr hlinks]

theorem Served.turns {s : Store α} {o : Operation α} {spot : Spot} {L L' : Layout} (hp : o.point = .access spot)
    (hv : Served s o spot L L')
    (hf : Served.Idle s o spot L L' ∨ Served.Appends s o spot L L' ∨ Served.Removes s o spot L L') :
    (o.standing s).Turns ((s.access o spot).op.standing (s.access o spot).store) := by
  rcases hf with hf | ⟨node, tail, v, rfl, -, hst, -, hval, hvals⟩ | ⟨head, next, v, rfl, -, hpt, -, -, -, hval, hvals⟩
  · rcases hf.stage with h | ⟨h, h'⟩ | ⟨⟨head, tail, rfl⟩, h', hnil⟩
    · rw [Operation.standing_of_same (h.trans (congrArg Point.stage hp).symm) hv.queue (fun n => (hv.kept n).1) hf.values]
      exact .stays _
    · unfold Operation.standing
      rw [hp, h, h', hv.queue, hf.values]
      exact .again _
    · unfold Operation.standing
      rw [hp, h', hv.queue, hf.values, hnil]
      exact .unfound
  · unfold Operation.standing
    rw [hp, hst, hv.queue, hvals]
    simp only [Point.stage, Stage.inHand?, hval]
    exact .linked node v _
  · unfold Operation.standing
    rw [hp, hpt, hv.queue, hvals]
    simp only [Point.stage, Stage.inHand?, (hv.kept next).1, hval]
    exact .swung next v _

namespace World

variable {w w' : World α} {lay : Nat → Layout} {t u q : Nat} {m : Move α} {o : Operation α}
  {c : Option (Call Garbage (Option (Operation α)))}

/-- Fewer steps are to be taken, or as many, and fewer links to be destroyed. -/
def Eased (t : Nat) (w w' : World α) : Prop :=
  w'.load t < w.load t ∧ w'.linksLeft ≤ w.linksLeft ∨ w'.load t = w.load t ∧ w'.linksLeft < w.linksLeft

theorem Eased.linksLeft_le (h : Eased t w w') : w'.linksLeft ≤ w.linksLeft := h.elim (·.2) fun h => Nat.le_of_lt h.2

/-- What a step of a thread that works on `o` comes to. -/
inductive Worked (w : World α) (t : Nat) (o : Operation α) (w' : World α) : Signal α → Prop
  | goesOn (o' : Operation α) (c' : Option (Call Garbage (Option (Operation α)))) (signal : Signal α)
      (engaged : w'.Engaged t o' c') (queue : o'.queue = o.queue)
      (turns : (o.standing w.store).Turns (o'.standing w'.store))
      (finished : ∀ r, signal ≠ .finished r) (answered : ∀ a, signal ≠ .answered a) (eased : Eased t w w') :
      Worked w t o w' signal
  | finished (r : Outcome α) (point : o.point = .leave r) (idle : w'.Idle t)
      (values : w'.store.values o.queue = w.store.values o.queue) (eased : Eased t w w') :
      Worked w t o w' (.finished r)

/-- A link that a value is about to be taken from carries one. -/
theorem Reach.value_of_taking (h : w.Reach) {p : Operation α × Bool} (hp : p ∈ w.stack t) {n : Nat}
    (hst : p.1.point.stage = .taking n) : ∃ v, (w.store.link n).value = some v := by
  obtain ⟨a, ha, rfl⟩ := h.annals
  obtain ⟨i, hi, rfl⟩ := List.getElem_of_mem hp
  have hlen := ha.deedsAgree.length t
  have hmem : ((a.ids t)[i], (a.world.stack t)[i]) ∈ a.entries t := by
    have hi' : i < ((a.ids t).zip (a.world.stack t)).length := by rw [List.length_zip]; omega
    rw [← List.getElem_zip (h := hi')]
    exact List.getElem_mem _
  have hprog := ha.deedsAgree.progress t _ hmem
  rw [show ((a.ids t)[i], (a.world.stack t)[i]).2.1.point.stage = _ from hst] at hprog
  obtain ⟨v, hv, -⟩ := hprog
  exact ⟨v, hv⟩

theorem links_le (hst : w'.domain.story = w.domain.story ∨ ∃ x, w'.domain.story = w.domain.story ++ [x] ∧ x.freed? = none)
    (hn : w'.store.nextLink = w.store.nextLink) : w'.linksLeft ≤ w.linksLeft := by
  rcases hst with hst | ⟨x, hst, hx⟩
  · exact linksLeft_le w w' (k := 0) (hst.trans (List.append_nil _).symm) rfl (Nat.le_of_eq hn)
  · refine linksLeft_le w w' (k := 0) hst ?_ (Nat.le_of_eq hn)
    rw [List.filterMap_cons, hx]
    rfl

theorem load_of_operation (ho : w.operation t = some o) (hc : (w.domain.thread t).calls = []) :
    w.load t = o.left w.store := by
  rw [load_eq ho hc]
  rfl

theorem load_of_call {c : Call Garbage (Option (Operation α))} (ho : w.operation t = none)
    (hc : (w.domain.thread t).calls = [c]) (hticket : c.ticket = some o) : w.load t = c.phase.left + o.wait := by
  rw [load_eq ho hc]
  simp [callsLoad, callLoad, hticket]

/-- A step of the operation itself. -/
theorem Engaged.worked_operation (h : w.Engaged t o none) (hr : w.Reach) :
    Worked w t o (w.step t).1 (w.step t).2 := by
  obtain ⟨lay, hk⟩ := hr.kept
  have hop : w.operation t = some o := h.operation
  have hc : (w.domain.thread t).calls = [] := h.calls
  have hmem : (o, false) ∈ w.stack t := stack_active hop ▸ List.mem_cons_self
  have hsits := hk.opsFit.sits t _ hmem
  have hl := hk.opsFit.laid _ hsits.queue
  have hload := load_of_operation hop hc
  rw [step_of_some hop]
  unfold stepOperation
  cases hp : o.point with
  | access spot =>
    have hfit : spot.Fits (lay o.queue) 0 := by simpa only [hp, Point.Fits] using hsits.fits
    obtain ⟨L', hv, hf⟩ := hl.access hfit fun node tail e => hsits.brought node (by
      rw [show (o, false).1.point = _ from hp, e]
      rfl)
    have hleft := Operation.left_access hl (hk.taut _ hsits.queue) hp hfit
    refine .goesOn (w.store.access o spot).op none _ ⟨operation_of_set rfl, hc, (fun c e => by cases e), ?_⟩ hv.queue
      (hv.turns hp hf) (fun r e => by cases e) (fun a e => by cases e)
      (Or.inl ⟨?_, links_le (Or.inl rfl) (w.store.nextLink_access o spot)⟩)
    · rw [hv.guard]
      exact h.guards
    · exact lt_of_eq_of_lt (load_of_operation (operation_of_set rfl) hc) (hload ▸ hleft)
  | take head next =>
    obtain ⟨v, hv⟩ := hr.value_of_taking hmem (n := next) (by rw [show (o, false).1.point = _ from hp]; rfl)
    obtain ⟨q, -, -, hq, hcalls, hg, hst⟩ :=
      Domain.retire_opens w.domain t (.link head) (some (o.leave (.dequeued (w.store.takeValue next).1)))
    rw [hc] at hcalls
    have hvals := hr.values_kept (m := .step) h.not_rests (Store.isOpen_lt (h.opened hr)) fun d hd => by
      rw [deed?, hop, Option.bind_some, Operation.deed?, hp] at hd
      cases hd
    dsimp only [World.move] at hvals
    rw [step_of_some hop, stepOperation, hp] at hvals
    dsimp only at hvals
    refine .goesOn (o.leave (.dequeued (w.store.takeValue next).1)) (some ⟨_, q⟩) _
      ⟨operation_of_set rfl, hcalls, fun c hc => by cases hc; rfl, hg.trans h.guards⟩ rfl ?_
      (fun r e => by cases e) (fun a e => by cases e) (Or.inl ⟨?_, links_le (Or.inr ⟨_, hst, rfl⟩) rfl⟩)
    · have hthere : o.standing w.store = ⟨.taking next, some v, w.store.values o.queue⟩ := by
        unfold Operation.standing
        rw [hp]
        simp only [Point.stage, Stage.inHand?, hv]
      rw [hthere, show (w.store.takeValue next).1 = some v from hv]
      unfold Operation.standing
      rw [show (o.leave (.dequeued (some v))).queue = o.queue from rfl, hvals]
      exact .took next v _
    · have hleft : o.left w.store = 5 := by unfold Operation.left; rw [hp]
      refine lt_of_eq_of_lt (load_of_call (operation_of_set rfl) hcalls rfl) ?_
      rw [hload, hleft, Operation.wait_of_leave rfl]
      exact Nat.lt_of_le_of_lt (Nat.add_le_add_right hq 1) (by decide)
  | leave r =>
    have hleft : o.left w.store = 1 := Operation.left_of_leave hp _
    dsimp only
    cases hgo : o.guard with
    | none =>
      refine .finished r hp ⟨⟨operation_of_set rfl, hc⟩, h.guards.trans (by rw [hgo]; rfl)⟩ rfl
        (Or.inl ⟨?_, links_le (Or.inl rfl) rfl⟩)
      refine lt_of_eq_of_lt (load_eq (operation_of_set rfl) hc) ?_
      rw [hload, hleft]
      exact Nat.one_pos
    | some g =>
      obtain ⟨hcalls, hg⟩ := Domain.calls_unpin w.domain t g
      rw [hc] at hcalls
      have hgs := h.guards
      rw [hgo] at hgs
      refine .finished r hp ⟨⟨operation_of_set rfl, hcalls⟩, (hg.trans (congrArg (List.erase · g) hgs)).trans (List.erase_cons_head g [])⟩ rfl
        (Or.inl ⟨?_, links_le (Or.inr ⟨_, (Domain.unpin_frame w.domain t g).2.2, rfl⟩) rfl⟩)
      refine lt_of_eq_of_lt (load_eq (operation_of_set rfl) hcalls) ?_
      rw [hload, hleft]
      exact Nat.one_pos

/-- A step of the call that the operation waits for. -/
theorem Engaged.worked_call {c : Call Garbage (Option (Operation α))} (h : w.Engaged t o (some c)) (hr : w.Reach)
    (hlinks : w.LinksOnly) : Worked w t o (w.step t).1 (w.step t).2 := by
  obtain ⟨lay, hk⟩ := hr.kept
  obtain ⟨lay', hk'⟩ := (hr.move t .step h.not_rests).kept
  have hop : w.operation t = none := h.operation
  have hc : (w.domain.thread t).calls = [c] := h.calls
  have hticket : c.ticket = some o := h.ticket c rfl
  obtain ⟨b, hstack⟩ := h.stack
  have hl := hk.opsFit.laid _ (hk.opsFit.sits t (o, b) (hstack ▸ List.mem_cons_self)).queue
  obtain ⟨-, hvals⟩ := laid_stepCall (t := t) hl
  rw [← step_of_none hop] at hvals
  have hturns : ∀ o' : Operation α, o'.point = o.point → o'.queue = o.queue →
      (o.standing w.store).Turns (o'.standing (w.step t).1.store) := fun o' hp hq => by
    rw [Operation.standing_of_same (congrArg Point.stage hp) hq (fun n => by rw [step_of_none hop, value_stepCall]) hvals]
    exact .stays _
  have hload := load_of_call hop hc hticket
  have hsame : ∀ {c' rest}, (w.domain.thread t).calls = c' :: rest → c' = c ∧ rest = [] := fun e =>
    List.cons.inj (e.symm.trans hc)
  have htickets := hr.ticketed t c (hc ▸ List.mem_cons_self) o hticket
  have hpos := c.phase.left_pos
  have hmoves := moves_call hop (by rw [hc]; exact List.cons_ne_nil _ _)
  dsimp only [World.move] at hk'
  generalize (w.step t).1 = w', (w.step t).2 = signal at *
  cases hmoves with
  | accessed o' _ _ _ hop' | took o' _ _ _ hop' | left o' _ hop' => rw [hop] at hop'; cases hop'
  | on c' rest q _ hop' hold hc' hless _ _ hg hst hn =>
    obtain ⟨rfl, rfl⟩ := hsame hold
    refine .goesOn o (some _) _ ⟨hop', hc', fun c hc => by cases hc; exact hticket, hg.trans h.guards⟩ rfl
      (hturns o rfl rfl) nofun nofun (Or.inl ⟨?_, links_le (hst.imp_right fun ⟨e, he⟩ => ⟨_, he, rfl⟩) hn⟩)
    rw [hload, load_of_call hop' hc' hticket]
    exact Nat.add_lt_add_right hless _
  | freed c' rest p n todo freed _ _ hop' hold hphase hc' hsignal hg hst hn =>
    obtain ⟨rfl, rfl⟩ := hsame hold
    cases n with
    | object i =>
      have hret := hk'.toQueueInv.retired_of_freed (n := .object i) (by rw [hst]; simp)
      rw [hst] at hret
      exact absurd ((List.mem_append.mp hret).resolve_right (by simp)) (hlinks i)
    | link n =>
      refine .goesOn o (some _) _ ⟨hop', hc', fun c hc => by cases hc; exact hticket, hg.trans h.guards⟩ rfl
        (hturns o rfl rfl) (fun r => by rw [hsignal]; exact nofun) (fun a => by rw [hsignal]; exact nofun)
        (Or.inr ⟨?_, linksLeft_lt w w' ⟨lay', hk'.toQueueInv⟩ hst hn⟩)
      rw [hload, load_of_call hop' hc' hticket, hphase]
      rfl
  | resumed c' rest o' g _ hop' hold hc' hticket' hpin hg hst hs =>
    obtain ⟨rfl, rfl⟩ := hsame hold
    obtain rfl : o = o' := Option.some.inj (hticket.symm.trans hticket')
    rw [if_pos hpin] at htickets
    have hgs := h.guards
    rw [htickets.2.1] at hgs
    refine .goesOn _ none _ ⟨hop', hc', nofun, by rw [hg, hgs]; rfl⟩ rfl (hturns _ rfl rfl) nofun nofun
      (Or.inl ⟨?_, links_le (Or.inr ⟨_, hst, rfl⟩) (by rw [hs])⟩)
    have hleft := Operation.left_of_start (o := { o with guard := some g }) htickets.2.2 w'.store
    rw [hload, load_of_operation hop' hc', Operation.wait_of_start htickets.2.2]
    omega
  | back c' rest o' _ hop' hold hc' hticket' hpin hg hst hs =>
    obtain ⟨rfl, rfl⟩ := hsame hold
    obtain rfl : o = o' := Option.some.inj (hticket.symm.trans hticket')
    rw [if_neg (hpin ▸ Bool.false_ne_true)] at htickets
    obtain ⟨-, r, hleave⟩ := htickets
    refine .goesOn o none _ ⟨hop', hc', nofun, hg.trans h.guards⟩ rfl (hturns o rfl rfl) nofun nofun
      (Or.inl ⟨?_, links_le (Or.inl hst) (by rw [hs])⟩)
    rw [hload, load_of_operation hop' hc', Operation.wait_of_leave hleave, Operation.left_of_leave hleave]
    exact Nat.lt_add_of_pos_left hpos
  | pinned c' rest _ _ _ hold _ hnone | answered c' rest _ _ _ _ hold _ hnone =>
    obtain ⟨rfl, rfl⟩ := hsame hold
    rw [hticket] at hnone
    cases hnone

theorem Engaged.worked (h : w.Engaged t o c) (hr : w.Reach) (hlinks : w.LinksOnly) :
    Worked w t o (w.step t).1 (w.step t).2 := by
  cases c with
  | none => exact h.worked_operation hr
  | some c => exact h.worked_call hr hlinks

/-- Steps retire links only. -/
theorem LinksOnly.step (h : w.LinksOnly) (hr : w.Reach) (hrest : ¬ w.rests t) : (w.step t).1.LinksOnly := by
  obtain ⟨lay, hk⟩ := hr.kept
  have hmoves := step_moves hk.toQueueInv hrest
  have hadds : ∀ {w' : World α} {x : Notice Garbage}, w'.domain.story = w.domain.story ++ [x] →
      (∀ i, x ≠ .retired (.object i)) → w'.LinksOnly := fun {w' x} hst hx i hi => by
    rw [hst] at hi
    exact (List.mem_append.mp hi).elim (h i) fun hm => hx i (List.mem_singleton.mp hm).symm
  have hquiet : ∀ {w' : World α}, w'.domain.story = w.domain.story → w'.LinksOnly := fun hst i => by
    rw [hst]
    exact h i
  generalize (w.step t).1 = w', (w.step t).2 = signal at hmoves ⊢
  cases hmoves with
  | accessed _ _ _ _ _ _ _ _ hd => exact hquiet (by rw [hd])
  | took _ _ _ _ _ _ _ _ _ _ _ _ hst => exact hadds hst nofun
  | left _ _ _ _ _ _ _ hst =>
    rcases hst with hst | ⟨g, hst⟩
    · exact hquiet hst
    · exact hadds hst nofun
  | on _ _ _ _ _ _ _ _ _ _ _ hst =>
    rcases hst with hst | ⟨e, hst⟩
    · exact hquiet hst
    · exact hadds hst nofun
  | freed _ _ _ _ _ _ _ _ _ _ _ _ _ _ hst => exact hadds hst nofun
  | resumed _ _ _ _ _ _ _ _ _ _ _ hst => exact hadds hst nofun
  | back _ _ _ _ _ _ _ _ _ _ hst => exact hquiet hst
  | pinned _ _ _ _ _ _ _ _ _ _ hst => exact hadds hst nofun
  | answered _ _ _ _ _ _ _ _ _ _ _ hst => exact hquiet hst

/-! ## Operations that begin -/

/-- With `w'` the operation `o` on `q` has begun on `t`, with so many links of its own. -/
structure Begun (w : World α) (t q : Nat) (o : Operation α) (n : Nat) (w' : World α) : Prop where
  reach : w'.Reach
  engaged : ∃ c, w'.Engaged t o (some c)
  queue : o.queue = q
  values : w'.store.values q = w.store.values q
  linksOnly : w'.LinksOnly
  linksLeft : w'.linksLeft ≤ w.linksLeft + n

/-- The first thing that an operation does is to ask for a guard. -/
theorem Idle.begun (h : w.Idle t) (hr : w.Reach) (hlinks : w.LinksOnly) (hm : w.may t m) (s : Store α) (spot : Spot)
    (he : w.move t m = World.beginAt { w with store := s } t q spot) (hq : q < w.store.nextQueue)
    (hdeed : ∀ d, w.deed? t 0 0 m = some d → d.concerns q = false) {n : Nat}
    (hn : s.nextLink ≤ w.store.nextLink + n) :
    Begun w t q ⟨q, none, { limits := (s.queue q).limits }, .access spot⟩ n (w.move t m) := by
  have hreach := hr.move t m hm
  have hvals := hr.values_kept hm hq hdeed
  obtain ⟨ph, -, -, hc, hg⟩ := Domain.pin_opens w.domain t
    (some ⟨q, none, { limits := (s.queue q).limits }, .access spot⟩ : Option (Operation α))
  have hstory := (Domain.pin_frame w.domain t
    (some ⟨q, none, { limits := (s.queue q).limits }, .access spot⟩ : Option (Operation α))).2.2
  rw [h.rests.2] at hc
  rw [h.guards] at hg
  rw [he] at hreach hvals ⊢
  refine ⟨hreach, ⟨_, h.rests.1, hc, fun c hc => by cases hc; rfl, hg⟩, rfl, hvals, fun i => ?_, ?_⟩
  · rw [show (World.beginAt { w with store := s } t q spot).domain.story = _ from hstory]
    exact hlinks i
  · exact linksLeft_le w _ (hstory.trans (List.append_nil _).symm) rfl hn

/-- An enqueue has its value in hand. -/
theorem Idle.enqueue (h : w.Idle t) (hr : w.Reach) (hlinks : w.LinksOnly) (hopen : w.store.isOpen q = true) (v : α) :
    ∃ o n, Begun w t q o 1 (w.enqueue t q v) ∧ o.point.stage = .waiting n ∧
      (w.enqueue t q v).inHand t = [v] := by
  have hbegun := h.begun hr hlinks (m := .tryEnqueue q v true) ⟨h.mayBegin, hopen⟩
    (w.store.alloc q (some v)).2 (.enqueue w.store.nextLink .loadTail) rfl (Store.isOpen_lt hopen)
    (fun d hd => by cases hd; rfl) (Nat.le_refl _)
  obtain ⟨c, hc⟩ := hbegun.engaged
  refine ⟨_, w.store.nextLink, hbegun, rfl, hc.inHand.trans ?_⟩
  show ((w.store.alloc q (some v)).2.link w.store.nextLink).value.toList = [v]
  rw [Store.link_alloc, if_pos rfl]
  rfl

/-- A dequeue has not found anything yet. -/
theorem Idle.dequeue (h : w.Idle t) (hr : w.Reach) (hlinks : w.LinksOnly) (hopen : w.store.isOpen q = true) :
    ∃ o, Begun w t q o 0 (w.dequeue t q) ∧ o.point.stage = .looking :=
  ⟨_, h.begun hr hlinks (m := .dequeue q) ⟨h.mayBegin, hopen⟩ w.store (.dequeue .loadHead) rfl
    (Store.isOpen_lt hopen) (fun d hd => by cases hd; rfl) (Nat.le_refl _), rfl⟩

theorem Idle.isEmpty (h : w.Idle t) (hr : w.Reach) (hlinks : w.LinksOnly) (hopen : w.store.isOpen q = true) :
    ∃ o, Begun w t q o 0 (w.isEmpty t q) ∧ o.point.stage = .asking :=
  ⟨_, h.begun hr hlinks (m := .isEmpty q) ⟨h.mayBegin, hopen⟩ w.store (.isEmpty .loadHead) rfl
    (Store.isOpen_lt hopen) (fun d hd => by cases hd; rfl) (Nat.le_refl _), rfl⟩

end World

end EpochQueue.Fifo
