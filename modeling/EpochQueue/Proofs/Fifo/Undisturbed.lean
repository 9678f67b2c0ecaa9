/-
  EpochQueue.Proofs.Fifo.Undisturbed — a dequeue that nobody disturbs takes the front value.

  `World.Finishes` lets one thread take steps until an operation of its is over. Its calls return
  whatever the domain is like, since each of their steps leaves fewer of them (`comes_call`); a link
  that they free on the way changes nothing in what the queue holds. The accesses find the queue as it
  is laid out: nothing behind the head, or the tail at the head, which is helped along once, or the
  head can be swung at once. So the dequeue returns the front value and leaves the others
  (`Finishes.dequeue`), wherever the tail was, and one dequeue after another gives them all in order
  (`Dequeues.of_laid`).
-/

import EpochQueue.Proofs.Fifo.Loads

namespace EpochQueue.Fifo

open Reclaim (Call Domain)

variable {α : Type}

namespace World

/-- `t` takes steps, and nobody else does, until one of its operations is over. -/
inductive Finishes (t : Nat) : World α → Outcome α → World α → Prop
  | ends {w : World α} {r : Outcome α} (h : (w.step t).2 = .finished r) : Finishes t w r (w.step t).1
  | goesOn {w w' : World α} {r : Outcome α} (h : ∀ r, (w.step t).2 ≠ .finished r)
      (hrest : Finishes t (w.step t).1 r w') : Finishes t w r w'

/-- `t` dequeues, again and again, each time until that is over; these are the answers. -/
inductive Dequeues (t q : Nat) : World α → List (Option α) → World α → Prop
  | nil (w : World α) : Dequeues t q w [] w
  | cons {w w₁ w₂ : World α} {v : Option α} {vs : List (Option α)}
      (h : Finishes t (w.dequeue t q) (.dequeued v) w₁) (hrest : Dequeues t q w₁ vs w₂) :
      Dequeues t q w (v :: vs) w₂

variable {w w' w'' : World α} {t q : Nat} {r r' : Outcome α}

theorem Finishes.unique (h : Finishes t w r w') (h' : Finishes t w r' w'') : r' = r ∧ w'' = w' := by
  induction h with
  | ends h =>
    cases h' with
    | ends h' => exact ⟨by rw [h] at h'; cases h'; rfl, rfl⟩
    | goesOn h' => exact absurd h (h' _)
  | goesOn h _ ih =>
    cases h' with
    | ends h' => exact absurd h' (h _)
    | goesOn _ hrest => exact ih hrest

theorem Dequeues.unique {vs vs' : List (Option α)} (h : Dequeues t q w vs w') (h' : Dequeues t q w vs' w'')
    (hlen : vs'.length = vs.length) : vs' = vs ∧ w'' = w' := by
  induction h generalizing vs' with
  | nil =>
    obtain rfl := List.eq_nil_of_length_eq_zero hlen
    cases h'
    exact ⟨rfl, rfl⟩
  | cons h _ ih =>
    cases h' with
    | nil => cases hlen
    | cons h' hrest =>
      obtain ⟨hv, rfl⟩ := h.unique h'
      cases hv
      obtain ⟨rfl, rfl⟩ := ih hrest (Nat.succ.inj hlen)
      exact ⟨rfl, rfl⟩

/-- The operation of `t` comes to the outcome `r`; then the thread has these calls open, and the queue holds
    these values. -/
def Comes (t q : Nat) (w : World α) (r : Outcome α) (calls : List (Call Garbage (Option (Operation α))))
    (vs : List α) : Prop :=
  ∃ w', Finishes t w r w' ∧ w'.operation t = none ∧ (w'.domain.thread t).calls = calls ∧
    (∃ L, Laid w'.store q L) ∧ w'.store.values q = vs

section

variable {o : Operation α} {calls : List (Call Garbage (Option (Operation α)))} {vs : List α} {L : Layout}

/-! ## Steps -/

theorem Comes.step (h : ∀ r, (w.step t).2 ≠ .finished r) (hrest : Comes t q (w.step t).1 r calls vs) :
    Comes t q w r calls vs := by
  obtain ⟨w', hw', hend⟩ := hrest
  exact ⟨w', .goesOn h hw', hend⟩

theorem comes_leave (ho : w.operation t = some o) (hp : o.point = .leave r) (hl : Laid w.store q L) :
    Comes t q w r (w.domain.thread t).calls (w.store.values q) := by
  have hstep : (w.step t).2 = .finished r ∧ (w.step t).1.operation t = none ∧
      ((w.step t).1.domain.thread t).calls = (w.domain.thread t).calls ∧ (w.step t).1.store = w.store := by
    rw [step_of_some ho]
    unfold stepOperation
    rw [hp]
    cases hg : o.guard with
    | none => exact ⟨rfl, operation_of_set rfl, rfl, rfl⟩
    | some g => exact ⟨rfl, operation_of_set rfl, (Domain.calls_unpin w.domain t g).1, rfl⟩
  obtain ⟨hsignal, hoperation, hcalls, hstore⟩ := hstep
  exact ⟨_, .ends hsignal, hoperation, hcalls, ⟨L, hstore ▸ hl⟩, by rw [hstore]⟩

theorem comes_access {spot : Spot} (ho : w.operation t = some o) (hp : o.point = .access spot)
    (hrest : ∀ w' : World α, w'.operation t = some (w.store.access o spot).op → w'.domain = w.domain →
      w'.store = (w.store.access o spot).store → Comes t q w' r calls vs) : Comes t q w r calls vs := by
  have hstep : w.step t = ({ w with
      store := (w.store.access o spot).store
      active := w.active.set t (some (w.store.access o spot).op) },
      .accessed (w.store.access o spot).access (w.store.access o spot).pause) := by
    rw [step_of_some ho]
    unfold stepOperation
    rw [hp]
  refine .step (fun r => by rw [hstep]; nofun) (hrest _ ?_ ?_ ?_) <;> rw [hstep]
  exact operation_of_set rfl

theorem value_stepCall (w : World α) (t n : Nat) : ((w.stepCall t).1.store.link n).value = (w.store.link n).value := by
  rw [stepCall_eq]
  split
  next m _ => exact Laid.value_free w.store m n
  next => rfl
  next => rfl

/-- What a call does leaves the queue as it is. -/
theorem laid_stepCall (hl : Laid w.store q L) :
    Laid (w.stepCall t).1.store q L ∧ (w.stepCall t).1.store.values q = w.store.values q := by
  rw [stepCall_eq]
  split
  next n _ => exact ⟨hl.free n, hl.values_congr (hl.free n) fun _ m _ _ => Laid.value_free w.store n m⟩
  next => exact ⟨hl, rfl⟩
  next => exact ⟨hl, rfl⟩

/-- The call for which an operation waits returns to it. -/
theorem comes_call {c : Call Garbage (Option (Operation α))} {rest : List (Call Garbage (Option (Operation α)))}
    (ho : w.operation t = none) (hc : (w.domain.thread t).calls = c :: rest) (hticket : c.ticket = some o)
    (hl : Laid w.store q L) (hback : ∀ (w' : World α) g, w'.operation t = some { o with guard := g } →
      (w'.domain.thread t).calls = rest → Laid w'.store q L → w'.store.values q = w.store.values q →
        Comes t q w' r calls vs) : Comes t q w r calls vs := by
  -- either a phase is over, or there is one node less to destroy
  generalize hleft : c.phase.left = left
  generalize htodo : c.phase.todo.length = todo
  induction left using Nat.strong_induction_on generalizing w c todo with
  | _ left ihleft =>
    induction todo using Nat.strong_induction_on generalizing w c with
    | _ todo ihtodo =>
      have hcalls : (w.domain.thread t).calls ≠ [] := by rw [hc]; nofun
      have hmoves := moves_call ho hcalls
      obtain ⟨hl', hvals⟩ := laid_stepCall (t := t) hl
      rw [← step_of_none ho] at hl' hvals
      have hsame : ∀ {c' rest'}, (w.domain.thread t).calls = c' :: rest' → c' = c ∧ rest' = rest := fun e => by
        rw [hc] at e
        obtain ⟨rfl, rfl⟩ := List.cons.inj e
        exact ⟨rfl, rfl⟩
      generalize hsignal : (w.step t).2 = signal at hmoves
      cases hmoves with
      | accessed o' _ _ _ hop | took o' _ _ _ hop | left o' _ hop =>
        rw [ho] at hop
        cases hop
      | on c' rest' q' _ hop' hold hc' hless =>
        obtain ⟨rfl, rfl⟩ := hsame hold
        refine .step (by rw [hsignal]; nofun) (ihleft q'.left (hleft ▸ hless) hop' hc' hticket hl'
          (fun w' g h₁ h₂ h₃ h₄ => hback w' g h₁ h₂ h₃ (h₄.trans hvals)) rfl _ rfl)
      | freed c' rest' p n todo' freed _ _ hop' hold hphase hc' hsig =>
        obtain ⟨rfl, rfl⟩ := hsame hold
        have hquiet : ∀ r, (w.step t).2 ≠ .finished r := by
          intro r
          rw [hsignal, hsig]
          cases n <;> nofun
        refine .step hquiet (ihtodo todo'.length ?_ hop' hc' hticket hl'
          (fun w' g h₁ h₂ h₃ h₄ => hback w' g h₁ h₂ h₃ (h₄.trans hvals)) ?_ rfl)
        · rw [← htodo, hphase]
          exact Nat.lt_succ_self _
        · rw [← hleft, hphase]
          rfl
      | resumed c' rest' o' g _ hop' hold hc' hticket' _ _ _ _ =>
        obtain ⟨rfl, rfl⟩ := hsame hold
        obtain rfl : o = o' := Option.some.inj (hticket.symm.trans hticket')
        exact .step (by rw [hsignal]; nofun) (hback _ (some g) hop' hc' hl' hvals)
      | back c' rest' o' _ hop' hold hc' hticket' _ _ _ _ =>
        obtain ⟨rfl, rfl⟩ := hsame hold
        obtain rfl : o = o' := Option.some.inj (hticket.symm.trans hticket')
        exact .step (by rw [hsignal]; nofun) (hback _ o.guard hop' hc' hl' hvals)
      | pinned c' rest' _ _ _ hold _ hnone | answered c' rest' _ _ _ _ hold _ hnone =>
        obtain ⟨rfl, rfl⟩ := hsame hold
        rw [hticket] at hnone
        cases hnone

/-! ## The accesses of a dequeue -/

/-- Where the loads of a dequeue lead when they all find the queue as it is. -/
def verdict (s : Store α) (q : Nat) : Point α :=
  match (s.link (s.queue q).head).next with
  | none => .leave (.dequeued none)
  | some next =>
    if (s.queue q).head = (s.queue q).tail then .access (.dequeue (.helpTail (s.queue q).tail next))
    else .access (.dequeue (.swingHead (s.queue q).head next))

theorem comes_loads (ho : w.operation t = some o) (hp : o.point = .access (.dequeue .loadHead))
    (hrest : ∀ w' : World α, w'.operation t = some { o with point := verdict w.store o.queue } →
      w'.domain = w.domain → w'.store = w.store → Comes t q w' r calls vs) : Comes t q w r calls vs := by
  generalize hhead : (w.store.queue o.queue).head = head at *
  generalize htail : (w.store.queue o.queue).tail = tail at *
  refine comes_access ho hp fun w₁ ho₁ hd₁ (hs₁ : w₁.store = w.store) => ?_
  replace ho₁ : w₁.operation t = some (o.goto (.dequeue (.loadTail head))) := hhead ▸ ho₁
  refine comes_access ho₁ rfl fun w₂ ho₂ hd₂ (hs₂ : w₂.store = w₁.store) => ?_
  replace ho₂ : w₂.operation t = some (o.goto (.dequeue (.loadNext head tail))) := htail ▸ hs₁ ▸ ho₂
  refine comes_access ho₂ rfl fun w₃ ho₃ hd₃ (hs₃ : w₃.store = w₂.store) => ?_
  replace ho₃ : w₃.operation t =
    some (o.goto (.dequeue (.reloadHead head tail (w.store.link head).next))) := hs₁ ▸ hs₂ ▸ ho₃
  refine comes_access ho₃ rfl fun w₄ ho₄ hd₄ (hs₄ : w₄.store = w₃.store) => ?_
  have hstore : w₃.store = w.store := hs₃.trans (hs₂.trans hs₁)
  refine hrest w₄ (ho₄.trans (congrArg some ?_)) (hd₄.trans (hd₃.trans (hd₂.trans hd₁))) (hs₄.trans hstore)
  have hsame : ¬ (w₃.store.queue o.queue).head ≠ head := not_not.mpr (hstore ▸ hhead)
  refine (if_neg hsame).trans ?_
  unfold verdict
  rw [hhead, htail]
  cases (w.store.link head).next with
  | none => rfl
  | some next =>
    dsimp only
    split <;> rfl

theorem comes_take {head next : Nat} {x : α} (ho : w.operation t = some o) (hp : o.point = .take head next)
    (hl : Laid w.store q L) (hnext : L.nodes[L.head]? = some next) (hx : (w.store.link next).value = some x) :
    Comes t q w (.dequeued (some x)) (w.domain.thread t).calls (w.store.values q) := by
  have hreached : ∀ i : Nat, L.nodes[i]? = some next → i ≤ L.head := fun i hi => Nat.le_of_eq (hl.place hi hnext)
  obtain ⟨ph, -, -, -, hcalls, -⟩ :=
    Domain.retire_opens w.domain t (.link head) (some (o.leave (.dequeued (w.store.takeValue next).1)))
  have hstep : w.step t = ({ w with
      store := (w.store.takeValue next).2
      active := w.active.set t none
      domain := w.domain.retire t (.link head) (some (o.leave (.dequeued (w.store.takeValue next).1))) }, .quiet) := by
    rw [step_of_some ho]
    unfold stepOperation
    rw [hp]
  refine .step (fun r => by rw [hstep]; nofun) ?_
  rw [hstep]
  refine comes_call (operation_of_set rfl) hcalls rfl (hl.takeValue hreached) fun w' g ho' hc' hl' hvals => ?_
  have hvalue : (w.store.takeValue next).1 = some x := hx
  rw [← hc', ← hl.values_takeValue hreached, ← hvals]
  exact comes_leave ho' (by rw [hvalue]; rfl) hl'

theorem comes_swing {next : Nat} {x : α} (ho : w.operation t = some o) (hq : o.queue = q)
    (hp : o.point = .access (.dequeue (.swingHead (w.store.queue q).head next))) (hl : Laid w.store q L)
    (hnext : L.nodes[L.head + 1]? = some next) (hlt : L.head < L.tail) (hx : w.store.values q = x :: vs) :
    Comes t q w (.dequeued (some x)) (w.domain.thread t).calls vs := by
  subst hq
  obtain ⟨y, hy⟩ := hl.value (L.head + 1) next (Nat.lt_succ_self _) hnext
  have hvals := hl.values_cons hnext hy
  rw [hx] at hvals
  obtain ⟨rfl, hrest⟩ := List.cons.inj hvals
  have haccess : (w.store.access o (.dequeue (.swingHead (w.store.queue o.queue).head next))).op =
        { o with point := .take (w.store.queue o.queue).head next } ∧
      (w.store.access o (.dequeue (.swingHead (w.store.queue o.queue).head next))).store =
        w.store.modifyQueue o.queue fun x => { x with head := next } := by
    simp [Store.access, Store.accessDequeue, Store.casHead]
  refine comes_access ho hp fun w' ho' hd' hs' => ?_
  rw [haccess.1] at ho'
  rw [haccess.2] at hs'
  have hl' : Laid w'.store o.queue { L with head := L.head + 1 } := hs' ▸ hl.swingHead hlt hnext
  have hvs : w'.store.values o.queue = vs := by
    rw [hl'.values_eq, hrest, hs']
    rfl
  rw [← hd', ← hvs]
  exact comes_take ho' rfl hl' hnext (by rw [hs']; exact hy)

/-- The tail is ahead of the head, so the head is swung at once. -/
theorem comes_ahead {x : α} (ho : w.operation t = some o) (hq : o.queue = q)
    (hp : o.point = .access (.dequeue .loadHead)) (hl : Laid w.store q L) (hlt : L.head < L.tail)
    (hx : w.store.values q = x :: vs) : Comes t q w (.dequeued (some x)) (w.domain.thread t).calls vs := by
  subst hq
  have htail := L.lt_of_getElem? hl.tail
  obtain ⟨next, hnext⟩ : ∃ next, L.nodes[L.head + 1]? = some next := ⟨_, List.getElem?_eq_getElem (by omega)⟩
  have hne : (w.store.queue o.queue).head ≠ (w.store.queue o.queue).tail := fun e =>
    Nat.ne_of_lt hlt (hl.place hl.head (e ▸ hl.tail))
  have hverdict : verdict w.store o.queue =
      .access (.dequeue (.swingHead (w.store.queue o.queue).head next)) := by
    unfold verdict
    rw [(hl.next _ _ hl.head).trans hnext]
    exact if_neg hne
  refine comes_loads ho hp fun w' ho' hd' hs' => ?_
  rw [← hd']
  exact comes_swing ho' rfl (by rw [hs']; exact hverdict) (hs' ▸ hl) hnext hlt (hs' ▸ hx)

/-- From its first load on, a dequeue takes the front value. -/
theorem comes_dequeue (ho : w.operation t = some o) (hq : o.queue = q) (hp : o.point = .access (.dequeue .loadHead))
    (hl : Laid w.store q L) :
    Comes t q w (.dequeued (w.store.values q).head?) (w.domain.thread t).calls (w.store.values q).tail := by
  subst hq
  have hlen := hl.length_values
  cases hx : w.store.values o.queue with
  | nil =>
    rw [hx, List.length_nil] at hlen
    have hverdict : verdict w.store o.queue = .leave (.dequeued none) := by
      unfold verdict
      rw [hl.next _ _ hl.head, List.getElem?_eq_none_iff.mpr (by omega)]
    refine comes_loads ho hp fun w' ho' hd' hs' => ?_
    have hleave := comes_leave ho' hverdict (hs' ▸ hl)
    rwa [hd', hs', hx] at hleave
  | cons x vs =>
    rw [hx, List.length_cons] at hlen
    rcases Nat.lt_or_eq_of_le hl.order with hlt | heq
    · exact comes_ahead ho rfl hp hl hlt hx
    · -- the tail stands at the head: it is moved on, and then the loads begin anew
      obtain ⟨next, hnext⟩ : ∃ next, L.nodes[L.head + 1]? = some next := ⟨_, List.getElem?_eq_getElem (by omega)⟩
      have hends : (w.store.queue o.queue).head = (w.store.queue o.queue).tail :=
        Option.some.inj (hl.head.symm.trans (heq ▸ hl.tail))
      have hverdict : verdict w.store o.queue =
          .access (.dequeue (.helpTail (w.store.queue o.queue).tail next)) := by
        unfold verdict
        rw [(hl.next _ _ hl.head).trans hnext]
        exact if_pos hends
      refine comes_loads ho hp fun w₁ ho₁ hd₁ hs₁ => comes_access ho₁ hverdict fun w₂ ho₂ hd₂ hs₂ => ?_
      have hstore : w₂.store = w.store.modifyQueue o.queue fun x => { x with tail := next } := by
        rw [hs₂, hs₁]
        simp [Store.access, Store.accessDequeue, Store.casTail]
      have hl₂ : Laid w₂.store o.queue { L with tail := L.tail + 1 } :=
        hstore ▸ hl.swingTail (heq ▸ hnext)
      have hx₂ : w₂.store.values o.queue = x :: vs := by
        rw [hl₂.values_eq, ← hx, hl.values_eq, hstore]
        rfl
      rw [List.head?_cons, List.tail_cons, ← hd₁, ← hd₂]
      exact comes_ahead ho₂ rfl rfl hl₂ (Nat.lt_succ_of_le hl.order) hx₂

/-- An is-empty looks behind the head. -/
theorem comes_isEmpty (ho : w.operation t = some o) (hq : o.queue = q) (hp : o.point = .access (.isEmpty .loadHead))
    (hl : Laid w.store q L) : Comes t q w (.emptiness (w.store.values q).isEmpty) (w.domain.thread t).calls
      (w.store.values q) := by
  subst hq
  have hempty : (w.store.link (w.store.queue o.queue).head).next.isNone = (w.store.values o.queue).isEmpty := by
    have hlen := hl.length_values
    have hlt := hl.head_lt
    rw [hl.next _ _ hl.head, Bool.eq_iff_iff, Option.isNone_iff_eq_none, List.getElem?_eq_none_iff, List.isEmpty_iff,
      ← List.length_eq_zero_iff]
    omega
  refine comes_access ho hp fun w₁ ho₁ hd₁ (hs₁ : w₁.store = w.store) => ?_
  refine comes_access ho₁ rfl fun w₂ ho₂ hd₂ (hs₂ : w₂.store = w₁.store) => ?_
  have hstore : w₂.store = w.store := hs₂.trans hs₁
  have hleave := comes_leave ho₂ rfl (hstore ▸ hl)
  rwa [hd₂, hd₁, hstore, hs₁, hempty] at hleave

end

/-! ## Whole operations -/

/-- A dequeue that nobody disturbs answers with the front value, or with nothing if there is none, and leaves
    the other values. -/
theorem Finishes.dequeue {L : Layout} (hm : w.mayBegin t = true) (hl : Laid w.store q L) :
    ∃ w', Finishes t (w.dequeue t q) (.dequeued (w.store.values q).head?) w' ∧ w'.mayBegin t = true ∧
      (∃ L', Laid w'.store q L') ∧ w'.store.values q = (w.store.values q).tail := by
  obtain ⟨ho, hmay⟩ := mayBegin_iff.mp hm
  let o : Operation α := ⟨q, none, { limits := (w.store.queue q).limits }, .access (.dequeue .loadHead)⟩
  obtain ⟨ph, -, hcalls, -⟩ := Domain.calls_pin w.domain t (some o)
  have hcomes : Comes t q (w.dequeue t q) (.dequeued (w.store.values q).head?) (w.domain.thread t).calls
      (w.store.values q).tail := by
    refine comes_call ho hcalls rfl hl fun w₁ g ho₁ hc₁ hl₁ hvals => ?_
    have hrest := comes_dequeue ho₁ rfl rfl hl₁
    rwa [hvals, hc₁] at hrest
  obtain ⟨w', hfinish, ho', hc', hl', hvals⟩ := hcomes
  refine ⟨w', hfinish, mayBegin_iff.mpr ⟨ho', ?_⟩, hl', hvals⟩
  unfold Domain.mayCall at hmay ⊢
  rwa [hc']

/-- An is-empty that nobody disturbs answers right, and leaves what there is. -/
theorem Finishes.isEmpty {L : Layout} (hm : w.mayBegin t = true) (hl : Laid w.store q L) :
    ∃ w', Finishes t (w.isEmpty t q) (.emptiness (w.store.values q).isEmpty) w' ∧
      w'.store.values q = w.store.values q := by
  obtain ⟨ho, hmay⟩ := mayBegin_iff.mp hm
  let o : Operation α := ⟨q, none, { limits := (w.store.queue q).limits }, .access (.isEmpty .loadHead)⟩
  obtain ⟨ph, -, hcalls, -⟩ := Domain.calls_pin w.domain t (some o)
  have hcomes : Comes t q (w.isEmpty t q) (.emptiness (w.store.values q).isEmpty) (w.domain.thread t).calls
      (w.store.values q) := by
    refine comes_call ho hcalls rfl hl fun w₁ g ho₁ hc₁ hl₁ hvals => ?_
    have hrest := comes_isEmpty ho₁ rfl rfl hl₁
    rwa [hvals, hc₁] at hrest
  obtain ⟨w', hfinish, -, -, -, hvals⟩ := hcomes
  exact ⟨w', hfinish, hvals⟩

theorem Dequeues.of_laid {L : Layout} (hm : w.mayBegin t = true) (hl : Laid w.store q L) (n : Nat) :
    ∃ w', Dequeues t q w ((List.range n).map fun i => (w.store.values q)[i]?) w' ∧
      w'.store.values q = (w.store.values q).drop n := by
  induction n generalizing w L with
  | zero => exact ⟨w, .nil w, rfl⟩
  | succ n ih =>
    obtain ⟨w₁, hfinish, hm₁, ⟨L₁, hl₁⟩, hvals₁⟩ := Finishes.dequeue hm hl
    obtain ⟨w', hrest, hvals⟩ := ih hm₁ hl₁
    refine ⟨w', ?_, ?_⟩
    · rw [List.range_succ_eq_map, List.map_cons, List.map_map, ← List.head?_eq_getElem?]
      refine .cons hfinish ?_
      simpa [hvals₁, Function.comp_def] using hrest
    · rw [hvals, hvals₁, List.drop_tail]

end World

end EpochQueue.Fifo
