/-
  EpochQueue.Proofs.Fifo.Fitting — how operations under way and layouts fit together.

  `OpsFit` is what a run never breaks: every queue has its layout, every operation under way fits
  the layout of its queue, and no two operations have the same link for themselves, be it one that
  an enqueue brings or one that a dequeue is about to take the value from.

  `Did` lists what a move can do to the store, the layouts, the stack of the thread and the
  domain. `OpsFit.did` says that there is nothing else, and `Did.opsFit` that none of it breaks
  `OpsFit`; `Reach.opsFit` is the run. The theorems about queues case on `Did` and open no move.
-/

import EpochQueue.Proofs.Apart
import EpochQueue.Proofs.Fifo.Steps

namespace EpochQueue.Fifo

open Reclaim (Guard Notice Domain)

variable {α : Type}

theorem filterMap_cons_toList {β γ : Type} (f : β → Option γ) (x : β) (l : List β) :
    (x :: l).filterMap f = (f x).toList ++ l.filterMap f := by
  rw [List.filterMap_cons]
  cases f x <;> rfl

/-! ## Operations under way -/

/-- The link that an operation has for itself. -/
def Point.mark? (p : Point α) : Option Nat :=
  match p.stage with
  | .waiting n | .taking n => some n
  | _ => none

/-- The operation fits the layout of its queue, and a link that it brings is not in the list yet. -/
structure Operation.Sits (s : Store α) (lay : Nat → Layout) (o : Operation α) : Prop where
  queue : o.queue < s.nextQueue
  fits : o.point.Fits (lay o.queue) 0
  brought : ∀ n, o.point.stage = .waiting n → n ∉ (lay o.queue).nodes ∧ ∃ v, s.Waits o.queue n v

/-- The links that the operations of `t` have for themselves. -/
def World.marks (w : World α) (t : Nat) : List Nat := (w.stack t).filterMap (·.1.point.mark?)

/-- The guards that the operations of `t` hold. -/
def World.grips (w : World α) (t : Nat) : List Guard := (w.stack t).filterMap (·.1.guard)

/-- Every queue has its layout, every operation under way fits the layout of its queue, and no link
    belongs to two operations. -/
structure OpsFit (w : World α) (lay : Nat → Layout) : Prop where
  laid : ∀ q, q < w.store.nextQueue → Laid w.store q (lay q)
  sits : ∀ t, ∀ p ∈ w.stack t, p.1.Sits w.store lay
  apart : Apart w.marks

/-- The layouts, but for one. -/
def relay (lay : Nat → Layout) (q : Nat) (L : Layout) (p : Nat) : Layout := if p = q then L else lay p

@[simp] theorem relay_self (lay : Nat → Layout) (q : Nat) (L : Layout) : relay lay q L q = L := if_pos rfl

theorem relay_of_ne {lay : Nat → Layout} {q p : Nat} {L : Layout} (h : p ≠ q) : relay lay q L p = lay p := if_neg h

theorem Store.isOpen_iff {s : Store α} {q : Nat} :
    s.isOpen q = true ↔ q < s.nextQueue ∧ (s.link (s.queue q).head).freed = false := by
  unfold isOpen
  rw [Bool.and_eq_true, decide_eq_true_eq, Bool.not_eq_true']

theorem Store.isOpen_lt {s : Store α} {q : Nat} (h : s.isOpen q = true) : q < s.nextQueue := (isOpen_iff.mp h).1

/-! ## What a move does -/

/-- The domain rests, or moves as it may while `t` works on no operation; it retires no link, says
    of none that it was freed unless it is, and leaves the operations of `t` their guards. -/
structure World.Calls (w : World α) (t : Nat) (w' : World α) : Prop where
  move : w'.domain = w.domain ∨
    w.operation t = none ∧ ∃ m, w.domain.may t m ∧ w'.domain = w.domain.move t m
  retired : ∀ n, .retired (.link n) ∈ w'.domain.story → .retired (.link n) ∈ w.domain.story
  freed : ∀ n, .freed (.link n) ∈ w'.domain.story →
    .freed (.link n) ∈ w.domain.story ∨ (w'.store.link n).freed = true
  guards : ∀ g ∈ (w.domain.thread t).guards, (∃ o ∈ w.operations t, o.guard = some g) → g ∈ (w'.domain.thread t).guards

/-- How an operation begins: an enqueue with a link of its own. -/
inductive Starts (s : Store α) : Store α → Operation α → Request α → Prop
  | enqueue (q : Nat) (v : α) (b : Backoff) :
      Starts s (s.alloc q (some v)).2 ⟨q, none, b, .access (.enqueue s.nextLink .loadTail)⟩ (.enqueue v)
  | dequeue (q : Nat) (b : Backoff) : Starts s s ⟨q, none, b, .access (.dequeue .loadHead)⟩ .dequeue
  | isEmpty (q : Nat) (b : Backoff) : Starts s s ⟨q, none, b, .access (.isEmpty .loadHead)⟩ .isEmpty

/-- All that a move of `t` can come to, for the store, the layouts, the stack of `t`, the domain and the
    deeds. -/
inductive Did (w : World α) (lay : Nat → Layout) (t : Nat) (m : Move α) (w' : World α) : (Nat → Layout) → Prop
  | called (hdeed : ∀ fresh mine, w.deed? t fresh mine m = none) (hc : w.Calls t w') (hs : w'.store = w.store)
      (hk : w'.stack t = w.stack t) : Did w lay t m w' lay
  | freed (n : Nat) (hn : .link n ∈ (w.domain.thread t).todo) (hdeed : ∀ fresh mine, w.deed? t fresh mine m = none)
      (hc : w.Calls t w') (hs : w'.store = w.store.free n) (hk : w'.stack t = w.stack t)
      (hst : .freed (.link n) ∈ w'.domain.story) : Did w lay t m w' lay
  | made (limits : Limits) (hdeed : ∀ fresh mine, w.deed? t fresh mine m = some (.made w.store.nextQueue))
      (hd : w'.domain = w.domain) (hs : w'.store = (w.store.newQueue limits).2) (hk : w'.stack t = w.stack t) :
      Did w lay t m w' (relay lay w.store.nextQueue ⟨[w.store.nextLink], 0, 0⟩)
  | began (o : Operation α) (r : Request α) (hst : Starts w.store w'.store o r) (hopen : w.store.isOpen o.queue = true)
      (hdeed : ∀ fresh mine, w.deed? t fresh mine m = some (.began fresh o.queue r)) (hc : w.Calls t w')
      (hk : w'.stack t = (o, true) :: w.stack t) : Did w lay t m w' lay
  | accessed (o : Operation α) (spot : Spot) (L' : Layout) (rest : List (Operation α × Bool))
      (hp : o.point = .access spot) (ho : w.stack t = (o, false) :: rest) (hv : Served w.store o spot (lay o.queue) L')
      (hf : Served.Idle w.store o spot (lay o.queue) L' ∨ Served.Appends w.store o spot (lay o.queue) L' ∨
        Served.Removes w.store o spot (lay o.queue) L')
      (hdeed : ∀ fresh mine, w.deed? t fresh mine m = spot.deed? w.store o mine) (hd : w'.domain = w.domain)
      (hs : w'.store = (w.store.access o spot).store) (hk : w'.stack t = ((w.store.access o spot).op, false) :: rest) :
      Did w lay t m w' (relay lay o.queue L')
  | took (o : Operation α) (head next : Nat) (rest : List (Operation α × Bool)) (hp : o.point = .take head next)
      (hop : w.operation t = some o) (ho : w.stack t = (o, false) :: rest)
      (hdeed : ∀ fresh mine, w.deed? t fresh mine m = none)
      (hd : w'.domain = w.domain.retire t (.link head) (some (o.leave (.dequeued (w.store.link next).value))))
      (hs : w'.store = (w.store.takeValue next).2)
      (hk : w'.stack t = (o.leave (.dequeued (w.store.link next).value), false) :: rest) : Did w lay t m w' lay
  | resumed (o : Operation α) (g : Guard) (rest : List (Operation α × Bool)) (ho : w.stack t = (o, true) :: rest)
      (hdeed : ∀ fresh mine, w.deed? t fresh mine m = none) (hc : w.Calls t w')
      (hg : (w'.domain.thread t).guards = g :: (w.domain.thread t).guards)
      (hst : w'.domain.story = w.domain.story ++ [.pinned g]) (hs : w'.store = w.store)
      (hk : w'.stack t = ({ o with guard := some g }, false) :: rest) : Did w lay t m w' lay
  | left (o : Operation α) (r : Outcome α) (rest : List (Operation α × Bool)) (hp : o.point = .leave r)
      (hop : w.operation t = some o) (ho : w.stack t = (o, false) :: rest)
      (hdeed : ∀ fresh mine, w.deed? t fresh mine m = some (.ended mine r))
      (hd : w'.domain = match o.guard with
        | some g => w.domain.unpin t g
        | none => w.domain)
      (hs : w'.store = w.store) (hk : w'.stack t = rest) : Did w lay t m w' lay
  | popped (q n : Nat) (v : α) (L' : Layout) (hq : w.isQuiet q) (hopen : w.store.isOpen q = true)
      (hn : (lay q).nodes[(lay q).head + 1]? = some n) (hl : Laid (w.store.pop q).2 q L') (hg : (lay q).Grows L')
      (hnodes : L'.nodes = (lay q).nodes) (hhead : L'.head = (lay q).head + 1)
      (hoff : Laid.Off w.store (w.store.pop q).2 q (lay q).nodes)
      (hvals : w.store.values q = v :: (w.store.pop q).2.values q)
      (hdeed : ∀ fresh mine, w.deed? t fresh mine m = some (.popped q v)) (hd : w'.domain = w.domain)
      (hs : w'.store = (w.store.pop q).2) (hk : w'.stack t = w.stack t) : Did w lay t m w' (relay lay q L')
  | tornDown (q : Nat) (L' : Layout) (hq : w.isQuiet q) (hopen : w.store.isOpen q = true)
      (hl : Laid (w.store.tearDown q).2 q L') (hg : (lay q).Grows L')
      (hnodes : L'.nodes = (lay q).nodes) (hoff : Laid.Off w.store (w.store.tearDown q).2 q (lay q).nodes)
      (hvals : (w.store.tearDown q).2.values q = []) (hclosed : (w.store.tearDown q).2.isOpen q = false)
      (hdeed : ∀ fresh mine, w.deed? t fresh mine m = some (.tornDown q)) (hd : w'.domain = w.domain)
      (hs : w'.store = (w.store.tearDown q).2) (hk : w'.stack t = w.stack t) : Did w lay t m w' (relay lay q L')

/-! ## There is nothing else -/

namespace World

variable {w w' : World α} {t : Nat}

theorem Calls.of_domain (h : w'.domain = w.domain) : w.Calls t w' :=
  ⟨Or.inl h, fun n hn => by rwa [h] at hn, fun n hn => Or.inl (by rwa [h] at hn), fun g hg _ => by rwa [h]⟩

theorem Calls.of_story {m : Reclaim.Move Garbage (Option (Operation α))} (ho : w.operation t = none)
    (hm : w.domain.may t m) (hd : w'.domain = w.domain.move t m) {x : List (Notice Garbage)}
    (hs : (w.domain.move t m).story = w.domain.story ++ x) (hx : ∀ n, .retired (.link n) ∉ x)
    (hf : ∀ n, .freed (.link n) ∈ x → (w'.store.link n).freed = true)
    (hg : ∀ g ∈ (w.domain.thread t).guards, (∃ o ∈ w.operations t, o.guard = some g) →
      g ∈ ((w.domain.move t m).thread t).guards) : w.Calls t w' := by
  refine ⟨Or.inr ⟨ho, m, hm, hd⟩, fun n hn => ?_, fun n hn => ?_, hd ▸ hg⟩ <;>
    rw [hd, hs] at hn
  · exact (List.mem_append.mp hn).resolve_right (hx n)
  · exact (List.mem_append.mp hn).imp_right (hf n)

theorem Calls.pin (hm : w.mayBegin t = true) {k : Option (Operation α)} (hd : w'.domain = w.domain.pin t k) :
    w.Calls t w' := by
  obtain ⟨ho, hm⟩ := mayBegin_iff.mp hm
  obtain ⟨q, -, -, hg⟩ := Domain.calls_pin w.domain t k
  exact .of_story (m := .pin k) ho hm hd (x := [])
    ((Domain.pin_frame w.domain t k).2.2.trans (List.append_nil _).symm) nofun nofun
    fun g h _ => by dsimp only [Domain.move]; rwa [hg]

theorem Calls.unpin {g : Guard} (hm : w.may t (.unpin g)) : w.Calls t (w.move t (.unpin g)) := by
  obtain ⟨hb, hmem, hno⟩ := hm
  obtain ⟨ho, hb⟩ := mayBegin_iff.mp hb
  refine .of_story (m := .unpin g) ho ⟨hb, hmem⟩ rfl (Domain.unpin_frame w.domain t g).2.2 (by simp) (by simp)
    fun g' hg' hop => ?_
  dsimp only [Domain.move]
  rw [(Domain.calls_unpin w.domain t g).2]
  refine (List.mem_erase_of_ne ?_).mpr hg'
  rintro rfl
  obtain ⟨o, ho, h⟩ := hop
  exact hno o ho h

theorem Calls.retire {i : Nat} (hm : w.may t (.retire i)) : w.Calls t (w.move t (.retire i)) := by
  obtain ⟨ho, hb⟩ := mayBegin_iff.mp hm.1
  obtain ⟨q, -, -, hg, hs⟩ := Domain.calls_retire w.domain t (.object i) (none : Option (Operation α))
  exact .of_story (m := .retire (.object i) none) ho ⟨hb, hm.2⟩ rfl hs (by simp) (by simp)
    fun g h _ => by dsimp only [Domain.move]; rwa [hg]

theorem Calls.flush (hm : w.may t .flush) : w.Calls t (w.move t .flush) := by
  obtain ⟨ho, hb⟩ := mayBegin_iff.mp hm
  obtain ⟨q, -, -, hg⟩ := Domain.calls_flush w.domain t (none : Option (Operation α))
  exact .of_story (m := .flush none) ho hb rfl (x := [])
    ((Domain.flush_frame w.domain t none).2.2.2.trans (List.append_nil _).symm) nofun nofun
    fun g h _ => by dsimp only [Domain.move]; rwa [hg]

theorem Calls.pending (hm : w.may t .pending) : w.Calls t (w.move t .pending) := by
  obtain ⟨ho, hb⟩ := mayBegin_iff.mp hm
  exact .of_story (m := .pending) ho hb rfl (x := [])
    ((Domain.pending_frame w.domain t).2.2.2.trans (List.append_nil _).symm) nofun nofun
    fun g h _ => by dsimp only [Domain.move]; rwa [(Domain.calls_pending w.domain t).2]

theorem Calls.exit (hm : w.may t .exit) : w.Calls t (w.move t .exit) :=
  .of_story (m := .exit) hm.1 hm.2 rfl (x := [])
    ((Domain.calls_exit w.domain t).2.2.trans (List.append_nil _).symm) nofun nofun
    fun g h _ => by dsimp only [Domain.move]; rwa [(Domain.calls_exit w.domain t).2.1]

/-- A step of a call, by what it adds to the story. -/
theorem Calls.step (ho : w.operation t = none) (hc : (w.domain.thread t).calls ≠ [])
    (hd : w'.domain = (w.domain.step t).1) {x : List (Notice Garbage)}
    (hs : (w.domain.step t).1.story = w.domain.story ++ x) (hx : ∀ n, .retired (.link n) ∉ x)
    (hf : ∀ n, .freed (.link n) ∈ x → (w'.store.link n).freed = true)
    (hg : ∀ g ∈ (w.domain.thread t).guards, g ∈ ((w.domain.step t).1.thread t).guards) : w.Calls t w' :=
  .of_story (m := .step) ho hc hd hs hx hf fun g h _ => hg g h

end World

namespace OpsFit

variable {w : World α} {lay : Nat → Layout} {t : Nat}

/-- A step of the innermost call. -/
theorem did_call (hop : w.operation t = none) (hm : (w.domain.thread t).calls ≠ []) :
    Did w lay t .step (w.move t .step) lay := by
  obtain ⟨c, rest, hc⟩ := List.exists_cons_of_ne_nil hm
  have hdeed : ∀ fresh mine, w.deed? t fresh mine .step = none := fun _ _ => by simp [World.deed?, hop]
  have hmove : w.move t .step = (w.stepCall t).1 := by
    dsimp only [World.move, World.step]
    rw [hop]
  have hstep := Domain.step_cases hc
  rw [hmove, World.stepCall_eq]
  generalize hsig : (w.domain.step t).2 = sig at hstep ⊢
  -- a call that goes on keeps its ticket and the guard that it is to answer
  have hsame : ∀ {w' : World α} {q}, w'.operation t = none →
      (w'.domain.thread t).calls = { c with phase := q } :: rest →
      q.pin? = c.phase.pin? → w'.stack t = w.stack t := by
    intro w' q ho' hc' hq
    rw [World.stack_calls ho' hc', World.stack_calls hop hc, hq]
  have hafter : ∀ {w' : World α} {e : Option (Operation α)}, w'.operation t = e → w'.domain = (w.domain.step t).1 →
      ((w.domain.step t).1.thread t).calls = rest → w'.stack t = e.toList.map (·, false) ++
        rest.filterMap fun c => c.ticket.map fun o => (o, c.phase.pin?.isSome) :=
    fun ho' hd hc' => World.stack_eq ho' (hd ▸ hc')
  cases hstep with
  | on q hc' hq hg hs =>
    refine .called hdeed ?_ rfl (hsame hop hc' hq)
    obtain ⟨x, hs, hx⟩ : ∃ x, (w.domain.step t).1.story = w.domain.story ++ x ∧
        ∀ n, .retired (.link n) ∉ x ∧ .freed (.link n) ∉ x := by
      rcases hs with hs | ⟨e, hs⟩
      · exact ⟨[], by rw [hs, List.append_nil], fun _ => ⟨nofun, nofun⟩⟩
      · exact ⟨_, hs, by simp⟩
    exact .step hop hm rfl hs (fun n => (hx n).1) (fun n h => absurd h (hx n).2) fun g h => by rwa [hg]
  | freed n hn q hc' hq hg hs =>
    have hcalls : ∀ w' : World α, w'.domain = (w.domain.step t).1 →
        (∀ i, n = .link i → (w'.store.link i).freed = true) → w.Calls t w' := fun w' hd hf =>
      .step hop hm hd hs (by simp) (fun i hi => hf i (Notice.freed.inj (List.mem_singleton.mp hi)).symm) fun g h => by rwa [hg]
    cases n with
    | link n =>
      refine .freed n ?_ hdeed (hcalls _ rfl fun i e => ?_) rfl (hsame hop hc' hq) ?_
      · exact List.mem_flatMap.mpr ⟨c, by rw [hc]; exact List.mem_cons_self, hn⟩
      · cases e
        rw [Store.link_free, if_pos rfl]
      · dsimp only
        rw [hs]
        exact List.mem_append_right _ List.mem_cons_self
    | object i => exact .called hdeed (hcalls _ rfl nofun) rfl (hsame hop hc' hq)
  | pinned g hp hc' hg hs =>
    have hcalls : ∀ w' : World α, w'.domain = (w.domain.step t).1 → w.Calls t w' := fun w' hd =>
      .step hop hm hd hs (by simp) (by simp) fun g' h => by rw [hg]; exact List.mem_cons_of_mem _ h
    have hk := World.stack_calls hop hc
    cases hticket : c.ticket with
    | none =>
      dsimp only
      refine .called hdeed (hcalls _ rfl) rfl ((hafter (e := none) ?_ rfl hc').trans ?_)
      · exact hop
      · rw [hk, hticket]; rfl
    | some o =>
      rw [hticket, hp] at hk
      dsimp only
      refine .resumed o g _ hk hdeed (hcalls _ rfl) hg hs rfl (hafter (e := some (o.resume (.guard g))) ?_ rfl hc')
      exact World.operation_of_set rfl
  | returned a ha hp hc' hg hs =>
    have hcalls : ∀ w' : World α, w'.domain = (w.domain.step t).1 → w.Calls t w' := fun w' hd =>
      .step hop hm hd (x := []) (hs.trans (List.append_nil _).symm) nofun nofun fun g h => by rwa [hg]
    have hk := World.stack_calls hop hc
    cases hticket : c.ticket with
    | none =>
      dsimp only
      refine .called hdeed (hcalls _ rfl) rfl ((hafter (e := none) ?_ rfl hc').trans ?_)
      · exact hop
      · rw [hk, hticket]; rfl
    | some o =>
      have hres : o.resume a = o := by
        cases a with
        | guard g => exact absurd rfl (ha g)
        | _ => rfl
      dsimp only
      refine .called hdeed (hcalls _ rfl) rfl ((hafter (e := some o) ?_ rfl hc').trans ?_)
      · exact (World.operation_of_set rfl).trans (congrArg some hres)
      · rw [hk, hticket, hp]; rfl

/-- A step of the operation that `t` works on. -/
theorem did_operation (hw : OpsFit w lay) {o : Operation α} (hop : w.operation t = some o) :
    ∃ lay', Did w lay t .step (w.move t .step) lay' := by
  have hk := World.stack_active hop
  have hsits := hw.sits t (o, false) (hk ▸ List.mem_cons_self)
  have hdeed : ∀ fresh mine, w.deed? t fresh mine .step = o.deed? w.store mine := fun _ _ => by simp [World.deed?, hop]
  have hmove : w.move t .step = (w.stepOperation t o).1 := by
    dsimp only [World.move, World.step]
    rw [hop]
  rw [hmove]
  unfold World.stepOperation
  unfold Operation.deed? at hdeed
  cases hp : o.point with
  | access spot =>
    simp only [hp] at hdeed ⊢
    have hn : ∀ node t', spot = .enqueue node (.link t') →
        node ∉ (lay o.queue).nodes ∧ ∃ v, w.store.Waits o.queue node v := by
      rintro node t' rfl
      exact hsits.brought node (by rw [hp]; rfl)
    have hf : spot.Fits (lay o.queue) 0 := by simpa only [hp, Point.Fits] using hsits.fits
    obtain ⟨L', hv, hfine⟩ := (hw.laid o.queue hsits.queue).access hf hn
    exact ⟨_, .accessed o spot L' _ hp hk hv hfine hdeed rfl rfl (World.stack_active (World.operation_of_set rfl))⟩
  | take head next =>
    simp only [hp] at hdeed ⊢
    refine ⟨lay, .took o head next _ hp hop hk hdeed rfl rfl ?_⟩
    obtain ⟨q, hq, hc, -⟩ := Domain.calls_retire w.domain t (.link head)
      (some (o.leave (.dequeued (w.store.link next).value)))
    refine (World.stack_eq (o := none) (World.operation_of_set rfl) hc).trans ?_
    rw [Option.toList_none, List.map_nil, List.nil_append, List.filterMap_cons, hq]
    rfl
  | leave r =>
    simp only [hp] at hdeed ⊢
    refine ⟨lay, .left o r _ hp hop hk hdeed ?_ ?_ ?_⟩
    · cases o.guard <;> rfl
    · cases o.guard <;> rfl
    · cases o.guard with
      | none => exact World.stack_eq (o := none) (World.operation_of_set rfl) rfl
      | some g => exact World.stack_eq (o := none) (World.operation_of_set rfl) (Domain.calls_unpin w.domain t g).1

/-- An operation begins. -/
theorem did_begin {q : Nat} {s : Store α} {spot : Spot} {m : Move α} {r : Request α} (hm : w.mayBegin t = true)
    (hopen : w.store.isOpen q = true) (hmove : w.move t m = World.beginAt { w with store := s } t q spot)
    (hdeed : ∀ fresh mine, w.deed? t fresh mine m = some (.began fresh q r))
    (hst : ∀ b, Starts w.store s ⟨q, none, b, .access spot⟩ r) : Did w lay t m (w.move t m) lay := by
  have hop := (World.mayBegin_iff.mp hm).1
  rw [hmove]
  refine .began ⟨q, none, { limits := (s.queue q).limits }, .access spot⟩ r (hst _) hopen hdeed (.pin hm rfl) ?_
  obtain ⟨ph, hph, hc, -⟩ := Domain.calls_pin w.domain t
    (some (⟨q, none, { limits := (s.queue q).limits }, .access spot⟩ : Operation α))
  have hop' : (World.beginAt { w with store := s } t q spot).operation t = none := hop
  refine (World.stack_push hop hop' hc).trans ?_
  rw [hph]
  rfl

theorem did_pop (hw : OpsFit w lay) {q : Nat} (hm : w.may t (.pop q)) :
    ∃ lay', Did w lay t (.pop q) (w.move t (.pop q)) lay' := by
  obtain ⟨-, hopen, hq⟩ := hm
  have hl := hw.laid q (Store.isOpen_lt hopen)
  have hmove : w.move t (.pop q) = { w with store := (w.store.pop q).2 } := rfl
  rw [hmove]
  cases hn : (lay q).nodes[(lay q).head + 1]? with
  | none =>
    have hpop := Laid.pop_none (q := q) w.store ((hl.next _ _ hl.head).trans hn)
    rw [hpop]
    exact ⟨lay, .called (fun _ _ => by dsimp only [World.deed?]; rw [hpop]; rfl) (.of_domain rfl) rfl rfl⟩
  | some n =>
    obtain ⟨v, L', hv, hl', hnodes, hhead, htail, hoff, hvals⟩ := hl.pop_some hn
    refine ⟨_, .popped q n v L' hq hopen hn hl' ⟨hnodes ▸ List.prefix_refl _, ?_, htail⟩ hnodes hhead hoff hvals
      (fun _ _ => by dsimp only [World.deed?]; rw [hv]; rfl) rfl rfl rfl⟩
    rw [hhead]
    exact Nat.le_succ _

/-- Whatever is moved, it is one of these. -/
theorem did (hw : OpsFit w lay) {m : Move α} (hm : w.may t m) : ∃ lay', Did w lay t m (w.move t m) lay' := by
  have hrest : ∀ m, (w.move t m).store = w.store → w.Calls t (w.move t m) → (w.move t m).stack t = w.stack t →
      (∀ fresh mine, w.deed? t fresh mine m = none) → ∃ lay', Did w lay t m (w.move t m) lay' :=
    fun m hs hc hk hdeed => ⟨lay, .called hdeed hc hs hk⟩
  cases m with
  | pin =>
    have hop := (World.mayBegin_iff.mp hm).1
    obtain ⟨q, -, hc, -⟩ := Domain.calls_pin w.domain t (none : Option (Operation α))
    exact hrest _ rfl (.pin hm rfl) (World.stack_push (k := none) hop hop hc) fun _ _ => rfl
  | unpin g => exact hrest _ rfl (.unpin hm) (World.stack_congr rfl (Domain.calls_unpin w.domain t g).1) fun _ _ => rfl
  | retire i =>
    have hop := (World.mayBegin_iff.mp hm.1).1
    obtain ⟨q, -, hc, -⟩ := Domain.calls_retire w.domain t (.object i) (none : Option (Operation α))
    exact hrest _ rfl (.retire hm) (World.stack_push (k := none) hop hop hc) fun _ _ => rfl
  | flush =>
    have hop := (World.mayBegin_iff.mp hm).1
    obtain ⟨q, -, hc, -⟩ := Domain.calls_flush w.domain t (none : Option (Operation α))
    exact hrest _ rfl (.flush hm) (World.stack_push (k := none) hop hop hc) fun _ _ => rfl
  | pending =>
    exact hrest _ rfl (.pending hm) (World.stack_congr rfl (Domain.calls_pending w.domain t).1) fun _ _ => rfl
  | exit => exact hrest _ rfl (.exit hm) (World.stack_congr rfl (Domain.calls_exit w.domain t).1) fun _ _ => rfl
  | newQueue limits => exact ⟨_, .made limits (fun _ _ => rfl) rfl rfl rfl⟩
  | tryEnqueue q v memory =>
    cases memory with
    | true => exact ⟨lay, did_begin hm.1 hm.2 rfl (fun _ _ => rfl) fun b => .enqueue q v b⟩
    | false => exact hrest _ rfl (.of_domain rfl) rfl fun _ _ => rfl
  | dequeue q => exact ⟨lay, did_begin (s := w.store) hm.1 hm.2 rfl (fun _ _ => rfl) fun b => .dequeue q b⟩
  | isEmpty q => exact ⟨lay, did_begin (s := w.store) hm.1 hm.2 rfl (fun _ _ => rfl) fun b => .isEmpty q b⟩
  | pop q => exact hw.did_pop hm
  | tearDown q =>
    obtain ⟨-, hopen, hq⟩ := hm
    obtain ⟨L', hl', hnodes, hhead, htail, hoff, -, hvals, hclosed⟩ := (hw.laid q (Store.isOpen_lt hopen)).tearDown
    exact ⟨_, .tornDown q L' hq hopen hl' ⟨hnodes ▸ List.prefix_refl _, hhead, htail⟩ hnodes hoff hvals hclosed
      (fun _ _ => rfl) rfl rfl rfl⟩
  | step =>
    cases hop : w.operation t with
    | some o => exact hw.did_operation hop
    | none => exact ⟨lay, did_call hop fun hc => hm ⟨hop, hc⟩⟩

end OpsFit

/-! ## Nothing comes undone -/

theorem Store.Waits.congr {s s' : Store α} {q n : Nat} {v : α} (h : s.Waits q n v) (hb : s.nextLink ≤ s'.nextLink)
    (hl : (s'.link n).home = (s.link n).home ∧ (s'.link n).next = (s.link n).next ∧
      (s'.link n).value = (s.link n).value) : s'.Waits q n v :=
  ⟨Nat.lt_of_lt_of_le h.bound hb, hl.1.trans h.home, hl.2.1.trans h.next, hl.2.2.trans h.value⟩

theorem Layout.Grows.relay {lay : Nat → Layout} {q p : Nat} {L : Layout} (h : (lay q).Grows L) :
    (lay p).Grows (relay lay q L p) := by
  by_cases e : p = q
  · subst e; rwa [relay_self]
  · rw [relay_of_ne e]; exact .refl _

namespace Operation.Sits

variable {s s' : Store α} {lay : Nat → Layout} {o : Operation α}

/-- The store changes, but not where the operation has its link. -/
theorem keep (h : o.Sits s lay) {lay' : Nat → Layout} (hg : (lay o.queue).Grows (lay' o.queue))
    (hnq : s.nextQueue ≤ s'.nextQueue) (hnl : s.nextLink ≤ s'.nextLink)
    (hw : ∀ n, o.point.stage = .waiting n → n ∉ (lay o.queue).nodes → n < s.nextLink → (s.link n).home = o.queue →
      n ∉ (lay' o.queue).nodes ∧ (s'.link n).home = (s.link n).home ∧ (s'.link n).next = (s.link n).next ∧
        (s'.link n).value = (s.link n).value) : o.Sits s' lay' := by
  refine ⟨Nat.lt_of_lt_of_le h.queue hnq, h.fits.grows hg, fun n hn => ?_⟩
  obtain ⟨hnew, v, hv⟩ := h.brought n hn
  obtain ⟨hnew', hl⟩ := hw n hn hnew hv.bound hv.home
  exact ⟨hnew', v, hv.congr hnl hl⟩

/-- The same if only one queue changes, in what it has linked. -/
theorem off (h : o.Sits s lay) {q : Nat} {L' : Layout} (hl : Laid s q (lay q))
    (hg : (lay q).Grows L') (ho : Laid.Off s s' q (lay q).nodes)
    (hne : ∀ n, o.point.stage = .waiting n → o.queue = q → n ∈ L'.nodes → n ∈ (lay q).nodes) :
    o.Sits s' (relay lay q L') := by
  refine h.keep hg.relay (Nat.le_of_eq ho.nextQueue.symm) ho.nextLink fun n hn hnew hb hh => ?_
  have hnot : n ∉ (lay q).nodes := fun hm => by
    have := hl.home n hm
    rw [hh] at this
    exact hnew (this ▸ hm)
  refine ⟨fun hm => ?_, by rw [ho.link n hnot]; exact ⟨rfl, rfl, rfl⟩⟩
  by_cases e : o.queue = q
  · rw [e, relay_self] at hm
    exact hnot (hne n hn e hm)
  · rw [relay_of_ne e] at hm
    exact hnew hm

end Operation.Sits

namespace OpsFit

variable {w w' : World α} {lay lay' : Nat → Layout} {t : Nat}

/-- The stacks stay as they are. -/
theorem keep (hw : OpsFit w lay) (hk : ∀ u, w'.stack u = w.stack u)
    (hlaid : ∀ q, q < w'.store.nextQueue → Laid w'.store q (lay' q))
    (hsits : ∀ u, ∀ p ∈ w.stack u, p.1.Sits w'.store lay') : OpsFit w' lay' := by
  refine ⟨hlaid, fun u p hp => hsits u p (hk u ▸ hp), ?_⟩
  have hmarks : w'.marks = w.marks := funext fun u => by unfold World.marks; rw [hk]
  exact hmarks ▸ hw.apart

/-- A link that the operation on top of a stack has for itself is nobody else's. -/
theorem mark_top (hw : OpsFit w lay) {o : Operation α} {b : Bool} {rest : List (Operation α × Bool)}
    (ho : w.stack t = (o, b) :: rest) {n : Nat} (hmine : o.point.mark? = some n) {u : Nat} {p : Operation α × Bool}
    (hp : p ∈ w.stack u) (hn : p.1.point.mark? = some n) : u = t ∧ p ∉ rest := by
  have hmarks : w.marks t = n :: rest.filterMap (·.1.point.mark?) := by
    rw [World.marks, ho, List.filterMap_cons, hmine]
  refine ⟨hw.apart.owner u t n (List.mem_filterMap.mpr ⟨p, hp, hn⟩) (hmarks ▸ List.mem_cons_self), fun hrest => ?_⟩
  have hnd := hw.apart.nodup t
  rw [hmarks] at hnd
  exact (List.nodup_cons.mp hnd).1 (List.mem_filterMap.mpr ⟨p, hrest, hn⟩)

/-- The operation on top of a stack goes on. -/
theorem turn (hw : OpsFit w lay) (hu : ∀ u, u ≠ t → w'.stack u = w.stack u) {o o' : Operation α} {b b' : Bool}
    {rest : List (Operation α × Bool)} (ho : w.stack t = (o, b) :: rest) (hk : w'.stack t = (o', b') :: rest)
    (hlaid : ∀ q, q < w'.store.nextQueue → Laid w'.store q (lay' q))
    (hothers : ∀ u, ∀ p ∈ w.stack u, (∀ n, p.1.point.mark? = some n → o.point.mark? ≠ some n) → p.1.Sits w'.store lay')
    (hmine : o'.Sits w'.store lay')
    (hmark : o'.point.mark? = none ∨ o'.point.mark? = o.point.mark? ∨
      ∃ n, o'.point.mark? = some n ∧ ∀ u, n ∉ w.marks u) : OpsFit w' lay' := by
  have hmarks : ∀ {v : World α} {q c}, v.stack t = (q, c) :: rest →
      v.marks t = q.point.mark?.toList ++ rest.filterMap (·.1.point.mark?) := fun h => by
    rw [World.marks, h, filterMap_cons_toList]
  have hmarks_of_ne : ∀ u, u ≠ t → w'.marks u = w.marks u := fun u e => by unfold World.marks; rw [hu u e]
  refine ⟨hlaid, fun u p hp => ?_, hw.apart.turn hmarks_of_ne (hmarks ho) (hmarks hk) hmark⟩
  by_cases e : u = t
  · subst e
    rw [hk] at hp
    rcases List.mem_cons.mp hp with rfl | hp
    · exact hmine
    · have hold : p ∈ w.stack u := ho ▸ List.mem_cons_of_mem _ hp
      exact hothers u p hold fun n hn hno => (hw.mark_top ho hno hold hn).2 hp
  · rw [hu u e] at hp
    exact hothers u p hp fun n hn hno => e (hw.mark_top ho hno hp hn).1

/-- A link that an operation has for itself was allocated for its queue. -/
theorem mark (hw : OpsFit w lay) {p : Operation α × Bool} (hp : p ∈ w.stack t) {n : Nat}
    (hn : p.1.point.mark? = some n) : n < w.store.nextLink ∧ (w.store.link n).home = p.1.queue := by
  have hs := hw.sits t p hp
  unfold Point.mark? at hn
  cases hstage : p.1.point.stage with
  | waiting m =>
    rw [hstage] at hn
    cases hn
    obtain ⟨-, v, hv⟩ := hs.brought n hstage
    exact ⟨hv.bound, hv.home⟩
  | taking m =>
    rw [hstage] at hn
    cases hn
    obtain ⟨j, -, hj⟩ := hs.fits.taking hstage
    have hl := hw.laid _ hs.queue
    exact ⟨hl.bound n (Laid.mem hj), hl.home n (Laid.mem hj)⟩
  | _ => rw [hstage] at hn; cases hn

theorem mark_lt (hw : OpsFit w lay) {n : Nat} (hn : n ∈ w.marks t) : n < w.store.nextLink := by
  obtain ⟨p, hp, hn⟩ := List.mem_filterMap.mp hn
  exact (hw.mark hp hn).1

/-- Behind the head no link is anybody's own. -/
theorem unmarked (hw : OpsFit w lay) {q i n : Nat} (hq : q < w.store.nextQueue) (hi : (lay q).nodes[i]? = some n)
    (hlt : (lay q).head < i) (u : Nat) : n ∉ w.marks u := by
  intro hm
  obtain ⟨p, hp, hm⟩ := List.mem_filterMap.mp hm
  have hs := hw.sits u p hp
  have hl := hw.laid q hq
  have hq : p.1.queue = q := (hw.mark hp hm).2.symm.trans (hl.home n (Laid.mem hi))
  unfold Point.mark? at hm
  cases hstage : p.1.point.stage with
  | waiting m =>
    rw [hstage] at hm
    cases hm
    exact (hs.brought n hstage).1 (by rw [hq]; exact Laid.mem hi)
  | taking m =>
    rw [hstage] at hm
    cases hm
    obtain ⟨j, hj, hm⟩ := hs.fits.taking hstage
    rw [hq] at hj hm
    have := hl.place hi hm
    omega
  | _ => rw [hstage] at hm; cases hm

/-- One queue changes in what it has linked. -/
theorem laid_off (hw : OpsFit w lay) {s : Store α} {q : Nat} {L' : Layout} (hl' : Laid s q L')
    (ho : Laid.Off w.store s q (lay q).nodes) (hq : q < w.store.nextQueue) :
    ∀ p, p < s.nextQueue → Laid s p (relay lay q L' p) := by
  intro p hp
  by_cases e : p = q
  · subst e; rwa [relay_self]
  · rw [relay_of_ne e]
    rw [ho.nextQueue] at hp
    exact ((hw.laid p hp).off ho e ((hw.laid q hq).disjoint (hw.laid p hp) e)).1

/-- The only owner of a queue changes it. -/
theorem alone (hw : OpsFit w lay) (hk : ∀ u, w'.stack u = w.stack u) {q : Nat} {L' : Layout} (hquiet : w.isQuiet q)
    (hq : q < w.store.nextQueue) (hl' : Laid w'.store q L') (hg : (lay q).Grows L')
    (ho : Laid.Off w.store w'.store q (lay q).nodes) : OpsFit w' (relay lay q L') := by
  refine hw.keep hk (hw.laid_off hl' ho hq) fun u p hp => (hw.sits u p hp).off (hw.laid q hq) hg ho fun n _ e => ?_
  exact absurd e (hquiet u p.1 (by rw [World.operations_eq]; exact List.mem_map_of_mem hp))

theorem began (hw : OpsFit w lay) (hu : ∀ u, u ≠ t → w'.stack u = w.stack u) {o : Operation α} {r : Request α}
    (hst : Starts w.store w'.store o r) (hq : o.queue < w.store.nextQueue) (hk : w'.stack t = (o, true) :: w.stack t) :
    OpsFit w' lay := by
  have hmem : ∀ u, ∀ p ∈ w'.stack u, p = (o, true) ∨ p ∈ w.stack u := fun u p hp => by
    by_cases e : u = t
    · subst e; exact List.mem_cons.mp (hk ▸ hp)
    · exact Or.inr (hu u e ▸ hp)
  have hmarks : ∀ u, u ≠ t → w'.marks u = w.marks u := fun u e => by unfold World.marks; rw [hu u e]
  generalize hs : w'.store = s at hst
  cases hst with
  | enqueue q v b =>
    have hold : ∀ n, n < w.store.nextLink → (w.store.alloc q (some v)).2.link n = w.store.link n := fun n hn => by
      rw [Store.link_alloc, if_neg (Nat.ne_of_lt hn)]
    have hnew : (w.store.alloc q (some v)).2.link w.store.nextLink = ⟨some v, none, q, false⟩ := by
      rw [Store.link_alloc, if_pos rfl]
    refine ⟨fun p hp => ?_, fun u p hp => ?_, ?_⟩
    · rw [hs] at hp ⊢
      exact (hw.laid p hp).alloc _ _
    · rw [hs]
      rcases hmem u p hp with rfl | hp
      · refine ⟨hq, trivial, fun n hn => ?_⟩
        cases hn
        exact ⟨fun hm => Nat.lt_irrefl _ ((hw.laid q hq).bound _ hm), v, Nat.lt_succ_self _, by rw [hnew], by rw [hnew],
          by rw [hnew]⟩
      · exact (hw.sits u p hp).keep (.refl _) (Nat.le_refl _) (Nat.le_succ _)
          fun n _ hn hb _ => ⟨hn, by rw [hold n hb]; exact ⟨rfl, rfl, rfl⟩⟩
    · refine hw.apart.grow hmarks (x := w.store.nextLink) ?_ (List.Sublist.refl _) fun u hm =>
        Nat.lt_irrefl _ (hw.mark_lt hm)
      unfold World.marks
      rw [hk]
      rfl
  | _ =>
    refine ⟨fun p hp => hs ▸ hw.laid p (hs ▸ hp), fun u p hp => ?_, ?_⟩
    · rw [hs]
      rcases hmem u p hp with rfl | hp
      · exact ⟨hq, trivial, nofun⟩
      · exact hw.sits u p hp
    · refine hw.apart.shrink hmarks ?_
      unfold World.marks
      rw [hk]
      exact List.Sublist.refl _

theorem accessed (hw : OpsFit w lay) (hu : ∀ u, u ≠ t → w'.stack u = w.stack u) {o : Operation α} {spot : Spot}
    {L' : Layout} {rest : List (Operation α × Bool)} (hp : o.point = .access spot) (ho : w.stack t = (o, false) :: rest)
    (hv : Served w.store o spot (lay o.queue) L')
    (hf : Served.Idle w.store o spot (lay o.queue) L' ∨ Served.Appends w.store o spot (lay o.queue) L' ∨
      Served.Removes w.store o spot (lay o.queue) L')
    (hs : w'.store = (w.store.access o spot).store) (hk : w'.stack t = ((w.store.access o spot).op, false) :: rest) :
    OpsFit w' (relay lay o.queue L') := by
  have hsits := hw.sits t (o, false) (ho ▸ List.mem_cons_self)
  have hl := hw.laid _ hsits.queue
  -- a link that waits elsewhere is not the one that joins
  have hothers : ∀ u, ∀ p ∈ w.stack u, (∀ n, p.1.point.mark? = some n → o.point.mark? ≠ some n) →
      p.1.Sits w'.store (relay lay o.queue L') := by
    intro u p hmem hmark
    rw [hs]
    refine (hw.sits u p hmem).off hl hv.grows hv.off fun n hn _ hjoin => ?_
    rcases hf with hf | ⟨node, tail, v, rfl, -, -, hnodes, -⟩ | ⟨head, next, v, -, -, -, hnodes, -⟩
    · exact hf.nodes ▸ hjoin
    · refine (List.mem_append.mp (hnodes ▸ hjoin)).resolve_right fun e => ?_
      cases List.mem_singleton.mp e
      exact hmark n (by unfold Point.mark?; rw [hn]) (by rw [hp]; rfl)
    · exact hnodes ▸ hjoin
  have hop : o.point.stage = (Point.access spot : Point α).stage := by rw [hp]
  have hfit : (w.store.access o spot).op.point.Fits L' 0 := hv.fits 0 (Nat.zero_le _) (by
    have := hsits.fits
    rwa [show o.point = _ from hp] at this)
  refine hw.turn hu ho hk (hs ▸ hw.laid_off hv.laid hv.off hsits.queue) hothers ⟨?_, ?_, fun n hn => ?_⟩ ?_
  · rw [hs, hv.off.nextQueue, hv.queue]; exact hsits.queue
  · rw [hv.queue, relay_self]; exact hfit
  · rw [hv.queue, relay_self, hs]
    obtain ⟨hwait, hnodes⟩ := Served.waiting hf hn
    obtain ⟨hnew, v, hwaits⟩ := hsits.brought n (hop.trans hwait)
    refine ⟨hnodes ▸ hnew, v, hwaits.congr hv.off.nextLink ?_⟩
    rw [hv.off.link n hnew]
    exact ⟨rfl, rfl, rfl⟩
  · rcases hf with hf | ⟨node, tail, v, rfl, -, hst, -⟩ | ⟨head, next, v, rfl, -, hpt, hnodes, hhead, -⟩
    · rcases hf.stage with h | ⟨-, h⟩ | ⟨-, h, -⟩
      · exact Or.inr (Or.inl (by unfold Point.mark?; rw [hop, h]))
      · exact Or.inl (by unfold Point.mark?; rw [h])
      · exact Or.inl (by unfold Point.mark?; rw [h])
    · exact Or.inl (by unfold Point.mark?; rw [hst])
    · rw [hpt] at hfit
      obtain ⟨i, -, -, hi, hn⟩ := hfit
      rw [hnodes] at hi hn
      have hfree := hw.unmarked hsits.queue (hl.place hi hhead ▸ hn) (Nat.lt_succ_self _)
      exact Or.inr (Or.inr ⟨next, by rw [hpt]; rfl, hfree⟩)

theorem took (hw : OpsFit w lay) (hu : ∀ u, u ≠ t → w'.stack u = w.stack u) {o : Operation α} {head next : Nat}
    {r : Outcome α} {rest : List (Operation α × Bool)} (hp : o.point = .take head next)
    (hr : (Point.leave r).mark? = none) (ho : w.stack t = (o, false) :: rest)
    (hs : w'.store = (w.store.takeValue next).2) (hk : w'.stack t = (o.leave r, false) :: rest) : OpsFit w' lay := by
  have hsits := hw.sits t (o, false) (ho ▸ List.mem_cons_self)
  have hwaits : ∀ n, (Point.leave r : Point α).stage ≠ .waiting n := fun n h => by
    unfold Point.mark? at hr; rw [h] at hr; cases hr
  refine hw.turn hu ho hk (fun q hq => ?_) (fun u p hmem hmark => ?_) ?_ (Or.inl hr) <;> rw [hs] at *
  · refine (hw.laid q hq).takeValue fun i hi => ?_
    refine Nat.le_of_not_lt fun hlt => hw.unmarked hq hi hlt t (List.mem_filterMap.mpr ⟨(o, false), ?_, ?_⟩)
    · exact ho ▸ List.mem_cons_self
    · unfold Point.mark?
      rw [show (o, false).1.point = _ from hp]
      rfl
  · refine (hw.sits u p hmem).keep (.refl _) (Nat.le_refl _) (Nat.le_refl _) fun n hn hnew _ _ => ⟨hnew, ?_⟩
    rw [Store.link_takeValue, if_neg]
    · exact ⟨rfl, rfl, rfl⟩
    · rintro rfl
      exact hmark n (by unfold Point.mark?; rw [hn]) (by rw [hp]; rfl)
  · exact ⟨hsits.queue, trivial, fun n hn => absurd hn (hwaits n)⟩

end OpsFit

/-- No move breaks that. -/
theorem Did.opsFit {w w' : World α} {lay lay' : Nat → Layout} {t : Nat} {m : Move α} (hd : Did w lay t m w' lay')
    (hw : OpsFit w lay) (hu : ∀ u, u ≠ t → w'.stack u = w.stack u) : OpsFit w' lay' := by
  have hsame : w'.stack t = w.stack t → ∀ u, w'.stack u = w.stack u := fun h u => by
    by_cases e : u = t
    · rw [e, h]
    · exact hu u e
  cases hd with
  | called _ _ hs hk => exact hw.keep (hsame hk) (hs ▸ hw.laid) (hs ▸ hw.sits)
  | freed n _ _ _ hs hk =>
    refine hw.keep (hsame hk) (fun q hq => ?_) fun u p hp => ?_ <;> rw [hs] at *
    · exact (hw.laid q hq).free n
    · refine (hw.sits u p hp).keep (.refl _) (Nat.le_refl _) (Nat.le_refl _) fun m _ hm _ _ => ⟨hm, ?_⟩
      rw [Store.link_free]
      split
      · subst m; exact ⟨rfl, rfl, rfl⟩
      · exact ⟨rfl, rfl, rfl⟩
  | made limits _ _ hs hk =>
    obtain ⟨hl, hlink, hold⟩ := Laid.newQueue w.store limits
    refine hw.keep (hsame hk) (fun q hq => ?_) fun u p hp => ?_ <;> rw [hs] at *
    · by_cases e : q = w.store.nextQueue
      · subst e; rwa [relay_self]
      · rw [relay_of_ne e]
        exact (hold q _ e (hw.laid q (Nat.lt_of_le_of_ne (Nat.le_of_lt_succ hq) e))).1
    · have hsits := hw.sits u p hp
      have hlay : relay lay w.store.nextQueue ⟨[w.store.nextLink], 0, 0⟩ p.1.queue = lay p.1.queue :=
        relay_of_ne (Nat.ne_of_lt hsits.queue)
      refine hsits.keep (hlay ▸ .refl _) (Nat.le_succ _) (Nat.le_succ _) fun n _ hn hb _ => ⟨hlay ▸ hn, ?_⟩
      rw [hlink, if_neg (Nat.ne_of_lt hb)]
      exact ⟨rfl, rfl, rfl⟩
  | began o r hst hopen _ _ hk => exact hw.began hu hst (Store.isOpen_lt hopen) hk
  | accessed o spot L' rest hp ho hv hf _ _ hs hk => exact hw.accessed hu hp ho hv hf hs hk
  | took o head next rest hp _ ho _ _ hs hk =>
    refine hw.took hu hp ?_ ho hs hk
    cases (w.store.link next).value <;> rfl
  | resumed o g rest ho _ _ _ _ hs hk =>
    have hsits := hw.sits t (o, true) (ho ▸ List.mem_cons_self)
    exact hw.turn hu ho hk (hs ▸ hw.laid) (fun u p hp _ => hs ▸ hw.sits u p hp)
      (hs ▸ ⟨hsits.queue, hsits.fits, hsits.brought⟩) (Or.inr (Or.inl rfl))
  | left o r rest _ _ ho _ _ hs hk =>
    have hsub : ∀ u, (w'.stack u).Sublist (w.stack u) := fun u => by
      by_cases e : u = t
      · subst e; rw [hk, ho]; exact List.sublist_cons_self _ _
      · rw [hu u e]
    refine ⟨hs ▸ hw.laid, fun u p hp => hs ▸ hw.sits u p ((hsub u).subset hp), ?_⟩
    exact hw.apart.shrink (fun u e => by unfold World.marks; rw [hu u e]) ((hsub t).filterMap _)
  | popped q n v L' hq hopen _ hl hg _ _ hoff _ _ _ hs hk =>
    exact hw.alone (hsame hk) hq (Store.isOpen_lt hopen) (hs ▸ hl) hg (hs ▸ hoff)
  | tornDown q L' hq hopen hl hg _ hoff _ _ _ _ hs hk =>
    exact hw.alone (hsame hk) hq (Store.isOpen_lt hopen) (hs ▸ hl) hg (hs ▸ hoff)

/-- A run weaves on. -/
theorem World.Reach.opsFit {w : World α} (h : w.Reach) : ∃ lay, OpsFit w lay := by
  induction h with
  | start => exact ⟨fun _ => ⟨[], 0, 0⟩, nofun, nofun, .empty⟩
  | move t m _ hm ih =>
    obtain ⟨lay, hw⟩ := ih
    obtain ⟨lay', hd⟩ := hw.did hm
    exact ⟨lay', hd.opsFit hw fun u e => World.stack_of_ne e m⟩

end EpochQueue.Fifo
