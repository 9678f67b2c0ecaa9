/-
  EpochQueue.Proofs.Reclaim.Handling — what a move does with garbage, in one place.

  A thread hoards a batch and bags until they can be destroyed; without a handle it hoards
  nothing. `Handled d t d' x` lists the ways in which a move of `t` may handle garbage, with the
  notice `x` that it adds to the story: a retired node joins the batch, fills it up, or is cast
  among the orphans; a batch is sealed; a thread that leaves casts all it has; a collection
  sorts the bags within its reach; and a node that was taken out is destroyed.
  `Owned.handled` says that every permitted move is one of these.
-/

import EpochQueue.Proofs.Reclaim.Turns

namespace EpochQueue.Reclaim

variable {ν κ : Type}

/-- What a thread keeps until it can be destroyed. -/
structure Hoard (ν : Type) where
  batch : List ν := []
  batchLen : Nat := 0
  bags : List (Bag ν) := []

namespace Hoard

def add (h : Hoard ν) (n : ν) : Hoard ν := { h with batch := n :: h.batch, batchLen := h.batchLen + 1 }

def sealed (h : Hoard ν) (e : Epoch) : Hoard ν :=
  if h.batchLen = 0 then h else ⟨[], 0, h.bags ++ [⟨e, h.batch, h.batchLen⟩]⟩

end Hoard

def Handle.hoard (h : Handle ν) : Hoard ν := ⟨h.batch, h.batchLen, h.bags⟩

theorem Handle.hoard_sealBatch (h : Handle ν) (e : Epoch) : (h.sealBatch e).hoard = h.hoard.sealed e := by
  unfold sealBatch Hoard.sealed
  by_cases h0 : h.batchLen = 0
  · rw [if_pos h0, if_pos (show h.hoard.batchLen = 0 from h0)]
  · rw [if_neg h0, if_neg (show h.hoard.batchLen ≠ 0 from h0)]
    rfl

namespace Thread

def hoard (th : Thread ν κ) : Hoard ν := (th.tenure.handle?.map (·.hoard)).getD {}

theorem hoard_of_handle {th : Thread ν κ} {h : Handle ν} (hh : th.tenure.handle? = some h) : th.hoard = h.hoard := by
  simp [hoard, hh]

theorem hoard_of_gone {th : Thread ν κ} (hh : th.tenure.handle? = none) : th.hoard = {} := by
  simp [hoard, hh]

theorem batch_hoard (th : Thread ν κ) : th.hoard.batch = th.batch := by
  unfold hoard batch
  cases th.tenure.handle? <;> rfl

theorem bags_hoard (th : Thread ν κ) : th.hoard.bags = th.bags := by
  unfold hoard bags
  cases th.tenure.handle? <;> rfl

end Thread

/-- A node is handed over, or destroyed. -/
def Notice.isDisposal : Notice ν → Bool
  | .retired _ | .freed _ => true
  | _ => false

namespace Domain

/-- All that a move of `t` can do with garbage, by what it adds to the story. -/
inductive Handled (d : Domain ν κ) (t : Nat) (d' : Domain ν κ) : Option (Notice ν) → Prop
  /-- All garbage stays where it is. -/
  | kept {x : Option (Notice ν)} (hx : x.any (·.isDisposal) = false)
      (hoard : (d'.thread t).hoard = (d.thread t).hoard) (orphans : d'.orphans = d.orphans)
      (todo : (d'.thread t).todo = (d.thread t).todo) : Handled d t d' x
  | batched (n : ν) (room : (d.thread t).hoard.batchLen + 1 < bagCapacity)
      (hoard : (d'.thread t).hoard = (d.thread t).hoard.add n) (orphans : d'.orphans = d.orphans)
      (todo : (d'.thread t).todo = (d.thread t).todo) : Handled d t d' (some (.retired n))
  | filled (n : ν) (full : bagCapacity ≤ (d.thread t).hoard.batchLen + 1)
      (hoard : (d'.thread t).hoard = ((d.thread t).hoard.add n).sealed d.registry.epoch)
      (orphans : d'.orphans = d.orphans) (todo : (d'.thread t).todo = (d.thread t).todo) :
      Handled d t d' (some (.retired n))
  | cast (n : ν) (hoard : (d'.thread t).hoard = (d.thread t).hoard)
      (orphans : d'.orphans = d.orphans ++ [Bag.single d.registry.epoch n])
      (todo : (d'.thread t).todo = (d.thread t).todo) : Handled d t d' (some (.retired n))
  | sealed (hoard : (d'.thread t).hoard = (d.thread t).hoard.sealed d.registry.epoch)
      (orphans : d'.orphans = d.orphans) (todo : (d'.thread t).todo = (d.thread t).todo) : Handled d t d' none
  | left (hoard : (d'.thread t).hoard = {})
      (orphans : d'.orphans = d.orphans ++ ((d.thread t).hoard.sealed d.registry.epoch).bags)
      (todo : (d'.thread t).todo = (d.thread t).todo) : Handled d t d' none
  /-- What has expired at `g` is taken out of the pool. -/
  | sorted (g : Epoch) (batch : (d'.thread t).hoard.batch = (d.thread t).hoard.batch)
      (batchLen : (d'.thread t).hoard.batchLen = (d.thread t).hoard.batchLen)
      (pool : d'.pool t = (d.pool t).filter (!·.isExpired g))
      (todo : (d'.thread t).todo = Bag.contents ((d.pool t).filter (·.isExpired g)) ++ (d.thread t).todo) :
      Handled d t d' none
  | destroyed (n : ν) (hoard : (d'.thread t).hoard = (d.thread t).hoard) (orphans : d'.orphans = d.orphans)
      (todo : (d.thread t).todo = n :: (d'.thread t).todo) : Handled d t d' (some (.freed n))

section

variable {d d' : Domain ν κ} {t : Nat} {k : κ} {h : Handle ν}

theorem hoard_eq (hh : d.handle? t = some h) : (d.thread t).hoard = h.hoard :=
  Thread.hoard_of_handle (handle?_eq d t ▸ hh)

theorem hoard_eq_empty (hh : d.handle? t = none) : (d.thread t).hoard = {} :=
  Thread.hoard_of_gone (handle?_eq d t ▸ hh)

/-! ## Calls that are opened -/

theorem todo_pinBy (th : Thread ν κ) (h : Handle ν) (tid : Nat) (k : κ) (e : Epoch) :
    (th.pinBy h tid k e).todo = th.todo := by
  by_cases h0 : h.pinCount = 0 <;> simp [Thread.pinBy, Thread.todo, h0, Phase.todo]

theorem handled_pin (d : Domain ν κ) (t : Nat) (k : κ) : Handled d t (d.pin t k) none := by
  have horphans := (pin_frame d t k).1
  cases hh : d.handle? t with
  | some h =>
    have hby : ∀ tid e, (d.pin t k).thread t = (d.thread t).pinBy h tid k e → Handled d t (d.pin t k) none :=
      fun tid e ht => .kept rfl (by rw [ht, hoard_eq hh]; rfl) horphans (by rw [ht, todo_pinBy])
    cases hslot : h.slot with
    | some tid => exact hby _ _ (by rw [thread_pin_of_slot hh hslot, if_pos rfl])
    | none => exact hby _ _ (by rw [thread_pin_of_no_slot hh hslot, if_pos rfl])
  | none =>
    have ht := thread_pin_of_gone (k := k) hh t
    rw [if_pos rfl] at ht
    exact .kept rfl (by rw [ht]; rfl) horphans (by rw [ht]; simp [Thread.pinDetached, Thread.todo, Phase.todo])

theorem todo_opened {th : Thread ν κ} {tenure : Tenure ν} {q : Phase ν} (hq : q.todo = []) :
    ({ th with tenure, calls := ⟨k, q⟩ :: th.calls } : Thread ν κ).todo = th.todo := by
  simp [Thread.todo, hq]

theorem handled_retire (d : Domain ν κ) (t : Nat) (n : ν) (k : κ) :
    Handled d t (d.retire t n k) (some (.retired n)) := by
  cases hh : d.handle? t with
  | some h =>
    have ht := thread_retire_of_handle n hh (k := k) t
    rw [if_pos rfl] at ht
    have horphans := (retire_frame_of_handle n hh (k := k)).2.1
    by_cases hf : (h.retire n).isFull = true
    · refine .filled n ?_ ?_ horphans ?_
      · rw [hoard_eq hh]; exact of_decide_eq_true hf
      · rw [ht, hoard_eq hh, if_pos hf]
        exact (Thread.hoard_of_handle rfl).trans (Handle.hoard_sealBatch _ _)
      · rw [ht, if_pos hf, if_pos hf]
        exact todo_opened rfl
    · refine .batched n ?_ ?_ horphans ?_
      · rw [hoard_eq hh]; exact Nat.lt_of_not_le fun hle => hf (decide_eq_true hle)
      · rw [ht, hoard_eq hh, if_neg hf]
        exact Thread.hoard_of_handle (h := h.retire n) rfl
      · rw [ht, if_neg hf, if_neg hf]
        exact todo_opened rfl
  | none =>
    have ht := thread_retire_of_gone n hh (k := k) t
    rw [if_pos rfl] at ht
    exact .cast n (by rw [ht]; rfl) (retire_frame_of_gone n hh).2.1 (by rw [ht]; exact todo_opened rfl)

theorem handled_flush (d : Domain ν κ) (t : Nat) (k : κ) : Handled d t (d.flush t k) none := by
  have horphans := (flush_frame d t k).2.1
  cases hh : d.handle? t with
  | some h =>
    have ht := thread_flush_of_handle hh (k := k) t
    rw [if_pos rfl] at ht
    refine .sealed ?_ horphans (by rw [ht]; exact todo_opened rfl)
    rw [ht, hoard_eq hh]
    exact (Thread.hoard_of_handle rfl).trans (Handle.hoard_sealBatch _ _)
  | none =>
    have ht := thread_flush_of_gone hh (k := k) t
    rw [if_pos rfl] at ht
    exact .kept rfl (by rw [ht]; rfl) horphans (by rw [ht]; exact todo_opened rfl)

/-! ## Calls that are over at once -/

theorem handled_unpin (d : Domain ν κ) (t : Nat) (g : Guard) : Handled d t (d.unpin t g) (some (.unpinned g)) := by
  have horphans := (unpin_frame d t g).1
  cases hd : g.detached with
  | true =>
    have ht := thread_unpin_of_detached (d := d) (t := t) hd t
    rw [if_pos rfl] at ht
    exact .kept rfl (by rw [ht]; rfl) horphans (by rw [ht]; rfl)
  | false =>
    cases hh : d.handle? t with
    | some h =>
      have ht := thread_unpin_of_live hd hh t
      rw [if_pos rfl] at ht
      exact .kept rfl (by rw [ht, hoard_eq hh]; rfl) horphans (by rw [ht]; rfl)
    | none =>
      have ht := thread_unpin_of_gone hd hh t
      rw [if_pos rfl] at ht
      exact .kept rfl (by rw [ht]; rfl) horphans (by rw [ht]; rfl)

theorem handled_pending (d : Domain ν κ) (t : Nat) : Handled d t (d.pending t).2 none := by
  cases hh : d.handle? t with
  | some h =>
    have ht := thread_pending_of_handle hh t
    rw [if_pos rfl] at ht
    exact .kept rfl (by rw [ht, hoard_eq hh]; rfl) (pending_frame d t).2.1 (by rw [ht]; rfl)
  | none =>
    rw [pending_of_gone hh]
    exact .kept rfl rfl rfl rfl

theorem handled_exit (d : Domain ν κ) (t : Nat) : Handled d t (d.exit t) none := by
  have hstay : (∀ h, (d.thread t).tenure ≠ .live h) → Handled d t (d.exit t) none := fun hh => by
    rw [exit_of_not_live hh]
    exact .kept rfl rfl rfl rfl
  cases hten : (d.thread t).tenure with
  | unused => exact hstay fun h e => by rw [hten] at e; cases e
  | gone => exact hstay fun h e => by rw [hten] at e; cases e
  | live h =>
    have hh : (d.thread t).tenure.handle? = some h := by rw [hten]; rfl
    have ht := thread_exit_of_live hten t
    rw [if_pos rfl] at ht
    refine .left (by rw [ht]; rfl) ?_ (by rw [ht]; rfl)
    rw [(exit_frame_of_live hten).1, Thread.hoard_of_handle hh, ← Handle.hoard_sealBatch]
    rfl

/-! ## Steps of a call -/

section

variable {c : Call ν κ} {rest : List (Call ν κ)}

/-- The innermost call goes on and takes nothing out. -/
theorem todo_turned {th : Thread ν κ} {tenure : Tenure ν} {q : Phase ν} (hc : th.calls = c :: rest)
    (hq : q.todo = c.phase.todo) :
    ({ th with tenure, calls := { c with phase := q } :: rest } : Thread ν κ).todo = th.todo := by
  simp [Thread.todo, hc, hq]

theorem handled_publish (hc : (d.thread t).calls = c :: rest) {tid : Nat} {e : Epoch} {b : Bool}
    (hp : c.phase = .publish tid e b) : Handled d t (d.publish t tid e b) none := by
  have horphans := (publish_frame d t tid e b).2.1
  cases b with
  | true =>
    have ht := thread_publish_of_detached hc tid e t
    rw [if_pos rfl] at ht
    exact .kept rfl (by rw [ht]; rfl) horphans (by rw [ht]; exact todo_turned hc (by rw [hp]; rfl))
  | false =>
    cases hh : d.handle? t with
    | some h =>
      have ht := thread_publish_of_handle hc hh tid e t
      rw [if_pos rfl] at ht
      refine .kept rfl (by rw [ht, hoard_eq hh]; rfl) horphans ?_
      rw [ht]
      refine todo_turned hc ?_
      rw [hp]
      split <;> rfl
    | none =>
      have ht := thread_publish_of_gone hc hh tid e t
      rw [if_pos rfl] at ht
      exact .kept rfl (by rw [ht]; rfl) horphans (by rw [ht]; exact todo_turned hc (by rw [hp]; rfl))

theorem handled_advance (hc : (d.thread t).calls = c :: rest) {p : Purpose} (hp : c.phase = .advance p) :
    Handled d t (d.advance t p) (if d.registry.allObserved then some (.advanced d.registry.advanced) else none) := by
  have ht := thread_advance hc p t
  rw [if_pos rfl] at ht
  refine .kept ?_ (by rw [ht]; rfl) (advance_frame d t p).2.1 ?_
  · split <;> rfl
  · rw [ht]; exact todo_turned hc (by rw [hp]; rfl)

/-- A collection takes what has expired at `g` out of the pool, to destroy it. -/
theorem select_sorts (hc : (d.thread t).calls = c :: rest) (p : Purpose) (g : Epoch) :
    ((d.select t p g).thread t).hoard.batch = (d.thread t).hoard.batch ∧
      ((d.select t p g).thread t).hoard.batchLen = (d.thread t).hoard.batchLen ∧
      (d.select t p g).pool t = (d.pool t).filter (!·.isExpired g) ∧
      ((d.select t p g).thread t).calls =
        { c with phase := .free p (Bag.contents ((d.pool t).filter (·.isExpired g))) 0 } :: rest := by
  cases hh : d.handle? t with
  | some h =>
    have ht := thread_select_of_handle hc hh p g t
    rw [if_pos rfl] at ht
    refine ⟨by rw [ht, hoard_eq hh]; rfl, by rw [ht, hoard_eq hh]; rfl, ?_, by rw [ht]⟩
    rw [pool, ht, orphans_select_of_handle hh, List.append_nil]
    rfl
  | none =>
    have ht := thread_select_of_gone hc hh p g t
    rw [if_pos rfl] at ht
    refine ⟨by rw [ht]; rfl, by rw [ht]; rfl, ?_, by rw [ht]⟩
    rw [pool, ht, orphans_select_of_gone hh]
    show (d.thread t).bags ++ _ = _
    rw [Thread.bags_of_gone (handle?_eq d t ▸ hh), List.nil_append]

theorem handled_select (hc : (d.thread t).calls = c :: rest) {p : Purpose} {g : Epoch}
    (hp : c.phase = .select p g) : Handled d t (d.select t p g) none := by
  obtain ⟨hbatch, hlen, hpool, hcalls⟩ := select_sorts hc p g
  exact .sorted g hbatch hlen hpool (by simp [Thread.todo, hcalls, hc, hp, Phase.todo])

theorem handled_free (hc : (d.thread t).calls = c :: rest) {p : Purpose} {n : ν} {todo : List ν} {freed : Nat}
    (hp : c.phase = .free p (n :: todo) freed) :
    Handled d t ((d.setPhase t (.free p todo (freed + 1))).note (.freed n)) (some (.freed n)) := by
  have ht := thread_free (d := d) hc (.free p todo (freed + 1)) n t
  rw [if_pos rfl] at ht
  refine .destroyed n (by rw [ht]; rfl) rfl ?_
  rw [ht]
  simp [Thread.todo, hc, hp, Phase.todo]

theorem handled_answer (hc : (d.thread t).calls = c :: rest) {p : Purpose} {freed : Nat}
    (hp : c.phase = .free p [] freed) :
    ∃ x, (d.answer t c.ticket p freed).1.story = d.story ++ x.toList ∧
      Handled d t (d.answer t c.ticket p freed).1 x := by
  have htodo : ∀ gs, ({ d.thread t with calls := rest, guards := gs } : Thread ν κ).todo = (d.thread t).todo :=
    fun gs => by simp [Thread.todo, hc, hp, Phase.todo]
  have hother : p.pin? = none → ∃ x, (d.answer t c.ticket p freed).1.story = d.story ++ x.toList ∧
      Handled d t (d.answer t c.ticket p freed).1 x := fun hpin => by
    obtain ⟨-, horphans, -, hst⟩ := answer_frame_of_pin?_none d t c.ticket freed hpin
    have ht := thread_answer_of_pin?_none d t c.ticket freed hpin t
    rw [if_pos rfl, hc, List.tail_cons] at ht
    exact ⟨none, hst.trans (List.append_nil _).symm,
      .kept rfl (by rw [ht]; rfl) horphans (by rw [ht]; exact htodo _)⟩
  cases p with
  | pin tid b =>
    obtain ⟨-, horphans, -, hst⟩ := answer_pin_frame d t c.ticket freed tid b
    have ht := thread_answer_pin d t c.ticket freed tid b t
    rw [if_pos rfl, hc, List.tail_cons] at ht
    exact ⟨some _, hst, .kept rfl (by rw [ht]; rfl) horphans (by rw [ht]; exact htodo _)⟩
  | retire => exact hother rfl
  | flush => exact hother rfl

end

theorem handled_step (hm : (d.thread t).calls ≠ []) :
    ∃ x, (d.step t).1.story = d.story ++ x.toList ∧ Handled d t (d.step t).1 x := by
  obtain ⟨c, rest, hc⟩ := List.exists_cons_of_ne_nil hm
  rw [step_eq hc]
  rcases hp : c.phase with ⟨tid, e, b⟩ | p | ⟨p, g⟩ | ⟨p, todo, freed⟩
  · exact ⟨none, (publish_frame d t tid e b).2.2.2.trans (List.append_nil _).symm, handled_publish hc hp⟩
  · exact ⟨_, (turn_advance hc hp).story, handled_advance hc hp⟩
  · exact ⟨none, (select_frame d t p g).2.2.trans (List.append_nil _).symm, handled_select hc hp⟩
  · cases todo with
    | cons n todo => exact ⟨_, (turn_free hc hp).story, handled_free hc hp⟩
    | nil => exact handled_answer hc hp

/-- A turn adds to the story what the story says. -/
theorem Turn.notice_eq {x y : Option (Notice ν)} (h : Turn d t x d') (hy : d'.story = d.story ++ y.toList) : x = y := by
  have e : x.toList = y.toList := List.append_cancel_left (h.story.symm.trans hy)
  cases x <;> cases y <;> simp_all

/-- Every permitted move is a turn that handles garbage in one of these ways. -/
theorem Owned.handled (ho : d.Owned) {m : Move ν κ} (hm : d.may t m) :
    ∃ x, Turn d t x (d.move t m) ∧ Handled d t (d.move t m) x := by
  cases m with
  | pin k => exact ⟨_, ho.turn_pin hm k, handled_pin d t k⟩
  | unpin g => exact ⟨_, ho.turn_unpin hm.1 hm.2, handled_unpin d t g⟩
  | retire n k => exact ⟨_, turn_retire hm.2 k, handled_retire d t n k⟩
  | flush k => exact ⟨_, turn_flush k, handled_flush d t k⟩
  | pending => exact ⟨_, turn_pending hm, handled_pending d t⟩
  | exit => exact ⟨_, ho.turn_exit hm, handled_exit d t⟩
  | step =>
    obtain ⟨x, hx⟩ := ho.turn_step hm
    obtain ⟨y, hst, hy⟩ := handled_step hm
    exact ⟨x, hx, hx.notice_eq hst ▸ hy⟩

end

end Domain

end EpochQueue.Reclaim
