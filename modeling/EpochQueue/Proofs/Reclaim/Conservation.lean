/-
  EpochQueue.Proofs.Reclaim.Conservation — the books close.

  Every call answers how many nodes it destroyed, also a pin or a retirement that collected on
  the way and a call that a destructor made. These answers, with the counts of the calls under
  way, add up to the nodes destroyed (`Reach.counted`). `Reach.conserves` puts this together with
  the balance of the books and the sizes of batches and bags.
-/

import Mathlib
import EpochQueue.Proofs.Reclaim.Books
import EpochQueue.Proofs.Reclaim.Calls

namespace EpochQueue.Reclaim

variable {ν κ : Type}

namespace Phase

/-- So many nodes the call has destroyed. -/
def soFar : Phase ν → Nat
  | .free _ _ freed => freed
  | _ => 0

/-- The call is in the middle of a collection: it has begun one, and not come to an end of what
    it took out, or has destroyed something and not answered yet. -/
def isCollecting : Phase ν → Bool
  | .publish _ _ _ => false
  | .advance _ | .select _ _ => true
  | .free _ todo freed => !todo.isEmpty || 0 < freed

theorem soFar_of_not_collecting {p : Phase ν} (h : p.isCollecting = false) : p.soFar = 0 := by
  cases p with
  | free p todo freed =>
    rw [isCollecting, Bool.or_eq_false_iff] at h
    exact Nat.eq_zero_of_not_pos (of_decide_eq_false h.2)
  | _ => rfl

end Phase

/-- What the open calls of the thread have destroyed. -/
def Thread.counts (th : Thread ν κ) : List Nat := th.calls.map (·.phase.soFar)

namespace Domain

/-- All that calls have answered so far. -/
def returned (d : Domain ν κ) : Nat := (d.trace.toList.map (·.count)).sum

/-- What the calls under way have destroyed and not answered yet. -/
def underway (d : Domain ν κ) : Nat := (d.threads.ledger Thread.counts).sum

section

variable {d : Domain ν κ} {t : Nat} {k : κ}

@[simp] theorem returned_note (n : Notice ν) : (d.note n).returned = d.returned + n.count := by
  simp [returned, note]

@[simp] theorem returned_modifyThread (f : Thread ν κ → Thread ν κ) : (d.modifyThread t f).returned = d.returned := rfl
@[simp] theorem returned_setHandle (h : Handle ν) : (d.setHandle t h).returned = d.returned := rfl
@[simp] theorem returned_openCall (p : Phase ν) : (d.openCall t k p).returned = d.returned := rfl
@[simp] theorem returned_setPhase (p : Phase ν) : (d.setPhase t p).returned = d.returned := rfl
@[simp] theorem returned_closeCall : (d.closeCall t).returned = d.returned := rfl
@[simp] theorem returned_registry (r : Registry) : ({ d with registry := r } : Domain ν κ).returned = d.returned := rfl
@[simp] theorem returned_nextGuard (n : Nat) : ({ d with nextGuard := n } : Domain ν κ).returned = d.returned := rfl
@[simp] theorem returned_release (tid : Nat) : (d.release tid).returned = d.returned := by
  unfold release; exact returned_note _
@[simp] theorem returned_register : d.register.2.returned = d.returned := by
  unfold register; exact returned_note _
@[simp] theorem returned_orphan (bs : List (Bag ν)) : (d.orphan bs).returned = d.returned := by
  unfold orphan
  split
  · rfl
  · exact returned_note _
@[simp] theorem returned_adopt : d.adopt.2.returned = d.returned := by
  unfold adopt
  split
  · rfl
  · exact returned_note _

theorem returned_pin : (d.pin t k).returned = d.returned := by
  unfold pin
  cases d.handle? t with
  | none => simp
  | some h =>
    dsimp only
    cases h.slot <;> dsimp only <;> split <;> simp

theorem returned_unguard (g : Guard) : (d.unguard t g).returned = d.returned := by
  unfold unguard
  split
  · simp
  · cases d.handle? t with
    | none => dsimp only; split <;> simp
    | some h =>
      dsimp only
      cases h.slot with
      | none => rfl
      | some tid => dsimp only; split <;> rfl

theorem returned_unpin (g : Guard) : (d.unpin t g).returned = d.returned := by
  unfold unpin
  rw [returned_note, returned_unguard]
  rfl

theorem returned_retire (n : ν) : (d.retire t n k).returned = d.returned := by
  unfold retire
  dsimp only
  cases (d.note (.retired n)).handle? t with
  | none => simp [Notice.count]
  | some h => dsimp only; split <;> simp [Notice.count]

theorem returned_flush : (d.flush t k).returned = d.returned := by
  unfold flush
  cases d.handle? t <;> simp

theorem returned_pending : (d.pending t).2.returned = d.returned := by
  unfold pending
  cases d.handle? t <;> simp

theorem returned_exit : (d.exit t).returned = d.returned := by
  unfold exit
  cases (d.thread t).tenure with
  | live h =>
    dsimp only
    cases h.slot with
    | none => simp
    | some tid =>
      dsimp only
      split
      · simp
      · rw [returned_note, returned_registry, returned_orphan]
        rfl
  | _ => rfl

theorem returned_publish (tid : Nat) (e : Epoch) (b : Bool) : (d.publish t tid e b).returned = d.returned := by
  unfold publish
  dsimp only
  split
  · simp [Notice.count]
  · cases handle? { d with registry := d.registry.pin tid e } t with
    | none => simp
    | some h => dsimp only; split <;> simp

theorem returned_advance (p : Purpose) : (d.advance t p).returned = d.returned := by
  unfold advance
  dsimp only
  split <;> simp [Notice.count]

theorem returned_select (p : Purpose) (g : Epoch) : (d.select t p g).returned = d.returned := by
  unfold select
  dsimp only
  cases d.adopt.2.handle? t <;> simp

theorem returned_answer (p : Purpose) (n : Nat) : (d.answer t k p n).1.returned = d.returned + n := by
  rw [answer_fst]
  cases p with
  | pin tid b =>
    rw [returned_note, returned_modifyThread, returned_nextGuard, returned_note, returned_closeCall]
    rfl
  | _ => simp [Notice.count]

end

section

variable {d d' : Domain ν κ} {t : Nat} {x : Option (Notice ν)} {k : κ}

/-! ## Counting a move -/

/-- What was answered and what `t` is about to answer has grown by what was destroyed. -/
def Counts (d : Domain ν κ) (t : Nat) (x : Option (Notice ν)) (d' : Domain ν κ) : Prop :=
  d'.returned + (d'.thread t).counts.sum =
    d.returned + (d.thread t).counts.sum + (x.bind (·.freed?)).toList.length

theorem counts_opened (hr : d'.returned = d.returned) {q : Phase ν} (hq : q.soFar = 0)
    (ht : (d'.thread t).calls = ⟨k, q⟩ :: (d.thread t).calls) (hx : x.bind (·.freed?) = none) : Counts d t x d' := by
  simp [Counts, Thread.counts, hr, ht, hq, hx]

theorem counts_kept (hr : d'.returned = d.returned) (ht : (d'.thread t).calls = (d.thread t).calls)
    (hx : x.bind (·.freed?) = none) : Counts d t x d' := by
  simp [Counts, Thread.counts, hr, ht, hx]

theorem counts_turned {c : Call ν κ} {rest : List (Call ν κ)} (hc : (d.thread t).calls = c :: rest)
    (hr : d'.returned = d.returned) {q : Phase ν} (ht : (d'.thread t).calls = { c with phase := q } :: rest)
    (hq : q.soFar = c.phase.soFar + (x.bind (·.freed?)).toList.length) : Counts d t x d' := by
  simp only [Counts, Thread.counts, hr, ht, hc, hq, List.map_cons, List.sum_cons]
  omega

theorem counts_pin : Counts d t none (d.pin t k) := by
  have hby : ∀ h tid e, (d.pin t k).thread t = (d.thread t).pinBy h tid k e → Counts d t none (d.pin t k) :=
    fun h tid e ht => by
      refine counts_opened returned_pin (q := if h.pinCount = 0 then .publish tid e false
        else .free (.pin tid false) [] 0) ?_ (by rw [ht]; rfl) rfl
      split <;> rfl
  cases hh : d.handle? t with
  | some h =>
    cases hslot : h.slot with
    | some tid => exact hby _ _ _ (by rw [thread_pin_of_slot hh hslot, if_pos rfl])
    | none => exact hby _ _ _ (by rw [thread_pin_of_no_slot hh hslot, if_pos rfl])
  | none =>
    have ht := thread_pin_of_gone (k := k) hh t
    rw [if_pos rfl] at ht
    exact counts_opened returned_pin (q := .publish _ _ true) rfl (by rw [ht]; rfl) rfl

theorem counts_retire (n : ν) : Counts d t (some (.retired n)) (d.retire t n k) := by
  cases hh : d.handle? t with
  | some h =>
    have ht := thread_retire_of_handle n hh (k := k) t
    rw [if_pos rfl] at ht
    refine counts_opened (returned_retire n) (q := if (h.retire n).isFull then .advance .retire
      else .free .retire [] 0) ?_ (by rw [ht]) rfl
    split <;> rfl
  | none =>
    have ht := thread_retire_of_gone n hh (k := k) t
    rw [if_pos rfl] at ht
    exact counts_opened (returned_retire n) (q := .free .retire [] 0) rfl (by rw [ht]) rfl

theorem counts_flush : Counts d t none (d.flush t k) := by
  refine counts_opened (k := k) returned_flush (q := .advance .flush) rfl ?_ rfl
  cases hh : d.handle? t with
  | some h => rw [thread_flush_of_handle hh, if_pos rfl]
  | none => rw [thread_flush_of_gone hh, if_pos rfl]

theorem counts_answer {c : Call ν κ} {rest : List (Call ν κ)} (hc : (d.thread t).calls = c :: rest) {p : Purpose}
    {freed : Nat} (hp : c.phase = .free p [] freed) (hx : x.bind (·.freed?) = none) :
    Counts d t x (d.answer t c.ticket p freed).1 := by
  have ht : ((d.answer t c.ticket p freed).1.thread t).calls = rest := by
    cases p with
    | pin tid b => rw [thread_answer_pin, if_pos rfl, hc]; rfl
    | _ => rw [thread_answer_of_pin?_none _ _ _ _ rfl, if_pos rfl, hc]; rfl
  simp only [Counts, Thread.counts, returned_answer, ht, hc, hp, hx, List.map_cons, List.sum_cons, Phase.soFar,
    Option.toList_none, List.length_nil]
  omega

theorem counts_step (hm : (d.thread t).calls ≠ []) (hx : Turn d t x (d.step t).1) : Counts d t x (d.step t).1 := by
  have hstory : ∀ {y : Option (Notice ν)}, (d.step t).1.story = d.story ++ y.toList → x = y := hx.notice_eq
  obtain ⟨c, rest, hc⟩ := List.exists_cons_of_ne_nil hm
  rw [step_eq hc] at hx hstory ⊢
  rcases hp : c.phase with ⟨tid, e, b⟩ | p | ⟨p, g⟩ | ⟨p, todo, freed⟩
  · rw [hp] at hstory
    have hnone := hstory (y := none) ((publish_frame d t tid e b).2.2.2.trans (List.append_nil _).symm)
    subst hnone
    cases b with
    | true =>
      have ht := thread_publish_of_detached hc tid e t
      rw [if_pos rfl] at ht
      exact counts_turned hc (returned_publish tid e true) (by rw [ht]) (by rw [hp]; rfl)
    | false =>
      cases hh : d.handle? t with
      | some h =>
        have ht := thread_publish_of_handle hc hh tid e t
        rw [if_pos rfl] at ht
        refine counts_turned hc (returned_publish tid e false) (by rw [ht]) ?_
        rw [hp]
        split <;> rfl
      | none =>
        have ht := thread_publish_of_gone hc hh tid e t
        rw [if_pos rfl] at ht
        exact counts_turned hc (returned_publish tid e false) (by rw [ht]) (by rw [hp]; rfl)
  · rw [hp] at hstory
    have hy := hstory (turn_advance hc hp).story
    have ht := thread_advance hc p t
    rw [if_pos rfl] at ht
    refine counts_turned hc (returned_advance p) (by rw [ht]) ?_
    rw [hy, hp]
    split <;> rfl
  · rw [hp] at hstory
    have hnone := hstory (y := none) ((select_frame d t p g).2.2.trans (List.append_nil _).symm)
    subst hnone
    have hq : ∃ q : Phase ν, q.soFar = 0 ∧ ((d.select t p g).thread t).calls = { c with phase := q } :: rest := by
      cases hh : d.handle? t with
      | some h => exact ⟨_, rfl, by rw [thread_select_of_handle hc hh, if_pos rfl]⟩
      | none => exact ⟨_, rfl, by rw [thread_select_of_gone hc hh, if_pos rfl]⟩
    obtain ⟨q, hq, ht⟩ := hq
    exact counts_turned hc (returned_select p g) ht (by rw [hp, hq]; rfl)
  · cases todo with
    | cons n todo =>
      rw [hp] at hstory
      have hy := hstory (turn_free hc hp).story
      have ht := thread_free (d := d) hc (.free p todo (freed + 1)) n t
      rw [if_pos rfl] at ht
      refine counts_turned hc ?_ (by rw [ht]) (by rw [hy, hp]; rfl)
      simp [Notice.count]
    | nil =>
      rw [hp] at hstory
      refine counts_answer hc hp ?_
      cases p with
      | pin tid b => rw [hstory (answer_pin_frame d t c.ticket freed tid b).2.2.2 (y := some _)]; rfl
      | _ =>
        rw [hstory (y := none) ((answer_frame_of_pin?_none d t c.ticket freed rfl).2.2.2.trans
          (List.append_nil _).symm)]
        rfl

/-- Every permitted move keeps count. -/
theorem Turn.counts {m : Move ν κ} (hm : d.may t m) (h : Turn d t x (d.move t m)) : Counts d t x (d.move t m) := by
  cases m with
  | pin k =>
    rw [h.notice_eq (y := none) ((pin_frame d t k).2.2.trans (List.append_nil _).symm)]
    exact counts_pin
  | unpin g =>
    rw [h.notice_eq (y := some _) (unpin_frame d t g).2.2]
    exact counts_kept (returned_unpin g) (calls_unpin d t g).1 rfl
  | retire n k =>
    obtain ⟨-, -, -, -, hst⟩ := calls_retire d t n k
    rw [h.notice_eq (y := some _) hst]
    exact counts_retire n
  | flush k =>
    rw [h.notice_eq (y := none) ((flush_frame d t k).2.2.2.trans (List.append_nil _).symm)]
    exact counts_flush
  | pending =>
    rw [h.notice_eq (y := none) ((pending_frame d t).2.2.2.trans (List.append_nil _).symm)]
    exact counts_kept returned_pending (calls_pending d t).1 rfl
  | exit =>
    rw [h.notice_eq (y := none) ((calls_exit d t).2.2.trans (List.append_nil _).symm)]
    exact counts_kept returned_exit (calls_exit d t).1 rfl
  | step => exact counts_step hm h

/-! ## Over a run -/

/-- What was answered and what is about to be answered is what was destroyed. -/
theorem Reach.counted (h : d.Reach) : d.returned + d.underway = d.frees.length := by
  induction h with
  | start => rfl
  | @move d t m hr hm ih =>
    obtain ⟨x, ht⟩ := hr.owned.turn hm
    obtain ⟨rest, hold, hnew⟩ := Table.exists_rest (g := Thread.counts) (t := d.threads)
      (s := (d.move t m).threads) (i := t) rfl fun u hu => ht.others u hu
    have hunder : d.underway = (d.thread t).counts.sum + rest.sum := by
      rw [underway, hold.sum_eq, List.sum_append]; rfl
    have hunder' : (d.move t m).underway = ((d.move t m).thread t).counts.sum + rest.sum := by
      rw [underway, hnew.sum_eq, List.sum_append]; rfl
    have hcount : Counts d t x (d.move t m) := ht.counts hm
    rw [ht.frees_append, List.length_append, ← ih, hunder, hunder']
    unfold Counts at hcount
    omega

/-- No thread is in the middle of a collection. -/
def Settled (d : Domain ν κ) : Prop := ∀ t, ∀ c ∈ (d.thread t).calls, c.phase.isCollecting = false

theorem underway_of_settled (h : d.Settled) : d.underway = 0 := by
  refine List.sum_eq_zero fun n hn => ?_
  obtain ⟨t, hn⟩ := (Table.mem_ledger (t := d.threads) (g := Thread.counts) rfl).mp hn
  obtain ⟨c, hc, rfl⟩ := List.mem_map.mp hn
  exact Phase.soFar_of_not_collecting (h t c hc)

/-- What is in the books is what was retired and not destroyed, and everything is there once. -/
theorem Balanced.mem_books_iff (h : d.Balanced) (n : ν) : n ∈ d.books ↔ d.wasRetired n ∧ .freed n ∉ d.trace := by
  have hnd : (d.frees ++ d.books).Nodup := h.perm.nodup_iff.mp h.nodup
  rw [wasRetired, ← mem_retirements, ← mem_frees, h.perm.mem_iff, List.mem_append]
  constructor
  · intro hn
    exact ⟨Or.inr hn, fun hf => (List.nodup_append.mp hnd).2.2 n hf n hn rfl⟩
  · rintro ⟨hf | hb, hnf⟩
    · exact absurd hf hnf
    · exact hb

/-- Conservation of garbage: the nodes retired and not destroyed yet are those in the batches, in
    the bags, among the orphans and in the hands of collections, each in one place; no node is
    destroyed twice; bags and batches have the size they say they have; and the calls answer for
    every node destroyed. -/
theorem Reach.conserves (h : d.Reach) :
    (∀ n, n ∈ d.books ↔ d.wasRetired n ∧ .freed n ∉ d.trace) ∧ d.books.Nodup ∧ d.frees.Nodup ∧
      (∀ n ∈ d.frees, d.wasRetired n) ∧ (∀ b, d.Stored b → b.Filled) ∧ (∀ t, (d.thread t).hoard.Neat) ∧
      d.returned + d.underway = d.frees.length ∧ (d.Settled → d.returned = d.frees.length) := by
  have hb := h.balanced
  have hnd : (d.frees ++ d.books).Nodup := hb.perm.nodup_iff.mp hb.nodup
  refine ⟨hb.mem_books_iff, hnd.of_append_right, hnd.of_append_left, fun n hn => ?_, ?_, h.neat.hoard, h.counted,
    fun hs => ?_⟩
  · exact mem_retirements.mp (hb.perm.mem_iff.mpr (List.mem_append_left _ hn))
  · rintro b ⟨t, hb⟩
    exact h.neat.pool b hb
  · rw [← h.counted, underway_of_settled hs, Nat.add_zero]

end

/-- Thread 1 retires node 5 and exits; thread 0 flushes until it destroys node 5, which it has
    adopted, and retires node 8 in its destructor; thread 1, which has no handle any more, retires
    node 9. -/
def adoptingRun : List (Nat × Move Nat Nat) :=
  [(1, .retire 5 0), (1, .step), (1, .exit), (0, .flush 0), (0, .step), (0, .step), (0, .step), (0, .flush 0),
    (0, .step), (0, .step), (0, .step), (0, .retire 8 1), (1, .retire 9 0)]

theorem adoptingRun_plays : (({} : Domain Nat Nat).play adoptingRun).isSome = true := by decide +kernel

def adoptingEnd : Domain Nat Nat := (({} : Domain Nat Nat).play adoptingRun).get adoptingRun_plays

theorem adoptingEnd_reached : adoptingEnd.Reach := .of_play .start (Option.some_get adoptingRun_plays).symm

theorem conserves_in_destructor : adoptingEnd.books = [8, 9] ∧ adoptingEnd.frees = [5] ∧
    (adoptingEnd.returned = 0 ∧ adoptingEnd.underway = 1) ∧
    (∀ n, n ∈ adoptingEnd.books ↔ adoptingEnd.wasRetired n ∧ .freed n ∉ adoptingEnd.trace) ∧
    adoptingEnd.returned + adoptingEnd.underway = adoptingEnd.frees.length :=
  have h := Reach.conserves adoptingEnd_reached
  ⟨by decide +kernel, by decide +kernel, by decide +kernel, h.1, h.2.2.2.2.2.2.1⟩

end Domain

end EpochQueue.Reclaim
