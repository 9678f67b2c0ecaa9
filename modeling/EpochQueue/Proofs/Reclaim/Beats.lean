/-
  EpochQueue.Proofs.Reclaim.Beats — what every move does to the count of pins of a handle.

  A pin is outermost if the handle has no guard, alive or under construction. Outermost pins are
  numbered in the order in which a thread begins them, those that destructors make on the way included
  (`Tally`). One that has read the epoch and not published it yet is begun but not made, and there is
  one such at most.

  The handle counts the outermost pins since its last collection of this kind, and the count is the
  number of all that were made, modulo `collectEvery` (`Rhythm`). That it stays so under re-entrance
  comes of the order in which a pin goes about things: it counts its guard before anything else, so
  none that a destructor makes in its collection is outermost; and it sets the count back before it
  collects. A flush or a retirement that collects does neither. Its destructors may make outermost
  pins, and one of these may collect in turn.

  `Beat` lists what a move does to the count and to the open calls (`Owned.beat`). One move keeps the
  `Rhythm` (`Rhythm.beat`), and so does a run (`Tally.rhythm`).
-/

import EpochQueue.Proofs.Reclaim.Clock
import EpochQueue.Proofs.Reclaim.Conservation

namespace EpochQueue.Reclaim

variable {ν κ : Type}

namespace Phase

/-- A pin by a handle has read the epoch and has not published it yet. -/
def isPublishing : Phase ν → Bool
  | .publish _ _ detached => !detached
  | _ => false

theorem isPublishing_of_stage {q : Phase ν} (h : 0 < q.stage) : q.isPublishing = false := by
  cases q with
  | publish => cases h
  | _ => rfl

theorem isPublishing_of_isCollecting {q : Phase ν} (h : q.isCollecting = true) : q.isPublishing = false := by
  cases q with
  | publish => cases h
  | _ => rfl

theorem stage_of_isFreeing {q : Phase ν} (h : q.isFreeing = true) : q.stage = 3 := by
  cases q with
  | free => rfl
  | _ => cases h

end Phase

namespace Thread

def isPublishing (th : Thread ν κ) : Bool := th.point?.any (·.isPublishing)

/-- Of `n` outermost pins begun so many are made: the last one is not until it has published. -/
def made (th : Thread ν κ) (n : Nat) : Nat := if th.isPublishing then n - 1 else n

/-- The outermost pins since the handle last collected. -/
def pinsSince? (th : Thread ν κ) : Option Nat := th.tenure.handle?.map (·.pinsSinceCollect)

theorem exists_of_point? {th : Thread ν κ} {q : Phase ν} (hq : th.point? = some q) :
    ∃ c rest, th.calls = c :: rest ∧ c.phase = q := by
  obtain ⟨c, hc, hq⟩ := Option.map_eq_some_iff.mp hq
  obtain ⟨rest, hc⟩ := List.head?_eq_some_iff.mp hc
  exact ⟨c, rest, hc, hq⟩

theorem isPublishing_of_point? {th : Thread ν κ} (h : ∀ {tid e}, th.point? ≠ some (.publish tid e false)) :
    th.isPublishing = false := by
  unfold isPublishing
  rcases hq : th.point? with - | ⟨tid, e, - | -⟩ | - | - | -
  case some.publish.false => exact absurd hq h
  all_goals rfl

theorem made_of_publishing {th : Thread ν κ} (h : th.isPublishing = true) (n : Nat) : th.made n = n - 1 := if_pos h

theorem made_of_not_publishing {th : Thread ν κ} (h : th.isPublishing = false) (n : Nat) : th.made n = n := by
  simp [made, h]

theorem isPublishing_of_calls {th : Thread ν κ} {c : Call ν κ} {rest : List (Call ν κ)} (hc : th.calls = c :: rest) :
    th.isPublishing = c.phase.isPublishing := by
  simp [isPublishing, point?_of_calls hc]

/-- Between two calls, or in a destructor. -/
def IsFree (th : Thread ν κ) : Prop := ∀ q, th.point? = some q → q.isFreeing = true

theorem IsFree.not_publishing {th : Thread ν κ} (h : th.IsFree) : th.isPublishing = false := by
  cases hq : th.point? with
  | none => simp [isPublishing, hq]
  | some q =>
    have hstage := Phase.stage_of_isFreeing (h q hq)
    simp [isPublishing, hq, Phase.isPublishing_of_stage (q := q) (by omega)]

theorem IsFree.congr {th th' : Thread ν κ} (h : th.IsFree) (hc : th'.calls = th.calls) : th'.IsFree :=
  fun q hq => h q (by rwa [point?, ← hc])

theorem mem_pins {th : Thread ν κ} {c : Call ν κ} {s : Nat × Bool} (hc : c ∈ th.calls) (hs : c.phase.pin? = some s) :
    s ∈ th.pins :=
  List.mem_filterMap.mpr ⟨c, hc, hs⟩

theorem attached_ne_of_pins {th : Thread ν κ} {tid : Nat} (h : (tid, false) ∈ th.pins) : th.attached ≠ 0 :=
  Nat.ne_of_gt (attached_pos (List.mem_append_left _ h))

end Thread

theorem Handle.pinsSinceCollect_sealBatch (h : Handle ν) (e : Epoch) :
    (h.sealBatch e).pinsSinceCollect = h.pinsSinceCollect := by
  unfold sealBatch
  split <;> rfl

namespace Domain

/-- The move is a pin by the handle of `t`, which has no guard, alive or under construction. -/
def isOutermost (d : Domain ν κ) (t : Nat) : Move ν κ → Bool
  | .pin _ => (d.handle? t).isSome && (d.thread t).attached == 0
  | _ => false

/-- One if the move, made by `u`, begins an outermost pin of `t`. -/
def begun (d : Domain ν κ) (t u : Nat) (m : Move ν κ) : Nat := if u = t ∧ d.isOutermost t m = true then 1 else 0

/-- Moves of any threads lead from `d` to here; with `n` of them `t` begins an outermost pin. -/
inductive Tally (t : Nat) (d : Domain ν κ) : Nat → Domain ν κ → Prop
  | start : Tally t d 0 d
  | move {n : Nat} {e : Domain ν κ} (u : Nat) (m : Move ν κ) : Tally t d n e → e.may u m →
      Tally t d (n + e.begun t u m) (e.move u m)

section

variable {d d' e : Domain ν κ} {t u n : Nat} {m : Move ν κ} {k : κ} {h : Handle ν}

theorem begun_of_ne (hu : u ≠ t) (m : Move ν κ) : d.begun t u m = 0 := if_neg fun h => hu h.1

theorem begun_of_outermost (h : d.isOutermost t m = true) : d.begun t t m = 1 := if_pos ⟨rfl, h⟩

theorem begun_of_not_outermost (h : d.isOutermost t m = false) (u : Nat) : d.begun t u m = 0 :=
  if_neg fun h' => Bool.false_ne_true (h.symm.trans h'.2)

theorem isOutermost_of_attached (h : (d.thread t).attached ≠ 0) (m : Move ν κ) : d.isOutermost t m = false := by
  cases m <;> simp [isOutermost, h]

/-- A handle counts its guards, so it knows an outermost pin by that count. -/
theorem Owned.isOutermost_iff (ho : d.Owned) (hh : d.handle? t = some h) (k : κ) :
    d.isOutermost t (.pin k) = true ↔ h.pinCount = 0 := by
  have hcounted : (d.thread t).attached = h.pinCount := (ho.sound t).counted _ _ (lease_eq hh)
  simp [isOutermost, hh, hcounted]

theorem isFree_of_mayCall (hm : d.mayCall t = true) : (d.thread t).IsFree := fun _ hq => isFreeing_of_mayCall hm hq

theorem pinsSince?_eq (hh : d.handle? t = some h) : (d.thread t).pinsSince? = some h.pinsSinceCollect := by
  rw [Thread.pinsSince?, ← handle?_eq, hh]
  rfl

theorem exists_of_pinsSince? {i : Nat} (hi : (d.thread t).pinsSince? = some i) :
    ∃ h, d.handle? t = some h ∧ h.pinsSinceCollect = i := by
  rw [Thread.pinsSince?, ← handle?_eq] at hi
  exact Option.map_eq_some_iff.mp hi

/-! ## What a move does to the count -/

/-- What a move of `t` does to the count of its handle and to the calls it has open. -/
inductive Beat (d : Domain ν κ) (t : Nat) (d' : Domain ν κ) : Move ν κ → Prop
  | outermost (k : κ) (tid : Nat) (e : Epoch) (hout : d.isOutermost t (.pin k) = true) (hfree : (d.thread t).IsFree)
      (hsince : (d'.thread t).pinsSince? = (d.thread t).pinsSince?)
      (hcalls : (d'.thread t).calls = ⟨k, .publish tid e false⟩ :: (d.thread t).calls) : Beat d t d' (.pin k)
  /-- Any other call; a pin among these does not collect. -/
  | opened (m : Move ν κ) (k : κ) (q : Phase ν) (hout : d.isOutermost t m = false) (hfree : (d.thread t).IsFree)
      (hq : q.isPublishing = false) (hcoll : q.isCollecting = true → q.pin? = none)
      (hsince : (d'.thread t).pinsSince? = (d.thread t).pinsSince?)
      (hcalls : (d'.thread t).calls = ⟨k, q⟩ :: (d.thread t).calls) : Beat d t d' m
  /-- The handle stays as it is here, or is destroyed. -/
  | kept (m : Move ν κ) (hout : d.isOutermost t m = false) (hfree : (d.thread t).IsFree)
      (hsince : ∀ i, (d'.thread t).pinsSince? = some i → (d.thread t).pinsSince? = some i)
      (hcalls : (d'.thread t).calls = (d.thread t).calls) : Beat d t d' m
  | published (c : Call ν κ) (rest : List (Call ν κ)) (tid : Nat) (e : Epoch) (i : Nat)
      (hc : (d.thread t).calls = c :: rest) (hp : c.phase = .publish tid e false)
      (hi : (d.thread t).pinsSince? = some i)
      (hsince : (d'.thread t).pinsSince? = some (if collectEvery ≤ i + 1 then 0 else i + 1))
      (hcalls : (d'.thread t).calls = { c with
        phase := if collectEvery ≤ i + 1 then .advance (.pin tid false) else .free (.pin tid false) [] 0 } :: rest) :
      Beat d t d' .step
  | on (c : Call ν κ) (rest : List (Call ν κ)) (q : Phase ν) (hc : (d.thread t).calls = c :: rest)
      (hp : c.phase.isPublishing = false) (hq : 2 ≤ q.stage) (hpin : q.pin? = c.phase.pin?)
      (hcoll : q.isCollecting = true → c.phase.isCollecting = true)
      (hsince : (d'.thread t).pinsSince? = (d.thread t).pinsSince?)
      (hcalls : (d'.thread t).calls = { c with phase := q } :: rest) : Beat d t d' .step
  | back (c : Call ν κ) (rest : List (Call ν κ)) (hc : (d.thread t).calls = c :: rest)
      (hp : c.phase.isPublishing = false) (hfree : (d'.thread t).IsFree)
      (hsince : (d'.thread t).pinsSince? = (d.thread t).pinsSince?)
      (hcalls : (d'.thread t).calls = rest) : Beat d t d' .step

/-- A pin by a handle takes a slot, if the handle has none, and counts its guard. -/
theorem pin_by (hh : d.handle? t = some h) (k : κ) :
    ∃ tid e, (d.pin t k).thread t = (d.thread t).pinBy h tid k e := by
  cases hs : h.slot with
  | some tid => exact ⟨_, _, by rw [thread_pin_of_slot hh hs, if_pos rfl]⟩
  | none => exact ⟨_, _, by rw [thread_pin_of_no_slot hh hs, if_pos rfl]⟩

theorem Owned.beat_pin (ho : d.Owned) (hm : d.mayCall t = true) (k : κ) : Beat d t (d.pin t k) (.pin k) := by
  have hfree := isFree_of_mayCall hm
  cases hh : d.handle? t with
  | some h =>
    obtain ⟨tid, e, ht⟩ := pin_by hh k
    have hsince : ((d.pin t k).thread t).pinsSince? = (d.thread t).pinsSince? := by
      rw [ht, pinsSince?_eq hh]
      rfl
    by_cases h0 : h.pinCount = 0
    · exact .outermost k tid e ((ho.isOutermost_iff hh k).mpr h0) hfree hsince (by rw [ht, Thread.pinBy, if_pos h0])
    · refine .opened _ k (.free (.pin tid false) [] 0) ?_ hfree rfl (fun hq => absurd hq Bool.false_ne_true) hsince
        (by rw [ht, Thread.pinBy, if_neg h0])
      exact Bool.eq_false_iff.mpr fun hout => h0 ((ho.isOutermost_iff hh k).mp hout)
  | none =>
    have ht := thread_pin_of_gone (k := k) hh t
    rw [if_pos rfl] at ht
    exact .opened _ k (.publish _ _ true) (by simp [isOutermost, hh]) hfree rfl (fun hq => absurd hq Bool.false_ne_true)
      (by rw [ht]; rfl) (by rw [ht]; rfl)

theorem beat_unpin (hm : d.mayCall t = true) (g : Guard) : Beat d t (d.unpin t g) (.unpin g) := by
  refine .kept _ rfl (isFree_of_mayCall hm) (fun i hi => ?_) (calls_unpin d t g).1
  cases hd : g.detached with
  | true => rwa [thread_unpin_of_detached hd, if_pos rfl] at hi
  | false =>
    cases hh : d.handle? t with
    | some h => rw [thread_unpin_of_live hd hh, if_pos rfl] at hi; exact (pinsSince?_eq hh).trans hi
    | none => rwa [thread_unpin_of_gone hd hh, if_pos rfl] at hi

theorem beat_retire (hm : d.mayCall t = true) (n : ν) (k : κ) : Beat d t (d.retire t n k) (.retire n k) := by
  have hfree := isFree_of_mayCall hm
  cases hh : d.handle? t with
  | some h =>
    have ht := thread_retire_of_handle (k := k) n hh t
    rw [if_pos rfl] at ht
    refine .opened _ k _ rfl hfree ?_ (fun _ => ?_) ?_ (by rw [ht])
    · split <;> rfl
    · split <;> rfl
    · rw [ht, pinsSince?_eq hh]
      refine congrArg some ?_
      split
      · exact Handle.pinsSinceCollect_sealBatch _ _
      · rfl
  | none =>
    have ht := thread_retire_of_gone (k := k) n hh t
    rw [if_pos rfl] at ht
    exact .opened _ k (.free .retire [] 0) rfl hfree rfl (fun _ => rfl) (by rw [ht]; rfl) (by rw [ht])

theorem beat_flush (hm : d.mayCall t = true) (k : κ) : Beat d t (d.flush t k) (.flush k) := by
  refine .opened _ k (.advance .flush) rfl (isFree_of_mayCall hm) rfl (fun _ => rfl) ?_ (flush_opens d t k).1
  cases hh : d.handle? t with
  | some h =>
    rw [thread_flush_of_handle hh, if_pos rfl, pinsSince?_eq hh]
    exact congrArg some (Handle.pinsSinceCollect_sealBatch _ _)
  | none => rw [thread_flush_of_gone hh, if_pos rfl]; rfl

theorem beat_pending (hm : d.mayCall t = true) : Beat d t (d.pending t).2 .pending := by
  refine .kept _ rfl (isFree_of_mayCall hm) (fun i hi => ?_) (calls_pending d t).1
  cases hh : d.handle? t with
  | some h => rw [thread_pending_of_handle hh, if_pos rfl] at hi; exact (pinsSince?_eq hh).trans hi
  | none => rwa [pending_of_gone hh] at hi

theorem beat_exit (hm : (d.thread t).calls = []) : Beat d t (d.exit t) .exit := by
  refine .kept _ rfl (fun q hq => ?_) (fun i hi => ?_) (calls_exit d t).1
  · rw [Thread.point?, hm] at hq
    cases hq
  · cases hten : (d.thread t).tenure with
    | live h => rw [thread_exit_of_live hten, if_pos rfl] at hi; cases hi
    | unused => rwa [exit_of_not_live fun h e => by rw [hten] at e; cases e] at hi
    | gone => rwa [exit_of_not_live fun h e => by rw [hten] at e; cases e] at hi

/-- An outermost pin counts itself when it publishes; whoever publishes for a handle has one. -/
theorem Owned.counts_publish (ho : d.Owned) {c : Call ν κ} {rest : List (Call ν κ)}
    (hc : (d.thread t).calls = c :: rest) {tid : Nat} {e : Epoch} (hp : c.phase = .publish tid e false) :
    ∃ i, (d.thread t).pinsSince? = some i ∧
      ((d.publish t tid e false).thread t).pinsSince? = some (if collectEvery ≤ i + 1 then 0 else i + 1) ∧
      ((d.publish t tid e false).thread t).calls = { c with
        phase := if collectEvery ≤ i + 1 then .advance (.pin tid false) else .free (.pin tid false) [] 0 } :: rest := by
  obtain ⟨s, hl⟩ := (ho.sound t).publishing c rest tid e hc hp
  cases hh : d.handle? t with
  | none => cases (lease_eq_none hh).symm.trans hl
  | some h =>
    have ht := thread_publish_of_handle hc hh tid e t
    rw [if_pos rfl] at ht
    exact ⟨_, pinsSince?_eq hh, by rw [ht]; rfl, by rw [ht]⟩

theorem Owned.beat_publish (ho : d.Owned) {c : Call ν κ} {rest : List (Call ν κ)} (hc : (d.thread t).calls = c :: rest)
    {tid : Nat} {e : Epoch} {b : Bool} (hp : c.phase = .publish tid e b) : Beat d t (d.publish t tid e b) .step := by
  cases b with
  | true =>
    have ht := thread_publish_of_detached hc tid e t
    rw [if_pos rfl] at ht
    exact .on c rest (.free (.pin tid true) [] 0) hc (by rw [hp]; rfl) (Nat.le_succ 2) (by rw [hp]; rfl)
      (fun hq => absurd hq Bool.false_ne_true) (by rw [ht]; rfl) (by rw [ht])
  | false =>
    obtain ⟨i, hi, hsince, hcalls⟩ := ho.counts_publish hc hp
    exact .published c rest tid e i hc hp hi hsince hcalls

theorem Owned.beat_step (ho : d.Owned) (hm : (d.thread t).calls ≠ []) : Beat d t (d.step t).1 .step := by
  obtain ⟨c, rest, hc⟩ := List.exists_cons_of_ne_nil hm
  rw [step_eq hc]
  rcases hp : c.phase with ⟨tid, e, b⟩ | p | ⟨p, g⟩ | ⟨p, - | ⟨n, todo⟩, freed⟩
  · exact ho.beat_publish hc hp
  · have ht := thread_advance hc p t
    rw [if_pos rfl] at ht
    exact .on c rest (.select p d.registry.advanced) hc (by rw [hp]; rfl) (Nat.le_refl 2) (by rw [hp]; rfl)
      (fun _ => by rw [hp]; rfl) (by rw [ht]; rfl) (by rw [ht])
  · have hon : ∀ todo, ((d.select t p g).thread t).calls = { c with phase := .free p todo 0 } :: rest →
        ((d.select t p g).thread t).pinsSince? = (d.thread t).pinsSince? → Beat d t (d.select t p g) .step :=
      fun todo hcalls hsince => .on c rest (.free p todo 0) hc (by rw [hp]; rfl) (Nat.le_succ 2) (by rw [hp]; rfl)
        (fun _ => by rw [hp]; rfl) hsince hcalls
    cases hh : d.handle? t with
    | some h =>
      have ht := thread_select_of_handle hc hh p g t
      rw [if_pos rfl] at ht
      exact hon _ (by rw [ht]) (by rw [ht, pinsSince?_eq hh]; rfl)
    | none =>
      have ht := thread_select_of_gone hc hh p g t
      rw [if_pos rfl] at ht
      exact hon _ (by rw [ht]) (by rw [ht]; rfl)
  · have hrest : ((d.answer t c.ticket p freed).1.thread t).calls = rest ∧
        ((d.answer t c.ticket p freed).1.thread t).tenure = (d.thread t).tenure := by
      cases p with
      | pin tid b => rw [thread_answer_pin, if_pos rfl, hc]; exact ⟨rfl, rfl⟩
      | retire => rw [thread_answer_of_pin?_none _ _ _ _ rfl, if_pos rfl, hc]; exact ⟨rfl, rfl⟩
      | flush => rw [thread_answer_of_pin?_none _ _ _ _ rfl, if_pos rfl, hc]; exact ⟨rfl, rfl⟩
    exact .back c rest hc (by rw [hp]; rfl) (fun q hq => ho.isFreeing_of_rest hc hrest.1 hq)
      (by rw [Thread.pinsSince?, hrest.2]; rfl) hrest.1
  · have ht := thread_free hc (.free p todo (freed + 1)) n t
    rw [if_pos rfl] at ht
    exact .on c rest (.free p todo (freed + 1)) hc (by rw [hp]; rfl) (Nat.le_succ 2) (by rw [hp]; rfl)
      (fun _ => by rw [hp]; rfl) (by rw [ht]; rfl) (by rw [ht])

/-- Every permitted move is one of these. -/
theorem Owned.beat (ho : d.Owned) (hm : d.may t m) : Beat d t (d.move t m) m := by
  cases m with
  | pin k => exact ho.beat_pin hm k
  | unpin g => exact beat_unpin hm.1 g
  | retire n k => exact beat_retire hm.1 n k
  | flush k => exact beat_flush hm k
  | pending => exact beat_pending hm
  | exit => exact beat_exit hm
  | step => exact ho.beat_step hm

/-! ## What a run keeps -/

/-- How a thread stands that has begun `n` outermost pins. -/
structure Rhythm (d : Domain ν κ) (t n : Nat) : Prop where
  since : ∀ i, (d.thread t).pinsSince? = some i → i = (d.thread t).made n % collectEvery
  begun : (d.thread t).isPublishing = true → 0 < n
  /-- A pin under way that collects is one of a handle, and the number of the newest outermost pin
      is one at which to collect. -/
  collecting : ∀ c ∈ (d.thread t).calls, c.phase.isCollecting = true → ∀ s, c.phase.pin? = some s →
    s.2 = false ∧ 0 < n ∧ collectEvery ∣ n

theorem rhythm_empty (t : Nat) : ({} : Domain ν κ).Rhythm t 0 where
  since := fun _ hi => (Option.some.inj hi).symm
  begun := fun h => absurd h Bool.false_ne_true
  collecting := fun _ hc => nomatch hc

theorem Rhythm.others (hr : d.Rhythm t n) (hth : d'.thread t = d.thread t) : d'.Rhythm t n := by
  obtain ⟨h₁, h₂, h₃⟩ := hr
  rw [← hth] at h₁ h₂ h₃
  exact ⟨h₁, h₂, h₃⟩

/-- The thread begins no outermost pin and publishes nothing; pins that collect then did so before. -/
theorem Rhythm.keep (hr : d.Rhythm t n) (hbefore : (d.thread t).isPublishing = false)
    (hafter : (d'.thread t).isPublishing = false)
    (hsince : ∀ i, (d'.thread t).pinsSince? = some i → (d.thread t).pinsSince? = some i)
    (hcalls : ∀ c' ∈ (d'.thread t).calls, c'.phase.isCollecting = true → ∀ s, c'.phase.pin? = some s →
      ∃ c ∈ (d.thread t).calls, c.phase.isCollecting = true ∧ c.phase.pin? = some s) : d'.Rhythm t n where
  since := fun i hi => by
    have hold := hr.since i (hsince i hi)
    rwa [Thread.made_of_not_publishing hbefore, ← Thread.made_of_not_publishing hafter n] at hold
  begun := fun hp => absurd (hafter.symm.trans hp) Bool.false_ne_true
  collecting := fun c' hc' hcoll s hs => by
    obtain ⟨c, hc, hcoll, hs⟩ := hcalls c' hc' hcoll s hs
    exact hr.collecting c hc hcoll s hs

/-- An outermost pin begins. No other pin of the handle is under way, so none is collecting. -/
theorem Rhythm.begins (hr : d.Rhythm t n) {tid : Nat} {e : Epoch} (hout : d.isOutermost t (.pin k) = true)
    (hfree : (d.thread t).IsFree) (hsince : (d'.thread t).pinsSince? = (d.thread t).pinsSince?)
    (hcalls : (d'.thread t).calls = ⟨k, .publish tid e false⟩ :: (d.thread t).calls) : d'.Rhythm t (n + 1) := by
  have hafter : (d'.thread t).isPublishing = true := Thread.isPublishing_of_calls hcalls
  refine ⟨fun i hi => ?_, fun _ => Nat.succ_pos n, fun c hc hcoll s hs => ?_⟩
  · have hold := hr.since i (hsince ▸ hi)
    rw [Thread.made_of_not_publishing hfree.not_publishing] at hold
    rw [Thread.made_of_publishing hafter, Nat.add_sub_cancel]
    exact hold
  · rw [hcalls] at hc
    rcases List.mem_cons.mp hc with rfl | hc
    · cases hcoll
    · obtain ⟨tid', b⟩ := s
      cases (hr.collecting c hc hcoll _ hs).1
      have hattached := Thread.attached_ne_of_pins (Thread.mem_pins hc hs)
      rw [isOutermost_of_attached hattached] at hout
      cases hout

/-- An outermost pin publishes, and collects if its number is one at which to collect. -/
theorem Rhythm.publishes (hr : d.Rhythm t n) {c : Call ν κ} {rest : List (Call ν κ)} {tid i : Nat} {e : Epoch}
    (hc : (d.thread t).calls = c :: rest) (hp : c.phase = .publish tid e false)
    (hi : (d.thread t).pinsSince? = some i) :
    0 < n ∧ (collectEvery ≤ i + 1 ↔ collectEvery ∣ n) ∧
      (if collectEvery ≤ i + 1 then 0 else i + 1) = n % collectEvery := by
  have hbefore : (d.thread t).isPublishing = true := by rw [Thread.isPublishing_of_calls hc, hp]; rfl
  have hpos := hr.begun hbefore
  have hcount := hr.since i hi
  rw [Thread.made_of_publishing hbefore] at hcount
  unfold collectEvery at *
  refine ⟨hpos, ?_, ?_⟩
  · omega
  · split <;> omega

theorem Rhythm.published (hr : d.Rhythm t n) {c : Call ν κ} {rest : List (Call ν κ)} {tid i : Nat} {e : Epoch}
    (hc : (d.thread t).calls = c :: rest) (hp : c.phase = .publish tid e false)
    (hi : (d.thread t).pinsSince? = some i)
    (hsince : (d'.thread t).pinsSince? = some (if collectEvery ≤ i + 1 then 0 else i + 1))
    (hcalls : (d'.thread t).calls = { c with
      phase := if collectEvery ≤ i + 1 then .advance (.pin tid false) else .free (.pin tid false) [] 0 } :: rest) :
    d'.Rhythm t n := by
  obtain ⟨hpos, hiff, hcount⟩ := hr.publishes hc hp hi
  have hafter : (d'.thread t).isPublishing = false := by
    rw [Thread.isPublishing_of_calls hcalls]
    dsimp only
    split <;> rfl
  refine ⟨fun j hj => ?_, fun h => absurd (hafter.symm.trans h) Bool.false_ne_true, fun c' hc' hcoll s hs => ?_⟩
  · rw [hsince, hcount] at hj
    rw [Thread.made_of_not_publishing hafter]
    exact (Option.some.inj hj).symm
  · rw [hcalls] at hc'
    rcases List.mem_cons.mp hc' with rfl | hc'
    · dsimp only at hcoll hs
      split at hcoll
      next h =>
        rw [if_pos h] at hs
        cases hs
        exact ⟨rfl, hpos, hiff.mp h⟩
      next => cases hcoll
    · exact hr.collecting c' (by rw [hc]; exact List.mem_cons_of_mem _ hc') hcoll s hs

theorem Rhythm.beat (hr : d.Rhythm t n) (hb : Beat d t d' m) : d'.Rhythm t (n + d.begun t t m) := by
  cases hb with
  | outermost k tid e hout hfree hsince hcalls =>
    rw [begun_of_outermost hout]
    exact hr.begins hout hfree hsince hcalls
  | opened m k q hout hfree hq hcoll hsince hcalls =>
    rw [begun_of_not_outermost hout]
    refine hr.keep hfree.not_publishing ((Thread.isPublishing_of_calls hcalls).trans hq)
      (fun i hi => hsince ▸ hi) fun c' hc' hcoll' s hs => ?_
    rw [hcalls] at hc'
    rcases List.mem_cons.mp hc' with rfl | hc'
    · cases (hcoll hcoll').symm.trans hs
    · exact ⟨c', hc', hcoll', hs⟩
  | kept m hout hfree hsince hcalls =>
    rw [begun_of_not_outermost hout]
    refine hr.keep hfree.not_publishing (hfree.congr hcalls).not_publishing hsince fun c' hc' hcoll s hs => ?_
    exact ⟨c', hcalls ▸ hc', hcoll, hs⟩
  | published c rest tid e i hc hp hi hsince hcalls =>
    rw [begun_of_not_outermost rfl]
    exact hr.published hc hp hi hsince hcalls
  | on c rest q hc hp hq hpin hcoll hsince hcalls =>
    rw [begun_of_not_outermost rfl]
    have hafter : q.isPublishing = false := Phase.isPublishing_of_stage (Nat.lt_of_lt_of_le Nat.two_pos hq)
    refine hr.keep ((Thread.isPublishing_of_calls hc).trans hp) ((Thread.isPublishing_of_calls hcalls).trans hafter)
      (fun i hi => hsince ▸ hi) fun c' hc' hcoll' s hs => ?_
    rw [hcalls] at hc'
    rw [hc]
    rcases List.mem_cons.mp hc' with rfl | hc'
    · exact ⟨c, List.mem_cons_self, hcoll hcoll', hpin.symm.trans hs⟩
    · exact ⟨c', List.mem_cons_of_mem _ hc', hcoll', hs⟩
  | back c rest hc hp hfree hsince hcalls =>
    rw [begun_of_not_outermost rfl]
    refine hr.keep ((Thread.isPublishing_of_calls hc).trans hp) hfree.not_publishing (fun i hi => hsince ▸ hi)
      fun c' hc' hcoll s hs => ?_
    rw [hcalls] at hc'
    exact ⟨c', by rw [hc]; exact List.mem_cons_of_mem _ hc', hcoll, hs⟩

/-! ## Runs -/

namespace Tally

theorem reach (h : Tally t d n e) (hd : d.Reach) : e.Reach := by
  induction h with
  | start => exact hd
  | move u m _ hm ih => exact ih.move u m hm

theorem trans {n' : Nat} {f : Domain ν κ} (h : Tally t d n e) (h' : Tally t e n' f) : Tally t d (n + n') f := by
  induction h' with
  | start => exact h
  | move u m _ hm ih =>
    rw [← Nat.add_assoc]
    exact ih.move u m hm

theorem rhythm (h : Tally t {} n d) : d.Rhythm t n := by
  induction h with
  | start => exact rhythm_empty t
  | move u m hrun hm ih =>
    by_cases hu : u = t
    · subst hu
      exact ih.beat ((hrun.reach .start).owned.beat hm)
    · rw [begun_of_ne hu]
      exact ih.others (thread_move_of_ne (Ne.symm hu) m)

end Tally

end

end Domain

end EpochQueue.Reclaim
