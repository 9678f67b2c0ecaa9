/-
  EpochQueue.Proofs.Reclaim.Cadence — which pins collect.

  A pin collects if it is outermost and its number among the outermost pins of its thread is a multiple
  of `collectEvery`, wherever it is made: between two calls, or in a destructor that a flush or a
  retirement runs. `Cadence` is all of this about one state, its moves and the calls that begin there,
  and `Tally.cadence` says that every run comes to such states only.

  A move at a time, it is read off `Rhythm`. For whole calls, `During` follows a call from its opening
  to its return, whatever destructors and other threads do in between. While a pin of the handle is open
  its guard is counted, so it counts no pin but itself (`During.of_pin`). Other calls may count any
  number, which moves the count on by as many (`Tally.calls`).
-/

import EpochQueue.Proofs.Reclaim.Beats
import EpochQueue.Proofs.Reclaim.LatePins
import EpochQueue.Proofs.Reclaim.Schedules
import EpochQueue.Proofs.Reclaim.Ways

namespace EpochQueue.Reclaim

variable {ν κ : Type}

/-- The moves that open a call. -/
def Move.isCall : Move ν κ → Bool
  | .pin _ | .retire _ _ | .flush _ => true
  | .unpin _ | .pending | .exit | .step => false

namespace Domain

/-- With the move `m` thread `t` opens a call at `d`, and moves of any threads lead from there to here,
    where it has returned at the last move, or not yet. With `n` of them `t` begins an outermost pin. -/
inductive During (t : Nat) (d : Domain ν κ) (m : Move ν κ) : Nat → Domain ν κ → Prop
  | call : d.may t m → During t d m (d.begun t t m) (d.move t m)
  | move {n : Nat} {e : Domain ν κ} (u : Nat) (m' : Move ν κ) : During t d m n e →
      (d.thread t).calls.length < (e.thread t).calls.length → e.may u m' →
      During t d m (n + e.begun t u m') (e.move u m')

section

variable {d d' e : Domain ν κ} {t u n : Nat} {m : Move ν κ} {k : κ} {h : Handle ν}

/-! ## Whole calls -/

/-- Under way on top of `base` is a call that makes a guard `s`, if any, and what it has brought about. -/
def Above (base : List (Call ν κ)) (s : Option (Nat × Bool)) (calls : List (Call ν κ)) : Prop :=
  ∃ above c, calls = above ++ c :: base ∧ c.phase.pin? = s

/-- A call opened on top is there until it returns. -/
theorem Beat.above {base : List (Call ν κ)} {s : Option (Nat × Bool)} (hb : Beat d t d' m)
    (ha : Above base s (d.thread t).calls) : Above base s (d'.thread t).calls ∨ (d'.thread t).calls = base := by
  obtain ⟨above, c₀, hold, hpin₀⟩ := ha
  have hpushed : ∀ {c}, (d'.thread t).calls = c :: (d.thread t).calls → Above base s (d'.thread t).calls :=
    fun {c} hcalls => ⟨c :: above, c₀, by rw [hcalls, hold]; rfl, hpin₀⟩
  have hturned : ∀ {c rest} {q : Phase ν}, (d.thread t).calls = c :: rest → q.pin? = c.phase.pin? →
      (d'.thread t).calls = { c with phase := q } :: rest → Above base s (d'.thread t).calls := by
    intro c rest q hc hpin hcalls
    rw [hc] at hold
    rw [hcalls]
    cases above with
    | nil =>
      obtain ⟨rfl, rfl⟩ := List.cons.inj hold
      exact ⟨[], _, rfl, hpin.trans hpin₀⟩
    | cons a above =>
      obtain ⟨rfl, rfl⟩ := List.cons.inj hold
      exact ⟨_ :: above, c₀, rfl, hpin₀⟩
  cases hb with
  | outermost k tid e hout hfree hsince hcalls => exact Or.inl (hpushed hcalls)
  | opened m k q hout hfree hq hcoll hsince hcalls => exact Or.inl (hpushed hcalls)
  | kept m hout hfree hsince hcalls => exact Or.inl ⟨above, c₀, hcalls.trans hold, hpin₀⟩
  | published c rest tid e i hc hp hi hsince hcalls =>
    refine Or.inl (hturned hc ?_ hcalls)
    rw [hp]
    split <;> rfl
  | on c rest q hc hp hq hpin hcoll hsince hcalls => exact Or.inl (hturned hc hpin hcalls)
  | back c rest hc hp hfree hsince hcalls =>
    rw [hc] at hold
    rw [hcalls]
    cases above with
    | nil => exact Or.inr (List.cons.inj hold).2
    | cons a above => exact Or.inl ⟨above, c₀, (List.cons.inj hold).2, hpin₀⟩

namespace During

theorem tally (h : During t d m n e) : Tally t d n e := by
  induction h with
  | call hm => simpa using Tally.move t m .start hm
  | move u m' _ _ hm ih => exact ih.move u m' hm

theorem permitted (h : During t d m n e) : d.may t m := by
  induction h with
  | call hm => exact hm
  | move _ _ _ _ _ ih => exact ih

/-- The handle is not destroyed meanwhile. -/
theorem handle (hd : During t d m n e) (hm : m ≠ .exit) (hh : (d.handle? t).isSome = true) :
    (e.handle? t).isSome = true := by
  induction hd with
  | call _ =>
    obtain ⟨h, hh⟩ := Option.isSome_iff_exists.mp hh
    exact handle?_move hh hm
  | @move n e u m' _ hopen hmay ih =>
    by_cases hu : u = t
    · subst hu
      obtain ⟨h, hh⟩ := Option.isSome_iff_exists.mp ih
      refine handle?_move hh fun hexit => ?_
      subst hexit
      rw [show (e.thread u).calls = [] from hmay] at hopen
      cases hopen
    · rwa [handle?_eq, thread_move_of_ne (Ne.symm hu), ← handle?_eq]

/-- While a pin of the handle is under way, none that its destructors make is outermost. -/
theorem of_pin (hd : During t d (.pin k) n e) (hr : d.Reach) (hh : d.handle? t = some h) :
    n = d.begun t t (.pin k) ∧ ((∃ tid, Above (d.thread t).calls (some (tid, false)) (e.thread t).calls) ∨
      (e.thread t).calls = (d.thread t).calls) := by
  induction hd with
  | call _ =>
    obtain ⟨tid, e, ht⟩ := pin_by hh k
    refine ⟨rfl, Or.inl ⟨tid, [], _, by rw [Domain.move, ht]; rfl, ?_⟩⟩
    dsimp only
    split <;> rfl
  | @move n e u m' hrun hopen hmay ih =>
    obtain ⟨hn, hstands⟩ := ih
    obtain ⟨tid, habove⟩ := hstands.resolve_right fun heq => Nat.ne_of_lt hopen (by rw [heq])
    by_cases hu : u = t
    · subst hu
      have hattached : (e.thread u).attached ≠ 0 := by
        obtain ⟨above, c, hcalls, hpin⟩ := habove
        exact Thread.attached_ne_of_pins (Thread.mem_pins (c := c) (by rw [hcalls]; simp) hpin)
      refine ⟨?_, ((hrun.tally.reach hr).owned.beat hmay).above habove |>.imp_left fun h => ⟨tid, h⟩⟩
      rw [begun_of_not_outermost (isOutermost_of_attached hattached m'), hn, Nat.add_zero]
    · rw [thread_move_of_ne (Ne.symm hu), begun_of_ne hu]
      exact ⟨hn, Or.inl ⟨tid, habove⟩⟩

end During

/-! ## All that is said about collections -/

/-- How the handle of `t` counts, and when its pins collect, once `n` outermost pins are begun. -/
structure Cadence (d : Domain ν κ) (t n : Nat) : Prop where
  count : ∀ h, d.handle? t = some h →
    h.pinsSinceCollect < collectEvery ∧ h.pinsSinceCollect = (d.thread t).made n % collectEvery
  /-- A pin counts its guard at once. An outermost one has to publish, which is when it counts itself;
      an inner one has nothing left to do. -/
  pins : ∀ h k, d.mayCall t = true → d.handle? t = some h → (d.isOutermost t (.pin k) = true ↔ h.pinCount = 0) ∧
    ∃ h' tid e, (d.pin t k).handle? t = some h' ∧ h'.pinsSinceCollect = h.pinsSinceCollect ∧
      h'.pinCount = h.pinCount + 1 ∧ ((d.pin t k).thread t).point? =
        some (if h.pinCount = 0 then .publish tid e false else .free (.pin tid false) [] 0)
  /-- The `n`-th outermost pin publishes and counts itself. -/
  publishes : ∀ tid e, (d.thread t).point? = some (.publish tid e false) → 0 < n ∧
    (∃ h, (d.step t).1.handle? t = some h ∧ h.pinsSinceCollect = n % collectEvery) ∧
    ((d.step t).1.registry.slot tid).epoch = e ∧ ((d.step t).1.thread t).point? =
      some (if collectEvery ∣ n then .advance (.pin tid false) else .free (.pin tid false) [] 0)
  /-- A pin begins to collect when it has published and its number is a multiple of the period. -/
  collects : ∀ m tid b, d.may t m → (((d.move t m).thread t).point? = some (.advance (.pin tid b)) ↔
    m = .step ∧ b = false ∧ (∃ e, (d.thread t).point? = some (.publish tid e false)) ∧ collectEvery ∣ n)
  /-- As long as it collects the count is 0, its guard is counted, and the slot is pinned. -/
  collecting : ∀ c ∈ (d.thread t).calls, c.phase.isCollecting = true → ∀ tid b, c.phase.pin? = some (tid, b) →
    b = false ∧ 0 < n ∧ collectEvery ∣ n ∧
      (∃ h, d.handle? t = some h ∧ h.pinsSinceCollect = 0 ∧ 0 < h.pinCount ∧ h.slot = some tid) ∧
      (¬ d.wrapped → (d.registry.slot tid).epoch ≠ quiescent)
  /-- While a pin of the handle is under way, no pin is outermost. -/
  inside : ∀ tid, (tid, false) ∈ (d.thread t).pins → ∀ m, d.isOutermost t m = false
  /-- Nothing but the publication of an outermost pin changes the count. -/
  kept : ∀ u m h h', d.may u m → d.handle? t = some h → (d.move u m).handle? t = some h' →
    h'.pinsSinceCollect ≠ h.pinsSinceCollect →
    u = t ∧ m = .step ∧ ∃ tid e, (d.thread t).point? = some (.publish tid e false)
  /-- From its opening to its return a call counts the outermost pins begun meanwhile. A pin has none
      but itself, if it is one. -/
  calls : ∀ m k d' h, m.isCall = true → During t d m k d' → (d'.thread t).calls = (d.thread t).calls →
    d.handle? t = some h →
    (∃ h', d'.handle? t = some h' ∧ h'.pinsSinceCollect = (h.pinsSinceCollect + k) % collectEvery) ∧
      ∀ ticket, m = .pin ticket → k = if d.isOutermost t m = true then 1 else 0
  /-- Those that are begun after the opening are begun by destructors. -/
  destructors : ∀ m k e m', During t d m k e → (d.thread t).calls.length < (e.thread t).calls.length →
    e.may t m' → e.isOutermost t m' = true → ∃ q, (e.thread t).point? = some q ∧ q.isFreeing = true

theorem mayCall_of_isCall (hm : d.may t m) (hcall : m.isCall = true) : d.mayCall t = true := by
  cases m with
  | pin | flush => exact hm
  | retire => exact hm.1
  | unpin | pending | exit | step => cases hcall

/-- The slot that a step publishes in holds what was published. -/
theorem Owned.epoch_published (ho : d.Owned) {c : Call ν κ} {rest : List (Call ν κ)} {tid : Nat} {x : Epoch} {b : Bool}
    (hc : (d.thread t).calls = c :: rest) (hp : c.phase = .publish tid x b) :
    ((d.step t).1.registry.slot tid).epoch = x := by
  rw [step_eq hc, hp]
  dsimp only
  rw [(publish_frame d t tid x b).1, Registry.slot_pin _ _ _ (ho.hasSlot_of_publish hc hp), if_pos rfl]

/-- Whoever is about to publish for a handle has no other pin of it under way. -/
theorem Owned.publishes_alone (ho : d.Owned) {tid tid' : Nat} {x : Epoch}
    (hp : (d.thread t).point? = some (.publish tid x false)) {c : Call ν κ} (hc : c ∈ (d.thread t).calls)
    (hs : c.phase.pin? = some (tid', false)) : c.phase.isPublishing = true := by
  obtain ⟨c₀, rest, hc₀, hp₀⟩ := Thread.exists_of_point? hp
  obtain ⟨s, hl⟩ := (ho.sound t).publishing c₀ rest tid x hc₀ hp₀
  have hone : (d.thread t).attached = 1 := (ho.sound t).counted _ _ hl
  rw [hc₀] at hc
  rcases List.mem_cons.mp hc with rfl | hc
  · rw [hp₀]
    rfl
  · have hpins : (d.thread t).pins = (tid, false) :: rest.filterMap (·.phase.pin?) := by
      simp [Thread.pins, hc₀, hp₀, Phase.pin?]
    have hother : 0 < (rest.filterMap (·.phase.pin?)).countP (!·.2) :=
      List.countP_pos_iff.mpr ⟨_, List.mem_filterMap.mpr ⟨c, hc, hs⟩, rfl⟩
    rw [Thread.attached, Thread.holds, hpins, List.cons_append, List.countP_cons_of_pos rfl,
      List.countP_append] at hone
    omega

namespace Tally

/-- The count of a handle, as a number and in terms of what its thread has begun. -/
theorem count (hd : Tally t {} n d) (hh : d.handle? t = some h) :
    h.pinsSinceCollect = (d.thread t).made n % collectEvery :=
  hd.rhythm.since _ (pinsSince?_eq hh)

theorem count_of_free (hd : Tally t {} n d) (hfree : (d.thread t).IsFree) (hh : d.handle? t = some h) :
    h.pinsSinceCollect = n % collectEvery := by
  rw [hd.count hh, Thread.made_of_not_publishing hfree.not_publishing]

theorem pins (hd : Tally t {} n d) (hh : d.handle? t = some h) (k : κ) :
    (d.isOutermost t (.pin k) = true ↔ h.pinCount = 0) ∧
      ∃ h' tid e, (d.pin t k).handle? t = some h' ∧ h'.pinsSinceCollect = h.pinsSinceCollect ∧
        h'.pinCount = h.pinCount + 1 ∧ ((d.pin t k).thread t).point? =
          some (if h.pinCount = 0 then .publish tid e false else .free (.pin tid false) [] 0) := by
  obtain ⟨tid, e, ht⟩ := pin_by hh k
  refine ⟨(hd.reach .start).owned.isOutermost_iff hh k,
    { h with slot := some tid, pinCount := h.pinCount + 1 }, tid, e, ?_, rfl, rfl, ?_⟩
  · rw [handle?_eq, ht]
    rfl
  · rw [ht]
    rfl

theorem publishes (hd : Tally t {} n d) {tid : Nat} {e : Epoch}
    (hp : (d.thread t).point? = some (.publish tid e false)) : 0 < n ∧
      (∃ h, (d.step t).1.handle? t = some h ∧ h.pinsSinceCollect = n % collectEvery) ∧
      ((d.step t).1.registry.slot tid).epoch = e ∧ ((d.step t).1.thread t).point? =
        some (if collectEvery ∣ n then .advance (.pin tid false) else .free (.pin tid false) [] 0) := by
  have ho := (hd.reach .start).owned
  obtain ⟨c, rest, hc, hp⟩ := Thread.exists_of_point? hp
  obtain ⟨i, hi, hsince, hcalls⟩ := ho.counts_publish hc hp
  obtain ⟨hpos, hiff, hcount⟩ := hd.rhythm.publishes hc hp hi
  have hstep : (d.step t).1 = d.publish t tid e false := by rw [step_eq hc, hp]
  refine ⟨hpos, exists_of_pinsSince? ?_, ho.epoch_published hc hp, ?_⟩
  · rw [hstep, hsince, hcount]
  · rw [hstep, Thread.point?_of_calls hcalls]
    simp only [hiff]

/-- A pin comes to collect by publishing, if its number is a multiple of the period. -/
theorem collects (hd : Tally t {} n d) (hm : d.may t m) {tid : Nat} {b : Bool} :
    ((d.move t m).thread t).point? = some (.advance (.pin tid b)) ↔
      m = .step ∧ b = false ∧ (∃ e, (d.thread t).point? = some (.publish tid e false)) ∧ collectEvery ∣ n := by
  constructor
  · intro hp
    have hb := (hd.reach .start).owned.beat hm
    have hfree : ¬ ((d.move t m).thread t).IsFree := fun h => Bool.false_ne_true (h _ hp)
    have htop : ∀ {c : Call ν κ} {rest}, ((d.move t m).thread t).calls = c :: rest →
        c.phase = .advance (.pin tid b) := fun hcalls =>
      Option.some.inj ((Thread.point?_of_calls hcalls).symm.trans hp)
    generalize d.move t m = d' at hb hp hfree htop
    cases hb with
    | outermost k _ _ _ _ _ hcalls => cases htop hcalls
    | opened _ _ q _ _ _ hcoll _ hcalls =>
      cases htop hcalls
      cases hcoll rfl
    | kept _ _ hfree' _ hcalls => exact absurd (hfree'.congr hcalls) hfree
    | published c rest tid' e i hc hp' hi _ hcalls =>
      obtain ⟨-, hiff, -⟩ := hd.rhythm.publishes hc hp' hi
      have hphase := htop hcalls
      dsimp only at hphase
      split at hphase
      next h =>
        cases hphase
        exact ⟨rfl, rfl, ⟨e, (Thread.point?_of_calls hc).trans (congrArg some hp')⟩, hiff.mp h⟩
      next => cases hphase
    | on _ _ q _ _ hq _ _ _ hcalls =>
      cases htop hcalls
      exact absurd hq (Nat.not_succ_le_self 1)
    | back _ _ _ _ hfree' => exact absurd hfree' hfree
  · rintro ⟨rfl, rfl, ⟨e, hp⟩, hdvd⟩
    obtain ⟨-, -, -, hpoint⟩ := hd.publishes hp
    rw [if_pos hdvd] at hpoint
    exact hpoint

/-- A collection that a pin runs. -/
theorem collecting (hd : Tally t {} n d) {c : Call ν κ} (hc : c ∈ (d.thread t).calls)
    (hcoll : c.phase.isCollecting = true) {tid : Nat} {b : Bool} (hp : c.phase.pin? = some (tid, b)) :
    b = false ∧ 0 < n ∧ collectEvery ∣ n ∧
      (∃ h, d.handle? t = some h ∧ h.pinsSinceCollect = 0 ∧ 0 < h.pinCount ∧ h.slot = some tid) ∧
      (¬ d.wrapped → (d.registry.slot tid).epoch ≠ quiescent) := by
  have hr := hd.reach .start
  have ho := hr.owned
  obtain ⟨hb, hpos, hdvd⟩ := hd.rhythm.collecting c hc hcoll _ hp
  cases hb
  have hpins := Thread.mem_pins hc hp
  have hholds : (tid, false) ∈ (d.thread t).holds := List.mem_append_left _ hpins
  have hquiet : ∀ {tid e}, (d.thread t).point? ≠ some (.publish tid e false) := fun hp' => by
    exact absurd ((Phase.isPublishing_of_isCollecting hcoll).symm.trans (ho.publishes_alone hp' hc hp))
      Bool.false_ne_true
  refine ⟨rfl, hpos, hdvd, ?_, fun hw => hr.shielded hw t _ (ho.shields_of_holds hholds fun e => hquiet)⟩
  cases hh : d.handle? t with
  | none => exact absurd (lease_eq_none hh) ((ho.sound t).pinning tid hpins)
  | some h =>
    refine ⟨h, rfl, ?_, ?_, (ho.sound t).leased _ _ tid (lease_eq hh) hholds⟩
    · have hcount := hd.count hh
      have hmade : (d.thread t).made n = n := Thread.made_of_not_publishing (Thread.isPublishing_of_point? hquiet) n
      rw [hcount, hmade]
      exact Nat.mod_eq_zero_of_dvd hdvd
    · rw [← (ho.sound t).counted _ _ (lease_eq hh)]
      exact Thread.attached_pos hholds

/-- Whose move it is that changes a count. -/
theorem kept (hd : Tally t {} n d) (hm : d.may u m) {h' : Handle ν} (hh : d.handle? t = some h)
    (hh' : (d.move u m).handle? t = some h') (hne : h'.pinsSinceCollect ≠ h.pinsSinceCollect) :
    u = t ∧ m = .step ∧ ∃ tid e, (d.thread t).point? = some (.publish tid e false) := by
  have hold := pinsSince?_eq hh
  have hnew := pinsSince?_eq hh'
  by_cases hu : u = t
  · subst hu
    have hb := (hd.reach .start).owned.beat hm
    generalize d.move u m = d' at hb hnew
    have hsame : (d'.thread u).pinsSince? ≠ (d.thread u).pinsSince? := fun e =>
      hne (Option.some.inj (hnew.symm.trans (e.trans hold)))
    cases hb with
    | published c rest tid e i hc hp =>
      exact ⟨rfl, rfl, tid, e, (Thread.point?_of_calls hc).trans (congrArg some hp)⟩
    | kept _ _ _ hsince => exact absurd ((hsince _ hnew).symm.trans hold) fun e => hne (Option.some.inj e)
    | outermost _ _ _ _ _ hsince => exact absurd hsince hsame
    | opened _ _ _ _ _ _ _ hsince => exact absurd hsince hsame
    | on _ _ _ _ _ _ _ _ hsince => exact absurd hsince hsame
    | back _ _ _ _ _ hsince => exact absurd hsince hsame
  · rw [thread_move_of_ne (Ne.symm hu), hold] at hnew
    exact absurd (Option.some.inj hnew).symm hne

/-- What a call counts until it returns. -/
theorem calls (hd : Tally t {} n d) (hcall : m.isCall = true) {k : Nat} (hrun : During t d m k d')
    (hback : (d'.thread t).calls = (d.thread t).calls) (hh : d.handle? t = some h) :
    ∃ h', d'.handle? t = some h' ∧ h'.pinsSinceCollect = (h.pinsSinceCollect + k) % collectEvery := by
  have hfree := isFree_of_mayCall (mayCall_of_isCall hrun.permitted hcall)
  obtain ⟨h', hh'⟩ := Option.isSome_iff_exists.mp
    (hrun.handle (fun e => by rw [e] at hcall; cases hcall) (Option.isSome_iff_exists.mpr ⟨h, hh⟩))
  refine ⟨h', hh', ?_⟩
  rw [(hd.trans hrun.tally).count_of_free (hfree.congr hback) hh', hd.count_of_free hfree hh, Nat.mod_add_mod]

/-- Every run keeps the cadence: the pins that collect are the outermost ones whose number is a multiple
    of the period, wherever they are made, and the count is that number's remainder. -/
theorem cadence (hd : Tally t {} n d) : d.Cadence t n where
  count h hh := by
    have hcount := hd.count hh
    exact ⟨hcount ▸ Nat.mod_lt _ (by decide), hcount⟩
  pins h k _ hh := hd.pins hh k
  publishes tid e hp := hd.publishes hp
  collects m tid b hm := hd.collects hm
  collecting c hc hcoll tid b hp := hd.collecting hc hcoll hp
  inside tid hp m := isOutermost_of_attached (Thread.attached_ne_of_pins hp) m
  kept u m h h' hm hh hh' hne := hd.kept hm hh hh' hne
  calls m k d' h hcall hrun hback hh := by
    refine ⟨hd.calls hcall hrun hback hh, fun ticket hpin => ?_⟩
    subst hpin
    rw [(hrun.of_pin (hd.reach .start) hh).1, begun]
    simp only [true_and]
  destructors m k e m' hrun hopen hm hout := by
    cases m' with
    | pin ticket =>
      obtain ⟨c, rest, hc⟩ := List.exists_cons_of_ne_nil (show (e.thread t).calls ≠ [] from fun h => by
        rw [h] at hopen
        cases hopen)
      exact ⟨c.phase, Thread.point?_of_calls hc, isFreeing_of_mayCall hm (Thread.point?_of_calls hc)⟩
    | _ => cases hout

end Tally

/-- The outermost pins that `t` begins in a schedule. -/
def pinsBegun (t : Nat) (d : Domain ν κ) : List (Nat × Move ν κ) → Nat
  | [] => 0
  | (u, m) :: ms => d.begun t u m + (d.move u m).pinsBegun t ms

theorem Tally.of_play [DecidableEq ν] {ms : List (Nat × Move ν κ)} : ∀ {d e f : Domain ν κ} {n : Nat},
    Tally t d n e → e.play ms = some f → Tally t d (n + e.pinsBegun t ms) f := by
  induction ms with
  | nil => intro d e f n h hplay; cases hplay; exact h
  | cons um ms ih =>
    intro d e f n h hplay
    rw [play] at hplay
    split at hplay
    · rw [pinsBegun, ← Nat.add_assoc]
      exact ih (h.move um.1 um.2 ‹_›) hplay
    · cases hplay

end

/-- Thread 0 makes `k` outermost pins and drops each guard at once; the first one has number `i`. -/
def pinsAndDrops : Nat → Nat → List (Nat × Move Nat Nat)
  | 0, _ => []
  | k + 1, i => [(0, .pin 0), (0, .step), (0, .step), (0, .unpin ⟨i, 0, false⟩)] ++ pinsAndDrops k (i + 1)

/-- Thread 1 retires node 9 and flushes; thread 0 retires node 5 and makes 127 outermost pins. Then it
    flushes twice, which destroys node 5, whose destructor makes one more. Thread 1 has exited by then,
    so that this pin adopts node 9 and destroys it, and its destructor pins again. -/
def rousedRun : List (Nat × Move Nat Nat) :=
  [(1, .retire 9 0), (1, .step), (1, .flush 0), (1, .step), (1, .step), (1, .step), (0, .retire 5 0), (0, .step)] ++
    pinsAndDrops 127 0 ++
    [(0, .flush 0), (0, .step), (0, .step), (0, .step), (0, .flush 0), (0, .step), (0, .step), (1, .exit), (0, .step),
      (0, .pin 1), (0, .step), (0, .step), (0, .step), (0, .step), (0, .pin 2)]

theorem rousedRun_plays : (({} : Domain Nat Nat).play rousedRun).isSome = true := by decide +kernel

def rousedEnd : Domain Nat Nat := (({} : Domain Nat Nat).play rousedRun).get rousedRun_plays

theorem rousedEnd_tallied : Tally 0 {} 128 rousedEnd := by
  have hn : ({} : Domain Nat Nat).pinsBegun 0 rousedRun = 128 := by decide +kernel
  have hrun := Tally.of_play (t := 0) .start (Option.some_get rousedRun_plays).symm
  rwa [hn, Nat.zero_add] at hrun

/-- Two pins are under way on top of a flush. The 128th outermost one collects and the count is back at
    0; the other is an inner one. -/
theorem cadence_at_rousedEnd : Tally 0 {} 128 rousedEnd ∧ rousedEnd.Cadence 0 128 ∧
    (rousedEnd.thread 0).calls.map (·.phase) =
      [.free (.pin 0 false) [] 0, .free (.pin 0 false) [] 1, .free .flush [] 1] ∧
    ((rousedEnd.handle? 0).map fun h => (h.pinsSinceCollect, h.pinCount)) = some (0, 2) ∧
    ∀ m, rousedEnd.isOutermost 0 m = false := by
  have h := Tally.cadence rousedEnd_tallied
  exact ⟨rousedEnd_tallied, h, by decide +kernel, by decide +kernel, h.inside 0 (by decide +kernel)⟩

end Domain

end EpochQueue.Reclaim
