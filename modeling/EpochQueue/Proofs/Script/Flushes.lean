/-
  EpochQueue.Proofs.Script.Flushes — a flush of the last thread, destructors and all.

  A flush takes three steps before it destroys anything (`Flushing`). If it takes nothing out, what
  waits is one epoch older; if it destroys something, it pays for all that its destructors make, so
  that less is left to destroy than before (`flush_ends`).
-/

import EpochQueue.Proofs.Reclaim.Sweep
import EpochQueue.Proofs.Script.Sessions

namespace EpochQueue.Script

open EpochQueue.Fifo (Garbage Operation World)
open EpochQueue.Reclaim (Domain)
open EpochQueue.Reclaim.Domain (Sifted)

variable {α : Type}

namespace State

/-- Nobody is left but `t`, and nothing is under way. -/
structure Sweeping (s : State α) (t : Nat) : Prop where
  sound : s.Sound
  idle : ∀ u, (s.worker u).frames = [] ∧ (s.worker u).guards = []
  handle : (s.world.domain.handle? t).isSome = true
  others : ∀ u, u ≠ t → ∀ h, (s.world.domain.thread u).tenure ≠ .live h

section

variable {s s' : State α} {t : Nat}

namespace Sweeping

theorem resting (h : Sweeping s t) (u : Nat) :
    s.world.operation u = none ∧ (s.world.domain.thread u).calls = [] ∧ (s.world.domain.thread u).guards = [] := by
  obtain ⟨hop, hc, hg⟩ := (h.sound.seated u).guards_of_idle (h.idle u).1
  rw [(h.idle u).2] at hg
  exact ⟨hop, hc, hg.eq_nil⟩

theorem deserted (h : Sweeping s t) : s.world.domain.Deserted t :=
  ⟨fun u => (h.resting u).2.1, fun u => (h.resting u).2.2, h.handle, h.others⟩

theorem reach (h : Sweeping s t) : s.world.domain.Reach := h.sound.queueInv.choose_spec.reach

theorem onward (h : Sweeping s t) (ho : Onward t s s') (hf : (s'.worker t).frames = [])
    (hg : (s'.worker t).guards = []) : Sweeping s' t where
  sound := ho.sound
  idle := fun u => by
    by_cases e : u = t
    · subst e; exact ⟨hf, hg⟩
    · rw [ho.workers u e]; exact h.idle u
  handle := ho.world.follows.handle h.handle
  others := fun u e => by rw [ho.world.follows.thread_of_ne e]; exact h.others u e

end Sweeping

/-! ## The steps of a flush -/

/-- The frame of a flush. -/
def flushFrame : Frame α := { inside := false, todo := [.command .flush], gather := .sole }

/-- The same while it waits for the call. -/
def flushWaits : Frame α := { (flushFrame : Frame α) with await := some .flushed }

/-- How far the flush has come that `t` was given at `s`, with what it may still cost beside what
    there was to destroy. -/
inductive FlushStage (s : State α) (t : Nat) (s' : State α) : Nat → Prop
  | given (hf : (s'.worker t).frames = [flushFrame]) (hw : s'.world = s.world) : FlushStage s t s' 5
  | opened (hf : (s'.worker t).frames = [flushWaits]) (hop : s'.world.operation t = none)
      (hd : s'.world.domain = s.world.domain.flush t none) : FlushStage s t s' 4
  | advanced (hf : (s'.worker t).frames = [flushWaits]) (hop : s'.world.operation t = none)
      (hd : s'.world.domain = ((s.world.domain.flush t none).step t).1) : FlushStage s t s' 3
  | sifted (hf : (s'.worker t).frames = [flushWaits]) (hop : s'.world.operation t = none)
      (hd : Sifted s.world.domain t s'.world.domain) (todo : List Garbage)
      (hc : (s'.world.domain.thread t).calls = [⟨none, .free .flush todo 0⟩]) : FlushStage s t s' 2
  /-- Something was destroyed. -/
  | freeing (hf : ∃ above, (s'.worker t).frames = above ++ [flushWaits]) (ho : s'.world.domain.orphans = []) :
      FlushStage s t s' 1
  | freed (n : Nat) (hf : (s'.worker t).frames = [flushWaits.after (.number n)]) (ho : s'.world.domain.orphans = []) :
      FlushStage s t s' 0
  /-- Nothing was. -/
  | spared (n : Nat) (hf : (s'.worker t).frames = [flushWaits.after (.number n)])
      (hd : Sifted s.world.domain t s'.world.domain) : FlushStage s t s' 1

/-- The flush that `t` was given at `s` has led to `s'`, within what it may cost. -/
structure Flushing (s : State α) (t : Nat) (s' : State α) : Prop where
  onward : Onward t s s'
  guards : (s'.worker t).guards = []
  stage : ∃ n, FlushStage s t s' n ∧ s'.left t ≤ s.stock + n

/-- What the flush has come to: less is left to destroy, or nothing was destroyed. -/
structure Flushed (s : State α) (t : Nat) (s' : State α) : Prop where
  sweeping : Sweeping s' t
  orphans : s'.world.domain.orphans = []
  less : s'.stock < s.stock ∨ s'.stock ≤ s.stock ∧ Sifted s.world.domain t s'.world.domain

theorem Flushing.frames_ne_nil (h : Flushing s t s') : (s'.worker t).frames ≠ [] := by
  obtain ⟨n, hstage, -⟩ := h.stage
  cases hstage with
  | freeing hf =>
    obtain ⟨above, hf⟩ := hf
    rw [hf]
    exact List.append_ne_nil_of_right_ne_nil _ (List.cons_ne_nil _ _)
  | given hf | opened hf | advanced hf | sifted hf | freed _ hf | spared _ hf =>
    rw [hf]
    exact List.cons_ne_nil _ _

theorem destroy_frames (s : State α) (t i : Nat) :
    ∃ top, ((s.destroy t i).worker t).frames = top ++ (s.worker t).frames := by
  cases ho : s.objects[i]? with
  | none =>
    unfold destroy
    rw [ho]
    exact ⟨[], rfl⟩
  | some o =>
    obtain ⟨log, hdestroy⟩ := destroy_eq (s := s) (t := t) ho
    rw [hdestroy]
    generalize ({ object := some i, inside := true, todo := o.onFree.map .command, gather := .nothing } : Frame α) = f
    exact ⟨[f], (congrArg Worker.frames (worker_pushFrame _ t f t)).trans (by rw [if_pos rfl]; rfl)⟩

/-- The call that a frame waits for goes on. -/
theorem step_of_quiet {f : Frame α} {below : List (Frame α)} {a : Await} (hf : (s.worker t).frames = f :: below)
    (ha : f.await = some a) (hop : s.world.operation t = none) {d : Domain Garbage (Option (Operation α))}
    (hd : s.world.domain.step t = (d, .quiet)) :
    (s.step t).1.world = { s.world with domain := d } ∧ (s.step t).1.worker t = s.worker t := by
  have hstep : s.world.step t = ({ s.world with domain := d }, .quiet) := by
    unfold World.step World.stepCall
    rw [hop, hd]
  rw [(step_of_waiting hf ha).1, hstep]
  refine ⟨?_, rfl⟩
  show (s.world.step t).1 = _
  rw [hstep]

/-- The lowest frame has nothing left to do. -/
theorem step_of_done {f : Frame α} (hf : (s.worker t).frames = [f]) (ha : f.await = none) (htodo : f.todo = [])
    (hrounds : f.rounds = 0) (hobject : f.object = none) (hgather : f.gather = .sole) :
    s.step t = (s.popFrame t, .done (f.results.head?.getD .null)) := by
  unfold step
  rw [hf]
  simp only [ha, htodo]
  unfold leaveFrame
  simp only [hrounds, hobject, gathered, hgather]

/-- A step of the flush: it goes on, or is over. -/
def FlushStep (s : State α) (t : Nat) (x : State α × Progress α) : Prop :=
  (x.2 = .quiet ∨ ∃ a, x.2 = .accessed a) ∧ Flushing s t x.1 ∨ ∃ n, x.2 = .done (.number n) ∧ Flushed s t x.1

section

variable {f : Frame α} {below : List (Frame α)} {k n : Nat}

/-- The next stage costs less. -/
theorem FlushStep.next (ho : Onward t s s') {x : State α × Progress α} (hstep : Stepped s' t f below x.1 x.2)
    (hp : x.2 = .quiet ∨ ∃ a, x.2 = .accessed a) (hleft : s'.left t ≤ s.stock + k) (hk : k ≤ n + 1)
    (hg : (x.1.worker t).guards = []) (hs : FlushStage s t x.1 n) : FlushStep s t x := by
  have hless := hstep.less
  exact Or.inl ⟨hp, ho.trans hstep.onward, hg, n, hs, by omega⟩

theorem FlushStep.of_given (h : Sweeping s t) (ho : Onward t s s') (hg : (s'.worker t).guards = [])
    (hf : (s'.worker t).frames = [flushFrame]) (hw : s'.world = s.world) (hleft : s'.left t ≤ s.stock + 5) :
    FlushStep s t (s'.step t) := by
  have hstep := step_stepped ho.sound hf
  have heq : s'.step t = (s'.begin t .flushed fun w => w.flush t, .quiet) := by
    unfold step
    rw [hf]
    rfl
  have hworker := worker_begin hf .flushed (fun w => w.flush t) t
  rw [if_pos rfl] at hworker
  rw [heq] at hstep ⊢
  refine .next ho hstep (Or.inl rfl) hleft (n := 4) (Nat.le_refl _) (by rw [hworker]; exact hg)
    (.opened (by rw [hworker]; rfl) ?_ ?_)
  · show s'.world.operation t = none
    rw [hw]
    exact (h.resting t).1
  · show s'.world.domain.flush t none = _
    rw [hw]

/-- The call goes on, without destroying anything. -/
theorem FlushStep.of_quiet (ho : Onward t s s') (hg : (s'.worker t).guards = [])
    (hf : (s'.worker t).frames = [flushWaits]) (hop : s'.world.operation t = none)
    {d : Domain Garbage (Option (Operation α))} (hd : s'.world.domain.step t = (d, .quiet))
    (hleft : s'.left t ≤ s.stock + (n + 1))
    (hs : ∀ s'' : State α, (s''.worker t).frames = [flushWaits] → s''.world.operation t = none → s''.world.domain = d →
      FlushStage s t s'' n) : FlushStep s t (s'.step t) := by
  have hstep := step_stepped ho.sound hf
  have hp := (step_of_waiting hf rfl).2
  obtain ⟨hw, hworker⟩ := step_of_quiet hf rfl hop hd
  exact .next ho hstep hp hleft (Nat.le_refl _) (by rw [hworker]; exact hg)
    (hs _ (by rw [hworker]; exact hf) (by rw [hw]; exact hop) (by rw [hw]))

theorem FlushStep.of_spared (ho : Onward t s s') (hg : (s'.worker t).guards = [])
    (hf : (s'.worker t).frames = [flushWaits]) (hop : s'.world.operation t = none)
    (hd : Sifted s.world.domain t s'.world.domain) (hc : (s'.world.domain.thread t).calls = [⟨none, .free .flush [] 0⟩])
    (hleft : s'.left t ≤ s.stock + 2) : FlushStep s t (s'.step t) := by
  have hstep := step_stepped ho.sound hf
  obtain ⟨heq, hp⟩ := step_of_waiting hf rfl
  have hanswer : s'.world.step t =
      ({ s'.world with domain := (s'.world.domain.answer t none .flush 0).1 }, .answered (.flushed 0)) := by
    unfold World.step World.stepCall
    rw [hop, Domain.step_eq hc]
    rfl
  have hmoved : (s'.moved t).world = { s'.world with domain := (s'.world.domain.answer t none .flush 0).1 } := by
    show (s'.world.step t).1 = _
    rw [hanswer]
  have heq' : (s'.step t).1 = (s'.moved t).deliver t (.number 0) := by
    rw [heq, hanswer]
    rfl
  have hworker := worker_deliver (s := s'.moved t) (t := t) hf (.number 0) t
  rw [if_pos rfl] at hworker
  obtain ⟨hreg, horph, -, -⟩ := Domain.answer_frame_of_pin?_none s'.world.domain t none 0 (p := .flush) rfl
  have hthread := Domain.thread_answer_of_pin?_none s'.world.domain t none 0 (p := .flush) rfl t
  rw [if_pos rfl] at hthread
  have hworld : (s'.step t).1.world.domain = (s'.world.domain.answer t none .flush 0).1 := by
    rw [heq', (deliver_frame _ t _).1, hmoved]
  refine .next ho hstep hp hleft (n := 1) (Nat.le_refl _) (by rw [heq', hworker]; exact hg)
    (.spared 0 (by rw [heq', hworker]) (by rw [hworld]; exact hd.congr hreg (by rw [hthread]; rfl) horph))

/-- The first node is destroyed. -/
theorem FlushStep.of_sifted (h : Sweeping s t) (ho : Onward t s s') (hg : (s'.worker t).guards = [])
    (hf : (s'.worker t).frames = [flushWaits]) (hop : s'.world.operation t = none)
    (hd : Sifted s.world.domain t s'.world.domain) {x : Garbage} {todo : List Garbage}
    (hc : (s'.world.domain.thread t).calls = [⟨none, .free .flush (x :: todo) 0⟩])
    (hleft : s'.left t ≤ s.stock + 2) : FlushStep s t (s'.step t) := by
  have hstep := step_stepped ho.sound hf
  obtain ⟨heq, hp⟩ := step_of_waiting hf rfl
  have hsignal : (s'.world.step t).2 = .quiet ∨ ∃ i, (s'.world.step t).2 = .freed i := by
    unfold World.step World.stepCall
    rw [hop, Domain.step_eq hc]
    cases x with
    | link i => exact Or.inl rfl
    | object i => exact Or.inr ⟨i, rfl⟩
  have hframes : ∃ top, ((s'.step t).1.worker t).frames = top ++ [flushWaits] := by
    rw [heq]
    rcases hsignal with hq | ⟨i, hq⟩ <;> rw [hq]
    · exact ⟨[], hf⟩
    · exact hf ▸ (s'.moved t).destroy_frames t i
  have hlodged := (hstep.onward.world.follows.lodged ⟨(ho.world.follows.handle h.handle), hd.orphans⟩).2
  exact .next ho hstep hp hleft (n := 1) (Nat.le_refl _)
    (((step_waiting ho.sound hf rfl).guards nofun).trans hg) (.freeing hframes hlodged)

/-- Whatever destructors do comes to an end before the flush goes on. -/
theorem FlushStep.of_freeing (h : Sweeping s t) (ho : Onward t s s') (hg : (s'.worker t).guards = [])
    {above : List (Frame α)} (hf : (s'.worker t).frames = above ++ [flushWaits]) (horph : s'.world.domain.orphans = [])
    (hleft : s'.left t ≤ s.stock + 1) : FlushStep s t (s'.step t) := by
  have hlodged : ∀ {s'' : State α}, Onward t s' s'' → s''.world.domain.orphans = [] := fun hstep =>
    (hstep.world.follows.lodged ⟨(ho.world.follows.handle h.handle), horph⟩).2
  cases above with
  | nil =>
    have hstep := step_stepped ho.sound hf
    have hp := (step_of_waiting hf rfl).2
    have hwaited := step_waiting ho.sound hf rfl
    have hg' := (hwaited.guards nofun).trans hg
    rcases hwaited.frames with htop | ⟨r, hf', hr⟩
    · exact .next ho hstep hp hleft (n := 1) (Nat.le_succ _) hg' (.freeing htop (hlodged hstep.onward))
    · obtain ⟨n, rfl⟩ := hr rfl
      exact .next ho hstep hp hleft (n := 0) (Nat.le_refl _) hg' (.freed n hf' (hlodged hstep.onward))
  | cons f above =>
    have hstep := step_stepped ho.sound hf
    obtain ⟨htop, hg'⟩ := hstep.stays above flushWaits rfl rfl
    rcases hstep.ends with ⟨hp, -⟩ | ⟨-, -, -, hbelow, -⟩
    · exact .next ho hstep hp hleft (n := 1) (Nat.le_succ _) (hg'.trans hg) (.freeing htop (hlodged hstep.onward))
    · simp at hbelow

/-- The flush is over. -/
theorem FlushStep.of_over (h : Sweeping s t) (ho : Onward t s s') (hg : (s'.worker t).guards = [])
    (hf : (s'.worker t).frames = [flushWaits.after (.number n)]) (horph : s'.world.domain.orphans = [])
    (hleft : s'.left t ≤ s.stock + k)
    (hk : k = 0 ∨ k = 1 ∧ Sifted s.world.domain t s'.world.domain) : FlushStep s t (s'.step t) := by
  have hstep := step_stepped ho.sound hf
  have heq : s'.step t = (s'.popFrame t, .done (.number n)) := step_of_done hf rfl rfl rfl rfl rfl
  have hworker := s'.worker_popFrame t t
  rw [if_pos rfl, hf] at hworker
  rw [heq] at hstep ⊢
  have hless : (s'.popFrame t).stock < s.stock + k := Nat.lt_of_lt_of_le
    (Nat.lt_of_le_of_lt (Nat.le_add_left _ _) hstep.less) hleft
  refine Or.inr ⟨n, rfl, h.onward (ho.trans hstep.onward) (by rw [hworker]; rfl) (by rw [hworker]; exact hg), horph, ?_⟩
  rcases hk with rfl | ⟨rfl, hd⟩
  · exact Or.inl hless
  · exact Or.inr ⟨Nat.le_of_lt_succ hless, hd⟩

end

theorem Flushing.step (h : Sweeping s t) (hfl : Flushing s t s') : FlushStep s t (s'.step t) := by
  obtain ⟨ho, hg, n, hstage, hleft⟩ := hfl
  obtain ⟨d₁, d₂, hs₀, hs₁, hd₂, hc₂⟩ := h.deserted.sifts h.reach none
  cases hstage with
  | given hf hw => exact FlushStep.of_given h ho hg hf hw hleft
  | opened hf hop hd =>
    exact FlushStep.of_quiet ho hg hf hop (hd ▸ hs₀) hleft fun s'' hf' hop' hd' => .advanced hf' hop' (by rw [hd', hs₀])
  | advanced hf hop hd =>
    rw [hs₀] at hd
    exact FlushStep.of_quiet ho hg hf hop (hd ▸ hs₁) hleft fun s'' hf' hop' hd' =>
      .sifted hf' hop' (hd' ▸ hd₂) _ (hd' ▸ hc₂)
  | sifted hf hop hd todo hc =>
    cases todo with
    | nil => exact FlushStep.of_spared ho hg hf hop hd hc hleft
    | cons x todo => exact FlushStep.of_sifted h ho hg hf hop hd hc hleft
  | freeing hf horph =>
    obtain ⟨above, hf⟩ := hf
    exact FlushStep.of_freeing h ho hg hf horph hleft
  | freed n hf horph => exact FlushStep.of_over h ho hg hf horph hleft (Or.inl rfl)
  | spared n hf hd => exact FlushStep.of_over h ho hg hf hd.orphans hleft (Or.inr ⟨rfl, hd⟩)

/-- A flush that the last thread is given comes to an end. -/
theorem flush_ends (h : Sweeping s t) : ∃ n, ((s.give t .flush).run t none).2.2 = .done (.number n) ∧
    Flushed s t ((s.give t .flush).run t none).1 := by
  obtain ⟨ho, hframes, hguards⟩ := give_onward h.sound (h.idle t).1 (c := .flush) rfl
  have hload : (s.give t .flush).world.load t = 0 := by
    rw [World.load_eq (w := (s.give t .flush).world) (h.resting t).1 (h.resting t).2.1]
    rfl
  have hleft : (s.give t .flush).left t = s.stock + 5 := by
    unfold left
    rw [hframes, hload]
    show 5 + 0 + s.stock = _
    omega
  have hgiven : Flushing s t (s.give t .flush) :=
    ⟨ho, hguards.trans (h.idle t).2, 5, .given hframes rfl, Nat.le_of_eq hleft⟩
  -- Every step but the last finds a stage of the flush and leaves one.
  have hrun := runFor_induct (t := t) (P := Flushing s t) (Q := fun s' r => ∃ n, r = .number n ∧ Flushed s t s')
    (fun s' hs' => ⟨hs'.onward.sound, hs'.frames_ne_nil⟩)
    (fun s' hs' hp _ => by
      rcases hs'.step h with ⟨-, hs''⟩ | ⟨n, hdone, -⟩
      · exact hs''
      · rcases hp with hp | ⟨x, hp⟩ <;> rw [hdone] at hp <;> cases hp)
    (fun s' r hs' hp => by
      rcases hs'.step h with ⟨hgo, -⟩ | ⟨n, hdone, hs''⟩
      · rcases hgo with hgo | ⟨x, hgo⟩ <;> rw [hp] at hgo <;> cases hgo
      · rw [hp] at hdone
        cases hdone
        exact ⟨n, rfl, hs''⟩)
    (s.give t .flush).fuel none [] (s.give t .flush) hgiven (left_lt_fuel (h.resting t).2.1)
  unfold run
  rcases hrun with ⟨-, -, -, -, hgrant⟩ | ⟨r, he, n, rfl, hs'⟩
  · cases hgrant
  · exact ⟨n, he, hs'⟩

end

end State

end EpochQueue.Script
