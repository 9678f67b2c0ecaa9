/-
  EpochQueue.Proofs.Script.Sessions — a script, line by line.

  Between two lines no call is open, whoever has an operation stopped, and a thread that does not
  run holds nothing (`Settled`). Every line keeps that if its destructors are orderly
  (`Settled.lines`), and after the end no thread runs (`finish_settled`).
-/

import EpochQueue.Proofs.Script.Runs

namespace EpochQueue.Script

open EpochQueue.Fifo (Garbage Operation QueueInv World)
open EpochQueue.Reclaim (Guard Notice)

variable {α : Type}

/-- Whatever the line's command makes, its destructors are orderly. -/
def Directive.orderly : Directive α → Bool
  | .run c | .begin c => c.orderly false
  | _ => true

namespace State

/-! ## Threads that end -/

/-- `t` has done something, and the others are where they were. -/
structure Beside (t : Nat) (s s' : State α) : Prop where
  sound : s'.Sound
  workers : ∀ u, u ≠ t → s'.worker u = s.worker u
  threads : ∀ u, u ≠ t → s'.world.domain.thread u = s.world.domain.thread u

section

variable {s s' s'' : State α} {t : Nat}

theorem Onward.beside (h : Onward t s s') : Beside t s s' :=
  ⟨h.sound, h.workers, fun _ hu => h.world.follows.thread_of_ne hu⟩

theorem Beside.trans (h : Beside t s s') (h' : Beside t s' s'') : Beside t s s'' :=
  ⟨h'.sound, fun u hu => (h'.workers u hu).trans (h.workers u hu), fun u hu => (h'.threads u hu).trans (h.threads u hu)⟩

/-- The log is of no account. -/
theorem Sound.log (hs : s.Sound) (log : Array (Event α)) : ({ s with log } : State α).Sound :=
  ⟨hs.queueInv, hs.booked, hs.queues, hs.iterators, hs.seated⟩

theorem tenure_exit (d : Reclaim.Domain Garbage (Option (Operation α))) (t : Nat) :
    ∀ h, ((d.exit t).thread t).tenure ≠ .live h := by
  cases ht : (d.thread t).tenure with
  | live h' =>
    rw [Reclaim.Domain.thread_exit_of_live ht, if_pos rfl]
    exact nofun
  | unused | gone =>
    have hnot : ∀ h, (d.thread t).tenure ≠ .live h := by rw [ht]; exact nofun
    rwa [Reclaim.Domain.exit_of_not_live hnot]

/-- The handle of a thread is destroyed, while nothing is under way on it. -/
theorem beside_exit (hs : s.Sound) (s' : State α) (hworld : s'.world = s.world.exit t)
    (hobjects : s'.objects = s.objects) (hq : s'.queues = s.queues) (hi : s'.iterators = s.iterators)
    (hworkers : ∀ u, u ≠ t → s'.worker u = s.worker u) (hframes : (s'.worker t).frames = (s.worker t).frames)
    (hguards : (s'.worker t).guards = (s.worker t).guards)
    (hnext : (s'.worker t).nextGuard = (s.worker t).nextGuard) (hf : (s.worker t).frames = []) :
    Beside t s s' ∧ (s'.world.domain.thread t).calls = [] ∧ ∀ h, (s'.world.domain.thread t).tenure ≠ .live h := by
  obtain ⟨lay, hinv⟩ := hs.queueInv
  have hseat := hs.seated t
  obtain ⟨hop, hcalls, hperm⟩ := hseat.guards_of_idle hf
  obtain ⟨hc, hg, hst⟩ := Reclaim.Domain.calls_exit s.world.domain t
  have hthreads : ∀ u, u ≠ t → (s.world.domain.exit t).thread u = s.world.domain.thread u := fun u e =>
    Reclaim.Domain.thread_exit_of_ne e
  have hstack : ∀ u, (s.world.exit t).stack u = s.world.stack u := fun u => by
    refine World.stack_congr rfl ?_
    by_cases e : u = t
    · subst e; exact hc
    · exact congrArg (·.calls) (hthreads u e)
  refine ⟨⟨⟨⟨lay, ?_⟩, ?_, ?_, ?_, fun u => ?_⟩, hworkers, fun u e => by rw [hworld]; exact hthreads u e⟩, ?_, ?_⟩
  · rw [hworld]
    exact hinv.called (.move t .exit hinv.reach hcalls) hstack fun n hn => hst ▸ hn
  · rw [hworld, hobjects]
    show Booked s.objects (s.world.domain.exit t).story
    rw [hst]; exact hs.booked
  · rw [hworld, hq]; exact hs.queues
  · rw [hworld, hi]; exact hs.iterators
  · rw [hworld]
    show Seated s.world.store.nextQueue (s'.worker u) (s.world.operation u) ((s.world.domain.exit t).thread u)
    by_cases e : u = t
    · subst e
      rw [hop]
      refine ⟨?_, ?_, ?_, hguards ▸ hseat.numbers, ?_, ?_⟩
      · rw [hframes, hf, hc, hcalls]; exact .idle
      · rw [hc, hcalls]; exact List.forall_mem_nil _
      · rw [hg, hguards, hc, hcalls]; simpa [Fifo.gripsOf] using hperm
      · rw [hguards, hnext]; exact hseat.bound
      · rw [hframes, hf]; exact List.forall_mem_nil _
    · rw [hworkers u e, hthreads u e]
      exact hs.seated u
  · rw [hworld]; exact hc.trans hcalls
  · rw [hworld]; exact tenure_exit s.world.domain t

/-- Guards are dropped one after another. -/
theorem dropGuards (gs : List (Nat × Guard)) (rest : List Guard) : ∀ {s : State α}, (∃ lay, QueueInv s.world lay) →
    s.world.operation t = none → (s.world.domain.thread t).calls = [] →
    (s.world.domain.thread t).guards.Perm (gs.map (·.2) ++ rest) →
    ∃ s', gs.foldl (fun s g => s.onWorld fun w => w.unpin t g.2) s = s' ∧ World.Onward t s.world s'.world ∧
      s'.workers = s.workers ∧ s'.objects = s.objects ∧ s'.queues = s.queues ∧ s'.iterators = s.iterators ∧
      s'.world.operation t = none ∧ (s'.world.domain.thread t).calls = [] ∧
      (s'.world.domain.thread t).guards.Perm rest ∧ ∃ x, s'.world.domain.story = s.world.domain.story ++ x ∧
        ∀ i, Notice.retired (Garbage.object i) ∉ x ∧ Notice.freed (Garbage.object i) ∉ x := by
  induction gs with
  | nil =>
    intro s hs hop hc hperm
    exact ⟨s, rfl, .refl hs.choose_spec, rfl, rfl, rfl, rfl, hop, hc, hperm, [], (List.append_nil _).symm, by simp⟩
  | cons g gs ih =>
    intro s hs hop hc hperm
    have hmay : s.world.mayBegin t = true :=
      World.mayBegin_iff.mpr ⟨hop, by rw [Reclaim.Domain.mayCall_eq, hc]; rfl⟩
    have ho := World.onward_unpin hs.choose_spec hmay (hperm.mem_iff.mpr (List.mem_append_left _ List.mem_cons_self))
    obtain ⟨hc', hg'⟩ := Reclaim.Domain.calls_unpin s.world.domain t g.2
    have hperm' : ((s.world.domain.unpin t g.2).thread t).guards.Perm (gs.map (·.2) ++ rest) := by
      rw [hg']
      simpa using hperm.erase g.2
    obtain ⟨s', hs', ho', h1, h2, h3, h4, h5, h6, h7, x, hx, hnone⟩ :=
      ih (s := s.onWorld fun w => w.unpin t g.2) ho.queueInv hop (hc'.trans hc) hperm'
    refine ⟨s', hs', ho.trans ho', h1, h2, h3, h4, h5, h6, h7, .unpinned g.2 :: x, ?_, fun i => ?_⟩
    · rw [hx]
      have hst : (s.world.unpin t g.2).domain.story = s.world.domain.story ++ [.unpinned g.2] :=
        (Reclaim.Domain.unpin_frame s.world.domain t g.2).2.2
      show (s.world.unpin t g.2).domain.story ++ x = _
      rw [hst, List.append_assoc]
      rfl
    · simpa using hnone i

end

end State

/-! ## Sessions -/

/-- The thread has ended, or has not begun. -/
structure Gone (s : State α) (t : Nat) : Prop where
  frames : (s.worker t).frames = []
  guards : (s.worker t).guards = []
  tenure : ∀ h, (s.world.domain.thread t).tenure ≠ .live h

theorem Gone.beside {s s' : State α} {t u : Nat} (h : Gone s u) (hb : State.Beside t s s') (hu : u ≠ t) :
    Gone s' u := by
  obtain ⟨hf, hg, ht⟩ := h
  rw [← hb.workers u hu] at hf hg
  rw [← hb.threads u hu] at ht
  exact ⟨hf, hg, ht⟩

/-- What holds of a session between two lines. -/
structure Settled (s : Session α) : Prop where
  sound : s.state.Sound
  calls : ∀ t, (s.state.world.domain.thread t).calls = []
  bound : ∀ p ∈ s.running, p.2 < s.nextThread
  gone : ∀ t, (∀ p ∈ s.running, p.2 ≠ t) → Gone s.state t
  fresh : ∀ t, s.nextThread ≤ t → (s.state.world.domain.thread t).tenure = .unused

namespace Settled

variable {s s' : Session α} {t : Nat}

theorem empty : Settled ({} : Session α) where
  sound := ⟨⟨_, .empty⟩, .empty, nofun, nofun, fun _ => .idle⟩
  calls := fun _ => rfl
  bound := nofun
  gone := fun _ _ => ⟨rfl, rfl, nofun⟩
  fresh := fun _ _ => rfl

/-- A thread that runs does something. -/
theorem beside (hs : Settled s) (ht : ∃ p ∈ s.running, p.2 = t) (hb : State.Beside t s.state s'.state)
    (hcalls : (s'.state.world.domain.thread t).calls = []) (hr : s'.running = s.running)
    (hn : s'.nextThread = s.nextThread) : Settled s' where
  sound := hb.sound
  calls := fun u => by
    by_cases e : u = t
    · subst e; exact hcalls
    · rw [hb.threads u e]; exact hs.calls u
  bound := fun p hp => by rw [hn]; exact hs.bound p (hr ▸ hp)
  gone := fun u hu => by
    rw [hr] at hu
    refine (hs.gone u hu).beside hb ?_
    rintro rfl
    obtain ⟨p, hp, e⟩ := ht
    exact hu p hp e
  fresh := fun u hu => by
    rw [hn] at hu
    obtain ⟨p, hp, rfl⟩ := ht
    rw [hb.threads u fun e => by have := hs.bound p hp; omega]
    exact hs.fresh u hu

/-- A thread that runs ends. -/
theorem ended (hs : Settled s) (ht : t < s.nextThread) (hb : State.Beside t s.state s'.state)
    (hcalls : (s'.state.world.domain.thread t).calls = []) (hgone : Gone s'.state t)
    (hr : s'.running = s.running.filter (·.2 != t)) (hn : s'.nextThread = s.nextThread) : Settled s' where
  sound := hb.sound
  calls := fun u => by
    by_cases e : u = t
    · subst e; exact hcalls
    · rw [hb.threads u e]; exact hs.calls u
  bound := fun p hp => by rw [hn]; exact hs.bound p (List.mem_of_mem_filter (hr ▸ hp))
  gone := fun u hu => by
    by_cases e : u = t
    · subst e; exact hgone
    · refine (hs.gone u fun p hp hpu => hu p ?_ hpu).beside hb e
      rw [hr]
      exact List.mem_filter.mpr ⟨hp, bne_iff_ne.mpr fun h => e (hpu.symm.trans h)⟩
  fresh := fun u hu => by
    rw [hn] at hu
    rw [hb.threads u (by omega)]
    exact hs.fresh u hu

theorem enter (hs : Settled s) (name : Int) :
    Settled (s.enter name).2 ∧ ∃ p ∈ (s.enter name).2.running, p.2 = (s.enter name).1 := by
  unfold Session.enter
  split
  next n t h => exact ⟨hs, _, List.mem_of_find?_eq_some h, rfl⟩
  next =>
    refine ⟨⟨hs.sound, hs.calls, fun p hp => ?_, fun t ht => hs.gone t fun p hp => ht p (List.mem_cons_of_mem _ hp),
      fun t ht => hs.fresh t (Nat.le_of_succ_le ht)⟩, _, List.mem_cons_self, rfl⟩
    rcases List.mem_cons.mp hp with rfl | hp
    · exact Nat.lt_succ_self _
    · exact Nat.lt_succ_of_lt (hs.bound p hp)

theorem record (hs : Settled s) (name : Option Int) (queue : Option Nat) (reply : Reply α) :
    Settled (s.record name queue reply).2 :=
  ⟨hs.sound.log _, hs.calls, hs.bound,
    fun t ht => ⟨(hs.gone t ht).frames, (hs.gone t ht).guards, (hs.gone t ht).tenure⟩,
    hs.fresh⟩

/-! ## Lines -/

/-- A thread that has nothing stopped is given a command. -/
theorem runCommand (hs : Settled s) (ht : ∃ p ∈ s.running, p.2 = t) (hf : (s.state.worker t).frames = [])
    {c : Command α} (hc : c.orderly false = true) (grant : Option Nat) : Settled (s.runCommand t c grant).2 := by
  obtain ⟨ho, hframes, -⟩ := State.give_onward hs.sound hf hc
  have hcalls := hs.calls t
  have hgiven : ((s.state.give t c).world.domain.thread t).calls = [] := hcalls
  obtain ⟨ho', hend, -⟩ := State.run_ends ho.sound (by rw [hframes]; exact List.cons_ne_nil _ _) hgiven grant
  exact hs.beside ht (ho.trans ho').beside hend rfl rfl

theorem resume (hs : Settled s) (ht : ∃ p ∈ s.running, p.2 = t) (hf : (s.state.worker t).frames ≠ [])
    (grant : Option Nat) : Settled (s.resume t grant).2 := by
  obtain ⟨ho, hend, -⟩ := State.run_ends hs.sound hf (hs.calls t) grant
  exact hs.beside ht ho.beside hend rfl rfl

theorem exit (hs : Settled s) (ht : ∃ p ∈ s.running, p.2 = t) (hf : (s.state.worker t).frames = []) :
    Settled (s.exit t).2 := by
  unfold Session.exit
  split
  · exact hs
  · have hworker := s.state.worker_modifyWorker t (f := fun w => { w with exited := true })
    have hthread := hworker t
    rw [if_pos rfl] at hthread
    obtain ⟨hb, hc, -⟩ := State.beside_exit hs.sound
      ((s.state.modifyWorker t fun w => { w with exited := true }).onWorld fun w => w.exit t) rfl rfl rfl rfl
      (fun u e => (hworker u).trans (if_neg e)) (by rw [State.worker_onWorld, hthread])
      (by rw [State.worker_onWorld, hthread]) (by rw [State.worker_onWorld, hthread]) hf
    exact hs.beside ht hb hc rfl rfl

theorem leave (hs : Settled s) (ht : t < s.nextThread) (hf : (s.state.worker t).frames = []) : Settled (s.leave t) := by
  obtain ⟨hop, hcalls, hperm⟩ := (hs.sound.seated t).guards_of_idle hf
  obtain ⟨s₁, hdrop, hw, hworkers, hobj, hq, hi, hop₁, hc₁, hg₁, x, hx, hnone⟩ :=
    State.dropGuards (s.state.worker t).guards.reverse [] hs.sound.queueInv hop hcalls
      (by rw [List.append_nil, List.map_reverse]; exact hperm.trans (List.reverse_perm _).symm)
  have hworker := s₁.worker_modifyWorker t (f := fun _ => ({} : Worker α))
  have hthread := hworker t
  rw [if_pos rfl] at hthread
  have hother : ∀ u, u ≠ t → (s₁.modifyWorker t fun _ => ({} : Worker α)).worker u = s.state.worker u := fun u e => by
    rw [hworker, if_neg e]
    unfold State.worker
    rw [hworkers]
  have ho : State.Onward t s.state (s₁.modifyWorker t fun _ => ({} : Worker α)) := by
    refine hs.sound.onward hw hother ?_ ?_ ?_ ?_
    · show Booked s₁.objects s₁.world.domain.story
      rw [hobj, hx]
      exact hs.sound.booked.append hnone
    · exact (hq ▸ hs.sound.queues.mono hw.queues : State.Made _ s₁.queues)
    · exact (hi ▸ hs.sound.iterators.mono hw.queues : State.Made _ s₁.iterators)
    · rw [hthread]
      show Seated _ _ (s₁.world.operation t) (s₁.world.domain.thread t)
      rw [hop₁]
      exact ⟨hc₁ ▸ .idle, hc₁ ▸ nofun, hc₁ ▸ hg₁, List.nodup_nil, nofun, nofun⟩
  obtain ⟨hb, hc, htenure⟩ := State.beside_exit ho.sound
    ((s₁.modifyWorker t fun _ => ({} : Worker α)).onWorld fun w => w.exit t) rfl rfl rfl rfl (fun _ _ => rfl) rfl
    rfl rfl (by rw [hthread])
  have hleave : s.leave t = { s with
      state := (s₁.modifyWorker t fun _ => ({} : Worker α)).onWorld fun w => w.exit t
      running := s.running.filter (·.2 != t) } := by
    unfold Session.leave
    dsimp only
    rw [hdrop]
  rw [hleave]
  exact hs.ended ht (ho.beside.trans hb) hc
    ⟨by rw [State.worker_onWorld, hthread], by rw [State.worker_onWorld, hthread], htenure⟩ rfl rfl

theorem perform (hs : Settled s) (ht : ∃ p ∈ s.running, p.2 = t) {d : Directive α} (hd : d.orderly = true) :
    Settled (s.perform t d).2 := by
  have hstopped : s.state.isPaused t = true → (s.state.worker t).frames ≠ [] := fun h => by
    unfold State.isPaused at h
    rintro e
    rw [e] at h
    cases h
  have hfree : ¬ (s.state.isPaused t || s.isBusy d) = true → (s.state.worker t).frames = [] := fun h => by
    have h' := (not_or.mp (mt (Bool.or_eq_true _ _).mpr h)).1
    unfold State.isPaused at h'
    simpa using h'
  have hbound : t < s.nextThread := by
    obtain ⟨p, hp, rfl⟩ := ht
    exact hs.bound p hp
  unfold Session.perform
  cases d with
  | step n =>
    dsimp only
    split
    next h => exact hs.resume ht (hstopped h) _
    next => exact hs
  | finish =>
    dsimp only
    split
    next h => exact hs.resume ht (hstopped h) _
    next => exact hs
  | run c =>
    dsimp only
    split
    next => exact hs
    next h => exact hs.runCommand ht (hfree h) hd none
  | begin c =>
    dsimp only
    split
    next => exact hs
    next h =>
      split
      · exact hs.runCommand ht (hfree h) hd (some 0)
      · exact hs
  | exit =>
    dsimp only
    split
    next => exact hs
    next h => exact hs.exit ht (hfree h)
  | leave =>
    dsimp only
    split
    next => exact hs
    next h => exact hs.leave hbound (hfree h)

theorem line (hs : Settled s) {l : Line α} (hl : l.directive.orderly = true) : Settled (s.line l).2 := by
  obtain ⟨henter, ht⟩ := hs.enter l.thread
  exact (henter.perform ht hl).record _ _ _

/-- Every line keeps it. -/
theorem lines {ls : List (Line α)} : ∀ {s : Session α}, Settled s → (∀ l ∈ ls, l.directive.orderly = true) →
    Settled (s.lines ls).2 := by
  induction ls with
  | nil => exact fun hs _ => hs
  | cons l ls ih =>
    intro s hs hls
    exact ih (hs.line (hls l List.mem_cons_self)) fun l' hl' => hls l' (List.mem_cons_of_mem _ hl')

/-! ## The end -/

/-- A thread finishes what it was stopped in, and ends. -/
theorem endOne (hs : Settled s) (name : Int) (ht : t < s.nextThread) : Settled (s.endOne name t).2 ∧
    (s.endOne name t).2.running = s.running.filter (·.2 != t) ∧ (s.endOne name t).2.nextThread = s.nextThread := by
  obtain ⟨s', hfinish, hs', hf, hr, hn⟩ : ∃ s' : Session α,
      (if s.state.isPaused t then s.resume t none else ((.result .null : Reply α), s)).2 = s' ∧ Settled s' ∧
      (s'.state.worker t).frames = [] ∧ s'.running = s.running ∧ s'.nextThread = s.nextThread := by
    by_cases hf : (s.state.worker t).frames = []
    · have hp : ¬ s.state.isPaused t = true := by unfold State.isPaused; rw [hf]; exact nofun
      exact ⟨s, by rw [if_neg hp], hs, hf, rfl, rfl⟩
    · have hp : s.state.isPaused t = true := by
        unfold State.isPaused
        rwa [Bool.not_eq_true', List.isEmpty_eq_false_iff]
      have hrunning : ∃ p ∈ s.running, p.2 = t := by
        refine Classical.by_contradiction fun hno => hf (hs.gone t fun p hp e => hno ⟨p, hp, e⟩).frames
      refine ⟨(s.resume t none).2, by rw [if_pos hp], hs.resume hrunning hf none, ?_, rfl, rfl⟩
      obtain ⟨-, -, ⟨-, hgrant⟩ | ⟨-, hend⟩⟩ := State.run_ends hs.sound hf (hs.calls t) none
      · cases hgrant
      · exact hend
  have hend : (s.endOne name t).2 = ((s'.leave t).record (some name) none
      (if s.state.isPaused t then s.resume t none else ((.result .null : Reply α), s)).1).2 := by
    unfold Session.endOne
    dsimp only
    rw [hfinish]
  rw [hend]
  refine ⟨(hs'.leave (hn ▸ ht) hf).record _ _ _, ?_, hn⟩
  show s'.running.filter (·.2 != t) = _
  rw [hr]

theorem endAll : ∀ {ts : List (Int × Nat)} {s : Session α}, Settled s → (∀ p ∈ ts, p.2 < s.nextThread) →
    Settled (s.endAll ts).2 ∧ (∀ q ∈ (s.endAll ts).2.running, q ∈ s.running ∧ ∀ p ∈ ts, q.2 ≠ p.2) ∧
      (s.endAll ts).2.nextThread = s.nextThread := by
  intro ts
  induction ts with
  | nil => exact fun hs _ => ⟨hs, fun q hq => ⟨hq, nofun⟩, rfl⟩
  | cons p ts ih =>
    intro s hs hts
    obtain ⟨hs', hr, hn⟩ := hs.endOne p.1 (hts p List.mem_cons_self)
    obtain ⟨hs'', hr', hn'⟩ := ih hs' fun q hq => hn ▸ hts q (List.mem_cons_of_mem _ hq)
    refine ⟨hs'', fun q hq => ?_, hn'.trans hn⟩
    obtain ⟨hq, hne⟩ := hr' q hq
    rw [hr] at hq
    obtain ⟨hq, hp⟩ := List.mem_filter.mp hq
    refine ⟨hq, fun p' hp' => ?_⟩
    rcases List.mem_cons.mp hp' with rfl | hp'
    · exact bne_iff_ne.mp hp
    · exact hne p' hp'

end Settled

/-- After the end no thread runs any more, and what is there has been left by threads that have ended. -/
theorem finish_settled {ls : List (Line α)} (hls : ∀ l ∈ ls, l.directive.orderly = true) :
    Settled (Session.finish ls).2.2 ∧ ∀ t, Gone (Session.finish ls).2.2.state t := by
  have hs := Settled.empty.lines hls
  unfold Session.finish
  generalize (({} : Session α).lines ls) = p at hs ⊢
  obtain ⟨steps, s⟩ := p
  dsimp only at hs ⊢
  -- In which order they end does not matter, only that all of them do.
  have hmem : ∀ q, q ∈ s.running.mergeSort (fun a b => a.1 ≤ b.1) ↔ q ∈ s.running := fun q => List.mem_mergeSort
  have hbound : ∀ p ∈ s.running.mergeSort (fun a b => a.1 ≤ b.1), p.2 < s.nextThread := fun p hp =>
    hs.bound p ((hmem p).mp hp)
  obtain ⟨hend, hrunning, -⟩ := hs.endAll hbound
  refine ⟨hend, fun t => hend.gone t fun q hq => ?_⟩
  obtain ⟨hq, hne⟩ := hrunning q hq
  exact absurd rfl (hne q ((hmem q).mpr hq))

end EpochQueue.Script
