/-
  EpochQueue.Proofs.Script.Runs — a run comes to its end, however calls and destructors nest in it.

  What is left gets less with every step, and the fuel is more than what is left, so a run stops
  only before an access that it was not granted, or when the thread has done what it was told
  (`runFor_induct`, `run_ends`). Either way no call is open any more.
-/

import EpochQueue.Proofs.Script.Steps

namespace EpochQueue.Script.State

open EpochQueue.Fifo (Access AccessKind)

variable {α : Type}

section

variable {s : State α} {t : Nat}

/-- A run has stopped before an access that was not granted, with `P`, or is done, with `Q`. -/
def Stops (P : State α → Prop) (Q : State α → Result α → Prop) (t : Nat) (grant : Option Nat)
    (x : State α × List Access × Ending α) : Prop :=
  (∃ kind, x.2.2 = .paused kind ∧ P x.1 ∧ x.1.nextAccess? t = some kind ∧ grant.isSome = true) ∨
    ∃ r, x.2.2 = .done r ∧ Q x.1 r

/-- A run keeps what every step of it keeps, and ends as its last step does. -/
theorem runFor_induct {P : State α → Prop} {Q : State α → Result α → Prop}
    (hsound : ∀ s, P s → s.Sound ∧ (s.worker t).frames ≠ [])
    (hgo : ∀ s, P s → (s.step t).2 = .quiet ∨ (∃ x, (s.step t).2 = .accessed x) →
      ((s.step t).1.worker t).frames ≠ [] → P (s.step t).1)
    (hdone : ∀ s r, P s → (s.step t).2 = .done r → Q (s.step t).1 r) :
    ∀ (fuel : Nat) (grant : Option Nat) (did : List Access) (s : State α), P s → s.left t < fuel →
      Stops P Q t grant (runFor fuel t grant did s) := by
  intro fuel
  induction fuel with
  | zero => exact fun _ _ _ _ hlt => absurd hlt (Nat.not_lt_zero _)
  | succ fuel ih =>
    intro grant did s hP hlt
    obtain ⟨hs, hne⟩ := hsound s hP
    obtain ⟨f, below, hframes⟩ := List.exists_cons_of_ne_nil hne
    have hstep := step_stepped hs hframes
    have hrest := fun grant did (hP' : P (s.step t).1) =>
      ih grant did _ hP' (Nat.lt_of_lt_of_le hstep.less (Nat.le_of_lt_succ hlt))
    unfold runFor
    split
    next kind hnext => exact Or.inl ⟨kind, rfl, hP, hnext, rfl⟩
    next grant _ _ _ =>
      have hgrant : Stops P Q t (grant.map (· - 1)) = Stops P Q t grant := by cases grant <;> rfl
      have hgo' := hgo s hP
      have hdone' := hdone s
      generalize s.step t = p at hstep hrest hgo' hdone'
      obtain ⟨s', p⟩ := p
      rcases hstep.ends with ⟨rfl | ⟨a, rfl⟩, hbusy⟩ | ⟨r, rfl, -⟩
      · exact hrest grant did (hgo' (Or.inl rfl) hbusy)
      · have hP' := hgo' (Or.inr ⟨a, rfl⟩) hbusy
        dsimp only
        split
        · rw [← hgrant]
          exact hrest (grant.map (· - 1)) (a :: did) hP'
        · exact hrest grant did hP'
      · exact Or.inr ⟨r, rfl, hdone' r hP rfl⟩

/-- A thread that is stopped before an access of its own has no call open. -/
theorem Sound.calls_of_nextAccess (hs : s.Sound) {kind : AccessKind} (h : s.nextAccess? t = some kind) :
    (s.world.domain.thread t).calls = [] := by
  have hstands := (hs.seated t).stands
  unfold nextAccess? at h
  split at h
  next f hframes =>
    obtain ⟨o, ho, -⟩ := Option.bind_eq_some_iff.mp h
    rw [hframes, ho] at hstands
    generalize (s.world.domain.thread t).calls = calls at hstands
    cases hstands with
    | working _ _ hu => exact hu.ground_calls.1
  next => cases h

theorem Sound.calls_of_idle (hs : s.Sound) (h : (s.worker t).frames = []) : (s.world.domain.thread t).calls = [] :=
  ((hs.seated t).guards_of_idle h).2.1

/-- A run that begins with no call open ends so. -/
theorem run_ends (hs : s.Sound) (hne : (s.worker t).frames ≠ []) (hcalls : (s.world.domain.thread t).calls = [])
    (grant : Option Nat) : Onward t s (s.run t grant).1 ∧ ((s.run t grant).1.world.domain.thread t).calls = [] ∧
      ((∃ kind, (s.run t grant).2.2 = .paused kind) ∧ grant.isSome = true ∨
        (∃ r, (s.run t grant).2.2 = .done r) ∧ ((s.run t grant).1.worker t).frames = []) := by
  have hstepped : ∀ s', Onward t s s' ∧ (s'.worker t).frames ≠ [] → ∃ f below,
      Stepped s' t f below (s'.step t).1 (s'.step t).2 := fun s' h => by
    obtain ⟨f, below, hframes⟩ := List.exists_cons_of_ne_nil h.2
    exact ⟨f, below, step_stepped h.1.sound hframes⟩
  have hrun := runFor_induct (t := t) (P := fun s' => Onward t s s' ∧ (s'.worker t).frames ≠ [])
    (Q := fun s' _ => Onward t s s' ∧ (s'.worker t).frames = []) (fun s' h => ⟨h.1.sound, h.2⟩)
    (fun s' h _ hbusy => by
      obtain ⟨f, below, hstep⟩ := hstepped s' h
      exact ⟨h.1.trans hstep.onward, hbusy⟩)
    (fun s' r h hp => by
      obtain ⟨f, below, hstep⟩ := hstepped s' h
      rcases hstep.ends with ⟨hq | ⟨x, hx⟩, -⟩ | ⟨-, -, hf, -⟩
      · rw [hp] at hq; cases hq
      · rw [hp] at hx; cases hx
      · exact ⟨h.1.trans hstep.onward, hf⟩)
    s.fuel grant [] s ⟨.refl hs, hne⟩ (left_lt_fuel hcalls)
  unfold run
  rcases hrun with ⟨kind, he, ⟨ho, -⟩, hnext, hgrant⟩ | ⟨r, he, ho, hf⟩
  · exact ⟨ho, ho.sound.calls_of_nextAccess hnext, Or.inl ⟨⟨kind, he⟩, hgrant⟩⟩
  · exact ⟨ho, ho.sound.calls_of_idle hf, Or.inr ⟨⟨r, he⟩, hf⟩⟩

/-- A thread that has nothing to do is given a command. -/
theorem give_onward (hs : s.Sound) (hf : (s.worker t).frames = []) {c : Command α} (hc : c.orderly false = true) :
    Onward t s (s.give t c) ∧
      ((s.give t c).worker t).frames = [{ inside := false, todo := [.command c], gather := .sole }] ∧
      ((s.give t c).worker t).guards = (s.worker t).guards := by
  have hworker := s.worker_pushFrame t { inside := false, todo := [.command c], gather := .sole }
  have hthread := hworker t
  rw [if_pos rfl, hf] at hthread
  have hseat := hs.seated t
  obtain ⟨hop, hcalls, -⟩ := hseat.guards_of_idle hf
  unfold give
  refine ⟨hs.onward (.refl hs.queueInv.choose_spec) (fun u e => by rw [hworker, if_neg e]) hs.booked hs.queues
    hs.iterators ?_, by rw [hthread], by rw [hthread]⟩
  rw [hthread]
  refine { hseat with stands := ?_, fine := fun g hg => ?_ }
  · show Stands _ (s.world.operation t) (s.world.domain.thread t).calls
    rw [hop, hcalls]
    exact .ready rfl (.ground rfl rfl)
  · cases List.mem_singleton.mp hg
    refine ⟨fun task ht => ?_, nofun, nofun, nofun⟩
    cases List.mem_singleton.mp ht
    exact hc

end

end EpochQueue.Script.State
