/-
  EpochQueue.Proofs.Contest.Swaps — what a turn in the contest over a cell comes to.

  `Sound` is what every turn keeps. It ties the stage of an agent to its calls and guards, and the objects
  to the books: all that were allocated have been retired, but for the one in the cell. A reader has its
  guard since before the object it looks at was retired, and while all threads are there a guard protects
  (`ReachStaying.spares`), so no read is bad as long as the epoch has not overflowed.

  Every turn of an agent that is not done leaves fewer turns to take (`load`), if what is retired and not
  destroyed is counted with them (`Sound.turn`).
-/

import EpochQueue.Contest.Exchange
import EpochQueue.Proofs.Reclaim.Completion
import EpochQueue.Proofs.Reclaim.Overlap

namespace EpochQueue.Contest

open Reclaim (Call Domain Guard Move Notice Thread)

/-- Where the thread of an agent is, by the stage of the agent. -/
def Stage.Stands (th : Thread Nat Unit) : Stage → Prop
  | .outside => th.calls = [] ∧ th.guards = []
  | .pinning => (∃ c, th.calls = [c] ∧ c.phase.pin?.isSome = true) ∧ th.guards = []
  | .pinned g | .loaded g _ | .leaving g => th.calls = [] ∧ th.guards = [g]
  | .retiring g => (∃ c, th.calls = [c] ∧ c.phase.pin? = none) ∧ th.guards = [g]

theorem Exchanger.of_isDone {a : Exchanger} (h : a.isDone = true) : a.left = 0 ∧ a.stage = .outside := by
  unfold Exchanger.isDone at h
  rw [Bool.and_eq_true, beq_iff_eq] at h
  refine ⟨h.1, ?_⟩
  cases hst : a.stage <;> rw [hst] at h <;> first | rfl | cases h.2

namespace Exchange

variable {s s' : Exchange} {n t u : Nat}

/-! ## Objects -/

/-- The books about the objects: whatever was allocated was retired, but for what is in the cell. -/
structure Objects (s : Exchange) : Prop where
  retired : ∀ n, n ∈ s.domain.retirements ↔ n < s.allocated ∧ s.cell ≠ some n
  cell : ∀ n, s.cell = some n → n < s.allocated
  freed : ∀ n, s.freed.get n = true ↔ n ∈ s.domain.frees
  dropped : s.dropped = s.domain.frees.length

namespace Objects

/-- Moves of the domain that tell of no object. -/
theorem congr (h : s.Objects) (hret : s'.domain.retirements = s.domain.retirements)
    (hfree : s'.domain.frees = s.domain.frees) (hcell : s'.cell = s.cell) (halloc : s'.allocated = s.allocated)
    (hfreed : s'.freed = s.freed) (hdrop : s'.dropped = s.dropped) : s'.Objects where
  retired n := by rw [hret, halloc, hcell]; exact h.retired n
  cell n hn := by rw [halloc]; exact h.cell n (hcell ▸ hn)
  freed n := by rw [hfreed, hfree]; exact h.freed n
  dropped := by rw [hdrop, hfree]; exact h.dropped

/-- What is in the cell was not retired. -/
theorem not_retired (h : s.Objects) {x : Nat} (hcell : s.cell = some x) : ¬ s.domain.wasRetired x := fun hx =>
  ((h.retired x).mp (Reclaim.Domain.mem_retirements.mpr hx)).2 hcell

/-- The object in the cell is retired, and there is nothing there now, or what was just made. -/
theorem replaced (h : s.Objects) {x : Nat} (hcell : s.cell = some x)
    (hret : s'.domain.retirements = s.domain.retirements ++ [x]) (hfree : s'.domain.frees = s.domain.frees)
    (hold : ∀ n, n < s.allocated ↔ n < s'.allocated ∧ s'.cell ≠ some n) (hnew : ∀ n, s'.cell = some n → n < s'.allocated)
    (hfreed : s'.freed = s.freed) (hdrop : s'.dropped = s.dropped) : s'.Objects where
  retired n := by
    have hiff := h.retired n
    have hlt := h.cell x hcell
    rw [hret, ← hold, List.mem_append, List.mem_singleton, hiff, hcell, ne_eq, Option.some_inj]
    omega
  cell := hnew
  freed n := by rw [hfreed, hfree]; exact h.freed n
  dropped := by rw [hdrop, hfree]; exact h.dropped

/-- At most what was allocated has been retired, once each. -/
theorem length_retirements_le (h : s.Objects) (hr : s.domain.Reach) : s.domain.retirements.length ≤ s.allocated := by
  have hsub : s.domain.retirements ⊆ List.range s.allocated := fun n hn =>
    List.mem_range.mpr ((h.retired n).mp hn).1
  have hle := (List.subperm_of_subset hr.balanced.nodup hsub).length_le
  rwa [List.length_range] at hle

/-- With nothing in the cell everything was retired. -/
theorem length_retirements (h : s.Objects) (hr : s.domain.Reach) (hcell : s.cell = none) :
    s.domain.retirements.length = s.allocated := by
  refine Nat.le_antisymm (h.length_retirements_le hr) ?_
  have hsub : List.range s.allocated ⊆ s.domain.retirements := fun n hn =>
    (h.retired n).mpr ⟨List.mem_range.mp hn, by rw [hcell]; exact (Option.some_ne_none n).symm⟩
  have hle := (List.subperm_of_subset List.nodup_range hsub).length_le
  rwa [List.length_range] at hle

end Objects

/-- What a step of the domain leaves alone. -/
theorem stepDomain_frame (s : Exchange) (t : Nat) : (s.stepDomain t).1 = (s.domain.step t).2 ∧
    (s.stepDomain t).2.domain = (s.domain.step t).1 ∧ (s.stepDomain t).2.agents = s.agents ∧
    (s.stepDomain t).2.cell = s.cell ∧ (s.stepDomain t).2.allocated = s.allocated ∧
    (s.stepDomain t).2.badReads = s.badReads := by
  unfold stepDomain
  generalize s.domain.step t = r
  obtain ⟨d, signal⟩ := r
  cases signal <;> exact ⟨rfl, rfl, rfl, rfl, rfl, rfl⟩

/-- What is destroyed is noted as such. -/
theorem Objects.step (h : s.Objects) (t : Nat) : (s.stepDomain t).2.Objects := by
  obtain ⟨hret, hfree⟩ := Reclaim.Domain.step_books s.domain t
  unfold stepDomain
  generalize s.domain.step t = r at hret hfree
  obtain ⟨d, signal⟩ := r
  dsimp only at hret hfree
  cases signal with
  | freed x =>
    replace hfree : d.frees = s.domain.frees ++ [x] := hfree
    refine ⟨fun y => ?_, h.cell, fun y => ?_, ?_⟩
    · show y ∈ d.retirements ↔ _
      rw [hret]
      exact h.retired y
    · show (s.freed.set x true).get y = true ↔ y ∈ d.frees
      rw [hfree, List.mem_append, List.mem_singleton, Table.get_set, ← h.freed]
      by_cases e : y = x <;> simp [e]
    · show s.dropped + 1 = d.frees.length
      rw [hfree, h.dropped, List.length_append, List.length_singleton]
  | _ => exact h.congr hret (hfree.trans (List.append_nil _)) rfl rfl rfl rfl

/-! ## What a turn keeps -/

/-- What holds between turns, when `n` threads take them. -/
structure Sound (n : Nat) (s : Exchange) : Prop where
  reached : s.domain.ReachStaying
  objects : s.Objects
  filled : s.cell.isSome = true
  stands : ∀ t, (s.agent t).stage.Stands (s.domain.thread t)
  /-- Nobody else has come. -/
  strangers : ∀ t, n ≤ t → s.agent t = {} ∧ (s.domain.thread t).tenure = .unused
  /-- An object that a reader has found in the cell was retired, if at all, under its guard. -/
  reads : ∀ t g x, (s.agent t).stage = .loaded g (some x) → x ∈ s.domain.retirements → s.domain.Under g x
  good : ¬ s.domain.wrapped → s.badReads = 0

/-- How many objects wait to be destroyed. -/
def waiting (s : Exchange) : Nat := s.domain.retirements.length - s.domain.frees.length

end Exchange

/-- The turns that an agent has yet to take before it is outside again, those in which it steps a call
    apart, and with one for what it will retire. -/
def Stage.left : Stage → Nat
  | .outside => 0
  | .pinning | .pinned _ => 6
  | .loaded _ _ => 2
  | .retiring _ | .leaving _ => 1

/-- The swaps that an agent has yet to make before it is outside again. -/
def Stage.swapsLeft : Stage → Nat
  | .pinning | .pinned _ => 1
  | _ => 0

/-- An agent whose call has returned goes on from one stage to the other. -/
structure Stage.GoesTo (th : Thread Nat Unit) (stage next : Stage) : Prop where
  stands : next.Stands th
  unloaded : ∀ g x, next ≠ .loaded g x
  left : next.left ≤ stage.left
  swapsLeft : next.swapsLeft = stage.swapsLeft

namespace Exchange

variable {s s' : Exchange} {n t u : Nat}

/-- The turns that `t` has yet to take, those apart in which it destroys something. -/
def load (s : Exchange) (t : Nat) : Nat :=
  turnsEnough * (s.agent t).left + (s.agent t).stage.left + Domain.callsLeft (s.domain.thread t).calls

/-- How many objects the agent has yet to make. -/
def toSwap (s : Exchange) (t : Nat) : Nat :=
  if (s.agent t).swaps then (s.agent t).left + (s.agent t).stage.swapsLeft else 0

/-- What a turn of `t` comes to. -/
structure Played (n t : Nat) (s s' : Exchange) : Prop where
  sound : s'.Sound n
  agent : ∀ u, u ≠ t → s'.agent u = s.agent u
  thread : ∀ u, u ≠ t → s'.domain.thread u = s.domain.thread u
  less : s'.load t + s'.waiting < s.load t + s.waiting
  /-- No object is made that was not to be made, and none is left out. -/
  made : s'.toSwap t + s'.allocated = s.toSwap t + s.allocated
  told : s'.domain.story.length ≤ s.domain.story.length + 1

@[simp] theorem agent_setStage (s : Exchange) (t : Nat) (stage : Stage) (u : Nat) :
    (s.setStage t stage).agent u = if u = t then { s.agent t with stage } else s.agent u := Table.get_modify _ _ _ _

/-- What was retired under a guard was so after any move. -/
theorem under_move {d d' : Domain Nat Unit} {x : Option (Notice Nat)} (ht : Reclaim.Domain.Turn d t x d') {g : Guard}
    {y : Nat} (hg : .pinned g ∈ d.story) (hold : y ∈ d.retirements → d.Under g y) (hy : y ∈ d'.retirements) :
    d'.Under g y := by
  have hret := ht.retirements_append
  unfold Reclaim.Domain.Under
  rw [ht.story]
  rw [hret] at hy
  rcases List.mem_append.mp hy with hy | hy
  · exact (hold hy).trans (List.sublist_append_left _ _)
  · cases x with
    | none => cases hy
    | some z =>
      cases z with
      | retired z =>
        obtain rfl : y = z := List.mem_singleton.mp hy
        exact (List.singleton_sublist.mpr hg).append (List.Sublist.refl [Notice.retired y])
      | _ => cases hy

namespace Sound

variable (h : s.Sound n)

include h

theorem reach : s.domain.Reach := h.reached.reach

theorem pinned_of_guards {g : Guard} (hg : (s.domain.thread t).guards = [g]) :
    s.domain.Alive g ∧ .pinned g ∈ s.domain.story := by
  have halive : s.domain.Alive g := ⟨t, hg ▸ List.mem_cons_self⟩
  exact ⟨halive, ((h.reach.recorded.alive g).mp halive).1⟩

/-- A move of the domain, after which the agent is not at an object. -/
theorem moved (ht : t < n) {m : Move Nat Unit} (hm : s.domain.may t m) (hstay : m ≠ .exit)
    (hd : s'.domain = s.domain.move t m) (hagent : ∀ u, u ≠ t → s'.agent u = s.agent u)
    (hstands : (s'.agent t).stage.Stands (s'.domain.thread t)) (hload : ∀ g x, (s'.agent t).stage ≠ .loaded g x)
    (hobj : s'.Objects) (hfilled : s'.cell.isSome = true) (hbad : s'.badReads = s.badReads) : s'.Sound n := by
  obtain ⟨x, hturn⟩ := h.reach.owned.turn hm
  rw [← hd] at hturn
  have hthread : ∀ u, u ≠ t → s'.domain.thread u = s.domain.thread u := hturn.others
  refine ⟨hd ▸ h.reached.move t m hm hstay, hobj, hfilled, fun u => ?_, fun u hu => ?_, fun u g y hl hy => ?_, fun hw => ?_⟩
  · by_cases e : u = t
    · subst e; exact hstands
    · rw [hagent u e, hthread u e]; exact h.stands u
  · have hne : u ≠ t := by omega
    rw [hagent u hne, hthread u hne]
    exact h.strangers u hu
  · have hne : u ≠ t := fun e => hload g (some y) (e ▸ hl)
    rw [hagent u hne] at hl
    have hg : (s.domain.thread u).guards = [g] := by
      have hst := h.stands u
      rw [hl] at hst
      exact hst.2
    exact under_move hturn (h.pinned_of_guards hg).2 (h.reads u g y hl) hy
  · rw [hbad]
    exact h.good (hturn.not_wrapped hw).1

theorem told {m : Move Nat Unit} (hm : s.domain.may t m) :
    (s.domain.move t m).story.length ≤ s.domain.story.length + 1 := by
  obtain ⟨x, hturn⟩ := h.reach.owned.turn hm
  rw [hturn.story, List.length_append]
  cases x with
  | none => exact Nat.le_succ _
  | some _ => exact Nat.le_refl _

/-- Nothing that a reader has found is destroyed before it has looked. -/
theorem not_freed (hw : ¬ s.domain.wrapped) {g : Guard} {x : Nat} (hl : (s.agent t).stage = .loaded g (some x)) :
    s.freed.get x = false := by
  rw [← Bool.not_eq_true, h.objects.freed]
  intro hx
  have hret : x ∈ s.domain.retirements := h.reach.balanced.perm.mem_iff.mpr (List.mem_append_left _ hx)
  have hst := h.stands t
  rw [hl] at hst
  refine (h.reached.spares hw).1.freed g x (h.pinned_of_guards hst.2).1 (h.reads t g x hl hret) ?_
  exact (Reclaim.Domain.mem_story rfl).mpr (Reclaim.Domain.mem_frees.mp hx)

end Sound

/-! ## Turns -/

/-- The books are kept by the story. -/
theorem books_of_story {d d' : Domain Nat Unit} {ys : List (Notice Nat)} (hs : d'.story = d.story ++ ys) :
    d'.retirements = d.retirements ++ ys.filterMap (·.retired?) ∧ d'.frees = d.frees ++ ys.filterMap (·.freed?) := by
  rw [Reclaim.Domain.retirements_eq, Reclaim.Domain.retirements_eq, Reclaim.Domain.frees_eq, Reclaim.Domain.frees_eq, hs]
  exact ⟨List.filterMap_append, List.filterMap_append⟩

theorem books_of_same {d d' : Domain Nat Unit} (hs : d'.story = d.story) :
    d'.retirements = d.retirements ∧ d'.frees = d.frees := by
  obtain ⟨hret, hfree⟩ := books_of_story (hs.trans (List.append_nil _).symm)
  exact ⟨hret.trans (List.append_nil _), hfree.trans (List.append_nil _)⟩

theorem mayCall_of_calls {d : Domain Nat Unit} (hc : (d.thread t).calls = []) : d.mayCall t = true := by
  rw [Reclaim.Domain.mayCall_eq, hc]
  rfl

namespace Sound

variable (h : s.Sound n) (ht : t < n)

include h ht

/-- An agent that has not come often enough asks for a guard. -/
theorem come (hst : (s.agent t).stage = .outside) (hleft : (s.agent t).left ≠ 0) : Played n t s (s.come t) := by
  have hstands := h.stands t
  rw [hst] at hstands
  obtain ⟨q, hpin, -, hc, hg⟩ := Reclaim.Domain.pin_opens s.domain t ()
  rw [hstands.1] at hc
  rw [hstands.2] at hg
  have hagent : ∀ u, (s.come t).agent u = if u = t then { s.agent t with left := (s.agent t).left - 1, stage := .pinning }
      else s.agent u := fun u => Table.get_modify _ _ _ _
  have hmine : (s.come t).agent t = { s.agent t with left := (s.agent t).left - 1, stage := .pinning } := by
    rw [hagent, if_pos rfl]
  have hothers : ∀ u, u ≠ t → (s.come t).agent u = s.agent u := fun u hu => by rw [hagent, if_neg hu]
  obtain ⟨hret, hfree⟩ := books_of_same (Reclaim.Domain.pin_frame s.domain t ()).2.2
  refine ⟨h.moved ht (m := .pin ()) (mayCall_of_calls hstands.1) nofun rfl hothers ?_ ?_ ?_ h.filled rfl, hothers,
    fun u hu => Reclaim.Domain.thread_pin_of_ne hu (), ?_, ?_, h.told (m := .pin ()) (mayCall_of_calls hstands.1)⟩
  · rw [hmine]
    exact ⟨⟨_, hc, hpin⟩, hg⟩
  · rw [hmine]
    exact nofun
  · exact h.objects.congr hret hfree rfl rfl rfl rfl
  · have hle := q.left_le
    unfold load waiting
    rw [hmine, show (s.come t).domain = s.domain.pin t () from rfl, hret, hfree, hc, hst, hstands.1]
    simp only [Stage.left, Domain.callsLeft, turnsEnough]
    omega
  · unfold toSwap
    rw [hmine, hst]
    simp only [Stage.swapsLeft, show (s.come t).allocated = s.allocated from rfl]
    split <;> omega

/-- A reader reads the cell. -/
theorem reads_cell {g : Guard} (hst : (s.agent t).stage = .pinned g) (hswaps : (s.agent t).swaps = false) :
    Played n t s (s.setStage t (.loaded g s.cell)) := by
  have hstands := h.stands t
  rw [hst] at hstands
  have hothers : ∀ u, u ≠ t → (s.setStage t (.loaded g s.cell)).agent u = s.agent u := fun u hu => by
    rw [agent_setStage, if_neg hu]
  refine ⟨⟨h.reached, ⟨h.objects.retired, h.objects.cell, h.objects.freed, h.objects.dropped⟩, h.filled,
    fun u => ?_, fun u hu => ?_, fun u g' x hl hx => ?_, h.good⟩, hothers, fun _ _ => rfl, ?_, ?_,
    Nat.le_succ _⟩
  · by_cases e : u = t
    · subst e
      rw [agent_setStage, if_pos rfl]
      exact hstands
    · rw [hothers u e]
      exact h.stands u
  · rw [hothers u (by omega)]
    exact h.strangers u hu
  · by_cases e : u = t
    · subst e
      rw [agent_setStage, if_pos rfl] at hl
      obtain ⟨-, hcell⟩ := Stage.loaded.inj hl
      exact absurd hcell ((h.objects.retired x).mp hx).2
    · rw [hothers u e] at hl
      exact h.reads u g' x hl hx
  · unfold load waiting
    rw [agent_setStage, if_pos rfl, hst]
    simp only [Stage.left, turnsEnough, setStage]
    omega
  · unfold toSwap
    rw [agent_setStage, if_pos rfl]
    simp only [hswaps, Bool.false_eq_true, if_false]
    rfl

/-- A reader looks at the object that it has found, and it is there. -/
theorem looks {g : Guard} {object : Option Nat} (hst : (s.agent t).stage = .loaded g object) :
    Played n t s ((s.look object).setStage t (.leaving g)) := by
  have hstands := h.stands t
  rw [hst] at hstands
  have hlook : (s.look object).domain = s.domain ∧ (s.look object).agents = s.agents ∧
      (s.look object).cell = s.cell ∧ (s.look object).allocated = s.allocated ∧ (s.look object).Objects := by
    unfold look
    split <;> exact ⟨rfl, rfl, rfl, rfl, h.objects.retired, h.objects.cell, h.objects.freed, h.objects.dropped⟩
  obtain ⟨hd, hagents, hcell, halloc, hobj⟩ := hlook
  have hagent : ∀ u, ((s.look object).setStage t (.leaving g)).agent u =
      if u = t then { s.agent t with stage := .leaving g } else s.agent u := fun u => by
    rw [agent_setStage]
    unfold agent
    rw [hagents]
  have hothers : ∀ u, u ≠ t → ((s.look object).setStage t (.leaving g)).agent u = s.agent u := fun u hu => by
    rw [hagent, if_neg hu]
  have hdom : ((s.look object).setStage t (.leaving g)).domain = s.domain := hd
  refine ⟨⟨hdom ▸ h.reached, ⟨hobj.retired, hobj.cell, hobj.freed, hobj.dropped⟩, ?_, fun u => ?_, fun u hu => ?_,
    fun u g' x hl hx => ?_, fun hw => ?_⟩, hothers, fun u _ => by rw [hdom], ?_, ?_, ?_⟩
  · exact (congrArg Option.isSome hcell).trans h.filled
  · rw [hdom]
    by_cases e : u = t
    · subst e
      rw [hagent, if_pos rfl]
      exact hstands
    · rw [hothers u e]
      exact h.stands u
  · rw [hothers u (by omega), hdom]
    exact h.strangers u hu
  · rw [hdom] at hx ⊢
    by_cases e : u = t
    · subst e
      rw [hagent, if_pos rfl] at hl
      cases hl
    · rw [hothers u e] at hl
      exact h.reads u g' x hl hx
  · rw [hdom] at hw
    have hthere : object.any (s.freed.get ·) = false := by
      cases object with
      | none => rfl
      | some x => exact h.not_freed hw hst
    show (s.look object).badReads = 0
    unfold look
    rw [hthere]
    exact h.good hw
  · unfold load waiting
    rw [hagent, if_pos rfl, hdom, hst]
    simp only [Stage.left, turnsEnough]
    omega
  · unfold toSwap
    rw [hagent, if_pos rfl, hst, show ((s.look object).setStage t (.leaving g)).allocated = s.allocated from halloc]
    rfl
  · rw [hdom]
    exact Nat.le_succ _

/-- The guard is dropped. -/
theorem leaves {g : Guard} (hst : (s.agent t).stage = .leaving g) :
    Played n t s ({ s with domain := s.domain.unpin t g }.setStage t .outside) := by
  have hstands := h.stands t
  rw [hst] at hstands
  obtain ⟨hc, hg⟩ := Reclaim.Domain.calls_unpin s.domain t g
  rw [hstands.1] at hc
  rw [hstands.2, List.erase_cons_head] at hg
  have hagent : ∀ u, ({ s with domain := s.domain.unpin t g }.setStage t .outside).agent u =
      if u = t then { s.agent t with stage := .outside } else s.agent u := agent_setStage _ _ _
  have hothers : ∀ u, u ≠ t → ({ s with domain := s.domain.unpin t g }.setStage t .outside).agent u = s.agent u :=
    fun u hu => by rw [hagent, if_neg hu]
  obtain ⟨hret, hfree⟩ := books_of_story (Reclaim.Domain.unpin_frame s.domain t g).2.2
  replace hret : (s.domain.unpin t g).retirements = s.domain.retirements := hret.trans (List.append_nil _)
  replace hfree : (s.domain.unpin t g).frees = s.domain.frees := hfree.trans (List.append_nil _)
  refine ⟨h.moved ht (m := .unpin g) ⟨mayCall_of_calls hstands.1, hstands.2 ▸ List.mem_cons_self⟩ nofun rfl hothers ?_ ?_
    (h.objects.congr hret hfree rfl rfl rfl rfl) h.filled rfl, hothers,
    fun u hu => Reclaim.Domain.thread_unpin_of_ne hu g, ?_, ?_,
    h.told (m := .unpin g) ⟨mayCall_of_calls hstands.1, hstands.2 ▸ List.mem_cons_self⟩⟩
  · rw [hagent, if_pos rfl]
    exact ⟨hc, hg⟩
  · rw [hagent, if_pos rfl]
    exact nofun
  · unfold load waiting
    rw [hagent, if_pos rfl, hst]
    simp only [setStage, hret, hfree, hc, hstands.1, Stage.left]
    omega
  · unfold toSwap
    rw [hagent, if_pos rfl, hst]
    rfl

/-- A fresh object is put into the cell, and the one that was there is retired. -/
theorem swaps {g : Guard} (hst : (s.agent t).stage = .pinned g) (hswaps : (s.agent t).swaps = true) :
    Played n t s (s.swap t g) := by
  have hstands := h.stands t
  rw [hst] at hstands
  obtain ⟨m, hcell⟩ := Option.isSome_iff_exists.mp h.filled
  have hnew := h.objects.not_retired hcell
  obtain ⟨q, hpin, -, hle, hc, hg, hstory⟩ := Reclaim.Domain.retire_opens s.domain t m ()
  rw [hstands.1] at hc
  rw [hstands.2] at hg
  have heq : s.swap t g = { s with
      domain := s.domain.retire t m ()
      agents := s.agents.modify t fun a => { a with stage := .retiring g }
      cell := some s.allocated
      allocated := s.allocated + 1 } := by
    unfold swap
    rw [hcell]
    rfl
  have hagent : ∀ u, (s.swap t g).agent u =
      if u = t then { s.agent t with stage := .retiring g } else s.agent u := fun u => by
    rw [heq]
    exact Table.get_modify _ _ _ _
  have hothers : ∀ u, u ≠ t → (s.swap t g).agent u = s.agent u := fun u hu => by rw [hagent, if_neg hu]
  have hdom : (s.swap t g).domain = s.domain.retire t m () := by rw [heq]
  obtain ⟨hret, hfree⟩ := books_of_story hstory
  replace hret : (s.domain.retire t m ()).retirements = s.domain.retirements ++ [m] := hret
  replace hfree : (s.domain.retire t m ()).frees = s.domain.frees := hfree.trans (List.append_nil _)
  have hobj : (s.swap t g).Objects := by
    rw [heq]
    refine h.objects.replaced hcell hret hfree (fun n => ?_) (fun n hn => ?_) rfl rfl
    · simp only [ne_eq, Option.some_inj]
      omega
    · cases hn
      exact Nat.lt_succ_self _
  refine ⟨h.moved ht (m := .retire m ()) ⟨mayCall_of_calls hstands.1, hnew⟩ nofun hdom hothers ?_ ?_ hobj (by rw [heq]; rfl)
    (by rw [heq]), hothers, fun u hu => by rw [hdom]; exact Reclaim.Domain.thread_retire_of_ne hu m (), ?_, ?_, ?_⟩
  · rw [hagent, if_pos rfl, hdom]
    exact ⟨⟨_, hc, hpin⟩, hg⟩
  · rw [hagent, if_pos rfl]
    exact nofun
  · unfold load waiting
    rw [hagent, if_pos rfl, hdom, hret, hfree, hc, hst, hstands.1, List.length_append, List.length_singleton]
    simp only [Stage.left, Domain.callsLeft]
    omega
  · unfold toSwap
    rw [hagent, if_pos rfl, hst, heq]
    simp only [hswaps, if_true, Stage.swapsLeft]
    omega
  · rw [hdom]
    exact h.told (m := .retire m ()) ⟨mayCall_of_calls hstands.1, hnew⟩

/-- A step of the call that the agent has open. `next` is where it goes when the call returns. -/
theorem awaits {c : Call Nat Unit} {next : Reclaim.Answer → Stage} (hc : (s.domain.thread t).calls = [c])
    (hload : ∀ g x, (s.agent t).stage ≠ .loaded g x)
    (hstays : ∀ th : Thread Nat Unit, ∀ q, th.calls = [q] → q.phase.pin? = c.phase.pin? →
      th.guards = (s.domain.thread t).guards → (s.agent t).stage.Stands th)
    (hpinned : ∀ th : Thread Nat Unit, ∀ g, c.phase.pin?.isSome = true → th.calls = [] →
      th.guards = g :: (s.domain.thread t).guards → (s.agent t).stage.GoesTo th (next (.guard g)))
    (hreturned : ∀ th : Thread Nat Unit, ∀ a, c.phase.pin? = none → th.calls = [] →
      th.guards = (s.domain.thread t).guards → (s.agent t).stage.GoesTo th (next a)) :
    Played n t s (s.await t next) := by
  have hm : s.domain.may t .step := by rw [Reclaim.Domain.may, hc]; exact List.cons_ne_nil _ _
  have hw := Reclaim.Domain.step_wanes hc
  have hle := (h.reach.move t .step hm).balanced.frees_le
  obtain ⟨hret, hfree⟩ := Reclaim.Domain.step_books s.domain t
  obtain ⟨hsignal, hd, hagents, hcell, halloc, hbad⟩ := s.stepDomain_frame t
  have hobj := h.objects.step t
  have hthread : ∀ u, u ≠ t → (s.domain.step t).1.thread u = s.domain.thread u := fun u hu =>
    Reclaim.Domain.thread_step_of_ne hu
  have hmoved := fun s' : Exchange => @moved s s' n t h ht _ hm fun e => by cases e
  have htold := h.told hm
  have hload₀ : s.load t = turnsEnough * (s.agent t).left + (s.agent t).stage.left + c.phase.left := by
    unfold load
    rw [hc]
    rfl
  unfold await
  dsimp only [Reclaim.Domain.move] at hle hmoved htold
  generalize hr : s.stepDomain t = r at hsignal hd hagents hcell halloc hbad hobj
  obtain ⟨signal, s₁⟩ := r
  dsimp only at hsignal hd hagents hcell halloc hbad hobj
  rw [← hd] at hw hle hret hfree hthread hmoved htold
  rw [← hsignal] at hw hfree
  have hsame : ∀ u, s₁.agent u = s.agent u := fun u => congrArg (·.get u) hagents
  have hfilled : s₁.cell.isSome = true := by rw [hcell]; exact h.filled
  -- the call goes on
  have hon : ∀ {q : Call Nat Unit}, (s₁.domain.thread t).calls = [q] → q.phase.pin? = c.phase.pin? →
      (s₁.domain.thread t).guards = (s.domain.thread t).guards →
      q.phase.left + s₁.waiting < c.phase.left + s.waiting → Played n t s s₁ := by
    intro q hc' hpin hg hlt
    refine ⟨hmoved _ rfl (fun u _ => hsame u) ?_ ?_ hobj hfilled hbad, fun u _ => hsame u, hthread, ?_, ?_, htold⟩
    · rw [hsame]
      exact hstays _ _ hc' hpin hg
    · rw [hsame]
      exact hload
    · rw [hload₀, load, hsame, hc', Domain.callsLeft, Domain.callsLeft]
      omega
    · rw [toSwap, hsame, halloc, toSwap]
  -- the call returns
  have hback : ∀ a, (s₁.domain.thread t).calls = [] → s₁.waiting = s.waiting → c.phase.left = 1 →
      (s.agent t).stage.GoesTo (s₁.domain.thread t) (next a) → Played n t s (s₁.setStage t (next a)) := by
    intro a hc' hwaiting hleft hgoes
    have hagent : ∀ u, (s₁.setStage t (next a)).agent u =
        if u = t then { s.agent t with stage := next a } else s.agent u := fun u => by
      rw [agent_setStage, hsame, hsame]
    have hothers : ∀ u, u ≠ t → (s₁.setStage t (next a)).agent u = s.agent u := fun u hu => by rw [hagent, if_neg hu]
    refine ⟨hmoved _ rfl hothers ?_ ?_ (hobj.congr rfl rfl rfl rfl rfl rfl) hfilled hbad, hothers, hthread, ?_, ?_, htold⟩
    · rw [hagent, if_pos rfl]
      exact hgoes.stands
    · rw [hagent, if_pos rfl]
      exact hgoes.unloaded
    · have hnext := hgoes.left
      have hwaiting' : (s₁.setStage t (next a)).waiting = s.waiting := hwaiting
      rw [hload₀, hwaiting', load, hagent, if_pos rfl, show (s₁.setStage t (next a)).domain = s₁.domain from rfl, hc', hleft,
        Domain.callsLeft]
      dsimp only
      omega
    · unfold toSwap
      rw [hagent, if_pos rfl, show (s₁.setStage t (next a)).allocated = s.allocated from halloc]
      dsimp only
      rw [hgoes.swapsLeft]
  cases hw with
  | on q hc' hq _ hpin hg _ =>
    refine hon hc' hpin hg ?_
    rw [show s₁.waiting = s.waiting by unfold waiting; rw [hret, hfree]; exact congrArg _ (by simp [Reclaim.Signal.freed?])]
    exact Nat.add_lt_add_right hq _
  | freed p x todo freed hp hc' hg _ =>
    refine hon hc' (by rw [hp]; rfl) hg ?_
    have hone : s₁.domain.frees.length = s.domain.frees.length + 1 := by
      rw [hfree]
      exact List.length_append
    rw [hret, hone] at hle
    rw [hp, waiting, waiting, hret, hone]
    simp only [Reclaim.Phase.left]
    omega
  | pinned g hp hleft _ hc' hg _ =>
    refine hback (.guard g) hc' ?_ hleft (hpinned _ g (by rw [hp]; rfl) hc' hg)
    unfold waiting
    rw [hret, hfree]
    exact congrArg _ (by simp [Reclaim.Signal.freed?])
  | returned a _ hp hleft _ hc' hg _ =>
    refine hback a hc' ?_ hleft (hreturned _ a hp hc' hg)
    unfold waiting
    rw [hret, hfree]
    exact congrArg _ (by simp [Reclaim.Signal.freed?])

/-- Every turn of an agent that is not done takes it on. -/
theorem turn (hdone : (s.agent t).isDone = false) : Played n t s (s.turn t) := by
  have hstands := h.stands t
  unfold Exchange.turn
  cases hst : (s.agent t).stage with
  | outside =>
    have hleft : (s.agent t).left ≠ 0 := fun e => by
      unfold Exchanger.isDone at hdone
      rw [hst, e] at hdone
      cases hdone
    dsimp only
    rw [if_neg hleft]
    exact h.come ht hst hleft
  | pinning =>
    rw [hst] at hstands
    obtain ⟨⟨c, hc, hpin⟩, hg⟩ := hstands
    refine h.awaits ht hc (by rw [hst]; exact nofun) (fun th q hq hp hgs => ?_) (fun th g _ hth hgs => ?_)
      fun th a hnone _ _ => ?_
    · rw [hst]
      exact ⟨⟨q, hq, hp ▸ hpin⟩, hgs.trans hg⟩
    · rw [hst]
      exact ⟨⟨hth, hgs.trans (congrArg _ hg)⟩, nofun, Nat.le_refl _, rfl⟩
    · rw [hnone] at hpin
      cases hpin
  | pinned g =>
    dsimp only
    split
    · exact h.swaps ht hst ‹_›
    · exact h.reads_cell ht hst (Bool.not_eq_true _ ▸ ‹_›)
  | loaded g object => exact h.looks ht hst
  | retiring g =>
    rw [hst] at hstands
    obtain ⟨⟨c, hc, hpin⟩, hg⟩ := hstands
    refine h.awaits ht hc (by rw [hst]; exact nofun) (fun th q hq hp hgs => ?_) (fun th g hsome _ _ => ?_)
      fun th a _ hth hgs => ?_
    · rw [hst]
      exact ⟨⟨q, hq, hp.trans hpin⟩, hgs.trans hg⟩
    · rw [hpin] at hsome
      cases hsome
    · rw [hst]
      exact ⟨⟨hth, hgs.trans hg⟩, nofun, Nat.le_refl _, rfl⟩
  | leaving g => exact h.leaves ht hst

end Sound

/-- An agent that is done stays where it is. -/
theorem turn_of_isDone (hdone : (s.agent t).isDone = true) : s.turn t = s := by
  obtain ⟨hleft, hout⟩ := Exchanger.of_isDone hdone
  unfold turn
  rw [hout]
  exact if_pos hleft

end Exchange

end EpochQueue.Contest
