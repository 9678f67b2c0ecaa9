/-
  EpochQueue.Proofs.Contest.Turns — what a turn in the contest over a queue comes to.

  `Sound` is what holds between turns, and `Sound.turn` says what a turn comes to, if the agent is not
  done (`Played`): it begins an operation (`send`, `seek`), its operation goes on (`goesOn`), or it
  returns (`sent`, `gotWare`, `gotNothing`).

  What there is to be done never becomes more, and less whenever something gets done (`Nearer`). Other
  turns bring the agent closer to that, if it is one to wait for (`Awaits`).
-/

import EpochQueue.Proofs.Contest.Flow
import EpochQueue.Proofs.Contest.Rounds

namespace EpochQueue.Contest

open Fifo (Operation Standing World)

namespace Traffic

variable {producers consumers per n t u : Nat} {s s' : Traffic}

/-! ## What is to be done -/

/-- What an agent has yet to do: a ware that it has not begun to send is to be put into the queue, taken out
    and received, and its link is to be destroyed. -/
def dues (s : Traffic) (t : Nat) : Nat :=
  match s.agent t with
  | .producer todo waiting => deedsEach * todo.length + if waiting then 3 * (s.world.inHand t).length + 1 else 0
  | .consumer _ _ => (s.world.inHand t).length + if s.isDone t then 0 else 1

/-- What is to be done by `t`, about the wares in the queue and about links. -/
def share (s : Traffic) (t : Nat) : Nat := s.dues t + 2 * s.held.length + s.world.linksLeft

/-- What is to be done by all. -/
def toDo (n : Nat) (s : Traffic) : Nat := (Finset.range n).sum s.dues + 2 * s.held.length + s.world.linksLeft

/-- After so many turns of its own, at most, `t` gets something done. A consumer that comes back with
    nothing and finds the queue filled tries again. -/
structure Awaits (s : Traffic) (t k : Nat) : Prop where
  busy : s.isDone t = false
  useful : (s.agent t).consumes = true → s.held ≠ [] ∨ s.world.inHand t ≠ [] ∨ s.total ≤ s.received
  load : s.world.load t ≤ k
  again : s.held ≠ [] → s.world.EmptyHanded t → s.world.load t + 20 ≤ k

/-- With `s'` a thread `t` has got something done, or is closer to it while nothing has changed for others. -/
def Nearer (t : Nat) (s s' : Traffic) : Prop :=
  s'.share t < s.share t ∨ s'.share t ≤ s.share t ∧ s'.held = s.held ∧ s'.received = s.received ∧
    ∀ k, s.Awaits t k → ∃ k', k' < k ∧ s'.Awaits t k'

/-- What a turn of `t` comes to. -/
structure Played (t : Nat) (s s' : Traffic) : Prop extends Moved t s s' where
  stands : (s'.agent t).Stands s'.world t s.queue
  consumes : (s'.agent t).consumes = (s.agent t).consumes
  passed : Passed t s s'
  received : ∃ k, s'.received = s.received + k ∧ (s'.agent t).received = (s.agent t).received + k
  nearer : Nearer t s s'

theorem isDone_of_waits (h : (s.agent t).waits = true) : s.isDone t = false := by
  unfold isDone
  cases hagent : s.agent t with
  | producer todo waiting | consumer got waiting =>
    rw [hagent] at h
    obtain rfl : waiting = true := h
    exact Bool.and_false _

theorem isDone_of_same (hagent : s'.agent t = s.agent t) (hreceived : s'.received = s.received)
    (htotal : s'.total = s.total) : s'.isDone t = s.isDone t := by
  unfold isDone
  rw [hagent, hreceived, htotal]

/-- A step that leaves the wares where they are brings the thread closer. -/
theorem nearer_of_eased (h : World.Eased t s.world s'.world) (hdues : s'.dues t = s.dues t) (hheld : s'.held = s.held)
    (hreceived : s'.received = s.received) (htotal : s'.total = s.total) (hbusy : s'.isDone t = false)
    (hconsumes : (s'.agent t).consumes = (s.agent t).consumes) (hhand : s'.world.inHand t = s.world.inHand t)
    (hunfound : s.held ≠ [] → s'.world.EmptyHanded t → s.world.EmptyHanded t) : Nearer t s s' := by
  unfold Nearer share
  rw [hdues, hheld, hreceived]
  rcases h with ⟨hload, hlinks⟩ | ⟨-, hlinks⟩
  · refine Or.inr ⟨by omega, rfl, rfl, fun k hk => ⟨k - 1, ?_, hbusy, fun hc => ?_, ?_, fun hne hun => ?_⟩⟩
    · have hle := hk.load
      omega
    · rw [hheld, hhand, htotal, hreceived]
      exact hk.useful (hconsumes ▸ hc)
    · have hle := hk.load
      omega
    · rw [hheld] at hne
      have hle := hk.again hne (hunfound hne hun)
      omega
  · exact Or.inl (by omega)

/-- So does one that leaves the agent what it is. -/
theorem Moved.played_of_same (hm : Moved t s s') (hagent : s'.agent t = s.agent t) (hreceived : s'.received = s.received)
    (hstands : (s'.agent t).Stands s'.world t s.queue) (hheld : s'.held = s.held)
    (hhand : s'.world.inHand t = s.world.inHand t) (hbusy : s.isDone t = false) (h : World.Eased t s.world s'.world)
    (hunfound : s.held ≠ [] → s'.world.EmptyHanded t → s.world.EmptyHanded t) : Played t s s' := by
  have hdone : s'.isDone t = s.isDone t := isDone_of_same hagent hreceived hm.total
  refine ⟨hm, hstands, congrArg _ hagent, .none hheld ?_ ?_, ⟨0, hreceived, congrArg _ hagent⟩,
    nearer_of_eased h ?_ hheld hreceived hm.total (hdone.trans hbusy) (congrArg _ hagent) hhand hunfound⟩
  · unfold unsent
    rw [hagent, hhand]
  · unfold taken
    rw [hagent, hhand]
  · unfold dues
    rw [hagent, hhand, hdone]

end Traffic

/-! ## Steps of an operation -/

/-- An operation stays as it stands or finds nothing in an empty queue; or it is an enqueue, and its value
    enters the queue; or it is a dequeue, and takes the front value. -/
theorem Agent.Does.turns {a : Agent} {x y : Standing Ware} (hx : a.Does x.stage) (h : x.Turns y) : a.Does y.stage ∧
    (y.hand = x.hand ∧ y.held = x.held ∧ (x.held ≠ [] → y.stage = .unfound → x.stage = .unfound) ∨
      a.consumes = false ∧ (∃ v, x.hand = some v ∧ y.hand = none ∧ y.held = x.held ++ [v]) ∨
      a.consumes = true ∧ ∃ v, x.hand = none ∧ x.held = v :: y.held ∧ y.hand = some v) := by
  cases h with
  | stays => exact ⟨hx, Or.inl ⟨rfl, rfl, fun _ hy => hy⟩⟩
  | again =>
    cases a with
    | producer => exact hx.elim
    | consumer => exact ⟨trivial, Or.inl ⟨rfl, rfl, fun _ => nofun⟩⟩
  | unfound =>
    cases a with
    | producer => exact hx.elim
    | consumer => exact ⟨trivial, Or.inl ⟨rfl, rfl, fun hne => absurd rfl hne⟩⟩
  | linked n v vs =>
    cases a with
    | producer => exact ⟨trivial, Or.inr (Or.inl ⟨rfl, v, rfl, rfl, rfl⟩)⟩
    | consumer => exact hx.elim
  | swung n v vs =>
    cases a with
    | producer => exact hx.elim
    | consumer => exact ⟨trivial, Or.inr (Or.inr ⟨rfl, v, rfl, rfl, rfl⟩)⟩
  | took =>
    cases a with
    | producer => exact hx.elim
    | consumer => exact ⟨trivial, Or.inl ⟨rfl, rfl, fun _ => nofun⟩⟩

namespace Traffic

variable {producers consumers per n t u : Nat} {s s' : Traffic}

/-! ## What every turn keeps -/

/-- What holds between turns. -/
structure Sound (producers consumers per : Nat) (s : Traffic) : Prop where
  reach : s.world.Reach
  linksOnly : s.world.LinksOnly
  opened : s.world.store.isOpen s.queue = true
  total : s.total = producers * per
  stands : ∀ t, (s.agent t).Stands s.world t s.queue
  consumes : ∀ t, (s.agent t).consumes = true ↔ producers ≤ t ∧ t < producers + consumers
  /-- Nobody else has come. -/
  strangers : ∀ t, producers + consumers ≤ t → s.agent t = default ∧ (s.world.domain.thread t).tenure = .unused
  flow : ∃ gone, Flow producers (producers + consumers) per s gone
  received : s.received = (Finset.range (producers + consumers)).sum fun t => (s.agent t).received

/-- A turn that comes to no more than it may keeps everything. -/
theorem Sound.played (h : s.Sound producers consumers per) (ht : t < producers + consumers) (hp : Played t s s') :
    s'.Sound producers consumers per := by
  obtain ⟨m, hm, hworld⟩ := hp.world
  obtain ⟨gone, hf⟩ := h.flow
  have hothers : ∀ u, u ≠ t → (s'.agent u).Stands s'.world u s'.queue := fun u hu => by
    rw [hp.agents u hu, hp.queue, hworld]
    exact (h.stands u).of_ne hu m
  refine ⟨hworld ▸ h.reach.move t m hm, hp.linksOnly, hp.queue ▸ hp.opened, hp.total.trans h.total, fun u => ?_,
    fun u => ?_, fun u hu => ?_, hp.flow h.reach hf ht hp.passed, ?_⟩
  · by_cases e : u = t
    · subst e
      rw [hp.queue]
      exact hp.stands
    · exact hothers u e
  · by_cases e : u = t
    · subst e
      rw [hp.consumes]
      exact h.consumes u
    · rw [hp.agents u e]
      exact h.consumes u
  · have hne : u ≠ t := by omega
    obtain ⟨hagent, htenure⟩ := h.strangers u hu
    rw [hp.agents u hne, hworld, (World.move_of_ne hne m).2]
    exact ⟨hagent, htenure⟩
  · obtain ⟨k, hreceived, hmine⟩ := hp.received
    have hsum := sum_range_of_ne (f := fun u => (s.agent u).received) (g := fun u => (s'.agent u).received) ht
      fun u hu => by rw [hp.agents u hu]
    have hall := h.received
    omega

/-! ## Turns -/

namespace Sound

variable (h : s.Sound producers consumers per)

include h

/-- A producer begins to send its next ware. -/
theorem send {v : Ware} {todo : List Ware} (hagent : s.agent t = .producer (v :: todo) false) :
    Played t s (s.send t v todo) := by
  have hidle : s.world.Idle t := by
    have hstands := h.stands t
    rwa [hagent] at hstands
  obtain ⟨o, m, hbegun, hst, hhand⟩ := hidle.enqueue h.reach h.linksOnly h.opened v
  obtain ⟨c, hc⟩ := hbegun.engaged
  have hmine : (s.send t v todo).agent t = .producer todo true := (agent_setAgent _ _ _ _).trans (if_pos rfl)
  have hworld : (s.send t v todo).world = s.world.enqueue t s.queue v := rfl
  have hheld : (s.send t v todo).held = s.held := hbegun.values
  refine ⟨⟨⟨.tryEnqueue s.queue v true, ⟨hidle.mayBegin, h.opened⟩, rfl⟩, hbegun.linksOnly,
    hbegun.queue ▸ hc.opened hbegun.reach, fun u hu => (agent_setAgent _ _ _ _).trans (if_neg hu), rfl, rfl⟩,
    ?_, ?_, .none hheld ?_ ?_, ⟨0, rfl, ?_⟩, Or.inl ?_⟩
  · rw [hmine]
    exact ⟨o, some c, hc, hbegun.queue, hst ▸ trivial⟩
  · rw [hmine, hagent]
    rfl
  · unfold unsent
    rw [hmine, hagent, hworld, hhand, hidle.inHand]
    rfl
  · unfold taken
    rw [hmine, hagent]
  · rw [hmine, hagent]
    rfl
  · have hlinks := hbegun.linksLeft
    unfold share dues
    rw [hmine, hagent, hworld, hhand, hheld]
    simp only [List.length_cons, List.length_nil, if_true, deedsEach, Bool.false_eq_true, if_false]
    omega

/-- A consumer begins to look for a ware. -/
theorem seek {got : List Ware} (hagent : s.agent t = .consumer got false) (hopen : s.received < s.total) :
    Played t s (s.seek t got) := by
  have hidle : s.world.Idle t := by
    have hstands := h.stands t
    rwa [hagent] at hstands
  obtain ⟨o, hbegun, hst⟩ := hidle.dequeue h.reach h.linksOnly h.opened
  obtain ⟨c, hc⟩ := hbegun.engaged
  have hmine : (s.seek t got).agent t = .consumer got true := (agent_setAgent _ _ _ _).trans (if_pos rfl)
  have hworld : (s.seek t got).world = s.world.dequeue t s.queue := rfl
  have hheld : (s.seek t got).held = s.held := hbegun.values
  have hhand : (s.world.dequeue t s.queue).inHand t = [] := by
    rw [hc.inHand, hst]
    rfl
  have hbusy : s.isDone t = false ∧ (s.seek t got).isDone t = false := by
    unfold isDone
    rw [hmine, hagent]
    exact ⟨by simpa using hopen, Bool.and_false _⟩
  have hshare : (s.seek t got).share t ≤ s.share t := by
    have hlinks := hbegun.linksLeft
    unfold share dues
    rw [hmine, hagent, hbusy.1, hbusy.2, hworld, hhand, hheld, hidle.inHand]
    exact Nat.add_le_add_left hlinks _
  refine ⟨⟨⟨.dequeue s.queue, ⟨hidle.mayBegin, h.opened⟩, rfl⟩, hbegun.linksOnly, hbegun.queue ▸ hc.opened hbegun.reach,
    fun u hu => (agent_setAgent _ _ _ _).trans (if_neg hu), rfl, rfl⟩, ?_, ?_, .none hheld ?_ ?_, ⟨0, rfl, ?_⟩,
    Or.inr ⟨hshare, hheld, rfl, fun k hk => ⟨19, ?_, hbusy.2, fun _ => ?_, ?_, fun _ hun => ?_⟩⟩⟩
  · rw [hmine]
    exact ⟨o, some c, hc, hbegun.queue, hst ▸ trivial⟩
  · rw [hmine, hagent]
    rfl
  · unfold unsent
    rw [hmine, hagent]
  · unfold taken
    rw [hmine, hagent, hworld, hhand, hidle.inHand]
  · rw [hmine, hagent]
    rfl
  · -- it would not be waited for if the queue were empty
    have hne : s.held ≠ [] := by
      rcases hk.useful (by rw [hagent]; rfl) with hne | hne | hle
      · exact hne
      · exact absurd hidle.inHand hne
      · exact absurd hle (Nat.not_le.mpr hopen)
    have hle := hk.again hne hidle.emptyHanded
    omega
  · have huse := hk.useful (by rw [hagent]; rfl)
    rwa [hheld, hworld, hhand.trans hidle.inHand.symm]
  · exact hc.load_le
  · have hunfound := hc.emptyHanded_iff.mp hun
    rw [hst] at hunfound
    cases hunfound

/-- A step of an operation on the queue. -/
theorem moved {o : Operation Ware} {c} (hc : s.world.Engaged t o c) (hq : o.queue = s.queue)
    (hworld : s'.world = (s.world.step t).1) (hagents : ∀ u, u ≠ t → s'.agent u = s.agent u)
    (hqueue : s'.queue = s.queue) (htotal : s'.total = s.total) : Moved t s s' where
  world := ⟨.step, hc.not_rests, hworld⟩
  linksOnly := hworld ▸ h.linksOnly.step h.reach hc.not_rests
  opened := by
    rw [hworld, ← hq]
    exact hc.stays_open h.reach (m := .step) hc.not_rests
  agents := hagents
  queue := hqueue
  total := htotal

section

variable {o : Operation Ware} {c : Option (Reclaim.Call Fifo.Garbage (Option (Operation Ware)))} {w' : World Ware}
  (hc : s.world.Engaged t o c) (hq : o.queue = s.queue) (hworld : w' = (s.world.step t).1)
  (heased : World.Eased t s.world w')

include hc hq hworld heased

/-- The operation of an agent goes on. -/
theorem goesOn {o' : Operation Ware} {c' : Option (Reclaim.Call Fifo.Garbage (Option (Operation Ware)))}
    (hwaits : (s.agent t).waits = true) (hst : (s.agent t).Does o.point.stage) (hc' : w'.Engaged t o' c')
    (hq' : o'.queue = o.queue) (hturns : (o.standing s.world.store).Turns (o'.standing w'.store)) :
    Played t s { s with world := w' } := by
  have hm : Moved t s { s with world := w' } := h.moved hc hq hworld (fun _ _ => rfl) rfl rfl
  have hsame : { s with world := w' }.agent t = s.agent t := rfl
  have hdone : { s with world := w' }.isDone t = s.isDone t := isDone_of_same rfl rfl rfl
  have hhand : s.world.inHand t = (o.standing s.world.store).hand.toList := hc.inHand
  have hhand' : w'.inHand t = (o'.standing w'.store).hand.toList := hc'.inHand
  have hheld : s.held = (o.standing s.world.store).held := congrArg _ hq.symm
  have hheld' : { s with world := w' }.held = (o'.standing w'.store).held := congrArg _ (hq'.trans hq).symm
  have hlinks := heased.linksLeft_le
  obtain ⟨hst', hflow⟩ := hst.turns hturns
  have hstands : ({ s with world := w' }.agent t).Stands w' t s.queue := by
    unfold Agent.Stands
    rw [hsame, hwaits]
    exact ⟨o', c', hc', hq'.trans hq, hst'⟩
  rcases hflow with ⟨hkeeps, hholds, hfinds⟩ | ⟨hsends, v, hhas, hgave, hgot⟩ | ⟨hgets, v, hhas, hgave, hgot⟩
  · rw [hkeeps, ← hhand] at hhand'
    rw [hholds, ← hheld] at hheld'
    refine hm.played_of_same hsame rfl hstands hheld' hhand' (isDone_of_waits hwaits) heased fun hne hun => ?_
    exact hc.emptyHanded_iff.mpr (hfinds (hheld ▸ hne) (hc'.emptyHanded_iff.mp hun))
  · rw [hgave] at hhand'
    rw [hgot, ← hheld] at hheld'
    rw [hhas] at hhand
    cases hagent : s.agent t with
    | consumer => rw [hagent] at hsends; cases hsends
    | producer todo waiting =>
      rw [hagent] at hwaits
      obtain rfl : waiting = true := hwaits
      refine ⟨hm, hstands, rfl, .linked v hheld' ?_ ?_, ⟨0, rfl, rfl⟩, Or.inl ?_⟩
      · unfold unsent
        rw [hsame, hagent, hhand, hhand']
        rfl
      · unfold taken
        rw [hsame, hagent]
      · unfold share dues
        rw [hsame, hagent, hhand, hhand', hheld', List.length_append]
        simp only [Option.toList_some, Option.toList_none, List.length_cons, List.length_nil, if_true]
        omega
  · rw [hgot] at hhand'
    rw [hgave, ← hheld'] at hheld
    rw [hhas] at hhand
    cases hagent : s.agent t with
    | producer => rw [hagent] at hgets; cases hgets
    | consumer got waiting =>
      refine ⟨hm, hstands, rfl, .swung v hheld ?_ ?_, ⟨0, rfl, rfl⟩, Or.inl ?_⟩
      · unfold unsent
        rw [hsame, hagent]
      · unfold taken
        rw [hsame, hagent, hhand, hhand']
        simp only [Option.toList_some, Option.toList_none, List.append_nil]
      · unfold share dues
        rw [hsame, hagent, hdone, hhand, hhand', hheld]
        simp only [Option.toList_some, Option.toList_none, List.length_cons, List.length_nil]
        omega

variable (hidle : w'.Idle t) (hvals : w'.store.values s.queue = s.world.store.values s.queue)

include hidle hvals

/-- An enqueue returns. -/
theorem sent {todo : List Ware} (hagent : s.agent t = .producer todo true) (hp : o.point = .leave .enqueued) :
    Played t s ({ s with world := w' }.setAgent t (.producer todo false)) := by
  have hmine : ({ s with world := w' }.setAgent t (.producer todo false)).agent t = .producer todo false :=
    (agent_setAgent _ _ _ _).trans (if_pos rfl)
  have hheld' : ({ s with world := w' }.setAgent t (.producer todo false)).held = s.held := hvals
  have hnone : s.world.inHand t = [] := by
    rw [hc.inHand, hp]
    rfl
  have hlinks := heased.linksLeft_le
  refine ⟨h.moved hc hq hworld (fun u hu => (agent_setAgent _ _ _ _).trans (if_neg hu)) rfl rfl, ?_, ?_,
    .none hheld' ?_ ?_, ⟨0, rfl, ?_⟩, Or.inl ?_⟩
  · rw [hmine]
    exact hidle
  · rw [hmine, hagent]
    rfl
  · unfold unsent
    rw [hmine, hagent, hnone]
    simp only [setAgent, hidle.inHand]
  · unfold taken
    rw [hmine, hagent]
  · rw [hmine, hagent]
    rfl
  · unfold share dues
    rw [hmine, hagent, hnone, hheld']
    simp only [setAgent, List.length_nil, if_true, Bool.false_eq_true, if_false]
    omega

/-- A dequeue returns with a ware. -/
theorem gotWare {got : List Ware} {v : Ware} (hagent : s.agent t = .consumer got true)
    (hp : o.point = .leave (.dequeued (some v))) :
    Played t s ({ s with world := w', received := s.received + 1 }.setAgent t (.consumer (v :: got) false)) := by
  have hmine : ({ s with world := w', received := s.received + 1 }.setAgent t (.consumer (v :: got) false)).agent t =
    .consumer (v :: got) false := (agent_setAgent _ _ _ _).trans (if_pos rfl)
  have hheld' : ({ s with world := w', received := s.received + 1 }.setAgent t (.consumer (v :: got) false)).held =
    s.held := hvals
  have hone : s.world.inHand t = [v] := by
    rw [hc.inHand, hp]
    rfl
  have hbusy : s.isDone t = false := isDone_of_waits (by rw [hagent]; rfl)
  have hlinks := heased.linksLeft_le
  refine ⟨h.moved hc hq hworld (fun u hu => (agent_setAgent _ _ _ _).trans (if_neg hu)) rfl rfl, ?_, ?_,
    .none hheld' ?_ ?_, ⟨1, rfl, ?_⟩, Or.inl ?_⟩
  · rw [hmine]
    exact hidle
  · rw [hmine, hagent]
    rfl
  · unfold unsent
    rw [hmine, hagent]
  · unfold taken
    rw [hmine, hagent, hone]
    simp only [setAgent, hidle.inHand, List.reverse_cons, List.append_nil]
  · rw [hmine, hagent]
    rfl
  · unfold share dues
    rw [hmine, hagent, hbusy, hone, hheld']
    generalize isDone _ t = b
    simp only [setAgent, hidle.inHand, List.length_cons, List.length_nil, Bool.false_eq_true, if_false]
    cases b <;> simp only [Bool.false_eq_true, if_false, if_true] <;> omega

/-- A dequeue returns with nothing. -/
theorem gotNothing {got : List Ware} (hagent : s.agent t = .consumer got true)
    (hp : o.point = .leave (.dequeued none)) :
    Played t s ({ s with world := w' }.setAgent t (.consumer got false)) := by
  have hmine : ({ s with world := w' }.setAgent t (.consumer got false)).agent t = .consumer got false :=
    (agent_setAgent _ _ _ _).trans (if_pos rfl)
  have hheld' : ({ s with world := w' }.setAgent t (.consumer got false)).held = s.held := hvals
  have hnone : s.world.inHand t = [] := by
    rw [hc.inHand, hp]
    rfl
  have hbusy : s.isDone t = false := isDone_of_waits (by rw [hagent]; rfl)
  have hdone : ({ s with world := w' }.setAgent t (.consumer got false)).isDone t = decide (s.total ≤ s.received) := by
    unfold isDone
    rw [hmine]
    exact Bool.and_true _
  have hlinks := heased.linksLeft_le
  refine ⟨h.moved hc hq hworld (fun u hu => (agent_setAgent _ _ _ _).trans (if_neg hu)) rfl rfl, ?_, ?_,
    .none hheld' ?_ ?_, ⟨0, rfl, ?_⟩, ?_⟩
  · rw [hmine]
    exact hidle
  · rw [hmine, hagent]
    rfl
  · unfold unsent
    rw [hmine, hagent]
  · unfold taken
    rw [hmine, hagent, hnone]
    simp only [setAgent, hidle.inHand]
  · rw [hmine, hagent]
    rfl
  · -- it is done if all wares have come through, and otherwise it tries again
    by_cases hall : s.total ≤ s.received
    · refine Or.inl ?_
      unfold share dues
      rw [hmine, hagent, hdone, hbusy, hnone, hheld']
      simp only [setAgent, hidle.inHand, hall, decide_true, if_true, Bool.false_eq_true, if_false]
      omega
    · refine nearer_of_eased heased ?_ hheld' rfl rfl (hdone.trans (decide_eq_false hall)) ?_
        (hidle.inHand.trans hnone.symm) fun _ _ => hc.emptyHanded_iff.mpr (by rw [hp]; rfl)
      · unfold dues
        rw [hmine, hagent, hdone, hbusy, hnone, decide_eq_false hall]
        simp only [setAgent, hidle.inHand]
      · rw [hmine, hagent]
        rfl

end

/-- A turn of an agent that has an operation under way. -/
theorem turn_of_waits (hwaits : (s.agent t).waits = true) : Played t s (s.turn t) := by
  have hstands := h.stands t
  unfold Agent.Stands at hstands
  rw [hwaits] at hstands
  obtain ⟨o, c, hc, hq, hst⟩ := hstands
  have hworked := hc.worked h.reach h.linksOnly
  unfold Traffic.turn stepWorld
  generalize hstep : s.world.step t = r at hworked ⊢
  obtain ⟨w', signal⟩ := r
  have hworld : w' = (s.world.step t).1 := (congrArg Prod.fst hstep).symm
  dsimp only at hworked ⊢
  cases hworked with
  | goesOn o' c' _ hc' hq' hturns hfinished _ heased =>
    have hplayed := h.goesOn hc hq hworld heased hwaits hst hc' hq' hturns
    cases hagent : s.agent t with
    | producer todo waiting | consumer got waiting =>
      rw [hagent] at hwaits
      obtain rfl : waiting = true := hwaits
      cases signal with
      | finished r => exact absurd rfl (hfinished r)
      | _ => exact hplayed
  | finished r hp hidle hvals heased =>
    rw [hq] at hvals
    cases hagent : s.agent t with
    | producer todo waiting =>
      rw [hagent] at hwaits hst
      obtain rfl : waiting = true := hwaits
      rw [hp] at hst
      rcases r with _ | ⟨_ | v⟩ | b
      · exact h.sent hc hq hworld heased hidle hvals hagent hp
      all_goals exact hst.elim
    | consumer got waiting =>
      rw [hagent] at hwaits hst
      obtain rfl : waiting = true := hwaits
      rw [hp] at hst
      rcases r with _ | ⟨_ | v⟩ | b
      · exact hst.elim
      · exact h.gotNothing hc hq hworld heased hidle hvals hagent hp
      · exact h.gotWare hc hq hworld heased hidle hvals hagent hp
      · exact hst.elim

/-- A turn of an agent that is not done. -/
theorem turn (hbusy : s.isDone t = false) : Played t s (s.turn t) := by
  unfold isDone at hbusy
  rcases hagent : s.agent t with ⟨todo, waiting⟩ | ⟨got, waiting⟩ <;> rw [hagent] at hbusy <;> cases waiting
  · cases todo with
    | nil => cases hbusy
    | cons v todo =>
      have heq : s.turn t = s.send t v todo := by
        unfold Traffic.turn
        rw [hagent]
      exact heq ▸ h.send hagent
  · exact h.turn_of_waits (by rw [hagent]; rfl)
  · have hopen : ¬ s.total ≤ s.received := fun hle => by simp [hle] at hbusy
    have heq : s.turn t = s.seek t got := by
      unfold Traffic.turn
      rw [hagent]
      exact if_neg hopen
    exact heq ▸ h.seek hagent (Nat.lt_of_not_le hopen)
  · exact h.turn_of_waits (by rw [hagent]; rfl)

end Sound

/-- An agent that is done has nothing to send, or has seen that there is nothing more to get. -/
theorem of_isDone (hdone : s.isDone t = true) : s.agent t = .producer [] false ∨
    (∃ got, s.agent t = .consumer got false) ∧ s.total ≤ s.received := by
  unfold isDone at hdone
  cases hagent : s.agent t with
  | producer todo waiting =>
    rw [hagent, Bool.and_eq_true, List.isEmpty_iff, Bool.not_eq_true'] at hdone
    obtain ⟨rfl, rfl⟩ := hdone
    exact Or.inl rfl
  | consumer got waiting =>
    rw [hagent, Bool.and_eq_true, decide_eq_true_eq, Bool.not_eq_true'] at hdone
    obtain ⟨hle, rfl⟩ := hdone
    exact Or.inr ⟨⟨got, rfl⟩, hle⟩

theorem turn_of_isDone (hdone : s.isDone t = true) : s.turn t = s := by
  unfold turn
  rcases of_isDone hdone with hagent | ⟨⟨got, hagent⟩, hle⟩ <;> rw [hagent]
  exact if_pos hle

end Traffic

end EpochQueue.Contest
