/-
  EpochQueue.Proofs.Reclaim.Clock — the global epoch as a clock.

  The global epoch starts at 1 and goes on by one with every advance, as long as these are too few
  for the word to overflow; so the trace says at each place what time it was (`epochAt`,
  `Reach.toNat_epochAt`). Only a collection can move it, at the one step at which it tries to,
  and no call comes back to that step (`Owned.paced`). A bag is stamped with a time at which all its
  nodes had been retired (`Reach.dated`).
-/

import Mathlib.Data.List.Induction
import EpochQueue.Proofs.Reclaim.Books
import EpochQueue.Proofs.Reclaim.Calls

namespace EpochQueue.Reclaim

variable {ν κ : Type}

/-! ## Telling the time -/

def Notice.advanced? : Notice ν → Option Epoch
  | .advanced e => some e
  | _ => none

theorem Notice.advanced?_of_aside {y : Notice ν} (h : y.isAside = true) : y.advanced? = none := by
  cases y <;> first | rfl | cases h

/-- The epochs that notices tell of. -/
def ticks (l : List (Notice ν)) : List Epoch := l.filterMap (·.advanced?)

/-- The epoch after these notices, the first ones of a run. -/
def timeAfter (l : List (Notice ν)) : Epoch := (ticks l).getLast?.getD firstEpoch

/-- An advance tells how many there were. -/
def Notice.Ticks (before : List (Notice ν)) (y : Notice ν) : Prop :=
  ∀ e, y = .advanced e → e.toNat = 2 + (ticks before).length

theorem toNat_timeAfter {l : List (Notice ν)} (h : ∀ before y after, l = before ++ y :: after → Notice.Ticks before y) :
    (timeAfter l).toNat = 1 + (ticks l).length := by
  induction l using List.reverseRecOn with
  | nil => rfl
  | append_singleton l y ih =>
    have hl : (timeAfter l).toNat = 1 + (ticks l).length :=
      ih fun before z after e => h before z (after ++ [y]) (by rw [e, List.append_assoc]; rfl)
    have hsnoc : ticks (l ++ [y]) = ticks l ++ y.advanced?.toList := by
      rw [ticks, List.filterMap_append]
      cases y <;> rfl
    rw [timeAfter, hsnoc]
    cases hy : y.advanced? with
    | none =>
      rw [Option.toList_none, List.append_nil]
      exact hl
    | some e =>
      have hlast : y = .advanced e := by cases y <;> cases hy; rfl
      rw [Option.toList_some, List.getLast?_concat, Option.getD_some, h l y [] rfl e hlast, List.length_append,
        List.length_singleton]
      omega

namespace Domain

variable {d d' : Domain ν κ} {t : Nat} {x : Option (Notice ν)}

/-- How often the global epoch was advanced. -/
def advances (d : Domain ν κ) : Nat := (ticks d.trace.toList).length

/-- The global epoch at a place in the trace. -/
def epochAt (d : Domain ν κ) (i : Nat) : Epoch := timeAfter (d.trace.toList.take i)

theorem ticks_story (l : List (Notice ν)) : ticks (l.filter (!·.isAside)) = ticks l :=
  filterMap_of_aside (fun _ => Notice.advanced?_of_aside) l

theorem advances_eq : d.advances = (ticks d.story).length := by rw [advances, story, ticks_story]

theorem epochAt_eq (d : Domain ν κ) (i : Nat) : d.epochAt i = timeAfter (d.storyBefore i) := by
  rw [epochAt, timeAfter, timeAfter, storyBefore, ticks_story]

theorem Turn.ticks_append (h : Turn d t x d') : ticks d'.story = ticks d.story ++ (x.bind (·.advanced?)).toList := by
  rw [ticks, ticks, h.story, List.filterMap_append]
  cases x with
  | none => rfl
  | some y => cases y <;> rfl

/-- What holds of the clock while the word is large enough. -/
structure Clocked (d : Domain ν κ) : Prop where
  unwrapped : ¬ d.wrapped
  epoch : d.registry.epoch.toNat = 1 + d.advances
  tells : d.Tells Notice.Ticks

theorem clocked_empty : ({} : Domain ν κ).Clocked := ⟨by simp [wrapped], rfl, tells_empty _⟩

theorem Clocked.turn (hc : d.Clocked) (h : Turn d t x d') (hsize : d'.advances < UInt64.size - 1) : d'.Clocked := by
  have hadv : d'.advances = d.advances + (x.bind (·.advanced?)).toList.length := by
    rw [advances_eq, advances_eq, h.ticks_append, List.length_append]
  rcases h.epoch with ⟨hsame, hx⟩ | ⟨-, hnext, hx, -⟩
  · have hnone : x.bind (·.advanced?) = none := by
      cases x with
      | none => rfl
      | some y => cases y <;> first | rfl | exact absurd rfl (hx _)
    rw [hnone] at hadv
    refine ⟨?_, by rw [hsame, hc.epoch, hadv]; rfl, hc.tells.turn h fun y hy e he => absurd (he ▸ hy) (hx e)⟩
    rw [wrapped_iff, h.mem_story, not_or, ← wrapped_iff]
    exact ⟨hc.unwrapped, hx quiescent⟩
  · rw [hx] at hadv
    have hlen : d'.advances = d.advances + 1 := hadv
    have hsize' : UInt64.size = 2 ^ 64 := rfl
    have hval : d'.registry.epoch.toNat = 1 + d'.advances := by
      rw [hnext, UInt64.toNat_add, show (1 : UInt64).toNat = 1 from rfl, hc.epoch, hlen, Nat.mod_eq_of_lt (by omega)]
      omega
    refine ⟨?_, hval, hc.tells.turn h fun y hy e he => ?_⟩
    · rw [wrapped_iff, h.mem_story, not_or, ← wrapped_iff, hx]
      refine ⟨hc.unwrapped, fun h0 => ?_⟩
      rw [Notice.advanced.inj (Option.some.inj h0)] at hval
      exact absurd hval (by rw [show quiescent.toNat = 0 from rfl]; omega)
    · rw [hx, he] at hy
      rw [← Notice.advanced.inj (Option.some.inj hy), hval, hlen, advances_eq]
      omega

theorem Turn.advances_le (h : Turn d t x d') : d.advances ≤ d'.advances := by
  rw [advances_eq, advances_eq, h.ticks_append, List.length_append]
  exact Nat.le_add_right _ _

theorem Reach.clocked (h : d.Reach) (hsize : d.advances < UInt64.size - 1) : d.Clocked := by
  induction h with
  | start => exact clocked_empty
  | move t m hr hm ih =>
    obtain ⟨x, ht⟩ := hr.owned.turn hm
    exact (ih (Nat.lt_of_le_of_lt ht.advances_le hsize)).turn ht hsize

/-- The time at any place in the trace is one more than the advances before it. -/
theorem Clocked.toNat_epochAt (hc : d.Clocked) (i : Nat) :
    (d.epochAt i).toNat = 1 + (ticks (d.trace.toList.take i)).length := by
  rw [epochAt_eq, ← ticks_story]
  refine toNat_timeAfter fun before y after e => hc.tells before y
    (after ++ (d.trace.toList.drop i).filter (!·.isAside)) ?_
  rw [← List.cons_append, ← List.append_assoc, ← e, storyBefore, story, ← List.filter_append, List.take_append_drop]

/-- Time does not go back, and it is now what the global epoch says. -/
theorem Clocked.epochAt_mono (hc : d.Clocked) {i j : Nat} (hij : i ≤ j) : d.epochAt i ≤ d.epochAt j := by
  rw [UInt64.le_iff_toNat_le, hc.toNat_epochAt, hc.toNat_epochAt]
  exact Nat.add_le_add_left ((List.take_sublist_take_left hij).filterMap _).length_le 1

theorem Clocked.epochAt_size (hc : d.Clocked) : d.epochAt d.trace.size = d.registry.epoch := by
  refine UInt64.toNat_inj.mp ?_
  rw [hc.toNat_epochAt, hc.epoch, advances, ← Array.length_toList, List.take_length]

/-! ## Who moves it -/

end Domain

/-- How far a call has come: it publishes, tries to advance, selects, and destroys. -/
def Phase.stage : Phase ν → Nat
  | .publish _ _ _ => 0
  | .advance _ => 1
  | .select _ _ => 2
  | .free _ _ _ => 3

theorem Phase.stage_add_left (q : Phase ν) : q.stage + q.left = 4 := by cases q <;> rfl

/-- A call goes on to a later stage, until it destroys what it has to. -/
def Phase.GoesOn (p q : Phase ν) : Prop := p.stage < q.stage ∨ p.stage = 3 ∧ q.stage = 3

namespace Domain

variable {d d' : Domain ν κ} {t : Nat} {x : Option (Notice ν)}

/-- A step lets the innermost call go on, or return, a pin with a guard. -/
inductive Goes (d : Domain ν κ) (t : Nat) (c : Call ν κ) (rest : List (Call ν κ)) (d' : Domain ν κ) : Prop
  | on (q : Phase ν) (calls : (d'.thread t).calls = { c with phase := q } :: rest) (stage : c.phase.GoesOn q)
      (pin : q.pin? = c.phase.pin?) (seats : (d'.thread t).seats = (d.thread t).seats)
  | back (calls : (d'.thread t).calls = rest) (stage : c.phase.stage = 3)
      (seats : (d'.thread t).seats = c.phase.pin?.toList ++ (d.thread t).seats)

theorem goes_step {c : Call ν κ} {rest : List (Call ν κ)} (hc : (d.thread t).calls = c :: rest) :
    Goes d t c rest (d.step t).1 := by
  have hw := step_wanes hc
  have hstage := c.phase.stage_add_left
  generalize (d.step t).1 = d', (d.step t).2 = signal at hw ⊢
  cases hw with
  | on q hcalls hleft _ hpin hg =>
    have hstage' := q.stage_add_left
    exact .on q hcalls (Or.inl (by omega)) hpin (by rw [Thread.seats, hg]; rfl)
  | freed p n todo freed hp hcalls hg =>
    exact .on _ hcalls (Or.inr ⟨by rw [hp]; rfl, rfl⟩) (by rw [hp]; rfl) (by rw [Thread.seats, hg]; rfl)
  | pinned g hp hleft _ hcalls hg => exact .back hcalls (by omega) (by rw [hp, Thread.seats, hg]; rfl)
  | returned a _ hp hleft _ hcalls hg => exact .back hcalls (by omega) (by rw [hp, Thread.seats, hg]; rfl)

/-- The epoch stays, or the innermost call of `t` has tried to advance it and brought it one on. -/
def Paced (d : Domain ν κ) (t : Nat) (d' : Domain ν κ) : Prop :=
  d'.registry.epoch = d.registry.epoch ∨ ∃ k rest p, (d.thread t).calls = ⟨k, .advance p⟩ :: rest ∧
    (d'.thread t).calls = ⟨k, .select p d'.registry.epoch⟩ :: rest ∧ d'.registry.epoch = d.registry.epoch + 1

theorem Owned.paced (ho : d.Owned) {m : Move ν κ} (hm : d.may t m) : Paced d t (d.move t m) := by
  have hstay : ∀ {x d'}, Turn d t x d' → (∀ e, x ≠ some (.advanced e)) → Paced d t d' := fun h hx =>
    Or.inl (h.epoch.elim And.left fun hadv => absurd hadv.2.2.1 (hx _))
  cases m with
  | pin k => exact hstay (ho.turn_pin hm k) nofun
  | unpin g => exact hstay (ho.turn_unpin hm.1 hm.2) nofun
  | retire n k => exact hstay (turn_retire hm.2 k) nofun
  | flush k => exact hstay (turn_flush k) nofun
  | pending => exact hstay (turn_pending hm) nofun
  | exit => exact hstay (ho.turn_exit hm) nofun
  | step =>
    obtain ⟨c, rest, hc⟩ := List.exists_cons_of_ne_nil (show (d.thread t).calls ≠ [] from hm)
    show Paced d t (d.step t).1
    rw [step_eq hc]
    rcases hp : c.phase with ⟨tid, e, b⟩ | p | ⟨p, g⟩ | ⟨p, todo, freed⟩
    · exact hstay (ho.turn_publish hc hp) nofun
    · have ht := thread_advance hc p t
      rw [if_pos rfl] at ht
      have hr : (d.advance t p).registry.epoch = d.registry.advanced := by rw [(advance_frame d t p).1]
      refine ((turn_advance hc hp).epoch.imp And.left fun hadv => ⟨c.ticket, rest, p, ?_, ?_, hadv.2.1⟩)
      · rw [hc, ← hp]
      · rw [ht, hr]
    · exact hstay (turn_select hc hp) nofun
    · cases todo with
      | cons n todo => exact hstay (turn_free hc hp) nofun
      | nil =>
        cases p with
        | pin tid b => exact hstay (ho.turn_answer_pin hc hp _) nofun
        | retire => exact hstay (ho.turn_answer hc rfl hp _) nofun
        | flush => exact hstay (ho.turn_answer hc rfl hp _) nofun

/-! ## Stamps -/

/-- The bag's stamp is no earlier than the time at which any of its nodes was retired. -/
def Dated (d : Domain ν κ) (b : Bag ν) : Prop :=
  ∀ n ∈ b.nodes, d.Tells fun before y => y = .retired n → 1 + (ticks before).length ≤ b.epoch.toNat

theorem Dated.turn (hd : ∀ b, d.Stored b → Dated d b) (hc : d.Clocked) (hac : d.Accounted) (h : Turn d t x d')
    {b : Bag ν} (hb : d'.Stored b) : Dated d' b := by
  intro n hn
  rcases h.stored hb with hold | ⟨hstamp, -⟩
  · refine (hd b hold n hn).turn h fun y hx hy => ?_
    exact absurd (hac.bag b hold n hn) (h.retires n (by rw [hx, hy]))
  · have hnow : ∀ before, before <+: d.story → 1 + (ticks before).length ≤ b.epoch.toNat := fun before hpre => by
      rw [hstamp, hc.epoch, advances_eq]
      exact Nat.add_le_add_left (hpre.sublist.filterMap _).length_le 1
    have hbefore : d.Tells fun before y => y = .retired n → 1 + (ticks before).length ≤ b.epoch.toNat :=
      fun before y after e _ => hnow before ⟨_, e.symm⟩
    exact hbefore.turn h fun _ _ _ => hnow d.story (List.prefix_refl _)

theorem Reach.dated (h : d.Reach) (hsize : d.advances < UInt64.size - 1) : ∀ b, d.Stored b → Dated d b := by
  induction h with
  | start => exact fun b hb => absurd hb (not_stored_empty b)
  | move t m hr hm ih =>
    obtain ⟨x, ht⟩ := hr.owned.turn hm
    have hsize' := Nat.lt_of_le_of_lt ht.advances_le hsize
    exact fun b hb => Dated.turn (ih hsize') (hr.clocked hsize') hr.accounted ht hb

theorem Dated.le_stamp {b : Bag ν} (hd : Dated d b) (hc : d.Clocked) {n : ν} (hn : n ∈ b.nodes) {i : Nat}
    (hi : d.trace[i]? = some (.retired n)) : d.epochAt i ≤ b.epoch := by
  have h := (hd n hn).at hi rfl rfl
  rw [UInt64.le_iff_toNat_le, hc.toNat_epochAt, ← ticks_story]
  exact h

end Domain

end EpochQueue.Reclaim
