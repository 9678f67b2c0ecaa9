/-
  EpochQueue.Proofs.Reclaim.Schedules — runs given as lists of moves, checked move by move.

  `play` makes the moves of a schedule in order and stops at one that is not permitted;
  `playAlone` also wants all other threads at rest. What they end in is reachable
  (`Reach.of_play`, `ReachAlone.of_playAlone`), so a run can be computed instead of argued for.
-/

import EpochQueue.Reclaim.Moves

namespace EpochQueue.Reclaim

variable {ν κ : Type}

deriving instance DecidableEq for Notice, Bag, Phase

namespace Domain

instance [DecidableEq ν] (d : Domain ν κ) (t : Nat) : (m : Move ν κ) → Decidable (d.may t m)
  | .pin _ | .flush _ | .pending => inferInstanceAs (Decidable (d.mayCall t = true))
  | .unpin g => inferInstanceAs (Decidable (d.mayCall t = true ∧ g ∈ (d.thread t).guards))
  | .retire n _ => inferInstanceAs (Decidable (d.mayCall t = true ∧ ¬ .retired n ∈ d.trace))
  | .exit => decidable_of_iff ((d.thread t).calls.isEmpty = true) List.isEmpty_iff
  | .step => decidable_of_iff (¬ (d.thread t).calls.isEmpty = true) (not_congr List.isEmpty_iff)

theorem calls_of_size_le {d : Domain ν κ} {u : Nat} (h : d.threads.cells.size ≤ u) : (d.thread u).calls = [] := by
  simp [thread, Table.get, Array.getElem?_eq_none h, default]

instance (d : Domain ν κ) (t : Nat) : Decidable (d.othersRest t) :=
  decidable_of_iff (∀ u, u < d.threads.cells.size → u ≠ t → (d.thread u).calls.isEmpty = true) <| by
    constructor
    · intro h u hu
      by_cases hlt : u < d.threads.cells.size
      · exact List.isEmpty_iff.mp (h u hlt hu)
      · exact calls_of_size_le (Nat.le_of_not_lt hlt)
    · intro h u _ hu
      exact List.isEmpty_iff.mpr (h u hu)

section

variable [DecidableEq ν]

def play (d : Domain ν κ) : List (Nat × Move ν κ) → Option (Domain ν κ)
  | [] => some d
  | (t, m) :: ms => if d.may t m then (d.move t m).play ms else none

def playAlone (d : Domain ν κ) : List (Nat × Move ν κ) → Option (Domain ν κ)
  | [] => some d
  | (t, m) :: ms => if d.othersRest t ∧ d.may t m then (d.move t m).playAlone ms else none

theorem Reach.of_play {ms : List (Nat × Move ν κ)} :
    ∀ {d d' : Domain ν κ}, d.Reach → d.play ms = some d' → d'.Reach := by
  induction ms with
  | nil => intro d d' h e; cases e; exact h
  | cons tm ms ih =>
    intro d d' h e
    rw [play] at e
    split at e
    · exact ih (h.move tm.1 tm.2 ‹_›) e
    · cases e

theorem ReachAlone.of_playAlone {ms : List (Nat × Move ν κ)} :
    ∀ {d d' : Domain ν κ}, d.ReachAlone → d.playAlone ms = some d' → d'.ReachAlone := by
  induction ms with
  | nil => intro d d' h e; cases e; exact h
  | cons tm ms ih =>
    intro d d' h e
    rw [playAlone] at e
    split at e
    · rename_i hm
      exact ih (h.move tm.1 tm.2 hm.1 hm.2) e
    · cases e

end

end Domain

end EpochQueue.Reclaim
