/-
  EpochQueue.Proofs.Fifo.Schedules — runs of the world given as lists of moves.

  As for the domain: what the callers promise can be checked, so `World.play`, `Annals.play` and
  `World.playAlone` make the moves of a schedule one by one and stop at the first that is not
  allowed, and what they end in is reachable.
-/

import EpochQueue.Proofs.Fifo.History
import EpochQueue.Proofs.Reclaim.Schedules

namespace EpochQueue.Fifo

deriving instance DecidableEq for Outcome, Request, Deed

variable {α : Type}

namespace World

theorem operations_of_size_le {w : World α} {t : Nat} (ha : w.active.cells.size ≤ t)
    (hd : w.domain.threads.cells.size ≤ t) : w.operations t = [] := by
  have hop : w.operation t = none := by simp [operation, Table.get, Array.getElem?_eq_none ha, default]
  rw [operations, hop, Reclaim.Domain.calls_of_size_le hd]
  rfl

instance (w : World α) (q : Nat) : Decidable (w.isQuiet q) :=
  decidable_of_iff (∀ t, t < max w.active.cells.size w.domain.threads.cells.size →
      ∀ o ∈ w.operations t, o.queue ≠ q) <| by
    constructor
    · intro h t
      by_cases hlt : t < max w.active.cells.size w.domain.threads.cells.size
      · exact h t hlt
      · rw [operations_of_size_le (by omega) (by omega)]
        nofun
    · intro h t _
      exact h t

instance (w : World α) (t : Nat) : Decidable (w.rests t) :=
  decidable_of_iff ((w.operation t).isNone = true ∧ (w.domain.thread t).calls.isEmpty = true) <| by
    rw [Option.isNone_iff_eq_none, List.isEmpty_iff]
    rfl

instance (w : World α) (t : Nat) : (m : Move α) → Decidable (w.may t m)
  | .pin | .flush | .pending | .newQueue _ => inferInstanceAs (Decidable (w.mayBegin t = true))
  | .unpin g => inferInstanceAs (Decidable (w.mayBegin t = true ∧ g ∈ (w.domain.thread t).guards ∧
      ∀ o ∈ w.operations t, o.guard ≠ some g))
  | .retire i => inferInstanceAs (Decidable (w.mayBegin t = true ∧ ¬ .retired (.object i) ∈ w.domain.trace))
  | .exit => inferInstanceAs (Decidable (w.rests t))
  | .tryEnqueue q _ _ | .dequeue q | .isEmpty q =>
    inferInstanceAs (Decidable (w.mayBegin t = true ∧ w.store.isOpen q = true))
  | .pop q | .tearDown q =>
    inferInstanceAs (Decidable (w.mayBegin t = true ∧ w.store.isOpen q = true ∧ w.isQuiet q))
  | .step => inferInstanceAs (Decidable (¬ w.rests t))

instance (w : World α) (t : Nat) : (m : Move α) → Decidable (w.inTurn t m)
  | .step => decidable_of_iff (w.domain.othersRest t ∨ (w.nextAccess? t).isSome = true) <| by simp [inTurn]
  | .pin | .unpin _ | .retire _ | .flush | .pending | .exit | .newQueue _ | .tryEnqueue _ _ _ | .dequeue _ |
    .isEmpty _ | .pop _ | .tearDown _ => decidable_of_iff (w.domain.othersRest t) <| by simp [inTurn]

def play (w : World α) : List (Nat × Move α) → Option (World α)
  | [] => some w
  | (t, m) :: ms => if w.may t m then (w.move t m).play ms else none

def playAlone (w : World α) : List (Nat × Move α) → Option (World α)
  | [] => some w
  | (t, m) :: ms => if w.inTurn t m ∧ w.may t m then (w.move t m).playAlone ms else none

theorem Reach.of_play {ms : List (Nat × Move α)} : ∀ {w w' : World α}, w.Reach → w.play ms = some w' → w'.Reach := by
  induction ms with
  | nil => intro w w' h e; cases e; exact h
  | cons tm ms ih =>
    intro w w' h e
    rw [play] at e
    split at e
    · exact ih (h.move tm.1 tm.2 ‹_›) e
    · cases e

theorem ReachAlone.of_playAlone {ms : List (Nat × Move α)} :
    ∀ {w w' : World α}, w.ReachAlone → w.playAlone ms = some w' → w'.ReachAlone := by
  induction ms with
  | nil => intro w w' h e; cases e; exact h
  | cons tm ms ih =>
    intro w w' h e
    rw [playAlone] at e
    split at e
    · rename_i hm
      exact ih (h.move tm.1 tm.2 hm.1 hm.2) e
    · cases e

end World

namespace Annals

def play (a : Annals α) : List (Nat × Move α) → Option (Annals α)
  | [] => some a
  | (t, m) :: ms => if a.world.may t m then (a.move t m).play ms else none

theorem Reach.of_play {ms : List (Nat × Move α)} : ∀ {a a' : Annals α}, a.Reach → a.play ms = some a' → a'.Reach := by
  induction ms with
  | nil => intro a a' h e; cases e; exact h
  | cons tm ms ih =>
    intro a a' h e
    rw [play] at e
    split at e
    · exact ih (h.move tm.1 tm.2 ‹_›) e
    · cases e

end Annals

end EpochQueue.Fifo
