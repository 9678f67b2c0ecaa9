/-
  EpochQueue.Proofs.Reclaim.Ways — where a thread gets to by itself.

  `Follows t d e` says that moves of `t` lead from `d` to `e` and that `t` does not exit on the
  way. A thread that has a handle keeps it on such a way and leaves nothing to the orphans
  (`Follows.lodged`).
-/

import EpochQueue.Proofs.Reclaim.Calls
import EpochQueue.Proofs.Reclaim.Turns

namespace EpochQueue.Reclaim.Domain

variable {ν κ : Type} {d : Domain ν κ} {t : Nat}

/-- Moves of `t` lead from `d` to here, and it does not exit. -/
inductive Follows (t : Nat) (d : Domain ν κ) : Domain ν κ → Prop
  | refl : Follows t d d
  | move {e : Domain ν κ} (m : Move ν κ) : Follows t d e → e.may t m → m ≠ .exit → Follows t d (e.move t m)

/-- `t` has a handle, or will get one when it needs it, and nobody has left anything behind. -/
def Lodged (d : Domain ν κ) (t : Nat) : Prop := (d.handle? t).isSome = true ∧ d.orphans = []

theorem handle?_isSome (d : Domain ν κ) (t : Nat) : (d.handle? t).isSome = (d.thread t).tenure.handle?.isSome := by
  rw [handle?_eq]

/-- A thread that has a handle keeps it, unless it exits. -/
theorem handle?_move {h : Handle ν} (hh : d.handle? t = some h) {m : Move ν κ} (hm : m ≠ .exit) :
    ((d.move t m).handle? t).isSome = true := by
  rw [handle?_isSome]
  cases m with
  | pin k =>
    cases hs : h.slot with
    | some tid => simp only [move, thread_pin_of_slot hh hs, if_true]; rfl
    | none => simp only [move, thread_pin_of_no_slot hh hs, if_true]; rfl
  | unpin g =>
    cases hd : g.detached with
    | true =>
      simp only [move, thread_unpin_of_detached hd, if_true]
      rw [handle?_eq] at hh
      exact Option.isSome_iff_exists.mpr ⟨h, hh⟩
    | false => simp only [move, thread_unpin_of_live hd hh, if_true]; rfl
  | retire n k => simp only [move, thread_retire_of_handle n hh, if_true]; rfl
  | flush k => simp only [move, thread_flush_of_handle hh, if_true]; rfl
  | pending => simp only [move, thread_pending_of_handle hh, if_true]; rfl
  | exit => exact absurd rfl hm
  | step =>
    have hold : (d.thread t).tenure.handle?.isSome = true := by rw [← handle?_isSome, hh]; rfl
    dsimp only [move]
    cases hc : (d.thread t).calls with
    | nil => rw [step_nil hc]; exact hold
    | cons c rest =>
      rw [step_eq hc]
      rcases hp : c.phase with ⟨tid, e, b⟩ | p | ⟨p, g⟩ | ⟨p, - | ⟨n, todo⟩, freed⟩
      · cases b with
        | true => simp only [thread_publish_of_detached hc, if_true, hold]
        | false => simp only [thread_publish_of_handle hc hh, if_true]; rfl
      · simp only [thread_advance hc, if_true, hold]
      · simp only [thread_select_of_handle hc hh, if_true]; rfl
      · cases p with
        | pin tid b => simp only [thread_answer_pin, if_true, hold]
        | retire => simp only [thread_answer_of_pin?_none d t c.ticket freed (p := .retire) rfl, if_true, hold]
        | flush => simp only [thread_answer_of_pin?_none d t c.ticket freed (p := .flush) rfl, if_true, hold]
      · simp only [thread_free hc, if_true, hold]

/-- As long as it has one nothing comes to the orphans. -/
theorem orphans_move {h : Handle ν} (hh : d.handle? t = some h) {m : Move ν κ} (hm : m ≠ .exit)
    (ho : d.orphans = []) : (d.move t m).orphans = [] := by
  cases m with
  | pin k => exact (pin_frame d t k).1.trans ho
  | unpin g => exact (unpin_frame d t g).1.trans ho
  | retire n k => exact (retire_frame_of_handle n hh).2.1.trans ho
  | flush k => exact (flush_frame d t k).2.1.trans ho
  | pending => exact (pending_frame d t).2.1.trans ho
  | exit => exact absurd rfl hm
  | step =>
    dsimp only [move]
    cases hc : (d.thread t).calls with
    | nil => rw [step_nil hc]; exact ho
    | cons c rest =>
      rw [step_eq hc]
      rcases c.phase with ⟨tid, e, b⟩ | p | ⟨p, g⟩ | ⟨p, - | ⟨n, todo⟩, freed⟩
      · exact (publish_frame d t tid e b).2.1.trans ho
      · exact (advance_frame d t p).2.1.trans ho
      · exact orphans_select_of_handle hh p g
      · cases p with
        | pin tid b => exact (answer_pin_frame d t c.ticket freed tid b).2.1.trans ho
        | retire => exact (answer_frame_of_pin?_none d t c.ticket freed (p := .retire) rfl).2.1.trans ho
        | flush => exact (answer_frame_of_pin?_none d t c.ticket freed (p := .flush) rfl).2.1.trans ho
      · exact ho

namespace Follows

variable {e f : Domain ν κ}

theorem one {m : Move ν κ} (h : d.may t m) (hm : m ≠ .exit) : Follows t d (d.move t m) := .move m .refl h hm

theorem trans (h : Follows t d e) (h' : Follows t e f) : Follows t d f := by
  induction h' with
  | refl => exact h
  | move m _ hmay hm ih => exact .move m ih hmay hm

theorem reach (h : Follows t d e) (hd : d.Reach) : e.Reach := by
  induction h with
  | refl => exact hd
  | move m _ hmay _ ih => exact .move t m ih hmay

theorem thread_of_ne (h : Follows t d e) {u : Nat} (hu : u ≠ t) : e.thread u = d.thread u := by
  induction h with
  | refl => rfl
  | move m _ _ _ ih => rw [thread_move_of_ne hu, ih]

theorem handle (h : Follows t d e) (hd : (d.handle? t).isSome = true) : (e.handle? t).isSome = true := by
  induction h with
  | refl => exact hd
  | move m _ _ hm ih =>
    obtain ⟨x, hx⟩ := Option.isSome_iff_exists.mp ih
    exact handle?_move hx hm

theorem lodged (h : Follows t d e) (hd : d.Lodged t) : e.Lodged t := by
  induction h with
  | refl => exact hd
  | move m _ _ hm ih =>
    obtain ⟨x, hx⟩ := Option.isSome_iff_exists.mp ih.1
    exact ⟨handle?_move hx hm, orphans_move hx hm ih.2⟩

end Follows

end EpochQueue.Reclaim.Domain
