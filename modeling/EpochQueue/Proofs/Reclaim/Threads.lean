/-
  EpochQueue.Proofs.Reclaim.Threads — what a thread holds, and what each part of a domain's
  moves leaves alone.

  A thread holds slots through its guards and through the pins it has under way. `holds` lists
  both, each with whether it is detached; `shields` leaves out a pin that has not published its
  epoch yet. `lease` is what the handle says about its slot: none once the handle is gone, and
  an unused handle is as good as a fresh one.

  The parts of a move (`note`, `setHandle`, `openCall`, ...) touch one component each; the
  lemmas here say so once, and everything later reads them through `simp`.
-/

import EpochQueue.Reclaim.Moves

namespace EpochQueue.Reclaim

variable {ν κ : Type}

/-! ## Views of a thread -/

/-- The slot that the answer will be about, and whether it is a detached one. -/
def Purpose.pin? : Purpose → Option (Nat × Bool)
  | .pin tid detached => some (tid, detached)
  | .retire | .flush => none

namespace Phase

def pin? : Phase ν → Option (Nat × Bool)
  | .publish tid _ detached => some (tid, detached)
  | .advance p | .select p _ | .free p _ _ => p.pin?

/-- As `pin?`, from the publication on. -/
def shield? : Phase ν → Option (Nat × Bool)
  | .publish _ _ _ => none
  | .advance p | .select p _ | .free p _ _ => p.pin?

theorem pin?_of_shield? {p : Phase ν} {s : Nat × Bool} (h : p.shield? = some s) : p.pin? = some s := by
  cases p <;> first | exact h | cases h

/-- What a call has taken out and not destroyed yet. -/
def todo : Phase ν → List ν
  | .free _ todo _ => todo
  | _ => []

/-- The call is destroying nodes, and has destroyed one. -/
def isFreeing : Phase ν → Bool
  | .free _ _ freed => 0 < freed
  | _ => false

end Phase

def Tenure.handle? : Tenure ν → Option (Handle ν)
  | .unused => some {}
  | .live h => some h
  | .gone => none

namespace Handle

@[simp] theorem slot_retire (h : Handle ν) (n : ν) : (h.retire n).slot = h.slot := rfl
@[simp] theorem pinCount_retire (h : Handle ν) (n : ν) : (h.retire n).pinCount = h.pinCount := rfl

@[simp] theorem slot_sealBatch (h : Handle ν) (e : Epoch) : (h.sealBatch e).slot = h.slot := by
  unfold sealBatch; split <;> rfl
@[simp] theorem pinCount_sealBatch (h : Handle ν) (e : Epoch) : (h.sealBatch e).pinCount = h.pinCount := by
  unfold sealBatch; split <;> rfl

end Handle

namespace Thread

def pins (th : Thread ν κ) : List (Nat × Bool) := th.calls.filterMap (·.phase.pin?)

def seats (th : Thread ν κ) : List (Nat × Bool) := th.guards.map fun g => (g.tid, g.detached)

def holds (th : Thread ν κ) : List (Nat × Bool) := th.pins ++ th.seats

def shields (th : Thread ν κ) : List (Nat × Bool) :=
  th.calls.filterMap (·.phase.shield?) ++ th.seats

/-- Slot and guard count of the handle. -/
def lease (th : Thread ν κ) : Option (Option Nat × Nat) :=
  th.tenure.handle?.map fun h => (h.slot, h.pinCount)

def batch (th : Thread ν κ) : List ν := (th.tenure.handle?.map (·.batch)).getD []

def bags (th : Thread ν κ) : List (Bag ν) := (th.tenure.handle?.map (·.bags)).getD []

/-- What the open calls of the thread are about to destroy. -/
def todo (th : Thread ν κ) : List ν := th.calls.flatMap (·.phase.todo)

end Thread

namespace Domain

theorem handle?_eq (d : Domain ν κ) (t : Nat) : d.handle? t = (d.thread t).tenure.handle? := by
  unfold handle? Tenure.handle?
  cases (d.thread t).tenure <;> rfl

theorem mayCall_eq (d : Domain ν κ) (t : Nat) :
    d.mayCall t = ((d.thread t).calls.head?.map (·.phase.isFreeing)).getD true := by
  unfold mayCall
  cases (d.thread t).calls with
  | nil => rfl
  | cons c rest => cases c.phase <;> rfl

/-! ## Frames -/

theorem thread_modifyThread (d : Domain ν κ) (t u : Nat) (f : Thread ν κ → Thread ν κ) :
    (d.modifyThread t f).thread u = if u = t then f (d.thread t) else d.thread u :=
  Table.get_modify _ _ _ _

section

variable (d : Domain ν κ) (t : Nat)

@[simp] theorem registry_modifyThread (f : Thread ν κ → Thread ν κ) :
    (d.modifyThread t f).registry = d.registry := rfl
@[simp] theorem orphans_modifyThread (f : Thread ν κ → Thread ν κ) :
    (d.modifyThread t f).orphans = d.orphans := rfl
@[simp] theorem nextGuard_modifyThread (f : Thread ν κ → Thread ν κ) :
    (d.modifyThread t f).nextGuard = d.nextGuard := rfl

@[simp] theorem thread_note (n : Notice ν) (u : Nat) : (d.note n).thread u = d.thread u := rfl
@[simp] theorem registry_note (n : Notice ν) : (d.note n).registry = d.registry := rfl
@[simp] theorem orphans_note (n : Notice ν) : (d.note n).orphans = d.orphans := rfl
@[simp] theorem nextGuard_note (n : Notice ν) : (d.note n).nextGuard = d.nextGuard := rfl
@[simp] theorem trace_note (n : Notice ν) : (d.note n).trace = d.trace.push n := rfl
@[simp] theorem handle?_note (n : Notice ν) (u : Nat) : (d.note n).handle? u = d.handle? u := rfl

@[simp] theorem thread_registry (r : Registry) (u : Nat) :
    ({ d with registry := r } : Domain ν κ).thread u = d.thread u := rfl
@[simp] theorem thread_nextGuard (n u : Nat) :
    ({ d with nextGuard := n } : Domain ν κ).thread u = d.thread u := rfl

theorem thread_setHandle (h : Handle ν) (u : Nat) : (d.setHandle t h).thread u =
    if u = t then { d.thread t with tenure := .live h } else d.thread u :=
  thread_modifyThread _ _ _ _
@[simp] theorem registry_setHandle (h : Handle ν) : (d.setHandle t h).registry = d.registry := rfl
@[simp] theorem orphans_setHandle (h : Handle ν) : (d.setHandle t h).orphans = d.orphans := rfl
@[simp] theorem nextGuard_setHandle (h : Handle ν) : (d.setHandle t h).nextGuard = d.nextGuard := rfl

theorem thread_openCall (k : κ) (p : Phase ν) (u : Nat) : (d.openCall t k p).thread u =
    if u = t then { d.thread t with calls := ⟨k, p⟩ :: (d.thread t).calls } else d.thread u :=
  thread_modifyThread _ _ _ _
@[simp] theorem registry_openCall (k : κ) (p : Phase ν) : (d.openCall t k p).registry = d.registry := rfl
@[simp] theorem orphans_openCall (k : κ) (p : Phase ν) : (d.openCall t k p).orphans = d.orphans := rfl
@[simp] theorem nextGuard_openCall (k : κ) (p : Phase ν) :
    (d.openCall t k p).nextGuard = d.nextGuard := rfl

theorem thread_setPhase {c : Call ν κ} {rest : List (Call ν κ)} (hc : (d.thread t).calls = c :: rest)
    (p : Phase ν) (u : Nat) : (d.setPhase t p).thread u =
    if u = t then { d.thread t with calls := { c with phase := p } :: rest } else d.thread u := by
  refine (thread_modifyThread _ _ _ _).trans ?_
  simp only [hc]
@[simp] theorem registry_setPhase (p : Phase ν) : (d.setPhase t p).registry = d.registry := rfl
@[simp] theorem orphans_setPhase (p : Phase ν) : (d.setPhase t p).orphans = d.orphans := rfl
@[simp] theorem nextGuard_setPhase (p : Phase ν) : (d.setPhase t p).nextGuard = d.nextGuard := rfl

theorem thread_closeCall (u : Nat) : (d.closeCall t).thread u =
    if u = t then { d.thread t with calls := (d.thread t).calls.tail } else d.thread u :=
  thread_modifyThread _ _ _ _
@[simp] theorem registry_closeCall : (d.closeCall t).registry = d.registry := rfl
@[simp] theorem orphans_closeCall : (d.closeCall t).orphans = d.orphans := rfl
@[simp] theorem nextGuard_closeCall : (d.closeCall t).nextGuard = d.nextGuard := rfl

@[simp] theorem thread_orphan (bs : List (Bag ν)) (u : Nat) : (d.orphan bs).thread u = d.thread u := by
  unfold orphan; split <;> rfl
@[simp] theorem registry_orphan (bs : List (Bag ν)) : (d.orphan bs).registry = d.registry := by
  unfold orphan; split <;> rfl
@[simp] theorem nextGuard_orphan (bs : List (Bag ν)) : (d.orphan bs).nextGuard = d.nextGuard := by
  unfold orphan; split <;> rfl
@[simp] theorem orphans_orphan (bs : List (Bag ν)) : (d.orphan bs).orphans = d.orphans ++ bs := by
  unfold orphan
  split
  · simp_all
  · rfl

@[simp] theorem adopt_fst : d.adopt.1 = d.orphans := by
  unfold adopt; split <;> simp_all
@[simp] theorem thread_adopt (u : Nat) : d.adopt.2.thread u = d.thread u := by
  unfold adopt; split <;> rfl
@[simp] theorem registry_adopt : d.adopt.2.registry = d.registry := by
  unfold adopt; split <;> rfl
@[simp] theorem nextGuard_adopt : d.adopt.2.nextGuard = d.nextGuard := by
  unfold adopt; split <;> rfl
@[simp] theorem orphans_adopt : d.adopt.2.orphans = [] := by
  unfold adopt; split <;> simp_all

end

end Domain

end EpochQueue.Reclaim
