/-
  EpochQueue.Proofs.Reclaim.Effects — every move, opened once.

  For each move: the thread that makes it afterwards, the registry, the orphans, and what the
  move adds to the story, which is the trace without the notices that nothing here is about.
  Later modules reason from these equations and never open a move again.
-/

import EpochQueue.Proofs.Reclaim.Threads

namespace EpochQueue.Reclaim

variable {ν κ : Type}

/-! ## The story -/

/-- Notices about slots and bags that change hands, and about calls that return. -/
def Notice.isAside : Notice ν → Bool
  | .registered _ | .released _ | .detached _ | .stray _ _ | .orphaned _ | .adopted _ | .returned _ => true
  | .advanced _ | .pinned _ | .unpinned _ | .retired _ | .freed _ => false

namespace Thread

theorem holds_open (th : Thread ν κ) (tenure : Tenure ν) (c : Call ν κ) :
    ({ th with tenure, calls := c :: th.calls } : Thread ν κ).holds = c.phase.pin?.toList ++ th.holds := by
  cases h : c.phase.pin? <;> simp [holds, pins, seats, h]

theorem pins_open (th : Thread ν κ) (tenure : Tenure ν) (c : Call ν κ) :
    ({ th with tenure, calls := c :: th.calls } : Thread ν κ).pins = c.phase.pin?.toList ++ th.pins := by
  cases h : c.phase.pin? <;> simp [pins, h]

theorem lease_of_handle {th : Thread ν κ} {h : Handle ν} (hh : th.tenure.handle? = some h) :
    th.lease = some (h.slot, h.pinCount) := by
  simp [lease, hh]

theorem lease_of_gone {th : Thread ν κ} (hh : th.tenure.handle? = none) : th.lease = none := by
  simp [lease, hh]

/-- The thread once it has opened a pin by its handle. -/
def pinBy (th : Thread ν κ) (h : Handle ν) (tid : Nat) (k : κ) (e : Epoch) : Thread ν κ :=
  { th with
    tenure := .live { h with slot := some tid, pinCount := h.pinCount + 1 }
    calls := ⟨k, if h.pinCount = 0 then .publish tid e false else .free (.pin tid false) [] 0⟩ :: th.calls }

/-- The thread once it has opened a pin without a handle. -/
def pinDetached (th : Thread ν κ) (tid : Nat) (k : κ) (e : Epoch) : Thread ν κ :=
  { th with calls := ⟨k, .publish tid e true⟩ :: th.calls }

/-- The thread without one of its guards. -/
def drop (th : Thread ν κ) (g : Guard) : Thread ν κ := { th with guards := th.guards.erase g }

end Thread

namespace Domain

variable {d : Domain ν κ} {t : Nat} {k : κ} {h : Handle ν}

def story (d : Domain ν κ) : List (Notice ν) := d.trace.toList.filter (!·.isAside)

theorem story_note (d : Domain ν κ) (n : Notice ν) :
    (d.note n).story = d.story ++ if n.isAside then [] else [n] := by
  unfold story
  rw [trace_note, Array.toList_push, List.filter_append]
  cases h : n.isAside <;> simp [h]

@[simp] theorem story_modifyThread (f : Thread ν κ → Thread ν κ) : (d.modifyThread t f).story = d.story := rfl
@[simp] theorem story_setHandle (h : Handle ν) : (d.setHandle t h).story = d.story := rfl
@[simp] theorem story_openCall (p : Phase ν) : (d.openCall t k p).story = d.story := rfl
@[simp] theorem story_setPhase (p : Phase ν) : (d.setPhase t p).story = d.story := rfl
@[simp] theorem story_closeCall : (d.closeCall t).story = d.story := rfl
@[simp] theorem story_registry (r : Registry) : ({ d with registry := r } : Domain ν κ).story = d.story := rfl
@[simp] theorem story_nextGuard (n : Nat) : ({ d with nextGuard := n } : Domain ν κ).story = d.story := rfl
@[simp] theorem story_release (tid : Nat) : (d.release tid).story = d.story := by
  unfold release; simp [story_note, Notice.isAside]
@[simp] theorem orphans_release (tid : Nat) : (d.release tid).orphans = d.orphans := rfl
@[simp] theorem nextGuard_release (tid : Nat) : (d.release tid).nextGuard = d.nextGuard := rfl
@[simp] theorem story_register : d.register.2.story = d.story := by
  unfold register; simp [story_note, Notice.isAside]
@[simp] theorem orphans_register : d.register.2.orphans = d.orphans := by unfold register; rfl
@[simp] theorem nextGuard_register : d.register.2.nextGuard = d.nextGuard := by unfold register; rfl
@[simp] theorem story_orphan (bs : List (Bag ν)) : (d.orphan bs).story = d.story := by
  unfold orphan
  split
  · rfl
  · rw [story_note]; exact List.append_nil _
@[simp] theorem story_adopt : d.adopt.2.story = d.story := by
  unfold adopt
  split
  · rfl
  · rw [story_note]; exact List.append_nil _

theorem lease_eq (hh : d.handle? t = some h) : (d.thread t).lease = some (h.slot, h.pinCount) :=
  Thread.lease_of_handle (by rw [← handle?_eq, hh])

theorem lease_eq_none (hh : d.handle? t = none) : (d.thread t).lease = none :=
  Thread.lease_of_gone (by rw [← handle?_eq, hh])

/-! ## Pinning -/

@[simp] theorem register_fst (d : Domain ν κ) : d.register.1 = d.registry.register.1 := rfl
@[simp] theorem registry_register (d : Domain ν κ) : d.register.2.registry = d.registry.register.2 := rfl
@[simp] theorem thread_register (d : Domain ν κ) (u : Nat) : d.register.2.thread u = d.thread u := rfl

theorem thread_pin_of_slot {tid : Nat} (hh : d.handle? t = some h) (hs : h.slot = some tid) (u : Nat) :
    (d.pin t k).thread u = if u = t then (d.thread t).pinBy h tid k d.registry.epoch else d.thread u := by
  unfold pin
  simp only [hh, hs]
  split <;> (rw [thread_openCall, thread_setHandle]; split <;> simp_all [Thread.pinBy, thread_setHandle])

theorem registry_pin_of_slot {tid : Nat} (hh : d.handle? t = some h) (hs : h.slot = some tid) :
    (d.pin t k).registry = d.registry := by
  unfold pin
  simp only [hh, hs]
  split <;> rfl

theorem thread_pin_of_no_slot (hh : d.handle? t = some h) (hs : h.slot = none) (u : Nat) :
    (d.pin t k).thread u =
      if u = t then (d.thread t).pinBy h d.register.1 k d.registry.register.2.epoch else d.thread u := by
  unfold pin
  simp only [hh, hs]
  split <;> (rw [thread_openCall, thread_setHandle]; split <;> simp_all [Thread.pinBy, thread_setHandle])

theorem registry_pin_of_no_slot (hh : d.handle? t = some h) (hs : h.slot = none) :
    (d.pin t k).registry = d.registry.register.2 := by
  unfold pin
  simp only [hh, hs]
  split <;> rfl

theorem thread_pin_of_gone (hh : d.handle? t = none) (u : Nat) : (d.pin t k).thread u =
    if u = t then (d.thread t).pinDetached d.register.1 k d.registry.register.2.epoch else d.thread u := by
  unfold pin
  simp only [hh]
  exact thread_openCall _ _ _ _ _

theorem registry_pin_of_gone (hh : d.handle? t = none) : (d.pin t k).registry = d.registry.register.2 := by
  unfold pin
  simp only [hh, registry_openCall, registry_register]

section

variable (d t k)

theorem pin_frame : (d.pin t k).orphans = d.orphans ∧ (d.pin t k).nextGuard = d.nextGuard ∧
    (d.pin t k).story = d.story := by
  unfold pin
  cases d.handle? t with
  | none => simp
  | some h =>
    dsimp only
    cases h.slot <;> dsimp only <;> split <;> simp

end

/-! ## Dropping guards and exiting -/

section

variable {g : Guard}

theorem thread_unpin_of_detached (hg : g.detached = true) (u : Nat) :
    (d.unpin t g).thread u = if u = t then (d.thread t).drop g else d.thread u := by
  unfold unpin unguard
  rw [if_pos hg]
  exact thread_modifyThread _ _ _ _

theorem registry_unpin_of_detached (hg : g.detached = true) :
    (d.unpin t g).registry = (d.registry.unpin g.tid).release g.tid := by
  unfold unpin unguard
  rw [if_pos hg]
  rfl

theorem handle?_erase (g : Guard) :
    (d.modifyThread t fun th => { th with guards := th.guards.erase g }).handle? t = d.handle? t := by
  rw [handle?_eq, handle?_eq, thread_modifyThread, if_pos rfl]

theorem thread_unpin_of_live (hg : g.detached = false) (hh : d.handle? t = some h) (u : Nat) :
    (d.unpin t g).thread u = if u = t then
      { (d.thread t).drop g with tenure := .live { h with pinCount := h.pinCount - 1 } } else d.thread u := by
  unfold unpin unguard
  simp only [hg, Bool.false_eq_true, if_false, handle?_erase, hh, thread_note]
  have key : ((d.modifyThread t fun th => { th with guards := th.guards.erase g }).setHandle t
      { h with pinCount := h.pinCount - 1 }).thread u = if u = t then
      { (d.thread t).drop g with tenure := .live { h with pinCount := h.pinCount - 1 } } else d.thread u := by
    rw [thread_setHandle]
    split <;> rw [thread_modifyThread] <;> simp_all [Thread.drop]
  split
  · split <;> exact key
  · exact key

theorem registry_unpin_of_live (hg : g.detached = false) (hh : d.handle? t = some h) :
    (d.unpin t g).registry = match h.slot with
      | some tid => if h.pinCount = 1 then d.registry.unpin tid else d.registry
      | none => d.registry := by
  unfold unpin unguard
  simp only [hg, Bool.false_eq_true, if_false, handle?_erase, hh, registry_note]
  cases h.slot with
  | none => rfl
  | some tid =>
    by_cases h1 : h.pinCount = 1
    · simp only [h1, if_true]; rfl
    · simp only [h1, if_false]; rfl

theorem thread_unpin_of_gone (hg : g.detached = false) (hh : d.handle? t = none) (u : Nat) :
    (d.unpin t g).thread u = if u = t then (d.thread t).drop g else d.thread u := by
  unfold unpin unguard
  simp only [hg, Bool.false_eq_true, if_false, handle?_erase, hh, thread_note]
  split <;> exact thread_modifyThread _ _ _ _

theorem registry_unpin_of_gone (hg : g.detached = false) (hh : d.handle? t = none) : (d.unpin t g).registry =
    let left := (d.registry.slot g.tid).stray
    let r := d.registry.setStray g.tid (left - 1)
    if left ≤ 1 then (r.unpin g.tid).release g.tid else r := by
  unfold unpin unguard
  simp only [hg, Bool.false_eq_true, if_false, handle?_erase, hh, registry_note, registry_modifyThread]
  by_cases h1 : (d.registry.slot g.tid).stray ≤ 1
  · simp only [h1, if_true]; rfl
  · simp only [h1, if_false]

end

theorem thread_exit_of_live (hh : (d.thread t).tenure = .live h) (u : Nat) :
    (d.exit t).thread u = if u = t then { d.thread t with tenure := .gone } else d.thread u := by
  unfold exit
  simp only [hh]
  split
  · rw [thread_orphan]; exact thread_modifyThread _ _ _ _
  · split <;> (simp only [release, thread_note, thread_registry, thread_orphan]; exact thread_modifyThread _ _ _ _)

theorem registry_exit_of_live (hh : (d.thread t).tenure = .live h) : (d.exit t).registry = match h.slot with
    | none => d.registry
    | some tid =>
      if h.pinCount = 0 then (d.registry.unpin tid).release tid else d.registry.setStray tid h.pinCount := by
  unfold exit
  simp only [hh]
  cases h.slot with
  | none => simp
  | some tid =>
    by_cases h0 : h.pinCount = 0
    · simp [h0, release]
    · simp [h0]

theorem exit_of_not_live (hh : ∀ h, (d.thread t).tenure ≠ .live h) : d.exit t = d := by
  unfold exit
  split
  · exact absurd ‹_› (hh _)
  · rfl

theorem unpin_frame (d : Domain ν κ) (t : Nat) (g : Guard) : (d.unpin t g).orphans = d.orphans ∧
    (d.unpin t g).nextGuard = d.nextGuard ∧ (d.unpin t g).story = d.story ++ [.unpinned g] := by
  have key : ∀ d₁ : Domain ν κ, (d₁.unguard t g).orphans = d₁.orphans ∧ (d₁.unguard t g).nextGuard = d₁.nextGuard ∧
      (d₁.unguard t g).story = d₁.story := by
    intro d₁
    unfold unguard
    split
    · simp
    · cases d₁.handle? t with
      | none => dsimp only; split <;> simp
      | some h =>
        dsimp only
        cases h.slot with
        | none => simp
        | some tid => dsimp only; split <;> exact ⟨rfl, rfl, rfl⟩
  obtain ⟨h1, h2, h3⟩ := key (d.modifyThread t fun th => { th with guards := th.guards.erase g })
  refine ⟨h1, h2, ?_⟩
  unfold unpin
  rw [story_note, h3]
  rfl

theorem exit_frame_of_live (hh : (d.thread t).tenure = .live h) :
    (d.exit t).orphans = d.orphans ++ (h.sealBatch d.registry.epoch).bags ∧ (d.exit t).nextGuard = d.nextGuard ∧
      (d.exit t).story = d.story := by
  unfold exit
  simp only [hh]
  cases h.slot with
  | none => simp
  | some tid =>
    dsimp only
    split
    · simp
    · refine ⟨orphans_orphan _ _, nextGuard_orphan _ _, ?_⟩
      rw [story_note, story_registry, story_orphan]
      exact List.append_nil _

/-! ## Retiring, flushing, asking -/

theorem thread_retire_of_handle (n : ν) (hh : d.handle? t = some h) (u : Nat) : (d.retire t n k).thread u =
    if u = t then { d.thread t with
      tenure := .live (if (h.retire n).isFull then (h.retire n).sealBatch d.registry.epoch else h.retire n)
      calls := ⟨k, if (h.retire n).isFull then .advance .retire else .free .retire [] 0⟩ :: (d.thread t).calls }
    else d.thread u := by
  unfold retire
  simp only [handle?_note, hh]
  split <;> (rw [thread_openCall]; split <;> rw [thread_setHandle] <;> simp_all)

theorem thread_retire_of_gone (n : ν) (hh : d.handle? t = none) (u : Nat) : (d.retire t n k).thread u =
    if u = t then { d.thread t with calls := ⟨k, .free .retire [] 0⟩ :: (d.thread t).calls } else d.thread u := by
  unfold retire
  simp only [handle?_note, hh, thread_openCall, thread_orphan, thread_note]

theorem retire_frame_of_handle (n : ν) (hh : d.handle? t = some h) : (d.retire t n k).registry = d.registry ∧
    (d.retire t n k).orphans = d.orphans ∧ (d.retire t n k).nextGuard = d.nextGuard ∧
    (d.retire t n k).story = d.story ++ [.retired n] := by
  unfold retire
  simp only [handle?_note, hh]
  split <;> simp [story_note, Notice.isAside]

theorem retire_frame_of_gone (n : ν) (hh : d.handle? t = none) : (d.retire t n k).registry = d.registry ∧
    (d.retire t n k).orphans = d.orphans ++ [Bag.single d.registry.epoch n] ∧
    (d.retire t n k).nextGuard = d.nextGuard ∧ (d.retire t n k).story = d.story ++ [.retired n] := by
  unfold retire
  simp only [handle?_note, hh]
  simp [story_note, Notice.isAside]

theorem thread_flush_of_handle (hh : d.handle? t = some h) (u : Nat) : (d.flush t k).thread u =
    if u = t then { d.thread t with
      tenure := .live (h.sealBatch d.registry.epoch)
      calls := ⟨k, .advance .flush⟩ :: (d.thread t).calls } else d.thread u := by
  unfold flush
  simp only [hh]
  rw [thread_openCall]
  split <;> rw [thread_setHandle] <;> simp_all

theorem thread_flush_of_gone (hh : d.handle? t = none) (u : Nat) : (d.flush t k).thread u =
    if u = t then { d.thread t with calls := ⟨k, .advance .flush⟩ :: (d.thread t).calls } else d.thread u := by
  unfold flush
  simp only [hh, thread_openCall]

theorem flush_frame (d : Domain ν κ) (t : Nat) (k : κ) : (d.flush t k).registry = d.registry ∧
    (d.flush t k).orphans = d.orphans ∧ (d.flush t k).nextGuard = d.nextGuard ∧ (d.flush t k).story = d.story := by
  unfold flush
  cases d.handle? t <;> exact ⟨rfl, rfl, rfl, rfl⟩

theorem thread_pending_of_handle (hh : d.handle? t = some h) (u : Nat) : (d.pending t).2.thread u =
    if u = t then { d.thread t with tenure := .live h } else d.thread u := by
  unfold pending
  simp only [hh]
  exact thread_setHandle _ _ _ _

theorem pending_of_gone (hh : d.handle? t = none) : (d.pending t).2 = d := by
  unfold pending
  simp only [hh]

theorem pending_frame (d : Domain ν κ) (t : Nat) : (d.pending t).2.registry = d.registry ∧
    (d.pending t).2.orphans = d.orphans ∧ (d.pending t).2.nextGuard = d.nextGuard ∧
    (d.pending t).2.story = d.story := by
  unfold pending
  cases d.handle? t <;> exact ⟨rfl, rfl, rfl, rfl⟩

/-! ## Steps of a call -/

section

variable {c : Call ν κ} {rest : List (Call ν κ)}

theorem thread_publish_of_detached (hc : (d.thread t).calls = c :: rest) (tid : Nat) (e : Epoch) (u : Nat) :
    (d.publish t tid e true).thread u = if u = t then
      { d.thread t with calls := { c with phase := .free (.pin tid true) [] 0 } :: rest } else d.thread u := by
  unfold publish
  rw [if_pos rfl]
  exact thread_setPhase _ _ hc _ _

theorem thread_publish_of_handle (hc : (d.thread t).calls = c :: rest) (hh : d.handle? t = some h) (tid : Nat)
    (e : Epoch) (u : Nat) : (d.publish t tid e false).thread u = if u = t then { d.thread t with
      tenure := .live { h with
        pinsSinceCollect := if collectEvery ≤ h.pinsSinceCollect + 1 then 0 else h.pinsSinceCollect + 1 }
      calls := { c with
        phase := if collectEvery ≤ h.pinsSinceCollect + 1 then .advance (.pin tid false)
          else .free (.pin tid false) [] 0 } :: rest } else d.thread u := by
  have hc' : ∀ h', ((({ d with registry := d.registry.pin tid e } : Domain ν κ).setHandle t h').thread t).calls
      = c :: rest := fun h' => by rw [thread_setHandle, if_pos rfl]; exact hc
  have hh' : ({ d with registry := d.registry.pin tid e } : Domain ν κ).handle? t = some h := hh
  unfold publish
  simp only [Bool.false_eq_true, if_false, hh']
  split <;> (rw [thread_setPhase _ _ (hc' _)]; split <;> rw [thread_setHandle] <;> simp_all)

theorem thread_publish_of_gone (hc : (d.thread t).calls = c :: rest) (hh : d.handle? t = none) (tid : Nat)
    (e : Epoch) (u : Nat) : (d.publish t tid e false).thread u = if u = t then
      { d.thread t with calls := { c with phase := .free (.pin tid false) [] 0 } :: rest } else d.thread u := by
  have hh' : ({ d with registry := d.registry.pin tid e } : Domain ν κ).handle? t = none := hh
  unfold publish
  simp only [Bool.false_eq_true, if_false, hh']
  exact thread_setPhase _ _ hc _ _

theorem publish_frame (d : Domain ν κ) (t tid : Nat) (e : Epoch) (b : Bool) :
    (d.publish t tid e b).registry = d.registry.pin tid e ∧ (d.publish t tid e b).orphans = d.orphans ∧
    (d.publish t tid e b).nextGuard = d.nextGuard ∧ (d.publish t tid e b).story = d.story := by
  unfold publish
  dsimp only
  split
  · exact ⟨rfl, rfl, rfl, (story_note _ _).trans (List.append_nil _)⟩
  · cases Domain.handle? { d with registry := d.registry.pin tid e } t with
    | none => exact ⟨rfl, rfl, rfl, rfl⟩
    | some h => dsimp only; split <;> exact ⟨rfl, rfl, rfl, rfl⟩

end

end Domain

/-- The global epoch after an attempt to advance it. -/
def Registry.advanced (r : Registry) : Epoch := if r.allObserved then r.epoch + 1 else r.epoch

theorem Registry.tryAdvance_eq (r : Registry) : r.tryAdvance = (r.advanced, { r with epoch := r.advanced }) := by
  unfold tryAdvance advanced
  split <;> rfl

/-- The bags that a collection by `t` looks at. -/
def Domain.pool (d : Domain ν κ) (t : Nat) : List (Bag ν) := (d.thread t).bags ++ d.orphans

namespace Domain

variable {d : Domain ν κ} {t : Nat} {h : Handle ν} {c : Call ν κ} {rest : List (Call ν κ)}

theorem thread_advance (hc : (d.thread t).calls = c :: rest) (p : Purpose) (u : Nat) : (d.advance t p).thread u =
    if u = t then { d.thread t with calls := { c with phase := .select p d.registry.advanced } :: rest }
    else d.thread u := by
  unfold advance
  simp only [Registry.tryAdvance_eq]
  split <;> exact thread_setPhase _ _ hc _ _

theorem advance_frame (d : Domain ν κ) (t : Nat) (p : Purpose) :
    (d.advance t p).registry = { d.registry with epoch := d.registry.advanced } ∧
    (d.advance t p).orphans = d.orphans ∧ (d.advance t p).nextGuard = d.nextGuard ∧
    (d.advance t p).story = d.story ++
      if d.registry.advanced = d.registry.epoch then [] else [.advanced d.registry.advanced] := by
  unfold advance
  simp only [Registry.tryAdvance_eq]
  split
  · exact ⟨rfl, rfl, rfl, (List.append_nil _).symm⟩
  · exact ⟨rfl, rfl, rfl, story_note _ _⟩

theorem thread_select_of_handle (hc : (d.thread t).calls = c :: rest) (hh : d.handle? t = some h) (p : Purpose)
    (g : Epoch) (u : Nat) : (d.select t p g).thread u = if u = t then { d.thread t with
      tenure := .live { h with bags := (d.pool t).filter (!·.isExpired g) }
      calls := { c with phase := .free p (Bag.contents ((d.pool t).filter (·.isExpired g))) 0 } :: rest }
    else d.thread u := by
  have hb : (d.thread t).bags = h.bags := by
    have : (d.thread t).tenure.handle? = some h := handle?_eq d t ▸ hh
    simp [Thread.bags, this]
  have hh' : d.adopt.2.handle? t = some h := by rw [handle?_eq, thread_adopt, ← handle?_eq]; exact hh
  have hc' : ∀ h', (Domain.thread (d.adopt.2.setHandle t h') t).calls = c :: rest := fun h' => by
    rw [thread_setHandle, if_pos rfl, thread_adopt]; exact hc
  unfold select
  simp only [hh', Handle.sift_eq, adopt_fst]
  rw [thread_setPhase _ _ (hc' _), pool, hb]
  split <;> rw [thread_setHandle] <;> simp_all

theorem thread_select_of_gone (hc : (d.thread t).calls = c :: rest) (hh : d.handle? t = none) (p : Purpose)
    (g : Epoch) (u : Nat) : (d.select t p g).thread u = if u = t then { d.thread t with
      calls := { c with phase := .free p (Bag.contents ((d.pool t).filter (·.isExpired g))) 0 } :: rest }
    else d.thread u := by
  have hb : (d.thread t).bags = [] := by
    have : (d.thread t).tenure.handle? = none := handle?_eq d t ▸ hh
    simp [Thread.bags, this]
  have hh' : d.adopt.2.handle? t = none := by rw [handle?_eq, thread_adopt, ← handle?_eq]; exact hh
  unfold select
  simp only [hh', List.partition_eq_filter_filter, adopt_fst]
  rw [thread_setPhase _ _ (by rw [thread_orphan, thread_adopt, hc]), pool, hb]
  simp

theorem orphans_select_of_handle (hh : d.handle? t = some h) (p : Purpose) (g : Epoch) :
    (d.select t p g).orphans = [] := by
  have hh' : d.adopt.2.handle? t = some h := by rw [handle?_eq, thread_adopt, ← handle?_eq]; exact hh
  unfold select
  simp only [hh', orphans_setPhase, orphans_setHandle, orphans_adopt]

theorem orphans_select_of_gone (hh : d.handle? t = none) (p : Purpose) (g : Epoch) :
    (d.select t p g).orphans = (d.pool t).filter (!·.isExpired g) := by
  have hb : (d.thread t).bags = [] := by
    have : (d.thread t).tenure.handle? = none := handle?_eq d t ▸ hh
    simp [Thread.bags, this]
  have hh' : d.adopt.2.handle? t = none := by rw [handle?_eq, thread_adopt, ← handle?_eq]; exact hh
  unfold select
  simp only [hh', List.partition_eq_filter_filter, adopt_fst, orphans_setPhase, orphans_orphan, orphans_adopt, pool, hb,
    List.nil_append]
  rfl

theorem select_frame (d : Domain ν κ) (t : Nat) (p : Purpose) (g : Epoch) :
    (d.select t p g).registry = d.registry ∧ (d.select t p g).nextGuard = d.nextGuard ∧
    (d.select t p g).story = d.story := by
  unfold select
  dsimp only
  cases d.adopt.2.handle? t <;> simp

section

variable (d : Domain ν κ) (t : Nat) (k : κ) (n : Nat)

/-- Every answer closes the call; a pin's also hands out the guard. -/
theorem answer_fst (p : Purpose) : (d.answer t k p n).1 = match p with
    | .pin tid b => (({ (d.closeCall t).note (.returned n) with nextGuard := d.nextGuard + 1 }).modifyThread t
        fun th => { th with guards := ⟨d.nextGuard, tid, b⟩ :: th.guards }).note (.pinned ⟨d.nextGuard, tid, b⟩)
    | _ => (d.closeCall t).note (.returned n) := by
  unfold answer
  cases p <;> rfl

theorem thread_answer_pin (tid : Nat) (b : Bool) (u : Nat) : (d.answer t k (.pin tid b) n).1.thread u =
    if u = t then { d.thread t with
      calls := (d.thread t).calls.tail
      guards := ⟨d.nextGuard, tid, b⟩ :: (d.thread t).guards } else d.thread u := by
  simp only [answer_fst, thread_note, thread_modifyThread, thread_nextGuard, thread_closeCall, if_true]
  split <;> rfl

theorem answer_pin_frame (tid : Nat) (b : Bool) : (d.answer t k (.pin tid b) n).1.registry = d.registry ∧
    (d.answer t k (.pin tid b) n).1.orphans = d.orphans ∧
    (d.answer t k (.pin tid b) n).1.nextGuard = d.nextGuard + 1 ∧
    (d.answer t k (.pin tid b) n).1.story = d.story ++ [.pinned ⟨d.nextGuard, tid, b⟩] := by
  simp only [answer_fst]
  refine ⟨by simp, by simp, by simp, ?_⟩
  rw [story_note, story_modifyThread, story_nextGuard, story_note, story_closeCall]
  simp [Notice.isAside]

theorem thread_answer_of_pin?_none {p : Purpose} (hp : p.pin? = none) (u : Nat) :
    (d.answer t k p n).1.thread u =
      if u = t then { d.thread t with calls := (d.thread t).calls.tail } else d.thread u := by
  cases p with
  | pin tid b => cases hp
  | retire => simp only [answer_fst, thread_note, thread_closeCall]
  | flush => simp only [answer_fst, thread_note, thread_closeCall]

theorem answer_frame_of_pin?_none {p : Purpose} (hp : p.pin? = none) :
    (d.answer t k p n).1.registry = d.registry ∧ (d.answer t k p n).1.orphans = d.orphans ∧
    (d.answer t k p n).1.nextGuard = d.nextGuard ∧ (d.answer t k p n).1.story = d.story := by
  cases p with
  | pin tid b => cases hp
  | retire => simp [answer_fst, story_note, Notice.isAside]
  | flush => simp [answer_fst, story_note, Notice.isAside]

end

/-- A step that destroys a node. -/
theorem thread_free (hc : (d.thread t).calls = c :: rest) (q : Phase ν) (n : ν) (u : Nat) :
    ((d.setPhase t q).note (.freed n)).thread u =
      if u = t then { d.thread t with calls := { c with phase := q } :: rest } else d.thread u := by
  rw [thread_note, thread_setPhase _ _ hc]

/-! ## The step as a whole -/

/-- What the next step of `t` does, by the phase of the innermost call. -/
theorem step_eq (hc : (d.thread t).calls = c :: rest) : d.step t = match c.phase with
    | .publish tid epoch detached => (d.publish t tid epoch detached, .quiet)
    | .advance p => (d.advance t p, .quiet)
    | .select p global => (d.select t p global, .quiet)
    | .free p (n :: todo) freed => ((d.setPhase t (.free p todo (freed + 1))).note (.freed n), .freed n)
    | .free p [] freed => d.answer t c.ticket p freed := by
  unfold step
  cases hp : c.phase with
  | free p todo freed => cases todo <;> simp only [hc, hp]
  | _ => simp only [hc, hp]

end Domain

end EpochQueue.Reclaim
