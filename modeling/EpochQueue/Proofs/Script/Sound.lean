/-
  EpochQueue.Proofs.Script.Sound — what holds of a script's state before and after every step.

  The objects have it written on them whether they were retired and destroyed (`Booked`), queues and
  iterators were made, every thread is seated, and the world is in its place (`Sound`).

  `Onward t s s'` says that `t` has brought `s` to `s'`: all that still holds, and the others are
  where they were.
-/

import EpochQueue.Proofs.Fifo.Errands
import EpochQueue.Proofs.Script.Costs
import EpochQueue.Proofs.Script.Stands

namespace EpochQueue.Script

open EpochQueue.Fifo (Garbage QueueInv World)
open EpochQueue.Reclaim (Notice)

variable {α : Type}

/-! ## What changes where -/

namespace State

section

variable (s : State α) (t : Nat)

theorem worker_modifyWorker (u : Nat) (f : Worker α → Worker α) :
    (s.modifyWorker t f).worker u = if u = t then f (s.worker t) else s.worker u := Table.get_modify _ _ _ _

@[simp] theorem worker_onWorld (f : World α → World α) (u : Nat) : (s.onWorld f).worker u = s.worker u := rfl
@[simp] theorem worker_modifyObject (i : Nat) (f : Object α → Object α) (u : Nat) :
    (s.modifyObject i f).worker u = s.worker u := rfl

theorem worker_pushFrame (f : Frame α) (u : Nat) : (s.pushFrame t f).worker u =
    if u = t then { s.worker t with frames := f :: (s.worker t).frames } else s.worker u :=
  s.worker_modifyWorker t u _

theorem worker_popFrame (u : Nat) : (s.popFrame t).worker u =
    if u = t then { s.worker t with frames := (s.worker t).frames.tail } else s.worker u :=
  s.worker_modifyWorker t u _

variable {s t}

theorem worker_modifyTop {top : Frame α} {below : List (Frame α)} (h : (s.worker t).frames = top :: below)
    (f : Frame α → Frame α) (u : Nat) : (s.modifyTop t f).worker u =
      if u = t then { s.worker t with frames := f top :: below } else s.worker u := by
  unfold modifyTop
  rw [worker_modifyWorker, h]

theorem worker_begin {top : Frame α} {below : List (Frame α)} (h : (s.worker t).frames = top :: below) (a : Await)
    (f : World α → World α) (u : Nat) : (s.begin t a f).worker u =
      if u = t then { s.worker t with frames := { top with await := some a } :: below } else s.worker u :=
  worker_modifyTop h _ u

theorem worker_deliver {top : Frame α} {below : List (Frame α)} (h : (s.worker t).frames = top :: below)
    (r : Result α) (u : Nat) : (s.deliver t r).worker u =
      if u = t then { s.worker t with frames := top.after r :: below } else s.worker u := by
  have hafter : ∀ s' : State α, s'.worker = s.worker → ∀ f : Frame α → Frame α, f top = top.after r →
      (s'.modifyTop t f).worker u = if u = t then { s.worker t with frames := top.after r :: below } else s.worker u :=
    fun s' hw f hf => by
      rw [worker_modifyTop (hw ▸ h), hf, hw]
  unfold deliver
  rw [h]
  dsimp only
  split <;> exact hafter _ rfl _ rfl

/-- What a result changes beside the frame that it goes to. -/
theorem deliver_frame (s : State α) (t : Nat) (r : Result α) : (s.deliver t r).world = s.world ∧
    (s.deliver t r).objects = s.objects ∧ (s.deliver t r).queues = s.queues ∧
    (s.deliver t r).iterators = s.iterators := by
  unfold deliver
  split
  · exact ⟨rfl, rfl, rfl, rfl⟩
  · dsimp only
    split <;> exact ⟨rfl, rfl, rfl, rfl⟩

/-- What a queue that is dropped changes. -/
theorem dropQueue_frame (s : State α) (id : Nat) : (s.dropQueue id).world = (s.world.tearDown id).2 ∧
    (s.dropQueue id).objects = s.objects ∧ (s.dropQueue id).queues = s.queues ∧
    (s.dropQueue id).iterators = s.iterators ∧ (s.dropQueue id).workers = s.workers := by
  have hnotes : ∀ (vs : List α) (s : State α), ∃ log, vs.foldl (fun s v => s.note (.dropped v)) s = { s with log } :=
    fun vs => by
      induction vs with
      | nil => exact fun s => ⟨s.log, rfl⟩
      | cons v vs ih => exact fun s => (ih (s.note (.dropped v))).imp fun log h => h
  unfold dropQueue
  dsimp only
  obtain ⟨log, h⟩ := hnotes (s.withWorld fun w => w.tearDown id).1 (s.withWorld fun w => w.tearDown id).2
  rw [h]
  exact ⟨rfl, rfl, rfl, rfl, rfl⟩

end

end State

/-! ## Objects -/

/-- The objects have it on them what has become of them. -/
structure Booked (objects : Array (Object α)) (story : List (Notice Garbage)) : Prop where
  retired : ∀ (i : Nat) (o : Object α), objects[i]? = some o → (o.retired = true ↔ .retired (.object i) ∈ story)
  freed : ∀ (i : Nat) (o : Object α), objects[i]? = some o → (o.freed = true ↔ .freed (.object i) ∈ story)
  known : ∀ i, .retired (.object i) ∈ story ∨ .freed (.object i) ∈ story → i < objects.size
  fine : ∀ (i : Nat) (o : Object α), objects[i]? = some o → Command.allOrderly true o.onFree = true

namespace Booked

variable {objects : Array (Object α)} {story x : List (Notice Garbage)} {i : Nat} {o : Object α}

theorem empty : Booked (#[] : Array (Object α)) [] := ⟨nofun, nofun, nofun, nofun⟩

/-- Something happens that is about no object. -/
theorem append (hb : Booked objects story)
    (hx : ∀ i, .retired (.object i) ∉ x ∧ .freed (.object i) ∉ x) : Booked objects (story ++ x) := by
  refine ⟨fun i o ho => ?_, fun i o ho => ?_, fun i hi => hb.known i ?_, hb.fine⟩
  · rw [hb.retired i o ho, List.mem_append, or_iff_left (hx i).1]
  · rw [hb.freed i o ho, List.mem_append, or_iff_left (hx i).2]
  · simpa only [List.mem_append, or_iff_left (hx i).1, or_iff_left (hx i).2] using hi

/-- A new object, which nothing has happened to. -/
theorem push (hb : Booked objects story) {value : α} {custom : Bool} {onFree : List (Command α)}
    (hf : Command.allOrderly true onFree = true) : Booked (objects.push { value, custom, onFree }) story := by
  have hcases : ∀ {i o}, (objects.push { value, custom, onFree })[i]? = some o →
      i = objects.size ∧ o = { value, custom, onFree } ∨ objects[i]? = some o := fun {i o} h => by
    rw [Array.getElem?_push] at h
    split at h
    next e => exact Or.inl ⟨e, (Option.some.inj h).symm⟩
    next => exact Or.inr h
  refine ⟨fun i o ho => ?_, fun i o ho => ?_, fun i hi => ?_, fun i o ho => ?_⟩
  · rcases hcases ho with ⟨rfl, rfl⟩ | ho
    · exact ⟨nofun, fun h => absurd (hb.known _ (Or.inl h)) (Nat.lt_irrefl _)⟩
    · exact hb.retired i o ho
  · rcases hcases ho with ⟨rfl, rfl⟩ | ho
    · exact ⟨nofun, fun h => absurd (hb.known _ (Or.inr h)) (Nat.lt_irrefl _)⟩
    · exact hb.freed i o ho
  · rw [Array.size_push]
    exact Nat.lt_succ_of_lt (hb.known i hi)
  · rcases hcases ho with ⟨rfl, rfl⟩ | ho
    · exact hf
    · exact hb.fine i o ho

/-- What happens to an object is written on it. -/
theorem modify (hb : Booked objects story) {n : Notice Garbage} {f : Object α → Object α} (hi : i < objects.size)
    (hr : ∀ j (o : Object α), (if i = j then f o else o).retired = true ↔ o.retired = true ∨ n = .retired (.object j))
    (hf : ∀ j (o : Object α), (if i = j then f o else o).freed = true ↔ o.freed = true ∨ n = .freed (.object j))
    (ho : ∀ o : Object α, (f o).onFree = o.onFree)
    (hn : ∀ j, n = .retired (.object j) ∨ n = .freed (.object j) → j = i) :
    Booked (objects.modify i f) (story ++ [n]) := by
  have hcases : ∀ {j o'}, (objects.modify i f)[j]? = some o' →
      ∃ o, objects[j]? = some o ∧ o' = if i = j then f o else o := fun {j o'} h => by
    rw [Array.getElem?_modify] at h
    split at h
    next e =>
      obtain ⟨o, ho, rfl⟩ := Option.map_eq_some_iff.mp h
      exact ⟨o, ho, (if_pos e).symm⟩
    next e => exact ⟨o', h, (if_neg e).symm⟩
  have hmem : ∀ {m : Notice Garbage}, m ∈ story ++ [n] ↔ m ∈ story ∨ n = m := fun {m} => by
    rw [List.mem_append, List.mem_singleton, eq_comm]
  refine ⟨fun j o' h => ?_, fun j o' h => ?_, fun j hj => ?_, fun j o' h => ?_⟩
  · obtain ⟨o, ho', rfl⟩ := hcases h
    rw [hr, hb.retired j o ho', hmem]
  · obtain ⟨o, ho', rfl⟩ := hcases h
    rw [hf, hb.freed j o ho', hmem]
  · rw [Array.size_modify]
    rw [hmem, hmem] at hj
    by_cases e : n = .retired (.object j) ∨ n = .freed (.object j)
    · exact hn j e ▸ hi
    · obtain ⟨e1, e2⟩ := not_or.mp e
      exact hb.known j (hj.imp (·.resolve_right e1) (·.resolve_right e2))
  · obtain ⟨o, ho', rfl⟩ := hcases h
    split
    · rw [ho]; exact hb.fine j o ho'
    · exact hb.fine j o ho'

theorem retire (hb : Booked objects story) (hi : i < objects.size) :
    Booked (objects.modify i fun o => { o with retired := true }) (story ++ [.retired (.object i)]) := by
  refine hb.modify hi (fun j o => ?_) (fun j o => ?_) (fun _ => rfl) fun j h => ?_
  · split <;> simp_all
  · split <;> simp
  · rcases h with h | h <;> cases h
    rfl

theorem destroy (hb : Booked objects story) (hi : i < objects.size) :
    Booked (objects.modify i fun o => { o with freed := true }) (story ++ [.freed (.object i)]) := by
  refine hb.modify hi (fun j o => ?_) (fun j o => ?_) (fun _ => rfl) fun j h => ?_
  · split <;> simp
  · split <;> simp_all
  · rcases h with h | h <;> cases h
    rfl

end Booked

theorem sum_modify {β : Type} (c : β → Nat) (f : β → β) {l : List β} {i : Nat} {x : β} (h : l[i]? = some x) :
    ((l.modify i f).map c).sum + c x = (l.map c).sum + c (f x) := by
  induction l generalizing i with
  | nil => cases h
  | cons y l ih =>
    cases i with
    | zero =>
      cases h
      simp only [List.modify_cons, if_true, List.map_cons, List.sum_cons]
      omega
    | succ i =>
      have hrest := ih (i := i) h
      simp only [List.modify_cons, Nat.succ_ne_zero, if_false, Nat.add_sub_cancel, List.map_cons, List.sum_cons]
      omega

namespace State

theorem objectsCost_newObject (s : State α) (value : α) (custom : Bool) (onFree : List (Command α)) :
    (s.newObject value custom onFree).2.objectsCost = s.objectsCost + (2 + Command.costs onFree) := by
  simp [objectsCost, newObject, Object.cost]

theorem objectsCost_modifyObject {s : State α} {i : Nat} {o : Object α} (h : s.objects[i]? = some o)
    (f : Object α → Object α) : (s.modifyObject i f).objectsCost + o.cost = s.objectsCost + (f o).cost := by
  unfold objectsCost modifyObject
  rw [Array.toList_modify]
  exact sum_modify Object.cost f (by rw [Array.getElem?_toList]; exact h)

/-! ## Soundness -/

/-- These queues were all made. -/
def Made (n : Nat) (ids : Array (Option Nat)) : Prop := ∀ q id : Nat, ids[q]? = some (some id) → id < n

theorem Made.mono {n n' : Nat} {ids : Array (Option Nat)} (h : Made n ids) (hn : n ≤ n') : Made n' ids :=
  fun q id e => Nat.lt_of_lt_of_le (h q id e) hn

theorem Made.set_none {n q : Nat} {ids : Array (Option Nat)} (h : Made n ids) : Made n (ids.setIfInBounds q none) := by
  intro p id e
  rw [Array.getElem?_setIfInBounds] at e
  split at e
  · split at e <;> cases e
  · exact h p id e

theorem Made.push {n id : Nat} {ids : Array (Option Nat)} (h : Made n ids) (hid : id < n) :
    Made n (ids.push (some id)) := by
  intro p id' e
  rw [Array.getElem?_push] at e
  split at e
  · cases e; exact hid
  · exact h p id' e

/-- What holds of a script's state after every step: queues and books are in order, every index names
    something that was made, and every thread sits on what it waits for. -/
structure Sound (s : State α) : Prop where
  queueInv : ∃ lay, QueueInv s.world lay
  booked : Booked s.objects s.world.domain.story
  queues : Made s.world.store.nextQueue s.queues
  iterators : Made s.world.store.nextQueue s.iterators
  seated : ∀ t, Seated s.world.store.nextQueue (s.worker t) (s.world.operation t) (s.world.domain.thread t)

/-- Steps of `t` lead from `s` to `s'`, which is sound. -/
structure Onward (t : Nat) (s s' : State α) : Prop where
  sound : s'.Sound
  world : World.Onward t s.world s'.world
  workers : ∀ u, u ≠ t → s'.worker u = s.worker u

section

variable {s s' s'' : State α} {t : Nat}

theorem Onward.refl (hs : s.Sound) : Onward t s s :=
  ⟨hs, .refl hs.queueInv.choose_spec, fun _ _ => rfl⟩

theorem Onward.trans (h : Onward t s s') (h' : Onward t s' s'') : Onward t s s'' :=
  ⟨h'.sound, h.world.trans h'.world, fun u hu => (h'.workers u hu).trans (h.workers u hu)⟩

/-- It is enough to look after the thread that moves. -/
theorem Sound.onward (hs : s.Sound) (hw : World.Onward t s.world s'.world)
    (hworkers : ∀ u, u ≠ t → s'.worker u = s.worker u) (hb : Booked s'.objects s'.world.domain.story)
    (hq : Made s'.world.store.nextQueue s'.queues)
    (hi : Made s'.world.store.nextQueue s'.iterators)
    (ht : Seated s'.world.store.nextQueue (s'.worker t) (s'.world.operation t) (s'.world.domain.thread t)) :
    Onward t s s' := by
  refine ⟨⟨hw.queueInv, hb, hq, hi, fun u => ?_⟩, hw, hworkers⟩
  by_cases e : u = t
  · subst e; exact ht
  · rw [hworkers u e, hw.others u e, hw.follows.thread_of_ne e]
    exact (hs.seated u).mono hw.queues

/-- Nothing was retired that the domain does not know. -/
theorem Sound.freed_known (hs : s.Sound) {i : Nat} (h : .freed (.object i) ∈ s.world.domain.story) :
    .retired (.object i) ∈ s.world.domain.story := by
  obtain ⟨lay, hinv⟩ := hs.queueInv
  have hb := hinv.reach.balanced
  have hfree : Garbage.object i ∈ s.world.domain.frees :=
    Reclaim.Domain.mem_frees.mpr ((Reclaim.Domain.mem_story rfl).mp h)
  exact (Reclaim.Domain.mem_story rfl).mpr
    (Reclaim.Domain.mem_retirements.mp (hb.perm.mem_iff.mpr (List.mem_append_left _ hfree)))

end

end State

end EpochQueue.Script
