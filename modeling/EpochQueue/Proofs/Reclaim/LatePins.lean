/-
  EpochQueue.Proofs.Reclaim.LatePins — an epoch that is published late protects all the same.

  An outermost pin reads the global epoch in one step and publishes it in the next. In between
  other threads may go on, so the epoch can be an old one by the time it is published, and a slot
  may then be any number of epochs behind. `Unsettled` are the runs in which that is all that
  happens out of turn: any number of pins stand half done, and apart from them calls happen one
  at a time.

  The global epoch advances only if every slot that is not quiescent holds that very epoch, not
  one that is as young or younger. So a slot that is behind stops it altogether, and one that is
  not lets it advance once (`Late.turn`). Bags with nodes retired since the publication are
  stamped no earlier than that, so none of them expires (`Late.not_mem_expired`).
  `Unsettled.late_pin_protects` says so of every such run up to the moment in which the slot is
  quiescent again.
-/

import EpochQueue.Proofs.Reclaim.Occupancy

namespace EpochQueue.Reclaim

variable {ν κ : Type}

/-- The thread has no call open, or has read an epoch and not published it yet. -/
def Thread.pauses (th : Thread ν κ) : Bool :=
  match th.point? with
  | none | some (.publish _ _ _) => true
  | _ => false

namespace Domain

variable {d d₀ d' : Domain ν κ} {t tid : Nat} {e : Epoch} {b : Bool} {x : Option (Notice ν)}

def othersPause (d : Domain ν κ) (t : Nat) : Prop := ∀ u, u ≠ t → (d.thread u).pauses = true

/-- What the threads can bring a fresh domain to when their calls happen one at a time, but for
    pins: those may stop before they publish, and let others go first. -/
inductive Unsettled : Domain ν κ → Prop
  | start : Unsettled {}
  | move {d : Domain ν κ} (t : Nat) (m : Move ν κ) :
      Unsettled d → d.othersPause t → d.may t m → Unsettled (d.move t m)

/-- Such a run from `d₀` on, throughout which the slot is not quiescent. -/
inductive WhilePinned (tid : Nat) (d₀ : Domain ν κ) : Domain ν κ → Prop
  | start : WhilePinned tid d₀ d₀
  | move {d : Domain ν κ} (t : Nat) (m : Move ν κ) :
      WhilePinned tid d₀ d → d.othersPause t → d.may t m →
      ((d.move t m).registry.slot tid).epoch ≠ quiescent → WhilePinned tid d₀ (d.move t m)

theorem Unsettled.reach (h : d.Unsettled) : d.Reach := by
  induction h with
  | start => exact .start
  | move t m _ _ hm ih => exact .move t m ih hm

theorem WhilePinned.unsettled (h : WhilePinned tid d₀ d) (h₀ : d₀.Unsettled) : d.Unsettled := by
  induction h with
  | start => exact h₀
  | move t m _ hrest hm _ ih => exact .move t m ih hrest hm

/-- A collection goes by the current global epoch: nobody else moves before it has selected. -/
theorem Unsettled.selecting (h : d.Unsettled) {u : Nat} {p : Purpose} {g : Epoch}
    (hp : (d.thread u).point? = some (.select p g)) : g = d.registry.epoch := by
  cases h with
  | start => cases hp
  | move t m hr hrest hm =>
    obtain ⟨x, ht⟩ := hr.reach.owned.turn hm
    by_cases hu : u = t
    · subst hu
      exact ht.selects p g hp
    · have hpause := hrest u hu
      rw [Thread.pauses, ← ht.others u hu, hp] at hpause
      cases hpause

/-- An epoch that is about to be published was the global one once. -/
theorem Reach.publishes_epoch (h : d.Reach) (hw : ¬ d.wrapped) :
    ∀ t tid e b, (d.thread t).point? = some (.publish tid e b) → e ≠ quiescent := by
  induction h with
  | start => exact nofun
  | @move d t m hr hm ih =>
    intro u tid e b hp
    obtain ⟨x, ht⟩ := hr.owned.turn hm
    obtain ⟨hw₀, -⟩ := ht.not_wrapped hw
    by_cases hu : u = t
    · subst hu
      rw [ht.publishes tid e b hp]
      exact ((hr.move u m hm).stamped hw).positive
    · rw [ht.others u hu] at hp
      exact ih hw₀ u tid e b hp

/-- Whoever is pinned keeps a slot from being quiescent. -/
theorem Reach.shielded (h : d.Reach) (hw : ¬ d.wrapped) :
    ∀ u, ∀ p ∈ (d.thread u).shields, (d.registry.slot p.1).epoch ≠ quiescent := by
  induction h with
  | start => exact fun _ _ h => nomatch h
  | @move d t m hr hm ih =>
    obtain ⟨x, ht⟩ := hr.owned.turn hm
    have hw' := (ht.not_wrapped hw).1
    have hpub := hr.publishes_epoch hw' t
    intro u p hp h0
    have hnew : ∀ {b}, (d.thread t).point? ≠ some (.publish p.1 ((d.move t m).registry.slot p.1).epoch b) :=
      fun h => hpub _ _ _ h h0
    have hold : p ∉ (d.thread u).shields := fun hold => by
      rcases ht.slots p.1 with hs | ⟨-, hs⟩ | ⟨b, hs⟩
      · exact ih hw' u p hold (hs ▸ h0)
      · exact hs u p.2 (Thread.shields_subset_holds hp)
      · exact hnew hs
    by_cases hu : u = t
    · subst hu
      exact (ht.shields p hp).elim hold hnew
    · exact hold (ht.others u hu ▸ hp)

/-- How the domain stands to an earlier state `d₀`, in which the slot was about to get `e`. -/
structure Late (d₀ : Domain ν κ) (tid : Nat) (e : Epoch) (d : Domain ν κ) : Prop where
  slot : (d.registry.slot tid).epoch = e
  /-- The global epoch advances only if it is the one that was published. -/
  epoch : d.registry.epoch = d₀.registry.epoch ∨
    e = d₀.registry.epoch ∧ d.registry.epoch = d₀.registry.epoch + 1
  bag : ∀ b, d.Stored b → ∀ n ∈ b.nodes, .retired n ∈ d₀.story ∨ d₀.registry.epoch.toNat ≤ b.epoch.toNat
  todo : ∀ u, ∀ n ∈ (d.thread u).todo, .retired n ∈ d₀.story
  freed : ∀ n, .freed n ∈ d.story → .retired n ∈ d₀.story

/-- An epoch, and the one after it unless that is none. -/
theorem Late.epoch_le (h : Late d₀ tid e d) (h0 : d.registry.epoch ≠ quiescent) :
    d₀.registry.epoch.toNat ≤ d.registry.epoch.toNat ∧ d.registry.epoch.toNat ≤ d₀.registry.epoch.toNat + 1 := by
  rcases h.epoch with he | ⟨-, he⟩
  · rw [he]; omega
  · have := toNat_succ (he ▸ h0)
    rw [he]; omega

/-- A bag that has expired holds nothing that was retired since. -/
theorem Late.not_mem_expired (h : Late d₀ tid e d) (hst : d.Stamped) {b : Bag ν} (hb : d.Stored b)
    (he : b.isExpired d.registry.epoch = true) {n : ν} (hn : n ∈ b.nodes) : .retired n ∈ d₀.story := by
  refine (h.bag b hb n hn).resolve_right fun hle => ?_
  have hstamp := hst.bag b hb
  have hnear := h.epoch_le hst.positive
  rw [Bag.isExpired_iff, UInt64.toNat_sub_of_le _ _ (UInt64.le_iff_toNat_le.mpr hstamp)] at he
  omega

/-- The slot keeps its epoch as long as it is not quiescent: whoever is pinned through it is not
    about to publish. -/
theorem Turn.slot_of_occupied (h : Turn d t x d') (hr : d.Reach)
    (hpinned : (d.registry.slot tid).epoch ≠ quiescent) (hstays : (d'.registry.slot tid).epoch ≠ quiescent) :
    (d'.registry.slot tid).epoch = (d.registry.slot tid).epoch := by
  rcases h.slots tid with hs | ⟨hs, -⟩ | ⟨b, hp⟩
  · exact hs
  · exact absurd hs hstays
  · obtain ⟨u, b', hu⟩ := hr.occupied tid hpinned
    exact absurd hu (hr.owned.not_shielded hp u b')

theorem Late.turn (hl : Late d₀ tid e d) (h : Turn d t x d') (hd : d.Unsettled) (hw : ¬ d.wrapped)
    (hpinned : (d.registry.slot tid).epoch ≠ quiescent)
    (hstays : (d'.registry.slot tid).epoch ≠ quiescent) : Late d₀ tid e d' := by
  have hst := hd.reach.stamped hw
  refine ⟨(h.slot_of_occupied hd.reach hpinned hstays).trans hl.slot, ?_, fun b hb n hn => ?_,
    fun u n hn => ?_, fun n hn => ?_⟩
  · rcases h.epoch with ⟨hsame, -⟩ | ⟨hobserved, hnext, -, -⟩
    · rw [hsame]; exact hl.epoch
    · -- the slot is among those that must hold the global epoch, so that is `e`
      have hcur : e = d.registry.epoch := by
        rw [← hl.slot]
        exact (Registry.eq_of_allObserved hobserved tid).resolve_left hpinned
      rcases hl.epoch with he | ⟨he, hadv⟩
      · exact Or.inr ⟨hcur.trans he, hnext.trans (by rw [he])⟩
      · have hne := toNat_succ (hadv ▸ hst.positive)
        rw [← hadv, ← hcur, he] at hne
        omega
  · rcases h.stored hb with hb | ⟨hstamp, -⟩
    · exact hl.bag b hb n hn
    · exact Or.inr (by rw [hstamp]; exact (hl.epoch_le hst.positive).1)
  · by_cases hu : u = t
    · subst hu
      rcases h.todo n hn with hn | ⟨p, g, hp, b, hb, he, hn⟩
      · exact hl.todo u n hn
      · rw [hd.selecting hp] at he
        exact hl.not_mem_expired hst ⟨u, hb⟩ he hn
    · rw [h.others u hu] at hn
      exact hl.todo u n hn
  · rcases h.mem_story.mp hn with hn | hn
    · exact hl.freed n hn
    · exact hl.todo t n (h.frees n hn)

/-- The publication itself. -/
theorem Unsettled.late (hd : d.Unsettled) (hp : (d.thread t).point? = some (.publish tid e b)) :
    Late d tid e (d.step t).1 := by
  have ho := hd.reach.owned
  obtain ⟨c, hc, hph⟩ := Option.map_eq_some_iff.mp hp
  obtain ⟨rest, hc⟩ : ∃ rest, (d.thread t).calls = c :: rest := List.head?_eq_some_iff.mp hc
  have hstep : (d.step t).1 = d.publish t tid e b := by rw [step_eq hc, hph]
  have ht : Turn d t none (d.step t).1 := hstep ▸ ho.turn_publish hc hph
  have hstory : (d.step t).1.story = d.story := ht.story.trans (List.append_nil _)
  have hac := (hd.reach.move t .step (by rw [may, hc]; exact List.cons_ne_nil _ _)).accounted
  have hr := (publish_frame d t tid e b).1
  refine ⟨?_, Or.inl ?_, fun b hb n hn => Or.inl ?_, fun u n hn => ?_, fun n hn => ?_⟩
  · rw [hstep, hr]
    exact congrArg Slot.epoch ((Registry.slot_pin _ _ _ (ho.hasSlot_of_publish hc hph)).trans (if_pos rfl))
  · rw [hstep, hr]; rfl
  · exact hstory ▸ hac.bag b hb n hn
  · exact hstory ▸ hac.todo u n hn
  · exact hstory ▸ hac.freed n hn

theorem WhilePinned.late (h : WhilePinned tid (d₀.step t).1 d) (h₀ : d₀.Unsettled) (hrest : d₀.othersPause t)
    (hp : (d₀.thread t).point? = some (.publish tid e b)) (hw : ¬ d.wrapped) :
    Late d₀ tid e d ∧ (d.registry.slot tid).epoch ≠ quiescent := by
  have hm : d₀.may t .step := fun h0 => by
    rw [Thread.point?, h0] at hp
    cases hp
  induction h with
  | start =>
    obtain ⟨x, ht⟩ := h₀.reach.owned.turn hm
    have hl := h₀.late hp
    exact ⟨hl, hl.slot.symm ▸ h₀.reach.publishes_epoch (ht.not_wrapped hw).1 t tid e b hp⟩
  | move u m hrun hothers hmay hstays ih =>
    have hd := hrun.unsettled (h₀.move t .step hrest hm)
    obtain ⟨x, ht⟩ := hd.reach.owned.turn hmay
    obtain ⟨hl, hpinned⟩ := ih (ht.not_wrapped hw).1
    exact ⟨hl.turn ht hd (ht.not_wrapped hw).1 hpinned hstays, hstays⟩

/-- However old the epoch is that a pin publishes: as long as its slot is not quiescent again, the
    slot holds that epoch, the global epoch is at most one further than it was at the
    publication, and nothing has been destroyed that was not retired before it. -/
theorem Unsettled.late_pin_protects (h : d.Unsettled) (hrest : d.othersPause t)
    (hp : (d.thread t).point? = some (.publish tid e b)) (hrun : WhilePinned tid (d.step t).1 d') (hw : ¬ d'.wrapped) :
    (d'.registry.slot tid).epoch = e ∧
      (d.registry.epoch.toNat ≤ d'.registry.epoch.toNat ∧ d'.registry.epoch.toNat ≤ d.registry.epoch.toNat + 1) ∧
      ∀ n, ¬ d.wasRetired n → .freed n ∉ d'.trace := by
  obtain ⟨hl, -⟩ := hrun.late h hrest hp hw
  have hreach := (hrun.unsettled (h.move t .step hrest fun h0 => by rw [Thread.point?, h0] at hp; cases hp)).reach
  refine ⟨hl.slot, hl.epoch_le (hreach.stamped hw).positive, fun n hn hf => hn ?_⟩
  exact (mem_story rfl).mp (hl.freed n ((mem_story rfl).mpr hf))

/-! ## Runs given as lists of moves -/

instance (d : Domain ν κ) (t : Nat) : Decidable (d.othersPause t) :=
  decidable_of_iff (∀ u, u < d.threads.cells.size → u ≠ t → (d.thread u).pauses = true) <| by
    constructor
    · intro h u hu
      by_cases hlt : u < d.threads.cells.size
      · exact h u hlt hu
      · rw [Thread.pauses, Thread.point?, calls_of_size_le (Nat.le_of_not_lt hlt)]
        rfl
    · exact fun h u _ hu => h u hu

section

variable [DecidableEq ν]

/-- Makes the moves in order while others pause, and stops before a state that is not `ok`. -/
def playPaused (ok : Domain ν κ → Bool) (d : Domain ν κ) : List (Nat × Move ν κ) → Option (Domain ν κ)
  | [] => some d
  | (t, m) :: ms =>
    if d.othersPause t ∧ d.may t m ∧ ok (d.move t m) = true then (d.move t m).playPaused ok ms else none

theorem Unsettled.of_play {ok : Domain ν κ → Bool} {ms : List (Nat × Move ν κ)} :
    ∀ {d d' : Domain ν κ}, d.Unsettled → d.playPaused ok ms = some d' → d'.Unsettled := by
  induction ms with
  | nil => intro d d' h e; cases e; exact h
  | cons tm ms ih =>
    intro d d' h e
    rw [playPaused] at e
    split at e
    · rename_i hm
      exact ih (h.move tm.1 tm.2 hm.1 hm.2.1) e
    · cases e

theorem WhilePinned.of_play {ms : List (Nat × Move ν κ)} : ∀ {d d' : Domain ν κ}, WhilePinned tid d₀ d →
    d.playPaused (fun d => (d.registry.slot tid).epoch != quiescent) ms = some d' → WhilePinned tid d₀ d' := by
  induction ms with
  | nil => intro d d' h e; cases e; exact h
  | cons tm ms ih =>
    intro d d' h e
    rw [playPaused] at e
    split at e
    · rename_i hm
      exact ih (h.move tm.1 tm.2 hm.1 hm.2.1 (bne_iff_ne.mp hm.2.2)) e
    · cases e

end

/-- Thread 0 reads epoch 1; thread 1 flushes three times, which takes the global epoch to 4; then
    thread 2 reads that. -/
def belatedRun : List (Nat × Move Nat Nat) :=
  [(0, .pin 0), (1, .flush 0), (1, .step), (1, .step), (1, .step), (1, .flush 0), (1, .step), (1, .step), (1, .step),
    (1, .flush 0), (1, .step), (1, .step), (1, .step), (2, .pin 0)]

/-- Thread 0, which has published, gets its guard; thread 1 retires node 9 and flushes, thread 2
    publishes and gets a guard, and thread 1 flushes again. -/
def guardedRun : List (Nat × Move Nat Nat) :=
  [(0, .step), (1, .retire 9 0), (1, .step), (1, .flush 0), (1, .step), (1, .step), (1, .step), (2, .step), (2, .step),
    (1, .flush 0), (1, .step), (1, .step), (1, .step)]

theorem belatedRun_plays : (({} : Domain Nat Nat).playPaused (fun _ => true) belatedRun).isSome = true := by
  decide +kernel

def belated : Domain Nat Nat := (({} : Domain Nat Nat).playPaused (fun _ => true) belatedRun).get belatedRun_plays

theorem belated_reached : belated.Unsettled := .of_play .start (Option.some_get belatedRun_plays).symm

theorem guardedRun_plays : ((belated.step 0).1.playPaused
    (fun d => (d.registry.slot 0).epoch != quiescent) guardedRun).isSome = true := by
  decide +kernel

def belatedEnd : Domain Nat Nat := ((belated.step 0).1.playPaused _ guardedRun).get guardedRun_plays

theorem belatedEnd_reached : WhilePinned 0 (belated.step 0).1 belatedEnd :=
  .of_play .start (Option.some_get guardedRun_plays).symm

/-- The slot is three epochs behind, and node 9 waits. -/
theorem late_pin_at_belatedEnd : ¬ belated.wasRetired 9 ∧ belatedEnd.wasRetired 9 ∧ belated.registry.epoch = 4 ∧
    (belatedEnd.registry.slot 0).epoch = 1 ∧
    (4 ≤ belatedEnd.registry.epoch.toNat ∧ belatedEnd.registry.epoch.toNat ≤ 5) ∧ .freed 9 ∉ belatedEnd.trace := by
  have hp : (belated.thread 0).point? = some (.publish 0 1 false) := by decide +kernel
  have hw : ¬ belatedEnd.wrapped :=
    (belatedEnd_reached.unsettled (belated_reached.move 0 .step (by decide +kernel) (by decide +kernel))).reach
      |>.not_wrapped_of_size (by decide +kernel)
  have hnew : ¬ belated.wasRetired 9 := by unfold wasRetired; decide +kernel
  have hepoch : belated.registry.epoch = 4 := by decide +kernel
  obtain ⟨hslot, hnear, hfreed⟩ :=
    belated_reached.late_pin_protects (by decide +kernel) hp belatedEnd_reached hw
  rw [hepoch] at hnear
  exact ⟨hnew, by unfold wasRetired; decide +kernel, hepoch, hslot, hnear, hfreed 9 hnew⟩

end Domain

end EpochQueue.Reclaim
