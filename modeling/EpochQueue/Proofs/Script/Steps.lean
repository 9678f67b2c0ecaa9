/-
  EpochQueue.Proofs.Script.Steps — one step of a thread that has something to do.

  Every step brings the thread onward and leaves it less to do (`step_stepped`). A frame that waits
  stays until the world answers (`step_waiting`), and the frames under a destructor stay as they are
  as long as it runs.
-/

import EpochQueue.Proofs.Script.Tasks

namespace EpochQueue.Script.State

open EpochQueue.Fifo (Garbage Operation Signal Ticketed gripsOf callLoad callsLoad Moves World)
open EpochQueue.Reclaim (Call Guard Notice Phase)

variable {α : Type}

/-- A step of a frame that waits for `a`. -/
structure Waited (s : State α) (t : Nat) (f : Frame α) (below : List (Frame α)) (a : Await) (s' : State α) : Prop where
  onward : Onward t s s'
  less : s'.left t < s.left t
  frames : (∃ top, (s'.worker t).frames = top ++ f :: below) ∨
    ∃ r, (s'.worker t).frames = f.after r :: below ∧ (a = .flushed → ∃ n, r = .number n)
  guards : a ≠ .namedGuard → (s'.worker t).guards = (s.worker t).guards

section

variable {s s' : State α} {t : Nat} {f : Frame α} {below : List (Frame α)} {a : Await}

/-- The state after a step of the world. -/
def moved (s : State α) (t : Nat) : State α := s.onWorld fun w => (w.step t).1

/-- The state after that, with what the thread makes of it. -/
def told (s : State α) (t : Nat) (a : Await) : Signal α → State α
  | .idle | .quiet => s.moved t
  | .accessed _ pause => if pause = some .yield then (s.moved t).note .yielded else s.moved t
  | .freed i => (s.moved t).destroy t i
  | .answered x => (s.moved t).answered t a x
  | .finished r => (s.moved t).finished t a r

theorem step_of_waiting (hframes : (s.worker t).frames = f :: below) (ha : f.await = some a) :
    (s.step t).1 = s.told t a (s.world.step t).2 ∧
      ((s.step t).2 = .quiet ∨ ∃ x, (s.step t).2 = .accessed x) := by
  have hstep : s.step t = match (s.world.step t).2 with
      | .idle | .quiet => (s.moved t, .quiet)
      | .accessed x pause => (if pause = some .yield then (s.moved t).note .yielded else s.moved t, .accessed x)
      | .freed i => ((s.moved t).destroy t i, .quiet)
      | .answered x => ((s.moved t).answered t a x, .quiet)
      | .finished r => ((s.moved t).finished t a r, .quiet) := by
    unfold step
    rw [hframes]
    simp only [ha]
    rfl
  rw [hstep]
  cases (s.world.step t).2 with
  | accessed x pause => exact ⟨rfl, Or.inr ⟨x, rfl⟩⟩
  | _ => exact ⟨rfl, Or.inl rfl⟩

theorem finished_eq (s : State α) (t : Nat) (a : Await) (r : Fifo.Outcome α) :
    ∃ r', s.finished t a r = s.deliver t r' := by
  unfold finished
  (repeat' split) <;> exact ⟨_, rfl⟩

/-- What a frame that waits comes to, by what the thread has under way then. -/
theorem Sound.waited (hs : s.Sound) (hframes : (s.worker t).frames = f :: below) (ha : f.await = some a)
    (hw : World.Onward t s.world s'.world) (hworkers : ∀ u, u ≠ t → s'.worker u = s.worker u)
    (hb : Booked s'.objects s'.world.domain.story) (hq : s'.queues = s.queues) (hi : s'.iterators = s.iterators)
    (ht : Seated s'.world.store.nextQueue (s'.worker t) (s'.world.operation t) (s'.world.domain.thread t))
    (hless : Frame.stackCost (s'.worker t).frames + s'.world.load t + s'.stock <
      f.rest + belowCost below + s.world.load t + s.stock)
    (hstays : (∃ top, (s'.worker t).frames = top ++ f :: below) ∨
      ∃ r, (s'.worker t).frames = f.after r :: below ∧ (a = .flushed → ∃ n, r = .number n))
    (hguards : a ≠ .namedGuard → (s'.worker t).guards = (s.worker t).guards) : Waited s t f below a s' where
  onward := hs.onward hw hworkers hb (hq ▸ hs.queues.mono hw.queues) (hi ▸ hs.iterators.mono hw.queues) ht
  less := by
    have hstack : Frame.stackCost (f :: below) = f.rest + belowCost below := by
      simp only [Frame.stackCost, ha, Option.isSome_some, if_true, belowCost]
    unfold left
    rw [hframes, hstack]
    exact hless
  frames := hstays
  guards := hguards

/-- The frame goes on waiting. -/
theorem Sound.goesOn (hs : s.Sound) (s' : State α) (w' : World α) (hframes : (s.worker t).frames = f :: below)
    (ha : f.await = some a) (hworld : s'.world = w') (hworkers : s'.workers = s.workers)
    (hobjects : s'.objects = s.objects) (hq : s'.queues = s.queues) (hi : s'.iterators = s.iterators)
    (hw : World.Onward t s.world w') {o : Option (Operation α)} {calls : List (Call Garbage (Option (Operation α)))}
    (hop : w'.operation t = o) (hc : (w'.domain.thread t).calls = calls) (hb : Booked s.objects w'.domain.story)
    (hstands : Stands (f :: below) o calls) (htickets : ∀ c ∈ calls, Ticketed c)
    (hperm : (w'.domain.thread t).guards.Perm ((s.worker t).guards.map (·.2) ++ gripsOf o calls))
    (hless : w'.load t + w'.linksLeft < s.world.load t + s.world.linksLeft) : Waited s t f below a s' := by
  subst hworld hop hc
  have hworker : ∀ u, s'.worker u = s.worker u := fun u => by unfold worker; rw [hworkers]
  have hseat := (hs.seated t).mono hw.queues
  refine hs.waited hframes ha hw (fun u _ => hworker u) (hobjects ▸ hb) hq hi ?_ ?_
    (Or.inl ⟨[], (hworker t).symm ▸ hframes⟩) fun _ => by rw [hworker]
  · rw [hworker]
    exact ⟨hframes.symm ▸ hstands, htickets, hperm, hseat.numbers, hseat.bound, hseat.fine⟩
  · have hstack : Frame.stackCost (f :: below) = f.rest + belowCost below := by
      simp only [Frame.stackCost, ha, Option.isSome_some, if_true, belowCost]
    rw [hworker, hframes, hstack]
    unfold stock objectsCost
    rw [hobjects]
    omega

/-- The frame gets its result. -/
theorem Sound.delivered (hs : s.Sound) (s' : State α) (w' : World α) (hframes : (s.worker t).frames = f :: below)
    (ha : f.await = some a) {r : Result α} (hworld : s'.world = w') (hworkers : ∀ u, u ≠ t → s'.worker u = s.worker u)
    (hsame : (s'.worker t).frames = (s.worker t).frames) (hobjects : s'.objects = s.objects) (hq : s'.queues = s.queues)
    (hi : s'.iterators = s.iterators) (hw : World.Onward t s.world w')
    {calls : List (Call Garbage (Option (Operation α)))} (hop : w'.operation t = none)
    (hc : (w'.domain.thread t).calls = calls) (hb : Booked s.objects w'.domain.story)
    (hu : Under f below calls) (htickets : ∀ c ∈ calls, Ticketed c)
    (hperm : (w'.domain.thread t).guards.Perm ((s'.worker t).guards.map (·.2) ++ gripsOf none calls))
    (hnumbers : ((s'.worker t).guards.map (·.1)).Nodup)
    (hbound : ∀ i ∈ (s'.worker t).guards.map (·.1), i < (s'.worker t).nextGuard)
    (hflush : a = .flushed → ∃ n, r = .number n)
    (hguards : a ≠ .namedGuard → (s'.worker t).guards = (s.worker t).guards)
    (hless : w'.load t + w'.linksLeft < s.world.load t + s.world.linksLeft) :
    Waited s t f below a (s'.deliver t r) := by
  subst hworld hc
  obtain ⟨hdw, hdobj, hdq, hdi⟩ := s'.deliver_frame t r
  have hworker := worker_deliver (hsame.trans hframes) r
  have hthread := hworker t
  rw [if_pos rfl] at hthread
  have hseat := (hs.seated t).mono hw.queues
  refine hs.waited hframes ha (hdw ▸ hw) (fun u e => by rw [hworker, if_neg e]; exact hworkers u e)
    (by rw [hdw, hdobj, hobjects]; exact hb) (hdq.trans hq) (hdi.trans hi) ?_ ?_
    (Or.inr ⟨r, by rw [hthread], hflush⟩) fun h => by rw [hthread]; exact hguards h
  · rw [hthread, hdw, hop]
    exact ⟨.ready rfl (hu.congr rfl rfl), htickets, hperm, hnumbers, hbound,
      hseat.fine_top hframes ((hseat.fine f (hframes ▸ List.mem_cons_self)).after r)⟩
  · rw [hthread, hdw]
    unfold stock objectsCost
    rw [hdobj, hdw, hobjects]
    show f.rest + belowCost below + _ + _ < _
    omega

/-! ## Steps of what is under way -/

/-- At most one thing has happened, and it is about no node. -/
theorem aside {story story' : List (Notice Garbage)}
    (h : story' = story ∨ ∃ x : Notice Garbage, x.isDisposal = false ∧ story' = story ++ [x]) :
    ∃ x, story' = story ++ x ∧ (∀ i, .retired (.object i) ∉ x ∧ .freed (.object i) ∉ x) ∧
      (x.filterMap (·.freed?)).filterMap (·.link?) = [] := by
  rcases h with h | ⟨x, hx, h⟩
  · exact ⟨[], by rw [h, List.append_nil], fun _ => ⟨List.not_mem_nil, List.not_mem_nil⟩, rfl⟩
  · refine ⟨[x], h, fun i => ⟨fun hi => ?_, fun hi => ?_⟩, ?_⟩
    · rw [← List.mem_singleton.mp hi] at hx
      cases hx
    · rw [← List.mem_singleton.mp hi] at hx
      cases hx
    · cases x with
      | freed n => cases hx
      | _ => rfl

theorem Sound.not_rests (hs : s.Sound) (hframes : (s.worker t).frames = f :: below) (ha : f.await = some a) :
    ¬ s.world.rests t := by
  rintro ⟨hop, hc⟩
  have hstands := (hs.seated t).stands
  rw [hframes, hop, hc] at hstands
  cases hstands with
  | ready hn => rw [hn] at ha; cases ha

theorem Sound.world_step (hs : s.Sound) (hframes : (s.worker t).frames = f :: below) (ha : f.await = some a) :
    World.Onward t s.world (s.world.step t).1 := by
  have hseat := hs.seated t
  refine World.onward_step hs.queueInv.choose_spec (hs.not_rests hframes ha) fun o ho => ?_
  have hstands := hseat.stands
  rw [hframes, ho] at hstands
  refine ⟨by rw [Reclaim.Domain.mayCall_eq]; exact (hstands.of_working ha).2.freeing, fun g hg => ?_⟩
  rw [hseat.guards.mem_iff, ho, Fifo.gripsOf_some, hg]
  exact List.mem_append_right _ List.mem_cons_self

/-- The operation of a frame that waits takes a step. -/
theorem Sound.operation_moves (hs : s.Sound) (hframes : (s.worker t).frames = f :: below) (ha : f.await = some a)
    {o : Operation α} (hop : s.world.operation t = some o) {signal : Signal α}
    (hm : Moves s.world t (s.world.step t).1 signal) : Waited s t f below a (s.told t a signal) := by
  have hseat := hs.seated t
  have hstands := hseat.stands
  have hperm := hseat.guards
  have hw := hs.world_step hframes ha
  rw [hframes, hop] at hstands
  rw [hop, Fifo.gripsOf_some] at hperm
  obtain ⟨hne, hu⟩ := hstands.of_working ha
  have hload := World.load_eq hop (rfl : (s.world.domain.thread t).calls = _)
  simp only [Option.map_some, Option.getD_some] at hload
  cases hm with
  | accessed o₀ o' x pause hop₀ hop' hleft hguard hd hst =>
    cases hop.symm.trans hop₀
    have hc : ((s.world.step t).1.domain.thread t).calls = (s.world.domain.thread t).calls := by rw [hd]
    have hload' := World.load_eq hop' hc
    have hlinks : (s.world.step t).1.linksLeft = s.world.linksLeft := by unfold World.linksLeft; rw [hd, hst]
    simp only [Option.map_some, Option.getD_some] at hload'
    have hgoes : ∀ s' : State α, s'.world = (s.world.step t).1 → s'.workers = s.workers → s'.objects = s.objects →
        s'.queues = s.queues → s'.iterators = s.iterators → Waited s t f below a s' := fun s' h1 h2 h3 h4 h5 =>
      hs.goesOn s' _ hframes ha h1 h2 h3 h4 h5 hw hop' hc (hd ▸ hs.booked) (.working ha hne hu) hseat.tickets
        (by rw [hd, Fifo.gripsOf_some, hguard]; exact hperm) (by omega)
    dsimp only [told]
    split
    · exact hgoes _ rfl rfl rfl rfl rfl
    · exact hgoes _ rfl rfl rfl rfl rfl
  | took o₀ r q head hop₀ hop' hleft hq hpin hflush hc hg hst hsl =>
    cases hop.symm.trans hop₀
    have hload' := World.load_eq hop' hc
    have hlinks := World.linksLeft_le _ _ (k := 0) hst rfl (Nat.le_of_eq hsl)
    simp only [Option.map_none, Option.getD_none, callsLoad, callLoad, Option.map_some, Option.getD_some,
      Operation.wait_of_leave (o := o.leave r) rfl] at hload'
    refine hs.goesOn (s.moved t) (s.world.step t).1 hframes ha rfl rfl rfl rfl rfl hw hop' hc ?_
      (.calling ha (fun e => absurd e hne) hu) (fun c hc => ?_) ?_ (by omega)
    · rw [hst]
      exact hs.booked.append (by simp)
    · rcases List.mem_cons.mp hc with rfl | hc
      · intro o' ho'
        cases ho'
        refine ⟨hflush, ?_⟩
        rw [hpin]
        exact ⟨r, rfl⟩
      · exact hseat.tickets c hc
    · rw [hg, Fifo.gripsOf_cons]
      exact hperm
  | left o₀ r hop₀ hop' hleft hc hg hst hsl =>
    cases hop.symm.trans hop₀
    have hload' := World.load_eq hop' hc
    obtain ⟨x, hst, hx, hfreed⟩ := aside (hst.imp_right fun h => h.elim fun g h => ⟨.unpinned g, rfl, h⟩)
    have hlinks := World.linksLeft_le _ _ (k := 0) hst hfreed (Nat.le_of_eq hsl)
    simp only [Option.map_none, Option.getD_none] at hload'
    obtain ⟨r', hr'⟩ := (s.moved t).finished_eq t a r
    dsimp only [told]
    rw [hr']
    refine hs.delivered (s.moved t) (s.world.step t).1 hframes ha rfl (fun _ _ => rfl) rfl rfl rfl rfl hw hop' hc ?_ hu
      hseat.tickets ?_ hseat.numbers hseat.bound (fun e => absurd e hne) (fun _ => rfl) (by omega)
    · rw [hst]
      exact hs.booked.append hx
    · rw [hg]
      cases hgo : o.guard with
      | none =>
        rw [hgo] at hperm
        exact hperm
      | some g =>
        rw [hgo, Option.toList_some, List.singleton_append] at hperm
        have hrest := (hperm.trans List.perm_middle).erase g
        rwa [List.erase_cons_head] at hrest
  | on _ _ _ h | freed _ _ _ _ _ _ _ h | resumed _ _ _ _ h | back _ _ _ h | pinned _ _ _ h | answered _ _ _ _ h =>
    rw [hop] at h
    cases h

/-- A guard that the frame was given for a moment is dropped again. -/
theorem passes {w w' : World α} (hw : World.Onward t w w') (hop : w'.operation t = none)
    {calls : List (Call Garbage (Option (Operation α)))} (hc : (w'.domain.thread t).calls = calls)
    (hu : Under f below calls) {g : Guard} (hg : g ∈ (w'.domain.thread t).guards) :
    World.Onward t w (w'.unpin t g) := by
  have hmay : w'.mayBegin t = true :=
    World.mayBegin_iff.mpr ⟨hop, by rw [Reclaim.Domain.mayCall_eq, hc]; exact hu.freeing⟩
  exact hw.trans (World.onward_unpin hw.queueInv.choose_spec hmay hg)

theorem answered_guard {g : Guard} (h : a ≠ .namedGuard) :
    s.answered t a (.guard g) = (s.onWorld fun w => w.unpin t g).deliver t .null := by
  cases a <;> first | rfl | exact absurd rfl h

theorem answered_other {x : Reclaim.Answer} (hx : ∀ g, x ≠ .guard g) :
    ∃ r, s.answered t a x = s.deliver t r ∧ ∀ n, x = .flushed n → r = .number n := by
  cases x with
  | guard g => exact absurd rfl (hx g)
  | retired => cases a <;> exact ⟨_, rfl, nofun⟩
  | flushed n => exact ⟨_, rfl, fun m e => by cases e; rfl⟩

/-- An object that is destroyed now was retired and not destroyed before. -/
theorem Sound.destroyed (hs : s.Sound) {w' : World α} (hw : World.Onward t s.world w') {i : Nat}
    (hst : w'.domain.story = s.world.domain.story ++ [.freed (.object i)]) :
    ∃ o, s.objects[i]? = some o ∧ o.freed = false := by
  have hb := hw.queueInv.choose_spec.reach.balanced
  have hfrees : w'.domain.frees = s.world.domain.frees ++ [.object i] := by
    rw [Reclaim.Domain.frees_eq, Reclaim.Domain.frees_eq, hst, List.filterMap_append]
    rfl
  have hkept : Garbage.object i ∈ w'.domain.retirements :=
    hb.perm.mem_iff.mpr (List.mem_append_left _ (hfrees ▸ List.mem_append_right _ List.mem_cons_self))
  have hret : .retired (.object i) ∈ w'.domain.story :=
    (Reclaim.Domain.mem_story rfl).mpr (Reclaim.Domain.mem_retirements.mp hkept)
  have hnodup : w'.domain.frees.Nodup := (List.nodup_append.mp (hb.perm.nodup_iff.mp hb.nodup)).1
  have hnew : .freed (.object i) ∉ s.world.domain.story := fun h => by
    have hold : Garbage.object i ∈ s.world.domain.frees :=
      Reclaim.Domain.mem_frees.mpr ((Reclaim.Domain.mem_story rfl).mp h)
    rw [hfrees] at hnodup
    exact (List.nodup_append.mp hnodup).2.2 _ hold _ List.mem_cons_self rfl
  rw [hst] at hret
  have hi := hs.booked.known i (Or.inl ((List.mem_append.mp hret).resolve_right (by simp)))
  refine ⟨_, Array.getElem?_eq_getElem hi, ?_⟩
  rw [← Bool.not_eq_true, hs.booked.freed i _ (Array.getElem?_eq_getElem hi)]
  exact hnew

theorem destroy_eq {i : Nat} {o : Object α} (ho : s.objects[i]? = some o) : ∃ log, s.destroy t i =
    { (s.modifyObject i fun o => { o with freed := true }).pushFrame t
      { object := some i, inside := true, todo := o.onFree.map .command, gather := .nothing } with log } := by
  unfold destroy
  rw [ho]
  dsimp only
  split <;> exact ⟨_, rfl⟩

/-- A destructor begins, on top of the frame that waits for the call it runs in. -/
theorem Sound.destructs (hs : s.Sound) (s' : State α) (w' : World α) (hframes : (s.worker t).frames = f :: below)
    (ha : f.await = some a) {i : Nat} {o : Object α} (ho : s.objects[i]? = some o) (hnot : o.freed = false)
    (hworld : s'.world = w') (hworkers : s'.workers = s.workers) (hobjects : s'.objects = s.objects)
    (hq : s'.queues = s.queues) (hi : s'.iterators = s.iterators) (hw : World.Onward t s.world w')
    {c : Call Garbage (Option (Operation α))} {calls : List (Call Garbage (Option (Operation α)))}
    (hop : w'.operation t = none) (hc : (w'.domain.thread t).calls = c :: calls) (hfree : c.phase.isFreeing = true)
    (hst : w'.domain.story = s.world.domain.story ++ [.freed (.object i)]) (hfits : a.Fits c) (hu : Under f below calls)
    (htickets : ∀ c' ∈ c :: calls, Ticketed c')
    (hperm : (w'.domain.thread t).guards.Perm ((s.worker t).guards.map (·.2) ++ gripsOf none (c :: calls)))
    (hless : w'.load t + w'.linksLeft ≤ s.world.load t + s.world.linksLeft) :
    Waited s t f below a (s'.destroy t i) := by
  subst hworld
  obtain ⟨log, hdestroy⟩ := destroy_eq (s := s') (t := t) (i := i) (o := o) (by rw [hobjects]; exact ho)
  rw [hdestroy]
  generalize hg :
    ({ object := some i, inside := true, todo := o.onFree.map .command, gather := .nothing } : Frame α) = g
  have hworker : ∀ u, ({ (s'.modifyObject i fun o => { o with freed := true }).pushFrame t g with log }).worker u =
      if u = t then { s.worker t with frames := g :: f :: below } else s.worker u := fun u => by
    have hsame : ∀ u, s'.worker u = s.worker u := fun u => by unfold worker; rw [hworkers]
    refine (worker_pushFrame (s'.modifyObject i _) t g u).trans ?_
    rw [worker_modifyObject, worker_modifyObject, hsame, hsame, hframes]
  have hthread := hworker t
  rw [if_pos rfl] at hthread
  -- The object is worth nothing any more, and that pays for the frame of its destructor.
  have hcost := objectsCost_modifyObject (s := s) ho fun o => { o with freed := true }
  have hseat := (hs.seated t).mono hw.queues
  have hi' : i < s.objects.size := (Array.getElem?_eq_some_iff.mp ho).1
  refine hs.waited hframes ha hw (fun u e => (hworker u).trans (if_neg e)) ?_ hq hi ?_ ?_
    (Or.inl ⟨[g], by rw [hthread]; rfl⟩) fun _ => by rw [hthread]
  · show Booked (s'.objects.modify i fun o => { o with freed := true }) s'.world.domain.story
    rw [hst, hobjects]
    exact hs.booked.destroy hi'
  · rw [hthread]
    show Seated s'.world.store.nextQueue _ (s'.world.operation t) (s'.world.domain.thread t)
    rw [hop]
    refine ⟨hc ▸ .ready (by rw [← hg]) (.destructor (by rw [← hg]; rfl) (by rw [← hg]) ha hfits hfree hu),
      hc ▸ htickets, hc ▸ hperm, hseat.numbers, hseat.bound, fun h hh => ?_⟩
    rcases List.mem_cons.mp hh with rfl | hh
    · rw [← hg]
      exact ⟨Task.fine_commands (hs.booked.fine i o ho), nofun, nofun, nofun⟩
    · exact hseat.fine h (hframes ▸ hh)
  · have hg' : g.cost = 1 + Command.costs o.onFree := by
      rw [← hg, Frame.cost, Task.costs_command, Nat.zero_mul]
      rfl
    have hstack : Frame.stackCost (g :: f :: below) = g.cost + (f.rest + belowCost below) := by
      rw [← hg]; rfl
    have hstock : State.stock { (s'.modifyObject i fun o => { o with freed := true }).pushFrame t g with log } =
        (s.modifyObject i fun o => { o with freed := true }).objectsCost + s'.world.linksLeft := by
      unfold stock objectsCost modifyObject pushFrame modifyWorker
      rw [hobjects]
    have hload :
        State.world { (s'.modifyObject i fun o => { o with freed := true }).pushFrame t g with log } = s'.world := rfl
    simp only [Object.cost, hnot, Bool.false_eq_true, if_false, if_true] at hcost
    rw [hthread, hstack, hstock, hload, hg']
    unfold stock
    omega

/-- What a frame that waits has of the call on top. -/
theorem Sound.calling (hs : s.Sound) (hframes : (s.worker t).frames = f :: below) (ha : f.await = some a)
    {c : Call Garbage (Option (Operation α))} {rest : List (Call Garbage (Option (Operation α)))}
    (hop : s.world.operation t = none) (hold : (s.world.domain.thread t).calls = c :: rest) :
    a.Fits c ∧ Under f below rest ∧ Ticketed c ∧ (∀ c' ∈ rest, Ticketed c') ∧
      (s.world.domain.thread t).guards.Perm ((s.worker t).guards.map (·.2) ++ gripsOf none (c :: rest)) ∧
      s.world.load t = callLoad c + callsLoad rest := by
  have hseat := hs.seated t
  have hstands := hseat.stands
  have htickets := hseat.tickets
  have hperm := hseat.guards
  have hload := World.load_eq hop hold
  rw [hframes, hop, hold] at hstands
  rw [hold, List.forall_mem_cons] at htickets
  rw [hop, hold] at hperm
  simp only [Option.map_none, Option.getD_none, Nat.zero_add, callsLoad] at hload
  exact ⟨(hstands.of_calling ha).1, (hstands.of_calling ha).2, htickets.1, htickets.2, hperm, hload⟩

/-- What it has when that call, which no operation waits for, has returned in `w'`. -/
theorem Sound.returning (hs : s.Sound) (hframes : (s.worker t).frames = f :: below) (ha : f.await = some a)
    {c : Call Garbage (Option (Operation α))} {rest : List (Call Garbage (Option (Operation α)))} (w' : World α)
    {x : List (Notice Garbage)} (hop : s.world.operation t = none) (hop' : w'.operation t = none)
    (hold : (s.world.domain.thread t).calls = c :: rest) (hc : (w'.domain.thread t).calls = rest)
    (hticket : c.ticket = none) (hst : w'.domain.story = s.world.domain.story ++ x)
    (hx : (x.filterMap (·.freed?)).filterMap (·.link?) = []) (hsl : w'.store = s.world.store) :
    a.Fits c ∧ Under f below rest ∧ (∀ c' ∈ rest, Ticketed c') ∧
      (s.world.domain.thread t).guards.Perm ((s.worker t).guards.map (·.2) ++ gripsOf none rest) ∧
      w'.load t + w'.linksLeft < s.world.load t + s.world.linksLeft := by
  obtain ⟨hfits, hu, -, htickets, hperm, hload⟩ := hs.calling hframes ha hop hold
  have hload' := World.load_eq hop' hc
  have hlinks := World.linksLeft_le s.world w' (k := 0) hst hx (Nat.le_of_eq (congrArg _ hsl))
  have hpos := c.phase.left_pos
  rw [Fifo.gripsOf_cons, hticket, Option.bind_none, Option.toList_none, List.nil_append] at hperm
  unfold callLoad at hload
  simp only [Option.map_none, Option.getD_none] at hload'
  exact ⟨hfits, hu, htickets, hperm, by omega⟩

/-- The frame is given the guard that it waits for, with a number. -/
theorem Sound.handed (hs : s.Sound) (hframes : (s.worker t).frames = f :: below) (ha : f.await = some .namedGuard)
    {c : Call Garbage (Option (Operation α))} {rest : List (Call Garbage (Option (Operation α)))} {g : Guard}
    (hop : s.world.operation t = none) (hop' : (s.world.step t).1.operation t = none)
    (hold : (s.world.domain.thread t).calls = c :: rest) (hc : ((s.world.step t).1.domain.thread t).calls = rest)
    (hticket : c.ticket = none)
    (hg : ((s.world.step t).1.domain.thread t).guards = g :: (s.world.domain.thread t).guards)
    (hst : (s.world.step t).1.domain.story = s.world.domain.story ++ [.pinned g])
    (hsl : (s.world.step t).1.store = s.world.store) :
    Waited s t f below .namedGuard (s.told t .namedGuard (.answered (.guard g))) := by
  obtain ⟨-, hu, htickets, hperm, hless⟩ :=
    hs.returning hframes ha (s.world.step t).1 hop hop' hold hc hticket hst rfl hsl
  have hseat := hs.seated t
  have hworker := worker_modifyWorker (s.moved t) t (f := fun w =>
    { w with guards := ((s.worker t).nextGuard, g) :: w.guards, nextGuard := (s.worker t).nextGuard + 1 })
  have hthread := hworker t
  rw [if_pos rfl] at hthread
  refine hs.delivered ((s.moved t).modifyWorker t fun w =>
    { w with guards := ((s.worker t).nextGuard, g) :: w.guards, nextGuard := (s.worker t).nextGuard + 1 })
    (s.world.step t).1 hframes ha rfl (fun u e => (hworker u).trans (if_neg e)) (by rw [hthread]; rfl) rfl rfl rfl
    (hs.world_step hframes ha) hop' hc (by rw [hst]; exact hs.booked.append (by simp)) hu htickets ?_ ?_ ?_
    (fun e => by cases e) (fun h => absurd rfl h) hless
  · rw [hthread, hg]
    exact hperm.cons g
  · rw [hthread]
    exact List.nodup_cons.mpr ⟨fun h => Nat.lt_irrefl _ (hseat.bound _ h), hseat.numbers⟩
  · rw [hthread]
    exact List.forall_mem_cons.mpr ⟨Nat.lt_succ_self _, fun i hi => Nat.lt_succ_of_lt (hseat.bound i hi)⟩

/-- The frame has no use for the guard, and drops it in the same step. -/
theorem Sound.spared (hs : s.Sound) (hframes : (s.worker t).frames = f :: below) (ha : f.await = some a)
    (hnamed : a ≠ .namedGuard) {c : Call Garbage (Option (Operation α))}
    {rest : List (Call Garbage (Option (Operation α)))} {g : Guard}
    (hop : s.world.operation t = none) (hop' : (s.world.step t).1.operation t = none)
    (hold : (s.world.domain.thread t).calls = c :: rest) (hc : ((s.world.step t).1.domain.thread t).calls = rest)
    (hticket : c.ticket = none) (hflush : c.phase.isFlush = false)
    (hg : ((s.world.step t).1.domain.thread t).guards = g :: (s.world.domain.thread t).guards)
    (hst : (s.world.step t).1.domain.story = s.world.domain.story ++ [.pinned g])
    (hsl : (s.world.step t).1.store = s.world.store) :
    Waited s t f below a (s.told t a (.answered (.guard g))) := by
  obtain ⟨hcalls, hguards⟩ := Reclaim.Domain.calls_unpin (s.world.step t).1.domain t g
  have hst' : ((s.world.step t).1.unpin t g).domain.story = s.world.domain.story ++ [.pinned g, .unpinned g] := by
    refine (Reclaim.Domain.unpin_frame (s.world.step t).1.domain t g).2.2.trans ?_
    rw [hst, List.append_assoc]
    rfl
  obtain ⟨hfits, hu, htickets, hperm, hless⟩ :=
    hs.returning hframes ha ((s.world.step t).1.unpin t g) hop hop' hold (hcalls.trans hc) hticket hst' rfl hsl
  have hseat := hs.seated t
  have hflushed : a ≠ .flushed := fun e => by rw [(hfits e).2] at hflush; cases hflush
  dsimp only [told]
  rw [answered_guard hnamed]
  refine hs.delivered ((s.moved t).onWorld fun w => w.unpin t g) ((s.world.step t).1.unpin t g) hframes ha rfl
    (fun _ _ => rfl) rfl rfl rfl rfl (passes (hs.world_step hframes ha) hop' hc hu (hg ▸ List.mem_cons_self)) hop'
    (hcalls.trans hc) (by rw [hst']; exact hs.booked.append (by simp)) hu htickets ?_ hseat.numbers hseat.bound
    (fun e => absurd e hflushed) (fun _ => rfl) hless
  show (((s.world.step t).1.domain.unpin t g).thread t).guards.Perm _
  rw [hguards, hg, List.erase_cons_head]
  exact hperm

/-- The call of a frame that waits takes a step. -/
theorem Sound.call_moves (hs : s.Sound) (hframes : (s.worker t).frames = f :: below) (ha : f.await = some a)
    (hop : s.world.operation t = none) {signal : Signal α}
    (hm : Moves s.world t (s.world.step t).1 signal) : Waited s t f below a (s.told t a signal) := by
  have hseat := hs.seated t
  have hw := hs.world_step hframes ha
  cases hm with
  | accessed _ _ _ _ h | took _ _ _ _ h | left _ _ h =>
    rw [hop] at h
    cases h
  | on c rest q hop₀ hop' hold hc hleft hflush hpin hg hst hsl =>
    obtain ⟨hfits, hu, hticket, htickets, hperm, hload⟩ := hs.calling hframes ha hop hold
    obtain ⟨x, hst, hx, hfreed⟩ := aside (hst.imp_right fun h => h.elim fun e h => ⟨.advanced e, rfl, h⟩)
    have hload' := World.load_eq hop' hc
    have hlinks := World.linksLeft_le _ _ (k := 0) hst hfreed (Nat.le_of_eq hsl)
    simp only [Option.map_none, Option.getD_none, callsLoad, callLoad] at hload hload'
    exact hs.goesOn (s.moved t) (s.world.step t).1 hframes ha rfl rfl rfl rfl rfl hw hop' hc
      (hst ▸ hs.booked.append hx) (.calling ha (hfits.goesOn hflush) hu)
      (List.forall_mem_cons.mpr ⟨hticket.goesOn hflush hpin, htickets⟩) (by rw [hg]; exact hperm) (by omega)
  | freed c rest p n todo freed signal hop₀ hop' hold hphase hc hsignal hg hst hsl =>
    obtain ⟨hfits, hu, hticket, htickets, hperm, hload⟩ := hs.calling hframes ha hop hold
    have hload' := World.load_eq hop' hc
    have hfits' : a.Fits { c with phase := .free p todo (freed + 1) } := hfits.goesOn (by rw [hphase]; rfl)
    have htickets' := List.forall_mem_cons.mpr
      ⟨hticket.goesOn (q := .free p todo (freed + 1)) (by rw [hphase]; rfl) (by rw [hphase]; rfl), htickets⟩
    simp only [Option.map_none, Option.getD_none, callsLoad, callLoad, hphase, Phase.left] at hload hload'
    cases n with
    | link n =>
      cases hsignal
      have hlinks := World.linksLeft_lt s.world (s.world.step t).1 hw.queueInv hst hsl
      exact hs.goesOn (s.moved t) (s.world.step t).1 hframes ha rfl rfl rfl rfl rfl hw hop' hc
        (by rw [hst]; exact hs.booked.append (by simp)) (.calling ha hfits' hu) htickets' (by rw [hg]; exact hperm)
        (by omega)
    | object i =>
      cases hsignal
      obtain ⟨o, ho, hnot⟩ := hs.destroyed hw hst
      have hlinks := World.linksLeft_le s.world (s.world.step t).1 (k := 0) hst rfl (Nat.le_of_eq hsl)
      exact hs.destructs (s.moved t) (s.world.step t).1 hframes ha ho hnot rfl rfl rfl rfl rfl hw hop' hc
        (decide_eq_true (Nat.succ_pos freed)) hst hfits' hu htickets' (by rw [hg]; exact hperm) (by omega)
  | resumed c rest o g hop₀ hop' hold hc hticket hpin hg hst hsl =>
    obtain ⟨hfits, hu, hwaits, htickets, hperm, hload⟩ := hs.calling hframes ha hop hold
    have hwaits := (hwaits o hticket).2
    rw [if_pos hpin] at hwaits
    have hload' := World.load_eq hop' hc
    have hlinks := World.linksLeft_le s.world (s.world.step t).1 (k := 0) hst rfl (Nat.le_of_eq (congrArg _ hsl))
    have hleft := Operation.left_of_start (o := { o with guard := some g }) hwaits.2 (s.world.step t).1.store
    have hpos := c.phase.left_pos
    simp only [Option.map_some, Option.getD_some, callLoad, hticket, Operation.wait_of_start hwaits.2] at hload hload'
    refine hs.goesOn (s.moved t) (s.world.step t).1 hframes ha rfl rfl rfl rfl rfl hw hop' hc
      (by rw [hst]; exact hs.booked.append (by simp)) (.working ha (fun e => ?_) hu) htickets ?_ (by omega)
    · rw [(hfits e).1] at hticket; cases hticket
    · rw [Fifo.gripsOf_cons, hticket, Option.bind_some, hwaits.1] at hperm
      rw [hg, Fifo.gripsOf_some]
      exact (hperm.cons g).trans List.perm_middle.symm
  | back c rest o hop₀ hop' hold hc hticket hpin hg hst hsl =>
    obtain ⟨hfits, hu, hwaits, htickets, hperm, hload⟩ := hs.calling hframes ha hop hold
    have hwaits := (hwaits o hticket).2
    rw [if_neg (hpin ▸ Bool.false_ne_true)] at hwaits
    obtain ⟨r, hr⟩ := hwaits
    have hload' := World.load_eq hop' hc
    have hlinks := World.linksLeft_le s.world (s.world.step t).1 (x := []) (k := 0) (hst.trans (List.append_nil _).symm)
      rfl (Nat.le_of_eq (congrArg _ hsl))
    have hpos := c.phase.left_pos
    simp only [Option.map_some, Option.getD_some, callLoad, hticket, Operation.wait_of_leave hr,
      Operation.left_of_leave hr] at hload hload'
    refine hs.goesOn (s.moved t) (s.world.step t).1 hframes ha rfl rfl rfl rfl rfl hw hop' hc (hst ▸ hs.booked)
      (.working ha (fun e => ?_) hu) htickets ?_ (by omega)
    · rw [(hfits e).1] at hticket; cases hticket
    · rw [Fifo.gripsOf_cons, hticket] at hperm
      rw [hg, Fifo.gripsOf_some]
      exact hperm
  | pinned c rest g hop₀ hop' hold hc hticket hflush hg hst hsl =>
    rcases Classical.em (a = .namedGuard) with rfl | hnamed
    · exact hs.handed hframes ha hop hop' hold hc hticket hg hst hsl
    · exact hs.spared hframes ha hnamed hop hop' hold hc hticket hflush hg hst hsl
  | answered c rest x hx hop₀ hop' hold hc hticket hflush hg hst hsl =>
    obtain ⟨hfits, hu, htickets, hperm, hless⟩ := hs.returning hframes ha (s.world.step t).1 (x := []) hop hop' hold hc
      hticket (hst.trans (List.append_nil _).symm) rfl hsl
    obtain ⟨r, hr, hnumber⟩ := answered_other (s := s.moved t) (t := t) (a := a) hx
    dsimp only [told]
    rw [hr]
    refine hs.delivered (s.moved t) (s.world.step t).1 hframes ha rfl (fun _ _ => rfl) rfl rfl rfl rfl hw hop' hc
      (hst ▸ hs.booked) hu htickets (by rw [hg]; exact hperm) hseat.numbers hseat.bound (fun e => ?_) (fun _ => rfl)
      hless
    obtain ⟨n, hn⟩ := hflush (hfits e).2
    exact ⟨n, hnumber n hn⟩

theorem step_waiting (hs : s.Sound) (hframes : (s.worker t).frames = f :: below) (ha : f.await = some a) :
    Waited s t f below a (s.step t).1 := by
  have hm := World.step_moves hs.queueInv.choose_spec (hs.not_rests hframes ha)
  rw [(step_of_waiting hframes ha).1]
  cases hop : s.world.operation t with
  | some o => exact hs.operation_moves hframes ha hop hm
  | none => exact hs.call_moves hframes ha hop hm

/-! ## Steps of the frames -/

/-- Any step. -/
structure Stepped (s : State α) (t : Nat) (f : Frame α) (below : List (Frame α)) (s' : State α) (p : Progress α) :
    Prop where
  onward : Onward t s s'
  less : s'.left t < s.left t
  ends : ((p = .quiet ∨ ∃ x, p = .accessed x) ∧ (s'.worker t).frames ≠ []) ∨
    ∃ r, p = .done r ∧ (s'.worker t).frames = [] ∧ below = [] ∧ f.await = none ∧
      (f.gather = .sole → r = f.results.head?.getD .null)
  /-- Under a destructor everything stays as it is. -/
  stays : ∀ above base, below = above ++ [base] → base.await.isSome = true →
    (∃ above', (s'.worker t).frames = above' ++ [base]) ∧ (s'.worker t).guards = (s.worker t).guards

/-- What a frame that is left comes to goes somewhere. -/
theorem gathered_frame {n : Nat} (s : State α) (hq : Made n s.queues) (hf : f.Fine n) :
    (s.gathered f).2.world = s.world ∧ (s.gathered f).2.objects = s.objects ∧ Made n (s.gathered f).2.queues ∧
      (s.gathered f).2.iterators = s.iterators ∧ (s.gathered f).2.workers = s.workers ∧
      (f.gather = .sole → (s.gathered f).1 = f.results.head?.getD .null) := by
  unfold gathered
  cases hg : f.gather with
  | queue id => exact ⟨rfl, rfl, hq.push (hf.queue id hg), rfl, rfl, nofun⟩
  | sole => exact ⟨rfl, rfl, hq, rfl, rfl, fun _ => rfl⟩
  | _ => exact ⟨rfl, rfl, hq, rfl, rfl, nofun⟩

/-- The frames change, and the names of queues. -/
theorem Sound.stepped (hs : s.Sound) {p : Progress α} (frames : List (Frame α))
    (hframes : (s.worker t).frames = f :: below) (ha : f.await = none) (hworld : s'.world = s.world)
    (hobjects : s'.objects = s.objects) (hq : Made s.world.store.nextQueue s'.queues) (hi : s'.iterators = s.iterators)
    (hworker : ∀ u, s'.worker u = if u = t then { s.worker t with frames } else s.worker u)
    (hstands : Stands frames none (s.world.domain.thread t).calls)
    (hfine : ∀ g ∈ frames, g.Fine s.world.store.nextQueue) (hless : Frame.stackCost frames < f.cost + belowCost below)
    (hends : ((p = .quiet ∨ ∃ x, p = .accessed x) ∧ frames ≠ []) ∨
      ∃ r, p = .done r ∧ frames = [] ∧ below = [] ∧ f.await = none ∧
        (f.gather = .sole → r = f.results.head?.getD .null))
    (hstays : ∀ above base, below = above ++ [base] → base.await.isSome = true → ∃ above', frames = above' ++ [base]) :
    Stepped s t f below s' p := by
  have hthread := hworker t
  rw [if_pos rfl] at hthread
  have hseat := hs.seated t
  refine ⟨hs.onward (by rw [hworld]; exact .refl hs.queueInv.choose_spec) (fun u e => by rw [hworker, if_neg e])
    (by rw [hworld, hobjects]; exact hs.booked) (hworld ▸ hq) (by rw [hworld, hi]; exact hs.iterators) ?_, ?_,
    by rw [hthread]; exact hends, fun above base hb hw => by rw [hthread]; exact ⟨hstays above base hb hw, rfl⟩⟩
  · rw [hthread, hworld]
    exact { hseat with stands := (hseat.ready hframes ha).1 ▸ hstands, fine := hfine }
  · have hstack : Frame.stackCost (f :: below) = f.cost + belowCost below := by
      simp only [Frame.stackCost, ha, Option.isSome_none, Bool.false_eq_true, if_false, belowCost]
    unfold left stock objectsCost
    rw [hthread, hworld, hobjects, hframes, hstack]
    dsimp only
    omega

/-- The next round of a loop. -/
theorem Sound.rounds_on (hs : s.Sound) (hframes : (s.worker t).frames = f :: below) (ha : f.await = none)
    (htodo : f.todo = []) {rounds : Nat} (hr : f.rounds = rounds + 1) :
    Stepped s t f below (s.modifyTop t fun top => { top with todo := top.body, rounds }) .quiet := by
  have hseat := hs.seated t
  have hff := hseat.fine f (hframes ▸ List.mem_cons_self)
  refine hs.stepped _ hframes ha rfl rfl hs.queues rfl (worker_modifyTop hframes _)
    (.ready ha ((hseat.ready hframes ha).2.congr rfl rfl))
    (hseat.fine_top hframes ⟨hff.body, hff.body, hff.queue, hff.named⟩) ?_
    (Or.inl ⟨Or.inl rfl, List.cons_ne_nil _ _⟩) fun above base hb _ => ⟨_ :: above, by rw [hb]; rfl⟩
  have hcost : f.cost = 1 + 0 + (rounds + 1) * (1 + Task.costs f.body) := by unfold Frame.cost; rw [htodo, hr]; rfl
  simp only [Frame.stackCost, ha, Option.isSome_none, Bool.false_eq_true, if_false]
  rw [hcost, Nat.add_mul]
  unfold Frame.cost belowCost
  dsimp only
  omega

/-- A destructor is over, and the frame under it waits on. -/
theorem Sound.destructed (hs : s.Sound) (hframes : (s.worker t).frames = f :: below) (ha : f.await = none)
    {i : Nat} (ho : f.object = some i) : Stepped s t f below (s.popFrame t) .quiet := by
  have hseat := hs.seated t
  have hu := (hseat.ready hframes ha).2
  have hpos : 1 ≤ f.cost := by unfold Frame.cost; omega
  generalize hcalls : (s.world.domain.thread t).calls = calls at hu
  cases hu with
  | ground h | loop h => rw [h] at ho; cases ho
  | @destructor _ g rest a c calls _ _ hga hfits hfree hug =>
    refine hs.stepped (g :: rest) hframes ha rfl rfl hs.queues rfl (fun u => ?_)
      (hcalls ▸ .calling hga hfits hug) (fun h hh => hseat.fine h (hframes ▸ List.mem_cons_of_mem _ hh)) ?_
      (Or.inl ⟨Or.inl rfl, List.cons_ne_nil _ _⟩) fun above base hb _ => ⟨above, hb⟩
    · rw [worker_popFrame, hframes]; rfl
    · simp only [Frame.stackCost, hga, Option.isSome_some, if_true, belowCost, List.map_cons, List.sum_cons]
      omega

theorem leaveFrame_stepped (hs : s.Sound) (hframes : (s.worker t).frames = f :: below) (ha : f.await = none)
    (htodo : f.todo = []) : Stepped s t f below (s.leaveFrame t f below).1 (s.leaveFrame t f below).2 := by
  have hseat := hs.seated t
  have hu := (hseat.ready hframes ha).2
  have hfine : ∀ g ∈ f :: below, g.Fine s.world.store.nextQueue := fun g hg => hseat.fine g (hframes ▸ hg)
  have hpos : 1 ≤ f.cost := by unfold Frame.cost; omega
  unfold leaveFrame
  cases hr : f.rounds with
  | succ rounds => exact hs.rounds_on hframes ha htodo hr
  | zero =>
    cases ho : f.object with
    | some i => exact hs.destructed hframes ha ho
    | none =>
      have hpop := s.worker_popFrame t
      simp only [hframes, List.tail_cons] at hpop
      obtain ⟨hw, hobj, hq, hi, hworkers, hsole⟩ :=
        (s.popFrame t).gathered_frame hs.queues (hfine f List.mem_cons_self)
      have hworker : ∀ u, ((s.popFrame t).gathered f).2.worker u =
          if u = t then { s.worker t with frames := below } else s.worker u := fun u => by
        unfold worker at hpop ⊢
        rw [hworkers]
        exact hpop u
      generalize hcalls : (s.world.domain.thread t).calls = calls at hu
      dsimp only
      cases hu with
      | destructor h => rw [ho] at h; cases h
      | ground =>
        refine hs.stepped _ hframes ha hw hobj hq hi hworker (hcalls ▸ .idle) (List.forall_mem_nil _) ?_
          (Or.inr ⟨_, rfl, rfl, rfl, ha, hsole⟩) fun above base hb _ => absurd hb (by simp)
        simp only [Frame.stackCost]
        omega
      | @loop _ g rest _ _ hin hga hug =>
        have hthread := hworker t
        rw [if_pos rfl] at hthread
        generalize ((s.popFrame t).gathered f).1 = r
        generalize ((s.popFrame t).gathered f).2 = s' at *
        obtain ⟨hdw, hdobj, hdq, hdi⟩ := s'.deliver_frame t r
        have hbelow : (s'.worker t).frames = g :: rest := by rw [hthread]
        have hdeliver := worker_deliver hbelow r
        obtain ⟨-, hgr⟩ := List.forall_mem_cons.mp hfine
        obtain ⟨hgf, hrest⟩ := List.forall_mem_cons.mp hgr
        refine hs.stepped (g.after r :: rest) hframes ha (hdw.trans hw) (hdobj.trans hobj) (hdq ▸ hq)
          (hdi.trans hi) (fun u => ?_) (hcalls ▸ .ready rfl (hug.congr rfl rfl))
          (List.forall_mem_cons.mpr ⟨hgf.after r, hrest⟩) ?_ (Or.inl ⟨Or.inl rfl, List.cons_ne_nil _ _⟩)
          fun above base hb hw => ?_
        · rw [hdeliver, hthread]
          by_cases e : u = t
          · rw [if_pos e, if_pos e]
          · rw [if_neg e, if_neg e, hworker, if_neg e]
        · show g.rest + belowCost rest < f.cost + (g.rest + belowCost rest)
          omega
        · cases above with
          | nil =>
            cases hb
            rw [hga] at hw
            cases hw
          | cons h above => exact ⟨g.after r :: above, by rw [(List.cons.inj hb).2]; rfl⟩

/-- A thread that has something to do does some of it. -/
theorem step_stepped (hs : s.Sound) (hframes : (s.worker t).frames = f :: below) :
    Stepped s t f below (s.step t).1 (s.step t).2 := by
  have hseat := hs.seated t
  have hfine := hseat.fine f (hframes ▸ List.mem_cons_self)
  -- What waits under other frames waits for the call that their destructor runs in.
  have hinside : ∀ above base, below = above ++ [base] → base.await.isSome = true → f.inside = true :=
    fun above base hb hw => by
      have hstands := hseat.stands
      rw [hframes] at hstands
      generalize s.world.operation t = o at hstands
      generalize (s.world.domain.thread t).calls = calls at hstands
      cases hstands with
      | ready _ hu | working _ _ hu | calling _ _ hu => exact hu.inside hb hw
  cases ha : f.await with
  | some a =>
    have hw := step_waiting hs hframes ha
    refine ⟨hw.onward, hw.less, Or.inl ⟨(step_of_waiting hframes ha).2, ?_⟩, fun above base hb hwait => ⟨?_, ?_⟩⟩
    · rcases hw.frames with ⟨top, h⟩ | ⟨r, h, -⟩ <;> rw [h]
      · exact List.append_ne_nil_of_right_ne_nil _ (List.cons_ne_nil _ _)
      · exact List.cons_ne_nil _ _
    · rcases hw.frames with ⟨top, h⟩ | ⟨r, h, -⟩ <;> rw [h, hb]
      · exact ⟨top ++ f :: above, by simp⟩
      · exact ⟨f.after r :: above, rfl⟩
    · refine hw.guards fun e => ?_
      have := hfine.named (ha.trans (congrArg some e))
      rw [hinside above base hb hwait] at this
      cases this
  | none =>
    unfold step
    rw [hframes]
    simp only [ha]
    cases htodo : f.todo with
    | cons task tasks =>
      have ht := runTask_taskDone hs hframes ha htodo
      refine ⟨ht.onward, ht.less, Or.inl ⟨Or.inl rfl, ht.busy⟩, fun above base hb hwait => ?_⟩
      obtain ⟨⟨top, h⟩, hg⟩ := ht.inside (hinside above base hb hwait)
      exact ⟨⟨top ++ above, by rw [h, hb, List.append_assoc]⟩, hg⟩
    | nil => exact leaveFrame_stepped hs hframes ha htodo

end

end EpochQueue.Script.State
