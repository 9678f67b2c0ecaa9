/-
  EpochQueue.Proofs.Script.OnTask — a thread at work on a task.

  `OnTask s₀ t f below k s` says that `t` has started on the first task of its topmost frame `f` in
  `s₀`, has come to `s`, and may spend `k` more steps. Each part of a command keeps that or comes to
  an end of it: a result is delivered, a frame is put on top, a call is opened, or all is given up.
  `TaskDone` is what comes of it: the thread has come onward, and it has less left to do.
-/

import EpochQueue.Proofs.Script.Sound

namespace EpochQueue.Script.State

open EpochQueue.Fifo (Garbage Operation Store callsLoad World)
open EpochQueue.Reclaim (Call Notice)

variable {α : Type}

/-- Thread `t` has begun the first task of its frame `f` in `s₀` and has come to `s`, from where it may
    spend `k` more steps on it. -/
structure OnTask (s₀ : State α) (t : Nat) (f : Frame α) (below : List (Frame α)) (k : Nat) (s : State α) : Prop where
  onward : Onward t s₀ s
  frames₀ : (s₀.worker t).frames = f :: below
  frames : (s.worker t).frames = f :: below
  await : f.await = none
  load : s.world.load t = s₀.world.load t
  cost : s.stock + f.rest + k ≤ s₀.stock + f.cost
  /-- A destructor names no guard. -/
  guards : f.inside = true → (s.worker t).guards = (s₀.worker t).guards

/-- What a task on top of the frames `below` comes to. -/
structure TaskDone (s₀ : State α) (t : Nat) (f : Frame α) (below : List (Frame α)) (s : State α) : Prop where
  onward : Onward t s₀ s
  less : s.left t < s₀.left t
  busy : (s.worker t).frames ≠ []
  inside : f.inside = true → (∃ top, (s.worker t).frames = top ++ below) ∧ (s.worker t).guards = (s₀.worker t).guards

/-- What a frame costs without the one on top of it. -/
def belowCost (below : List (Frame α)) : Nat := (below.map Frame.rest).sum

section

variable {s₀ s s' : State α} {t k k' : Nat} {f : Frame α} {below : List (Frame α)}

theorem onTask (hs : s.Sound) (hframes : (s.worker t).frames = f :: below) (ha : f.await = none) {task : Task α}
    {tasks : List (Task α)} (htodo : f.todo = task :: tasks) : OnTask s t f below task.cost s :=
  ⟨.refl hs, hframes, hframes, ha, rfl, by rw [Frame.cost_of_todo htodo]; omega, fun _ => rfl⟩

namespace OnTask

theorem sound (hf : OnTask s₀ t f below k s) : s.Sound := hf.onward.sound

theorem ready (hf : OnTask s₀ t f below k s) :
    s.world.operation t = none ∧ Under f below (s.world.domain.thread t).calls :=
  (hf.sound.seated t).ready hf.frames hf.await

theorem mayBegin (hf : OnTask s₀ t f below k s) : s.world.mayBegin t = true := by
  obtain ⟨ho, hu⟩ := hf.ready
  exact World.mayBegin_iff.mpr ⟨ho, by rw [Reclaim.Domain.mayCall_eq]; exact hu.freeing⟩

theorem fine (hf : OnTask s₀ t f below k s) : f.Fine s.world.store.nextQueue :=
  (hf.sound.seated t).fine f (hf.frames ▸ List.mem_cons_self)

theorem weaken (hf : OnTask s₀ t f below k s) (n : Nat) (hn : n ≤ k) : OnTask s₀ t f below n s :=
  { hf with cost := Nat.le_trans (Nat.add_le_add_left hn _) hf.cost }

theorem left₀ (hf : OnTask s₀ t f below k s) :
    f.rest + k + belowCost below + s.world.load t + s.stock ≤ s₀.left t := by
  have hcost := hf.cost
  have hload := hf.load
  unfold left
  rw [hf.frames₀, Frame.stackCost, hf.await]
  simp only [Option.isSome_none, Bool.false_eq_true, if_false]
  unfold belowCost
  omega

/-- The task comes to an end. -/
theorem taskDone (hf : OnTask s₀ t f below k s) (top : List (Frame α)) (ho : Onward t s s')
    (hframes : (s'.worker t).frames = top ++ below) (hne : top ≠ [])
    (hg : f.inside = true → (s'.worker t).guards = (s.worker t).guards)
    (hless : Frame.stackCost (top ++ below) + s'.world.load t + s'.stock <
      f.rest + k + belowCost below + s.world.load t + s.stock) : TaskDone s₀ t f below s' where
  onward := hf.onward.trans ho
  less := by
    refine Nat.lt_of_lt_of_le ?_ hf.left₀
    unfold left
    rwa [hframes]
  busy := fun e => hne (List.append_eq_nil_iff.mp (hframes.symm.trans e)).1
  inside := fun hi => ⟨⟨top, hframes⟩, (hg hi).trans (hf.guards hi)⟩

/-! ## What comes to an end -/

/-- The task has come to a result. -/
theorem comes (hf : OnTask s₀ t f below k s) (hk : 1 ≤ k) {r : Result α} (hw : s'.world = s.world)
    (hobj : s'.objects = s.objects) (hq : s'.queues = s.queues) (hi : s'.iterators = s.iterators)
    (hworker : ∀ u, s'.worker u = if u = t then { s.worker t with frames := f.after r :: below } else s.worker u) :
    TaskDone s₀ t f below s' := by
  obtain ⟨hop, hu⟩ := hf.ready
  have hseat := hf.sound.seated t
  have hthread : s'.worker t = { s.worker t with frames := f.after r :: below } := by
    rw [hworker, if_pos rfl]
  refine hf.taskDone [f.after r] (hf.sound.onward ?_ (fun u e => by rw [hworker, if_neg e]) ?_ ?_ ?_ ?_)
    (by rw [hthread]; rfl) (List.cons_ne_nil _ _) (fun _ => by rw [hthread]) ?_
  · rw [hw]; exact .refl hf.sound.queueInv.choose_spec
  · rw [hw, hobj]; exact hf.sound.booked
  · rw [hw, hq]; exact hf.sound.queues
  · rw [hw, hi]; exact hf.sound.iterators
  · rw [hw, hthread]
    exact { hseat with
      stands := hop ▸ .ready rfl (hu.congr rfl rfl)
      fine := hseat.fine_top hf.frames (hf.fine.after r) }
  · have hstock : s'.stock = s.stock := by unfold stock objectsCost; rw [hw, hobj]
    have hcost : Frame.stackCost ([f.after r] ++ below) = f.rest + belowCost below := rfl
    rw [hw, hstock, hcost]
    omega

theorem deliver (hf : OnTask s₀ t f below k s) (hk : 1 ≤ k) (r : Result α) : TaskDone s₀ t f below (s.deliver t r) := by
  obtain ⟨hw, hobj, hq, hi⟩ := s.deliver_frame t r
  exact hf.comes hk hw hobj hq hi (worker_deliver hf.frames r)

/-- A loop is put on top. -/
theorem push (hf : OnTask s₀ t f below k s) {g : Frame α} (ho : g.object = none) (hi : g.inside = f.inside)
    (ha : g.await = none) (hg : g.Fine s.world.store.nextQueue) (hk : g.cost < k) :
    TaskDone s₀ t f below (s.pushFrame t g) := by
  obtain ⟨hop, hu⟩ := hf.ready
  have hseat := hf.sound.seated t
  have hworker := s.worker_pushFrame t g
  have hthread : (s.pushFrame t g).worker t = { s.worker t with frames := g :: f :: below } := by
    rw [hworker, if_pos rfl, hf.frames]
  refine hf.taskDone [g, f] (hf.sound.onward (.refl hf.sound.queueInv.choose_spec)
    (fun u e => by rw [hworker, if_neg e]) hf.sound.booked hf.sound.queues hf.sound.iterators ?_)
    (by rw [hthread]; rfl) (List.cons_ne_nil _ _) (fun _ => by rw [hthread]) ?_
  · rw [hthread]
    refine { hseat with stands := ?_, fine := List.forall_mem_cons.mpr ⟨hg, hf.frames ▸ hseat.fine⟩ }
    show Stands (g :: f :: below) (s.world.operation t) _
    rw [hop]
    exact .ready ha (.loop ho hi hf.await hu)
  · have hstock : (s.pushFrame t g).stock = s.stock := rfl
    have hload : (s.pushFrame t g).world.load t = s.world.load t := rfl
    rw [hstock, hload, List.cons_append, Frame.stackCost, ha]
    simp only [Option.isSome_none, Bool.false_eq_true, if_false, List.singleton_append, List.map_cons, List.sum_cons]
    unfold belowCost
    omega

/-- A call is opened. -/
theorem opened (hf : OnTask s₀ t f below k s) (s' : State α) {c : Call Garbage (Option (Operation α))}
    {x : List (Notice Garbage)} {n : Nat} {a : Await} (ho : World.Opens t c x n s.world s'.world)
    (hworker : ∀ u, s'.worker u =
      if u = t then { s.worker t with frames := { f with await := some a } :: below } else s.worker u)
    (hb : Booked s'.objects s'.world.domain.story) (hcost : s'.objectsCost = s.objectsCost) (hq : s'.queues = s.queues)
    (hi : s'.iterators = s.iterators) (ha : a.Fits c) (hnamed : a = .namedGuard → f.inside = false) (hn : n < k) :
    TaskDone s₀ t f below s' := by
  obtain ⟨hop, hu⟩ := hf.ready
  have hseat := hf.sound.seated t
  have hthread : s'.worker t = { s.worker t with frames := { f with await := some a } :: below } := by
    rw [hworker, if_pos rfl]
  refine hf.taskDone [{ f with await := some a }] (hf.sound.onward ho.toOnward
    (fun u e => by rw [hworker, if_neg e]) hb (hq ▸ hf.sound.queues.mono ho.queues)
    (hi ▸ hf.sound.iterators.mono ho.queues) ?_) (by rw [hthread]; rfl) (List.cons_ne_nil _ _)
    (fun _ => by rw [hthread]) ?_
  · have hseat' := hseat.mono ho.queues
    rw [hthread, ho.operation]
    refine { hseat' with
      stands := ?_
      tickets := ho.calls ▸ List.forall_mem_cons.mpr ⟨ho.ticketed, hseat.tickets⟩
      guards := ?_
      fine := hseat'.fine_top hf.frames ((hf.fine.mono ho.queues).await hnamed) }
    · rw [ho.calls]
      exact .calling rfl ha (hu.congr rfl rfl)
    · have hg := hseat.guards
      rw [hop] at hg
      rwa [ho.guards, ho.calls, Fifo.gripsOf_cons, ho.gripless, Option.toList_none, List.nil_append]
  · have hlinks := ho.cost
    have hload := World.load_eq hop (rfl : (s.world.domain.thread t).calls = _)
    have hload' := World.load_eq ho.operation ho.calls
    simp only [Option.map_none, Option.getD_none, Nat.zero_add, callsLoad] at hload hload'
    have hrest : Frame.stackCost ([{ f with await := some a }] ++ below) = f.rest + belowCost below := rfl
    rw [hrest, hload, hload']
    unfold stock
    rw [hcost]
    omega

/-- What the thread has the world begin is under way. -/
theorem begin (hf : OnTask s₀ t f below k s) {c : Call Garbage (Option (Operation α))} {n : Nat} {a : Await}
    {g : World α → World α} (ho : World.Opens t c [] n s.world (g s.world)) (ha : a.Fits c)
    (hnamed : a = .namedGuard → f.inside = false) (hn : n < k) : TaskDone s₀ t f below (s.begin t a g) := by
  have hstory : (g s.world).domain.story = s.world.domain.story := ho.story.trans (List.append_nil _)
  refine hf.opened (s.begin t a g) ho (worker_begin hf.frames a g) ?_ rfl rfl rfl ha hnamed hn
  exact hstory ▸ hf.sound.booked

/-- An operation is under way. -/
theorem beginOperation (hf : OnTask s₀ t f below k s) {a : Await} {g : World α → World α}
    (ho : ∃ c, (∃ o, c.ticket = some o) ∧ World.Opens t c [] 20 s.world (g s.world)) (ha : a ≠ .flushed)
    (hnamed : a ≠ .namedGuard) (hk : 20 < k) : TaskDone s₀ t f below (s.begin t a g) := by
  obtain ⟨c, -, ho⟩ := ho
  exact hf.begin ho (fun e => absurd e ha) (fun e => absurd e hnamed) hk

/-! ## What goes on -/

/-- Something changes that concerns neither the frames nor what is under way. -/
theorem on (hf : OnTask s₀ t f below k s) (hw : World.Onward t s.world s'.world)
    (hworker : ∀ u, s'.worker u = s.worker u) (hop : s'.world.operation t = s.world.operation t)
    (hcalls : (s'.world.domain.thread t).calls = (s.world.domain.thread t).calls)
    (hguards : (s'.world.domain.thread t).guards = (s.world.domain.thread t).guards)
    (hb : Booked s'.objects s'.world.domain.story) (hq : Made s'.world.store.nextQueue s'.queues)
    (hi : Made s'.world.store.nextQueue s'.iterators) (hstock : s'.stock + k' ≤ s.stock + k) :
    OnTask s₀ t f below k' s' := by
  have hseat := (hf.sound.seated t).mono hw.queues
  have hnone := hf.ready.1
  refine ⟨hf.onward.trans (hf.sound.onward hw (fun u _ => hworker u) hb hq hi ?_), hf.frames₀,
    (hworker t).symm ▸ hf.frames, hf.await, ?_, ?_, fun h => (hworker t).symm ▸ hf.guards h⟩
  · rw [hworker, hop]
    exact ⟨hcalls ▸ hseat.stands, hcalls ▸ hseat.tickets, hguards ▸ hcalls ▸ hseat.guards, hseat.numbers, hseat.bound,
      hseat.fine⟩
  · rw [← hf.load, World.load_eq (hop.trans hnone) hcalls, World.load_eq hnone rfl]
    rfl
  · have := hf.cost
    omega

/-- The store changes, and maybe the script's queues and iterators. -/
theorem stored (hf : OnTask s₀ t f below k s) {st : Store α} (hw : World.Onward t s.world { s.world with store := st })
    (hworld : s'.world = { s.world with store := st }) (hworkers : s'.workers = s.workers)
    (hobjects : s'.objects = s.objects) (hq : Made st.nextQueue s'.queues) (hi : Made st.nextQueue s'.iterators)
    (hlinks : st.nextLink + k' ≤ s.world.store.nextLink + k) : OnTask s₀ t f below k' s' := by
  have hworker : ∀ u, s'.worker u = s.worker u := fun u => by unfold worker; rw [hworkers]
  obtain ⟨lay', hinv'⟩ := hw.queueInv
  have hle := hf.sound.queueInv.choose_spec.links_le
  have hle' := hinv'.links_le
  refine hf.on (hworld ▸ hw) hworker (by rw [hworld]; rfl) (by rw [hworld]) (by rw [hworld])
    (by rw [hworld, hobjects]; exact hf.sound.booked) (by rw [hworld]; exact hq) (by rw [hworld]; exact hi) ?_
  unfold stock objectsCost World.linksLeft
  rw [hworld, hobjects]
  dsimp only at hle' ⊢
  omega

/-- Nothing changes that matters here. -/
theorem same (hf : OnTask s₀ t f below k s) (hworld : s'.world = s.world) (hworkers : s'.workers = s.workers)
    (hobjects : s'.objects = s.objects) (hq : Made s.world.store.nextQueue s'.queues)
    (hi : Made s.world.store.nextQueue s'.iterators) : OnTask s₀ t f below k s' :=
  have hw : World.Onward t s.world { s.world with store := s.world.store } := .refl hf.sound.queueInv.choose_spec
  hf.stored hw hworld hworkers hobjects hq hi (Nat.le_refl _)

theorem cells (hf : OnTask s₀ t f below k s) (cells : Array (Option Nat)) : OnTask s₀ t f below k { s with cells } :=
  hf.same rfl rfl rfl hf.sound.queues hf.sound.iterators

/-- Values are taken out of a queue by an owner. -/
theorem emptied (hf : OnTask s₀ t f below k s) {st : Store α} (hw : World.Onward t s.world { s.world with store := st })
    (hn : st.nextQueue = s.world.store.nextQueue ∧ st.nextLink = s.world.store.nextLink)
    (hworld : s'.world = { s.world with store := st }) (hworkers : s'.workers = s.workers)
    (hobjects : s'.objects = s.objects) (hq : s'.queues = s.queues) (hi : s'.iterators = s.iterators) :
    OnTask s₀ t f below k s' := by
  refine hf.stored hw hworld hworkers hobjects ?_ ?_ (by rw [hn.2])
  · rw [hn.1, hq]; exact hf.sound.queues
  · rw [hn.1, hi]; exact hf.sound.iterators

theorem dropQueue (hf : OnTask s₀ t f below k s) {id : Nat} (hid : id < s.world.store.nextQueue) :
    OnTask s₀ t f below k (s.dropQueue id) := by
  obtain ⟨hworld, hobjects, hq, hi, hworkers⟩ := s.dropQueue_frame id
  exact hf.emptied (World.onward_tearDown hf.sound.queueInv.choose_spec hid) (Store.next_tearDown s.world.store id)
    hworld hworkers hobjects hq hi

theorem pop (hf : OnTask s₀ t f below k s) {id : Nat} (hid : id < s.world.store.nextQueue) :
    OnTask s₀ t f below k (s.withWorld fun w => w.pop id).2 :=
  hf.emptied (World.onward_pop hf.sound.queueInv.choose_spec hid) (Store.next_pop s.world.store id) rfl rfl rfl rfl rfl

theorem drain (hf : OnTask s₀ t f below k s) {id : Nat} (hid : id < s.world.store.nextQueue) :
    OnTask s₀ t f below k (s.withWorld fun w => w.drain id).2 :=
  hf.emptied (World.onward_drain hf.sound.queueInv.choose_spec hid)
    (Store.next_popAll id s.world.store.nextLink s.world.store) rfl rfl rfl rfl rfl

/-- A new queue brings its sentinel. -/
theorem newQueue (hf : OnTask s₀ t f below (k + 1) s) (limits : Fifo.Limits) :
    OnTask s₀ t f below k (s.withWorld fun w => w.newQueue limits).2 := by
  obtain ⟨lay, hinv⟩ := hf.sound.queueInv
  exact hf.stored (World.onward_newQueue hinv hf.mayBegin limits) rfl rfl rfl
    (hf.sound.queues.mono (Nat.le_succ _)) (hf.sound.iterators.mono (Nat.le_succ _)) (by
      show s.world.store.nextLink + 1 + k ≤ _
      omega)

theorem pending (hf : OnTask s₀ t f below k s) : OnTask s₀ t f below k (s.withWorld fun w => w.pending t).2 := by
  obtain ⟨lay, hinv⟩ := hf.sound.queueInv
  obtain ⟨hc, hg⟩ := Reclaim.Domain.calls_pending s.world.domain t
  have hst : (s.world.pending t).2.domain.story = s.world.domain.story :=
    (Reclaim.Domain.pending_frame s.world.domain t).2.2.2
  have hlinks := World.linksLeft_le s.world (s.world.pending t).2 (x := []) (k := 0)
    (hst.trans (List.append_nil _).symm) rfl (Nat.le_refl _)
  refine hf.on (World.onward_pending hinv hf.mayBegin) (fun _ => rfl) rfl hc hg ?_ hf.sound.queues
    hf.sound.iterators ?_
  · exact hst ▸ hf.sound.booked
  · exact Nat.add_le_add_right (Nat.add_le_add_left hlinks _) k

/-- An object is made, and with it what its destruction will cost. -/
theorem newObject {onFree : List (Command α)} (hf : OnTask s₀ t f below (k + (2 + Command.costs onFree)) s) (value : α)
    (custom : Bool) (ho : Command.allOrderly true onFree = true) :
    OnTask s₀ t f below k (s.newObject value custom onFree).2 := by
  refine hf.on (.refl hf.sound.queueInv.choose_spec) (fun _ => rfl) rfl rfl rfl (hf.sound.booked.push ho)
    hf.sound.queues hf.sound.iterators ?_
  unfold stock
  rw [objectsCost_newObject]
  show _ + s.world.linksLeft + k ≤ _
  omega

end OnTask

end

end EpochQueue.Script.State
