/-
  EpochQueue.Proofs.Script.Tasks — every task, done.

  Whatever a thread is told to do, it comes onward and has less left to do (`runTask_taskDone`). A task
  may make objects, links and loops, but it costs what they will cost. An access in an order that it
  cannot have ends everything that the thread is doing; outside of destructors that leaves no call
  behind, and in an orderly destructor there is none.
-/

import EpochQueue.Proofs.Script.OnTask

namespace EpochQueue.Script.State

open EpochQueue.Fifo (Store World)
open EpochQueue.Reclaim (Guard)

variable {α : Type}

/-! ## Guards that have a number -/

theorem perm_filter_ne {i : Nat} {g : Guard} {guards : List (Nat × Guard)} (hn : (guards.map (·.1)).Nodup)
    (hm : (i, g) ∈ guards) : guards.Perm ((i, g) :: guards.filter (·.1 != i)) := by
  induction guards with
  | nil => cases hm
  | cons p guards ih =>
    rw [List.map_cons, List.nodup_cons] at hn
    rcases List.mem_cons.mp hm with rfl | hm
    · have hrest : guards.filter (·.1 != i) = guards := List.filter_eq_self.mpr fun q hq => by
        rw [bne_iff_ne]
        exact fun e => hn.1 (e ▸ List.mem_map_of_mem (f := (·.1)) hq)
      simp only [List.filter_cons, bne_self_eq_false, Bool.false_eq_true, if_false, hrest]
      exact List.Perm.refl _
    · have hne : p.1 ≠ i := fun e => hn.1 (e ▸ List.mem_map_of_mem (f := (·.1)) hm)
      have hp : (p.1 != i) = true := bne_iff_ne.mpr hne
      rw [List.filter_cons, if_pos hp]
      exact ((ih hn.2 hm).cons p).trans (List.Perm.swap _ _ _)

theorem guard?_mem {s : State α} {t : Nat} {g : Option Nat} {p : Nat × Guard} (h : s.guard? t g = some p) :
    p ∈ (s.worker t).guards := by
  cases g with
  | none => exact List.mem_of_head? h
  | some i => exact List.mem_of_find?_eq_some h

section

variable {s₀ s : State α} {t k : Nat} {f : Frame α} {below : List (Frame α)}

namespace OnTask

theorem unpin (hf : OnTask s₀ t f below k s) (hin : f.inside = false) {i : Nat} {g : Guard}
    (hm : (i, g) ∈ (s.worker t).guards) : OnTask s₀ t f below k
      ((s.modifyWorker t fun w => { w with guards := w.guards.filter (·.1 != i) }).onWorld fun w => w.unpin t g) := by
  generalize hs' :
    (s.modifyWorker t fun w => { w with guards := w.guards.filter (·.1 != i) }).onWorld (fun w => w.unpin t g) = s'
  have hworld : s'.world = s.world.unpin t g := by rw [← hs']; rfl
  have hworker : ∀ u, s'.worker u =
      if u = t then { s.worker t with guards := (s.worker t).guards.filter (·.1 != i) } else s.worker u := fun u => by
    rw [← hs']; exact s.worker_modifyWorker t u _
  have hthread := hworker t
  rw [if_pos rfl] at hthread
  have hobjects : s'.objects = s.objects ∧ s'.queues = s.queues ∧ s'.iterators = s.iterators := by
    rw [← hs']; exact ⟨rfl, rfl, rfl⟩
  obtain ⟨hop, -⟩ := hf.ready
  obtain ⟨lay, hinv⟩ := hf.sound.queueInv
  have hseat := hf.sound.seated t
  have hperm := (perm_filter_ne hseat.numbers hm).map (·.2)
  have hmem : g ∈ (s.world.domain.thread t).guards :=
    hseat.guards.mem_iff.mpr (List.mem_append_left _ (List.mem_map_of_mem hm))
  have ho := World.onward_unpin hinv hf.mayBegin hmem
  obtain ⟨hc, hg⟩ := Reclaim.Domain.calls_unpin s.world.domain t g
  have hc' : (s'.world.domain.thread t).calls = (s.world.domain.thread t).calls := by rw [hworld]; exact hc
  have hst : (s.world.unpin t g).domain.story = s.world.domain.story ++ [.unpinned g] :=
    (Reclaim.Domain.unpin_frame s.world.domain t g).2.2
  have hlinks := World.linksLeft_le s.world (s.world.unpin t g) (k := 0) hst rfl (Nat.le_refl _)
  refine ⟨hf.onward.trans (hf.sound.onward (hworld ▸ ho) (fun u e => by rw [hworker, if_neg e]) ?_ ?_ ?_ ?_),
    hf.frames₀, by rw [hthread]; exact hf.frames, hf.await, ?_, ?_, fun h => by rw [hin] at h; cases h⟩
  · rw [hworld, hst, hobjects.1]
    exact hf.sound.booked.append (by simp)
  · rw [hworld, hobjects.2.1]; exact hf.sound.queues
  · rw [hworld, hobjects.2.2]; exact hf.sound.iterators
  · rw [hthread, hworld]
    have hsub : (((s.worker t).guards.filter (·.1 != i)).map (·.1)).Sublist ((s.worker t).guards.map (·.1)) :=
      List.filter_sublist.map _
    refine ⟨?_, ?_, ?_, hseat.numbers.sublist hsub, fun j hj => hseat.bound j (hsub.subset hj), hseat.fine⟩
    · show Stands _ _ ((s.world.domain.unpin t g).thread t).calls
      rw [hc]; exact hseat.stands
    · show ∀ c ∈ ((s.world.domain.unpin t g).thread t).calls, _
      rw [hc]; exact hseat.tickets
    · show ((s.world.domain.unpin t g).thread t).guards.Perm (_ ++ Fifo.gripsOf (s.world.operation t)
        ((s.world.domain.unpin t g).thread t).calls)
      rw [hc, hg]
      have hall := hseat.guards.trans (hperm.append_right _)
      simpa using hall.erase g
  · have hop' : s'.world.operation t = none := by rw [hworld]; exact hop
    rw [← hf.load, World.load_eq hop' hc', World.load_eq hop rfl]
    rfl
  · have hcost := hf.cost
    unfold stock objectsCost at hcost ⊢
    rw [hworld, hobjects.1]
    omega

/-! ## Giving up -/

theorem abandoned {n : Nat} : ∀ (fs : List (Frame α)) {s : State α}, OnTask s₀ t f below k s →
    n ≤ s.world.store.nextQueue → (∀ g ∈ fs, g.object = none) → (∀ g ∈ fs, g.Fine n) →
    OnTask s₀ t f below k (abandonFrames t fs s) := by
  intro fs
  induction fs with
  | nil => exact fun hf _ _ _ => hf
  | cons g fs ih =>
    intro s hf hn ho hfine
    have hnone := ho g List.mem_cons_self
    have hrest := fun {s'} (hf' : OnTask s₀ t f below k s') hn' =>
      ih hf' hn' (fun h hh => ho h (List.mem_cons_of_mem _ hh))
      fun h hh => hfine h (List.mem_cons_of_mem _ hh)
    unfold abandonFrames
    simp only [hnone, Option.isSome_none, Bool.false_eq_true, if_false]
    cases hg : g.gather with
    | queue id =>
      have hid := (hfine g List.mem_cons_self).queue id hg
      refine hrest (hf.dropQueue (Nat.lt_of_lt_of_le hid hn)) ?_
      rw [(s.dropQueue_frame id).1]
      exact Nat.le_trans hn (Nat.le_of_eq (Store.next_tearDown s.world.store id).1.symm)
    | _ => exact hrest hf hn

/-- Outside of destructors everything that the thread is in the middle of can be given up. -/
theorem giveUp (hf : OnTask s₀ t f below k s) (hin : f.inside = false) (hk : 1 ≤ k) (r : Result α) :
    TaskDone s₀ t f below (s.giveUp t r) := by
  obtain ⟨-, hu⟩ := hf.ready
  obtain ⟨-, hobjects⟩ := hu.outside hin
  have hf' := hf.abandoned (f :: below) (Nat.le_refl _) hobjects
    fun g hg => (hf.sound.seated t).fine g (hf.frames ▸ hg)
  have hgive : s.giveUp t r = (abandonFrames t (f :: below) s).modifyWorker t fun w =>
      { w with frames := [{ inside := false, todo := [], gather := .sole, results := [r] }] } := by
    unfold State.giveUp
    rw [hf.frames]
  rw [hgive]
  generalize abandonFrames t (f :: below) s = s' at hf'
  obtain ⟨hop', hu'⟩ := hf'.ready
  have hc' := (hu'.outside hin).1
  have hworker := s'.worker_modifyWorker t
  have hseat := hf'.sound.seated t
  refine ⟨hf'.onward.trans (hf'.sound.onward (.refl hf'.sound.queueInv.choose_spec)
    (fun u e => by rw [hworker, if_neg e]) hf'.sound.booked hf'.sound.queues hf'.sound.iterators ?_), ?_, ?_,
    fun h => by rw [hin] at h; cases h⟩
  · rw [hworker, if_pos rfl]
    refine { hseat with stands := ?_, fine := fun g hg => ?_ }
    · show Stands _ (s'.world.operation t) (s'.world.domain.thread t).calls
      rw [hop', hc']
      exact .ready rfl (.ground rfl rfl)
    · cases List.mem_singleton.mp hg
      exact ⟨nofun, nofun, nofun, nofun⟩
  · refine Nat.lt_of_lt_of_le ?_ hf'.left₀
    have hrest : 1 ≤ f.rest := by unfold Frame.rest; omega
    show Frame.stackCost (((s'.modifyWorker t _).worker t).frames) + s'.world.load t + s'.stock < _
    rw [hworker, if_pos rfl]
    show 1 + 0 + 0 * (1 + 0) + 0 + _ + _ < _
    omega
  · rw [hworker, if_pos rfl]
    exact List.cons_ne_nil _ _

/-! ## Objects -/

theorem retireObject (hf : OnTask s₀ t f below k s) {i : Nat} {o : Object α} (ho : s.objects[i]? = some o)
    (hnew : o.retired = false) {a : Await} (ha : a ≠ .flushed) (hnamed : a ≠ .namedGuard) (hk : 3 < k) :
    TaskDone s₀ t f below (s.retireObject t i a) := by
  have hnot : .retired (.object i) ∉ s.world.domain.story := fun h => by
    rw [(hf.sound.booked.retired i o ho).mpr h] at hnew
    cases hnew
  obtain ⟨c, -, hopens⟩ := World.opens_retire hf.sound.queueInv.choose_spec hf.mayBegin hnot
  have hi : i < s.objects.size := (Array.getElem?_eq_some_iff.mp ho).1
  refine hf.opened (s.retireObject t i a) hopens
    (worker_begin (s := s.modifyObject i _) hf.frames a fun w => w.retire t i) ?_ ?_ rfl rfl (fun e => absurd e ha)
    (fun e => absurd e hnamed) hk
  · have hst : (s.world.retire t i).domain.story = _ := hopens.story
    exact hst ▸ hf.sound.booked.retire hi
  · exact Nat.add_right_cancel (objectsCost_modifyObject ho fun o => { o with retired := true })

theorem plant {onFree : List (Command α)} (hf : OnTask s₀ t f below (6 + Command.costs onFree) s) (value : α)
    (custom : Bool) (ho : Command.allOrderly true onFree = true) :
    TaskDone s₀ t f below (s.plant t value custom onFree) := by
  have hf' := (hf.weaken (4 + (2 + Command.costs onFree)) (by omega)).newObject value custom ho
  exact hf'.retireObject (i := s.objects.size) (o := { value, custom, onFree }) Array.getElem?_push_size rfl nofun nofun
    (by decide)

theorem retire (hf : OnTask s₀ t f below 4 s) (name : ObjectName) : TaskDone s₀ t f below (s.retire t name) := by
  unfold State.retire
  split
  next => exact hf.deliver (by decide) _
  next i hi =>
    split
    next => exact hf.deliver (by decide) _
    next hnew =>
      obtain ⟨j, -, hj⟩ := Option.bind_eq_some_iff.mp hi
      have hlt : i < s.objects.size := by
        cases j with
        | ofNat j =>
          simp only [object?] at hj
          split at hj
          next h => cases hj; exact h
          next => cases hj
        | negSucc j => cases hj
      have ho : s.objects[i]? = some s.objects[i] := Array.getElem?_eq_getElem hlt
      rw [ho] at hnew
      exact hf.retireObject ho (by simpa using hnew) nofun nofun (by decide)

/-! ## Cells -/

/-- What a command on a cell comes to, with the cells as they are then. -/
theorem delivered (hf : OnTask s₀ t f below k s) (hk : 1 ≤ k) {p : Result α × State α}
    (hp : ∃ cells, p.2 = { s with cells }) : TaskDone s₀ t f below (p.2.deliver t p.1) := by
  obtain ⟨cells, hp⟩ := hp
  rw [hp]
  exact (hf.cells cells).deliver hk _

theorem concluded (hf : OnTask s₀ t f below k s) (hk : 1 ≤ k) {p : Result α × State α}
    (hp : ∃ cells, p.2 = { s with cells }) (hin : f.inside = false ∨ ∀ m, p.1 ≠ .misordered m) :
    TaskDone s₀ t f below (p.2.conclude t p.1) := by
  have hdeliver := hf.delivered hk hp
  obtain ⟨cells, hp⟩ := hp
  unfold State.conclude
  split
  next m hm =>
    rw [hp]
    exact (hf.cells cells).giveUp (hin.resolve_right fun h => h m hm) hk _
  next => exact hdeliver

end OnTask

theorem store_cells (s : State α) (c : Nat) (name : ObjectName) (order : Option String) :
    ∃ cells, (s.store c name order).2 = { s with cells } := by
  unfold store
  (repeat' split) <;> exact ⟨_, rfl⟩

/-- A store in an order that stores can have is made. -/
theorem store_orderly (s : State α) (c : Nat) (name : ObjectName) {order : Option String} (h : storable order = true) :
    ∀ m, (s.store c name order).1 ≠ .misordered m := by
  intro m
  unfold store
  split
  · exact nofun
  · split
    · split
      · exact nofun
      · next o ho =>
        split
        next m' hm =>
          simp [storable, ho, hm] at h
        next => exact nofun
    · exact nofun

theorem swap_cells (s : State α) (t c : Nat) (name : ObjectName) (order : Option String) :
    ∃ cells, (s.swap t c name order).2 = { s with cells } := by
  unfold swap
  (repeat' split) <;> exact ⟨_, rfl⟩

theorem cas_cells (s : State α) (t c : Nat) (current name : ObjectName) (order failOrder : Option String) :
    ∃ cells, (s.cas t c current name order failOrder).2 = { s with cells } := by
  unfold cas
  (repeat' split) <;> exact ⟨_, rfl⟩

theorem getMut_cells (s : State α) (c : Nat) (name : Option ObjectName) :
    ∃ cells, (s.getMut c name).2 = { s with cells } := by
  unfold getMut
  (repeat' split) <;> exact ⟨_, rfl⟩

/-! ## Queues and iterators -/

namespace OnTask

theorem onQueue (hf : OnTask s₀ t f below k s) (hk : 1 ≤ k) {q : Nat} {g : Nat → State α}
    (h : ∀ id, id < s.world.store.nextQueue → TaskDone s₀ t f below (g id)) :
    TaskDone s₀ t f below (s.onQueue t q g) := by
  unfold State.onQueue
  split
  next => exact hf.deliver hk _
  next id hq => exact h id (hf.sound.queues q id (Option.join_eq_some_iff.mp hq))

theorem onIterator (hf : OnTask s₀ t f below k s) (hk : 1 ≤ k) {i : Nat} {g : Nat → State α}
    (h : ∀ id, id < s.world.store.nextQueue → TaskDone s₀ t f below (g id)) :
    TaskDone s₀ t f below (s.onIterator t i g) := by
  unfold State.onIterator
  split
  next => exact hf.deliver hk _
  next id hi => exact h id (hf.sound.iterators i id (Option.join_eq_some_iff.mp hi))

theorem loop (hf : OnTask s₀ t f below k s) {n : Nat} {body : List (Task α)} {gather : Gather}
    (hbody : ∀ task ∈ body, task.Fine s.world.store.nextQueue f.inside) (hg : ∀ id, gather ≠ .queue id)
    (hk : 1 + n * (1 + Task.costs body) < k) : TaskDone s₀ t f below (s.loop t f.inside n body gather) :=
  hf.push rfl rfl rfl ⟨nofun, hbody, fun id e => absurd e (hg id), nofun⟩ (by
    simp only [Frame.cost, Task.costs]
    omega)

theorem appendAll (hf : OnTask s₀ t f below k s) {id : Nat} (hid : id < s.world.store.nextQueue) (vs : List α)
    (hk : 1 + vs.length * operationCost < k) : TaskDone s₀ t f below (s.appendAll t f.inside id vs) :=
  hf.push rfl rfl rfl ⟨Task.fine_appends hid vs, nofun, nofun, nofun⟩ (by
    simp only [Frame.cost, Task.costs_append]
    omega)

theorem makeQueue (hf : OnTask s₀ t f below k s) (limits : Fifo.Limits) (values : List α)
    (hk : 2 + values.length * operationCost < k) : TaskDone s₀ t f below (s.newQueue t f.inside limits values) := by
  have hf' := (hf.weaken (k - 1 + 1) (by omega)).newQueue limits
  have hid : s.world.store.nextQueue < (s.withWorld fun w => w.newQueue limits).2.world.store.nextQueue :=
    Nat.lt_succ_self _
  unfold State.newQueue
  dsimp only
  split
  · refine OnTask.deliver (k := k - 1) ?_ (by omega) _
    exact hf'.same rfl rfl rfl (hf'.sound.queues.push hid) hf'.sound.iterators
  · refine hf'.push rfl rfl rfl ⟨Task.fine_appends hid values, nofun, fun id e => ?_, nofun⟩ ?_
    · cases e; exact hid
    · simp only [Frame.cost, Task.costs_append]
      omega

theorem popMany (n : Nat) {id : Nat} : ∀ {s : State α}, OnTask s₀ t f below k s → id < s.world.store.nextQueue →
    OnTask s₀ t f below k (s.popMany id n).2 := by
  induction n with
  | zero => exact fun hf _ => hf
  | succ n ih =>
    intro s hf hid
    have hid' : id < (s.withWorld fun w => w.pop id).2.world.store.nextQueue :=
      (Store.next_pop s.world.store id).1.symm ▸ hid
    exact ih (hf.pop hid) hid'

theorem next (hf : OnTask s₀ t f below k s) (hk : 1 ≤ k) {id : Nat} (hid : id < s.world.store.nextQueue)
    (n : Option Nat) : TaskDone s₀ t f below (match n with
      | none =>
        let (v, s) := s.withWorld fun w => w.pop id
        s.deliver t (.front v)
      | some n =>
        let (rs, s) := s.popMany id n
        s.deliver t (.list rs)) := by
  cases n with
  | none => exact (hf.pop hid).deliver hk _
  | some n => exact (hf.popMany n hid).deliver hk _

/-- An enqueue is begun if there is memory for a link, and else the value comes back. -/
theorem attempt (hf : OnTask s₀ t f below k s) {id : Nat} (hid : id < s.world.store.nextQueue) (v : α)
    (outOfMemory : Bool) (hk : 20 < k) : TaskDone s₀ t f below
      (let (back, s) := (s.modifyTop t fun top => { top with await := some .attempted }).withWorld
        fun w => w.tryEnqueue t id v (!outOfMemory)
      match back with
      | some v => (s.note .allocFailed).deliver t (.outOfMemory v)
      | none => s) := by
  cases outOfMemory with
  | false =>
    exact hf.beginOperation (a := .attempted) (g := fun w => w.enqueue t id v)
      (World.opens_enqueue hf.sound.queueInv.choose_spec hf.mayBegin hid v) nofun nofun hk
  | true =>
    generalize hs' : (((s.modifyTop t fun top => { top with await := some .attempted }).withWorld
      fun w => w.tryEnqueue t id v false).2.note .allocFailed) = s'
    have hworker : ∀ u, s'.worker u =
        if u = t then { s.worker t with frames := { f with await := some .attempted } :: below } else s.worker u :=
      fun u => hs' ▸ worker_modifyTop hf.frames (fun top => { top with await := some .attempted }) u
    have hthread := hworker t
    rw [if_pos rfl] at hthread
    have hframes : (s'.worker t).frames = { f with await := some .attempted } :: below := by rw [hthread]
    have hsame : s'.world = s.world ∧ s'.objects = s.objects ∧ s'.queues = s.queues ∧ s'.iterators = s.iterators := by
      rw [← hs']; exact ⟨rfl, rfl, rfl, rfl⟩
    have hresult : TaskDone s₀ t f below (s'.deliver t (.outOfMemory v)) := by
      obtain ⟨hw, hobj, hq, hi⟩ := s'.deliver_frame t (.outOfMemory v)
      refine hf.comes (r := .outOfMemory v) (Nat.le_trans (by decide) hk) (hw.trans hsame.1) (hobj.trans hsame.2.1)
        (hq.trans hsame.2.2.1) (hi.trans hsame.2.2.2) fun u => ?_
      rw [worker_deliver hframes, hthread]
      by_cases e : u = t
      · rw [if_pos e, if_pos e]; rfl
      · rw [if_neg e, if_neg e, hworker, if_neg e]
    rw [← hs'] at hresult
    exact hresult

end OnTask

/-! ## Every task -/

theorem runCommand_taskDone {c : Command α} (hf : OnTask s₀ t f below c.cost s) (hc : c.orderly f.inside = true) :
    TaskDone s₀ t f below (s.runCommand t f.inside c) := by
  have hpos := c.cost_pos
  have hdeliver := hf.deliver hpos
  -- what destructors are refused
  have hrefuse : ∀ {s' : State α} {r : Refusal}, (f.inside = false → TaskDone s₀ t f below s') →
      TaskDone s₀ t f below (if f.inside then s.refuse t r else s') := fun h => by
    split
    next => exact hdeliver _
    next hin => exact h (by simpa using hin)
  have hinv := hf.sound.queueInv.choose_spec
  have hmay := hf.mayBegin
  cases c with
  | pin =>
    obtain ⟨c, -, ho⟩ := World.opens_pin hinv hmay
    refine hf.begin ho ?_ ?_ (by decide : 4 < 5)
    · split <;> exact nofun
    · split
      · exact nofun
      · next hin => exact fun _ => by simpa using hin
  | unpin g =>
    refine hrefuse fun hin => ?_
    unfold State.unpin
    split
    next => exact hdeliver _
    next i g' hg => exact (hf.unpin hin (guard?_mem hg)).deliver hpos _
  | pinTimes n =>
    refine hf.loop (fun task ht => ?_) nofun ?_
    · cases List.mem_singleton.mp ht; trivial
    · show 1 + n * (1 + (5 + 0)) < 2 + n * 6
      omega
  | guardText =>
    refine hrefuse fun _ => ?_
    split
    · exact hdeliver _
    · exact hdeliver _
  | flush => exact hf.begin (World.opens_flush hinv hmay) (fun _ => ⟨rfl, rfl⟩) nofun (by decide : 3 < 4)
  | pending => exact hf.pending.deliver hpos _
  | new value custom onFree =>
    have hf' := (hf.weaken (1 + (2 + Command.costs onFree)) (by simp only [Command.cost]; omega)).newObject
      value custom hc
    exact hf'.deliver (Nat.le_refl 1) _
  | retire name => exact hf.retire name
  | retireNew n value custom onFree =>
    refine hf.loop (fun task ht => ?_) nofun ?_
    · cases List.mem_singleton.mp ht; exact hc
    · have hbody : 1 + (6 + Command.costs onFree + 0) = 7 + Command.costs onFree := by omega
      show 1 + n * (1 + (6 + Command.costs onFree + 0)) < 2 + n * (7 + Command.costs onFree)
      rw [hbody]
      omega
  | repeated n body =>
    refine hf.loop (Task.fine_commands hc) nofun ?_
    rw [Task.costs_command]
    simp only [Command.cost]
    omega
  | cell name =>
    simp only [runCommand]
    split
    · exact hdeliver _
    · exact (hf.cells _).deliver hpos _
  | load c order =>
    refine hrefuse fun hin => ?_
    exact hf.concluded (p := (s.load t c order, s)) hpos ⟨s.cells, rfl⟩ (Or.inl hin)
  | store c name order =>
    refine hf.concluded (p := s.store c name order) hpos (s.store_cells c name order) ?_
    cases hin : f.inside with
    | false => exact Or.inl rfl
    | true =>
      rw [hin] at hc
      exact Or.inr (s.store_orderly c name (by simpa [Command.orderly] using hc))
  | swap c name order => exact hrefuse fun _ => hf.delivered hpos (s.swap_cells t c name order)
  | cas c current name order failOrder =>
    exact hrefuse fun hin => hf.concluded hpos (s.cas_cells t c current name order failOrder) (Or.inl hin)
  | getMut c name => exact hf.delivered hpos (s.getMut_cells c name)
  | same c d => exact hrefuse fun _ => hdeliver _
  | cellText c => exact hdeliver _
  | sharedText c =>
    refine hrefuse fun _ => ?_
    split
    · exact hdeliver _
    · exact hdeliver _
  | newQueue limits values =>
    refine hf.makeQueue limits values ?_
    simp only [Command.cost]
    omega
  | enqueue q v =>
    exact hf.onQueue hpos fun id hid =>
      hf.beginOperation (World.opens_enqueue hinv hmay hid v) nofun nofun (by decide : 20 < 21)
  | enqueueMany q vs | extend q vs =>
    refine hf.onQueue hpos fun id hid => hf.appendAll hid vs ?_
    simp only [Command.cost]
    omega
  | tryEnqueue q v outOfMemory =>
    exact hf.onQueue hpos fun id hid => hf.attempt hid v outOfMemory (by decide : 20 < 21)
  | dequeue q =>
    exact hf.onQueue hpos fun id hid =>
      hf.beginOperation (World.opens_dequeue hinv hmay hid) nofun nofun (by decide : 20 < 21)
  | dequeueMany q n =>
    refine hf.onQueue hpos fun id hid => hf.loop (fun task ht => ?_) nofun ?_
    · cases List.mem_singleton.mp ht; exact hid
    · show 1 + n * (1 + (operationCost + 0)) < 2 + n * (1 + operationCost)
      rw [Nat.add_zero]
      omega
  | isEmpty q | queueText q alternate =>
    exact hf.onQueue hpos fun id hid =>
      hf.beginOperation (World.opens_isEmpty hinv hmay hid) nofun nofun (by decide : 20 < 21)
  | live q | limits q => exact hf.onQueue hpos fun id _ => hdeliver _
  | dropQueue q =>
    refine hf.onQueue hpos fun id hid => ?_
    have hf' : OnTask s₀ t f below 1 { s with queues := s.queues.setIfInBounds q none } :=
      hf.same rfl rfl rfl hf.sound.queues.set_none hf.sound.iterators
    exact (hf'.dropQueue hid).deliver (Nat.le_refl 1) _
  | iterate q =>
    refine hf.onQueue hpos fun id hid => OnTask.deliver (k := 1) ?_ (Nat.le_refl 1) _
    exact hf.same rfl rfl rfl hf.sound.queues.set_none (hf.sound.iterators.push hid)
  | next i n => exact hf.onIterator hpos fun id hid => hf.next hpos hid n
  | iteratorText i alternate =>
    exact hf.onIterator hpos fun id hid =>
      hf.beginOperation (World.opens_isEmpty hinv hmay hid) nofun nofun (by decide : 20 < 21)
  | collect i =>
    refine hf.onIterator hpos fun id hid => OnTask.deliver (k := 1) (OnTask.dropQueue ?_ ?_) (Nat.le_refl 1) _
    · have hf' := hf.drain hid
      exact hf'.same rfl rfl rfl hf'.sound.queues hf'.sound.iterators.set_none
    · exact (Store.next_popAll id s.world.store.nextLink s.world.store).1.symm ▸ hid
  | dropIterator i =>
    refine hf.onIterator hpos fun id hid => ?_
    have hf' : OnTask s₀ t f below 1 { s with iterators := s.iterators.setIfInBounds i none } :=
      hf.same rfl rfl rfl hf.sound.queues hf.sound.iterators.set_none
    exact (hf'.dropQueue hid).deliver (Nat.le_refl 1) _
  | unknown name => exact hdeliver _

theorem runTask_taskDone {task : Task α} {tasks : List (Task α)} (hs : s.Sound)
    (hframes : (s.worker t).frames = f :: below) (ha : f.await = none) (htodo : f.todo = task :: tasks) :
    TaskDone s t f below (s.runTask t f.inside task) := by
  have hf := onTask hs hframes ha htodo
  have hfine := hf.fine.todo task (htodo ▸ List.mem_cons_self)
  have hinv := hs.queueInv.choose_spec
  cases task with
  | command c => exact runCommand_taskDone hf hfine
  | touch =>
    obtain ⟨c, -, ho⟩ := World.opens_pin hinv hf.mayBegin
    exact hf.begin ho nofun nofun (by decide : 4 < 5)
  | plant value custom onFree => exact hf.plant value custom hfine
  | append id v =>
    exact hf.beginOperation (World.opens_enqueue hinv hf.mayBegin hfine v) nofun nofun (by decide : 20 < 21)
  | take id => exact hf.beginOperation (World.opens_dequeue hinv hf.mayBegin hfine) nofun nofun (by decide : 20 < 21)

end

end EpochQueue.Script.State
