/-
  EpochQueue.Proofs.Script.Draining — an only owner gets what dequeuing would have given, and leaves nothing.

  Popping alone and dequeuing are two ways to the same values (`Standing.pops`, `Dequeues.of_laid`). They
  treat links differently: a dequeue retires the old sentinel, and a pop frees it at once, which it may
  because nothing from the head on is garbage. Dropping the queue after any number of pops drops the
  values that are left, says how many they were, and frees the links that are left. `DrainsAlike`
  gathers that; it holds of every queue that is open, with its tail set to any link of the chain.
-/

import EpochQueue.Proofs.Fifo.Drain
import EpochQueue.Proofs.Fifo.Schedules
import EpochQueue.Proofs.Fifo.Undisturbed
import EpochQueue.Proofs.Fifo.Whereabouts
import EpochQueue.Proofs.Script.Sound

namespace EpochQueue.Script

open EpochQueue.Fifo (World Move)

variable {α : Type}

/-! ## The log -/

namespace State

/-- The log has everything in it that the domain has noted. -/
def caughtUp (s : State α) : State α := s.onWorld id

theorem foldl_from_end {β γ : Type} (as : Array β) (f : γ → β → γ) (b : γ) : as.foldl f b as.size as.size = b := by
  simp [Array.foldl, Array.foldlM, Array.foldlM.loop]

theorem log_withWorld {β : Type} (s : State α) {f : World α → β × World α}
    (hf : (f s.world).2.domain = s.world.domain) :
    (s.withWorld f).2.log = s.caughtUp.log ∧ (s.withWorld f).2.caughtUp.log = s.caughtUp.log := by
  have hlog : (s.withWorld f).2.log = s.caughtUp.log := by
    unfold caughtUp onWorld withWorld
    dsimp only [id]
    rw [hf]
  exact ⟨hlog, (foldl_from_end _ _ _).trans hlog⟩

theorem popMany_spec (q k : Nat) (s : State α) : (popMany q k s).1 = (s.world.store.pops q k).1.map .front ∧
    (popMany q k s).2.world = { s.world with store := (s.world.store.pops q k).2 } ∧
    (popMany q k s).2.caughtUp.log = s.caughtUp.log := by
  induction k generalizing s with
  | zero => exact ⟨rfl, rfl, rfl⟩
  | succ k ih =>
    obtain ⟨hresults, hworld, hlog⟩ := ih (s.withWorld fun w => w.pop q).2
    exact ⟨congrArg (_ :: ·) hresults, hworld, hlog.trans (s.log_withWorld (f := fun w => w.pop q) rfl).2⟩

theorem log_dropQueue (s : State α) (q : Nat) : (s.dropQueue q).log.toList = s.caughtUp.log.toList ++
    (s.world.store.tearDown q).1.map .dropped ++ [.queueDropped (s.world.store.tearDown q).1.length] := by
  have hnotes : ∀ (vs : List α) (s : State α),
      (vs.foldl (fun s v => s.note (.dropped v)) s).log.toList = s.log.toList ++ vs.map .dropped := by
    intro vs
    induction vs with
    | nil => simp
    | cons v vs ih =>
      intro s
      rw [List.foldl_cons, ih, note, Array.toList_push]
      simp
  unfold dropQueue
  dsimp only
  rw [note, Array.toList_push, hnotes, (s.log_withWorld (f := fun w => w.tearDown q) rfl).1]
  rfl

end State

/-! ## Both ways -/

/-- Whoever has the queue `q` of this world to himself. -/
structure DrainsAlike (w : World α) (q : Nat) : Prop where
  /-- Pops give the values in order, and then nothing for ever. -/
  pops : ∀ n, (w.store.pops q n).1 = (List.range n).map fun i => (w.store.values q)[i]?
  /-- So do dequeues, one after another by any thread that may begin one, and they give nothing else. -/
  dequeues : ∀ t n, w.mayBegin t = true → (∃ w', w.Dequeues t q (w.store.pops q n).1 w') ∧
    ∀ vs w', w.Dequeues t q vs w' → vs.length = n → vs = (w.store.pops q n).1
  /-- A pop that gives a value frees the old sentinel, and no other link, -/
  frees : ∀ n, n < (w.store.values q).length → (w.store.pops q n).2.Frees
    [((w.store.pops q n).2.queue q).head] (w.store.pops q (n + 1)).2
  /-- and one that gives none changes nothing. -/
  rests : ∀ n, (w.store.values q).length ≤ n → (w.store.pops q n).2 = (w.store.pops q (w.store.values q).length).2
  /-- The tail stays on a link that is not freed. -/
  tail : ∀ n, ((w.store.pops q n).2.link ((w.store.pops q n).2.queue q).tail).freed = false
  /-- None of these links is garbage. -/
  unretired : ∀ n ∈ w.store.chain q, ¬ w.domain.wasRetired (.link n)
  /-- After so many pops, tearing down gives the values that are left, and frees the links that are left,
      each once. -/
  tearDown : ∀ k, ((w.store.pops q k).2.tearDown q).1 = (w.store.values q).drop k ∧
    (w.store.pops q k).2.Frees (w.store.chain q |>.drop (min k (w.store.values q).length))
      ((w.store.pops q k).2.tearDown q).2
  /-- Popped or torn down, no link of the queue was freed before, and each is freed in the end. -/
  everything : ∀ k, (w.store.chain q).Nodup ∧ ∀ n ∈ w.store.chain q, (w.store.link n).freed = false ∧
    (((w.store.pops q k).2.tearDown q).2.link n).freed = true
  /-- Dropping the queue is that tearing down, and touches nothing but the store. -/
  drops : ∀ (s : State α) k, s.world = w →
    ((s.popMany q k).2.dropQueue q).world = { w with store := ((w.store.pops q k).2.tearDown q).2 }
  /-- The values that are left are dropped in order, and their number goes into the log. -/
  log : ∀ (s : State α) k, s.world = w → (s.popMany q k).1 = (w.store.pops q k).1.map .front ∧
    ((s.popMany q k).2.dropQueue q).log.toList = s.caughtUp.log.toList ++
      ((w.store.values q).drop k).map .dropped ++ [.queueDropped ((w.store.values q).length - k)]

theorem DrainsAlike.of_standing {w : World α} {q : Nat} (hs : w.store.Standing q)
    (hgarbage : ∀ n ∈ w.store.chain q, ¬ w.domain.wasRetired (.link n)) : DrainsAlike w q := by
  have hpops : ∀ n, (w.store.pops q n).1 = (List.range n).map fun i => (w.store.values q)[i]? := fun n =>
    (hs.pops n).choose_spec.1
  have hstands : ∀ n, (w.store.pops q n).2.Standing q := fun n => (hs.pops n).choose_spec.2.1
  have hvals : ∀ n, (w.store.pops q n).2.values q = (w.store.values q).drop n := fun n => (hs.pops n).choose_spec.2.2.1
  have hdown : ∀ k, ((w.store.pops q k).2.tearDown q).1 = (w.store.values q).drop k := fun k =>
    (hstands k).tearDown.1.trans (hvals k)
  constructor
  case pops => exact hpops
  case dequeues =>
    intro t n hm
    obtain ⟨L, hl, -⟩ := hs
    obtain ⟨w', hall, -⟩ := World.Dequeues.of_laid hm hl n
    rw [hpops]
    refine ⟨⟨w', hall⟩, ?_⟩
    intro vs w'' hvs hlen
    exact (hall.unique hvs (by rw [hlen, List.length_map, List.length_range])).1
  case frees =>
    intro n hn
    obtain ⟨v, vs, hv⟩ := List.exists_cons_of_ne_nil (l := (w.store.pops q n).2.values q) (by
      rw [hvals n, ne_eq, List.drop_eq_nil_iff]
      omega)
    rw [Fifo.Store.pops_succ]
    exact ((hstands n).pop_cons hv).2.2.2.2
  case rests =>
    intro n hn
    induction n, hn using Nat.le_induction with
    | base => rfl
    | succ n hn ih =>
      have hv : (w.store.pops q n).2.values q = [] := (hvals n).trans (List.drop_eq_nil_of_le hn)
      rw [Fifo.Store.pops_succ, ((hstands n).pop_nil hv).1]
      exact ih
  case tail =>
    intro n
    exact (hstands n).tail_unfreed
  case unretired => exact hgarbage
  case tearDown =>
    intro k
    obtain ⟨ns, -, -, -, hchain, hlen, -⟩ := hs.pops k
    refine ⟨hdown k, ?_⟩
    rw [hchain, ← hlen, List.drop_left]
    exact (hstands k).tearDown.2
  case everything =>
    intro k
    obtain ⟨ns, -, -, -, hchain, -, hfrees⟩ := hs.pops k
    have hall := hfrees.trans (hstands k).tearDown.2
    rw [← hchain] at hall
    obtain ⟨hnodup, hunfreed⟩ := hall.nodup
    refine ⟨hnodup, ?_⟩
    intro n hn
    exact ⟨hunfreed n hn, (hall.freed_iff n).mpr (Or.inl hn)⟩
  case drops =>
    intro s k hw
    obtain ⟨-, hworld, -⟩ := s.popMany_spec q k
    rw [((s.popMany q k).2.dropQueue_frame q).1, hworld, hw]
    rfl
  case log =>
    intro s k hw
    obtain ⟨hresults, hworld, hlog⟩ := s.popMany_spec q k
    rw [State.log_dropQueue, hworld, hlog, hw, hdown, List.length_drop]
    exact ⟨hw ▸ hresults, rfl⟩

/-- In every world, and wherever in its chain the tail stands. -/
theorem drainsAlike {w : World α} (h : w.Reach) {q n : Nat} (hopen : w.store.isOpen q = true)
    (hn : n ∈ w.store.chain q) : DrainsAlike { w with store := w.store.setTail q n } q := by
  obtain ⟨lay, hr⟩ := h.linksPlaced
  have hq := Fifo.Store.isOpen_lt hopen
  have hl := hr.opsFit.laid q hq
  have hstanding : w.store.Standing q := ⟨lay q, hl, fun i m hi hm => hr.live q hopen i m hi hm⟩
  obtain ⟨hs, -, hchain⟩ := hstanding.setTail hn
  refine .of_standing hs fun m hm hret => ?_
  rw [hchain, hl.chain_eq] at hm
  obtain ⟨i, hle, hi⟩ := Fifo.Laid.mem_drop hm
  exact absurd (hr.lt_head hq hi ((Reclaim.Domain.mem_story rfl).mpr hret)) (Nat.not_lt_of_le hle)

/-- Three values are in the queue. -/
def filledRun : List (Nat × Move Nat) :=
  (0, .newQueue .standard) :: [7, 8, 9].flatMap fun v => (0, .tryEnqueue 0 v true) :: List.replicate 8 (0, .step)

theorem filledRun_plays : (({} : World Nat).play filledRun).isSome = true := by decide +kernel

def filledEnd : World Nat := (({} : World Nat).play filledRun).get filledRun_plays

theorem filledEnd_reached : filledEnd.Reach := .of_play .start (Option.some_get filledRun_plays).symm

/-- The tail is set back to the sentinel, three links behind. -/
theorem filledEnd_drainsAlike : ∃ w : World Nat, w = { filledEnd with store := filledEnd.store.setTail 0 0 } ∧
    w.store.chain 0 = [0, 1, 2, 3] ∧ (w.store.queue 0).tail = 0 ∧ w.mayBegin 1 = true ∧
    (w.store.pops 0 5).1 = [some 7, some 8, some 9, none, none] ∧ ((w.store.pops 0 1).2.tearDown 0).1 = [8, 9] ∧
    DrainsAlike w 0 := by
  have hall : DrainsAlike { filledEnd with store := filledEnd.store.setTail 0 0 } 0 :=
    drainsAlike filledEnd_reached (by decide +kernel) (by decide +kernel)
  have hvalues : (filledEnd.store.setTail 0 0).values 0 = [7, 8, 9] := by decide +kernel
  refine ⟨_, rfl, by decide +kernel, by decide +kernel, by decide +kernel, ?_, ?_, hall⟩
  · rw [hall.pops, hvalues]
    rfl
  · rw [(hall.tearDown 1).1, hvalues]
    rfl

end EpochQueue.Script
