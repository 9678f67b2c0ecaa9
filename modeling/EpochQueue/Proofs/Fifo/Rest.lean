/-
  EpochQueue.Proofs.Fifo.Rest — a thread that only takes steps comes to rest.

  Whatever waits for a call waits at its start, for its guard, or is about to leave
  (`Reach.ticketed`), so the steps that a thread has before it can be counted. A step leaves fewer
  of them, unless it destroys a node, and then fewer nodes are left (`Moves.load_lt`). With what is
  retired and not destroyed yet that makes a number that falls with every step (`World.Reach.due_step`).
-/

import EpochQueue.Proofs.Fifo.Errands
import EpochQueue.Proofs.Fifo.Keeping

namespace EpochQueue.Fifo

open Reclaim (Domain Notice Phase)

variable {α : Type}

/-! ## Operations that wait -/

namespace World

variable {w w' : World α} {lay : Nat → Layout} {t : Nat}

/-- What a step does to the calls of its thread leaves them their tickets. -/
theorem ticketed_step (hs : QueueInv w lay) (hrest : ¬ w.rests t)
    (h : ∀ c ∈ (w.domain.thread t).calls, Ticketed c) : ∀ c ∈ ((w.step t).1.domain.thread t).calls, Ticketed c := by
  have htail : ∀ {c rest}, (w.domain.thread t).calls = c :: rest → Ticketed c ∧ ∀ c ∈ rest, Ticketed c := fun e =>
    List.forall_mem_cons.mp (e ▸ h)
  have hmoves := step_moves hs hrest
  generalize (w.step t).2 = signal at hmoves
  cases hmoves with
  | accessed o o' a pause _ _ _ _ hd => rw [hd]; exact h
  | took o r q head _ _ _ _ hpin hflush hc =>
    rw [hc]
    refine List.forall_mem_cons.mpr ⟨fun o' ho => ?_, h⟩
    cases ho
    exact ⟨hflush, by rw [if_neg (by rw [hpin]; exact Bool.false_ne_true)]; exact ⟨r, rfl⟩⟩
  | left _ _ _ _ _ hc => rw [hc]; exact h
  | on c rest q _ _ hold hc _ hflush hpin =>
    rw [hc]
    exact List.forall_mem_cons.mpr ⟨(htail hold).1.goesOn hflush hpin, (htail hold).2⟩
  | freed c rest p n todo freed signal _ _ hold hphase hc =>
    rw [hc]
    refine List.forall_mem_cons.mpr ⟨(htail hold).1.goesOn ?_ ?_, (htail hold).2⟩ <;> rw [hphase] <;> rfl
  | resumed _ _ _ _ _ _ hold hc => rw [hc]; exact (htail hold).2
  | back _ _ _ _ _ hold hc => rw [hc]; exact (htail hold).2
  | pinned _ _ _ _ _ hold hc => rw [hc]; exact (htail hold).2
  | answered _ _ _ _ _ _ hold hc => rw [hc]; exact (htail hold).2

/-- Whatever waits for a call does so at its start, for its guard, or before it leaves. -/
theorem Reach.ticketed (h : w.Reach) : ∀ t, ∀ c ∈ (w.domain.thread t).calls, Ticketed c := by
  induction h with
  | start => exact fun _ => nofun
  | @move w t m hr hm ih =>
    obtain ⟨lay, hk⟩ := hr.kept
    have hs := hk.toQueueInv
    intro u
    by_cases e : u = t
    case neg => rw [(move_of_ne e m).2]; exact ih u
    subst e
    have hopens : ∀ {c x n w'}, Opens u c x n w w' → ∀ c ∈ (w'.domain.thread u).calls, Ticketed c := fun ho => by
      rw [ho.calls]
      exact List.forall_mem_cons.mpr ⟨ho.ticketed, ih u⟩
    cases m with
    | pin => obtain ⟨c, -, ho⟩ := opens_pin hs hm; exact hopens ho
    | retire i =>
      obtain ⟨c, -, ho⟩ := opens_retire hs hm.1 (fun h => hm.2 ((Domain.mem_story rfl).mp h))
      exact hopens ho
    | flush => exact hopens (opens_flush hs hm)
    | tryEnqueue q v memory =>
      cases memory with
      | true => obtain ⟨c, -, ho⟩ := opens_enqueue hs hm.1 (Store.isOpen_lt hm.2) v; exact hopens ho
      | false => exact ih u
    | dequeue q => obtain ⟨c, -, ho⟩ := opens_dequeue hs hm.1 (Store.isOpen_lt hm.2); exact hopens ho
    | isEmpty q => obtain ⟨c, -, ho⟩ := opens_isEmpty hs hm.1 (Store.isOpen_lt hm.2); exact hopens ho
    | unpin g => dsimp only [World.move, World.unpin]; rw [(Domain.calls_unpin w.domain u g).1]; exact ih u
    | pending => dsimp only [World.move, World.pending]; rw [(Domain.calls_pending w.domain u).1]; exact ih u
    | exit => dsimp only [World.move, World.exit]; rw [(Domain.calls_exit w.domain u).1]; exact ih u
    | newQueue limits | pop q | tearDown q => exact ih u
    | step => exact ticketed_step hs hm (ih u)

/-- The operation has nothing to read before its guard comes, or nothing any more. -/
def Waiting (p : Operation α × Bool) : Prop := p.2 = true ∨ ∃ r, p.1.point = .leave r

theorem Reach.waiting (h : w.Reach) {p : Operation α × Bool} {rest : List (Operation α × Bool)}
    (hk : w.stack t = p :: rest) : ∀ p' ∈ rest, Waiting p' := by
  have hwaits : ∀ p' ∈ w.waits t, Waiting p' := fun p' hp' => by
    obtain ⟨c, hc, hp'⟩ := List.mem_filterMap.mp hp'
    obtain ⟨o, ho, rfl⟩ := Option.map_eq_some_iff.mp hp'
    have hwait := (h.ticketed t c hc o ho).2
    by_cases hpin : c.phase.pin?.isSome = true
    · exact Or.inl hpin
    · rw [if_neg hpin] at hwait
      exact Or.inr hwait
  intro p' hp'
  unfold stack at hk
  cases ho : w.operation t with
  | some o =>
    rw [ho] at hk
    cases hk
    exact hwaits p' hp'
  | none =>
    rw [ho, Option.toList_none, List.map_nil, List.nil_append] at hk
    exact hwaits p' (hk ▸ List.mem_cons_of_mem _ hp')

end World

/-! ## Steps -/

/-- There are fewer steps to take, and the story goes on with one more node retired at most; or there
    are as many, and it goes on with a node destroyed. -/
def World.Lightens (w : World α) (t : Nat) (w' : World α) (x : List (Notice Garbage)) : Prop :=
  w'.domain.story = w.domain.story ++ x ∧
    (w'.load t < w.load t ∧ (x.filterMap (·.retired?)).length ≤ 1 ∧ x.filterMap (·.freed?) = [] ∨
      w'.load t = w.load t ∧ x.filterMap (·.retired?) = [] ∧ (x.filterMap (·.freed?)).length = 1)

/-- A step leaves fewer steps to take, unless it destroys something. -/
theorem Moves.load_lt {w w' : World α} {t : Nat} {signal : Signal α} (hm : Moves w t w' signal)
    (htickets : ∀ c ∈ (w.domain.thread t).calls, Ticketed c) : ∃ x, w.Lightens t w' x := by
  -- most steps say nothing of nodes
  have hplain : ∀ {x : List (Notice Garbage)}, w'.domain.story = w.domain.story ++ x → x.filterMap (·.retired?) = [] →
      x.filterMap (·.freed?) = [] → w'.load t < w.load t → ∃ x, w.Lightens t w' x := fun {x} hst hret hfree hlt =>
    ⟨x, hst, Or.inl ⟨hlt, by rw [hret]; exact Nat.zero_le 1, hfree⟩⟩
  have hsilent := fun h : w'.domain.story = w.domain.story =>
    hplain (x := []) (h.trans (List.append_nil _).symm) rfl rfl
  have hload := @World.load_eq _ w t
  have hload' := @World.load_eq _ w' t
  cases hm with
  | accessed o o' access pause hop hop' hleft _ hd =>
    refine hsilent (by rw [hd]) ?_
    rw [hload hop rfl, hload' hop' (congrArg (fun d => (d.thread t).calls) hd)]
    exact Nat.add_lt_add_right hleft _
  | took o r q head hop hop' hleft hq _ _ hc _ hst =>
    refine ⟨_, hst, Or.inl ⟨?_, Nat.le_refl 1, rfl⟩⟩
    rw [hload hop rfl, hload' hop' hc]
    simp only [Option.map_some, Option.map_none, Option.getD_some, Option.getD_none, callsLoad, callLoad,
      Operation.wait_of_leave (o := o.leave r) rfl, hleft]
    omega
  | left o r hop hop' hleft hc _ hst =>
    have hlt : w'.load t < w.load t := by
      rw [hload hop rfl, hload' hop' hc]
      simp only [Option.map_some, Option.map_none, Option.getD_some, Option.getD_none, hleft]
      omega
    rcases hst with hst | ⟨g, hst⟩
    · exact hsilent hst hlt
    · exact hplain hst rfl rfl hlt
  | on c rest q hop hop' hold hc hleft _ _ _ hst =>
    have hlt : w'.load t < w.load t := by
      rw [hload hop hold, hload' hop' hc]
      simp only [Option.map_none, Option.getD_none, callsLoad, callLoad]
      omega
    rcases hst with hst | ⟨e, hst⟩
    · exact hsilent hst hlt
    · exact hplain hst rfl rfl hlt
  | freed c rest p n todo freed signal hop hop' hold hphase hc _ _ hst =>
    refine ⟨_, hst, Or.inr ⟨?_, rfl, rfl⟩⟩
    rw [hload hop hold, hload' hop' hc]
    simp only [Option.map_none, callsLoad, callLoad, hphase, Phase.left]
  | resumed c rest o g hop hop' hold hc hticket hpin _ hst _ =>
    refine hplain hst rfl rfl ?_
    have hstart := (htickets c (hold ▸ List.mem_cons_self) o hticket).2
    rw [if_pos hpin] at hstart
    have hleft := Operation.left_of_start (o := { o with guard := some g }) hstart.2 w'.store
    have hpos := c.phase.left_pos
    rw [hload hop hold, hload' hop' hc]
    simp only [Option.map_some, Option.map_none, Option.getD_some, Option.getD_none, callsLoad, callLoad, hticket,
      Operation.wait_of_start hstart.2]
    omega
  | back c rest o hop hop' hold hc hticket hpin _ hst =>
    refine hsilent hst ?_
    have hleave := (htickets c (hold ▸ List.mem_cons_self) o hticket).2
    rw [if_neg (hpin ▸ Bool.false_ne_true)] at hleave
    obtain ⟨r, hr⟩ := hleave
    have hpos := c.phase.left_pos
    rw [hload hop hold, hload' hop' hc]
    simp only [Option.map_some, Option.map_none, Option.getD_some, Option.getD_none, callsLoad, callLoad, hticket,
      Operation.wait_of_leave hr, Operation.left_of_leave hr]
    omega
  | pinned c rest g hop hop' hold hc hticket _ _ hst =>
    refine hplain hst rfl rfl ?_
    have hpos := c.phase.left_pos
    rw [hload hop hold, hload' hop' hc]
    simp only [Option.map_none, Option.getD_none, callsLoad, callLoad, hticket]
    omega
  | answered c rest x _ hop hop' hold hc hticket _ _ hst =>
    refine hsilent hst ?_
    have hpos := c.phase.left_pos
    rw [hload hop hold, hload' hop' hc]
    simp only [Option.map_none, Option.getD_none, callsLoad, callLoad, hticket]
    omega

namespace World

/-- What `t` has to do for what it has under way, and how many nodes are there to be destroyed. -/
def due (w : World α) (t : Nat) : Nat := 2 * w.load t + (w.domain.retirements.length - w.domain.frees.length)

/-- Every step of a thread leaves it less to do. -/
theorem Reach.due_step {w : World α} (h : w.Reach) {t : Nat} (hrest : ¬ w.rests t) :
    (w.move t .step).due t < w.due t := by
  obtain ⟨lay, hk⟩ := h.kept
  obtain ⟨lay', hk'⟩ := (Reach.move t .step h hrest).kept
  have hle' := hk'.reach.balanced.frees_le
  obtain ⟨x, hst, hx⟩ := (step_moves hk.toQueueInv hrest).load_lt (h.ticketed t)
  have hret := Domain.retirements_eq (d := (w.move t .step).domain)
  have hfree := Domain.frees_eq (d := (w.move t .step).domain)
  rw [show (w.move t .step).domain.story = _ from hst, List.filterMap_append] at hret hfree
  rw [← Domain.retirements_eq] at hret
  rw [← Domain.frees_eq] at hfree
  have hret := congrArg List.length hret
  have hfree := congrArg List.length hfree
  rw [List.length_append] at hret hfree
  unfold due
  rw [show (w.step t).1 = w.move t .step from rfl] at hx
  rcases hx with ⟨hlt, hone, hnone⟩ | ⟨heq, hnone, hone⟩
  · rw [hnone, List.length_nil] at hfree
    omega
  · rw [hnone, List.length_nil] at hret
    omega

end World

end EpochQueue.Fifo
