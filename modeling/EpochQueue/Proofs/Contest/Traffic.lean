/-
  EpochQueue.Proofs.Contest.Traffic — all wares come through, once and in order.

  Whenever not all agents are done, there is one that needs only so many turns of its own to get something
  done: a producer that is not, or a consumer that finds the queue filled, has a ware in hand, or is to
  find out that all have come through (`Sound.somebody`). So the rounds that the contest allows itself are
  enough (`contend_isDone`). Then the consumers have got what was sent, every ware once and those of each
  producer in order (`Sound.delivered`).

  In the end all threads exit, and the one that comes after them finds the queue empty and destroys, in
  three flushes, all that was retired. So the report has no losses, and a queue that counts its sentinel
  alone (`traffic_eq`).
-/

import EpochQueue.Proofs.Contest.Turns
import EpochQueue.Proofs.Fifo.LastThread

namespace EpochQueue.Contest

open Fifo (Limits Signal World)

theorem flatten_filterMap {α β : Type} (f : α → Option (List β)) (l : List α) :
    (l.filterMap f).flatten = l.flatMap fun x => (f x).getD [] := by
  induction l with
  | nil => rfl
  | cons x l ih =>
    rw [List.filterMap_cons, List.flatMap_cons, ← ih]
    cases f x <;> rfl

theorem foldl_eq_zero {α : Type} {f : α → Nat} {l : List α} (h : ∀ x ∈ l, f x = 0) :
    l.foldl (fun n x => n + f x) 0 = 0 := by
  induction l with
  | nil => rfl
  | cons x l ih =>
    rw [List.foldl_cons, h x List.mem_cons_self]
    exact ih fun y hy => h y (List.mem_cons_of_mem _ hy)

namespace Traffic

variable {producers consumers per n t u : Nat} {s s' : Traffic}

/-! ## The contest as a whole -/

namespace Played

variable (hp : Played t s s')

include hp

theorem share_le : s'.share t ≤ s.share t := hp.nearer.elim Nat.le_of_lt (·.1)

theorem isDone_of_ne (hu : u ≠ t) (hdone : s.isDone u = true) : s'.isDone u = true := by
  obtain ⟨k, hreceived, -⟩ := hp.received
  unfold isDone
  rw [hp.agents u hu, hp.total, hreceived]
  rcases of_isDone hdone with hagent | ⟨⟨got, hagent⟩, hle⟩ <;> rw [hagent]
  · rfl
  · exact (Bool.and_true _).trans (decide_eq_true (Nat.le_trans hle (Nat.le_add_right _ _)))

/-- Nobody else has more to do than before. -/
theorem dues_le_of_ne (hr : s.world.Reach) (hu : u ≠ t) : s'.dues u ≤ s.dues u := by
  have hdone := hp.isDone_of_ne hu
  unfold dues
  rw [hp.agents u hu, hp.inHand hr hu]
  rcases s.agent u with ⟨todo, waiting⟩ | ⟨got, waiting⟩
  · exact Nat.le_refl _
  · refine Nat.add_le_add_left ?_ _
    cases hold : s.isDone u with
    | true => rw [hdone hold]
    | false => split <;> decide

/-- What is to be done becomes less by what `t` does. -/
theorem toDo_le (hr : s.world.Reach) (ht : t < n) : s'.toDo n + s.share t ≤ s.toDo n + s'.share t := by
  have hsum := sum_range_le_of_ne (f := s.dues) (g := s'.dues) ht fun u hu => hp.dues_le_of_ne hr hu
  unfold toDo share
  omega

/-- Others that are waited for are no farther from getting something done. -/
theorem awaits_of_ne (h : s.Sound producers consumers per) (hu : u ≠ t) (hheld : s'.held = s.held)
    (hreceived : s'.received = s.received) {k : Nat} (ha : s.Awaits u k) : s'.Awaits u k := by
  obtain ⟨m, hm, hworld⟩ := hp.world
  have hagent := hp.agents u hu
  have hload : s'.world.load u ≤ s.world.load u := by
    rw [hworld]
    refine h.reach.load_calm hm hu fun o ho => ?_
    rw [(h.stands u).queue_of_operation ho, ← hworld, ← hp.queue]
    exact hheld.trans (congrArg _ hp.queue.symm)
  have hoperations : s'.world.operations u = s.world.operations u := by
    rw [hworld, World.operations_eq, World.operations_eq, World.stack_of_ne hu]
  refine ⟨?_, fun hc => ?_, Nat.le_trans hload ha.load, fun hne hun => ?_⟩
  · have hbusy := ha.busy
    unfold isDone at hbusy ⊢
    rwa [hagent, hp.total, hreceived]
  · rw [hheld, hp.inHand h.reach hu, hp.total, hreceived]
    exact ha.useful (hagent ▸ hc)
  · rw [hheld] at hne
    rw [World.EmptyHanded, hoperations] at hun
    exact Nat.le_trans (Nat.add_le_add_right hload 20) (ha.again hne hun)

end Played

namespace Sound

variable (h : s.Sound producers consumers per)

include h

/-- Between its operations an agent has nothing in hand. -/
theorem inHand_of_idle (hwaits : (∃ todo, s.agent t = .producer todo false) ∨ ∃ got, s.agent t = .consumer got false) :
    s.world.inHand t = [] := by
  have hstands := h.stands t
  rcases hwaits with ⟨_, hagent⟩ | ⟨_, hagent⟩ <;> rw [hagent] at hstands
  · exact World.Idle.inHand hstands
  · exact World.Idle.inHand hstands

/-- When the producers are done and nobody has anything in hand, every ware is in the queue, or some
    consumer has got it. -/
theorem settled (hproducers : ∀ t, t < producers + consumers → (s.agent t).consumes = false → s.isDone t = true)
    (hhands : ∀ t, t < producers + consumers → (s.agent t).consumes = true → s.world.inHand t = []) :
    ∃ gone, Flow producers (producers + consumers) per s gone ∧ (∀ p, s.unsent p = []) ∧
      gone.length = s.received ∧ s.received + s.held.length = s.total := by
  obtain ⟨gone, hf⟩ := h.flow
  have hunsent : ∀ p, s.unsent p = [] := fun p => by
    have hproducer : s.agent p = .producer [] false → s.unsent p = [] := fun hagent => by
      unfold unsent
      rw [hagent, h.inHand_of_idle (Or.inl ⟨_, hagent⟩)]
      rfl
    rcases Nat.lt_or_ge p (producers + consumers) with hp | hp
    · cases hagent : s.agent p with
      | producer todo waiting =>
        rcases of_isDone (hproducers p hp (by rw [hagent]; rfl)) with hdone | ⟨⟨got, hdone⟩, -⟩
        · exact hproducer hdone
        · rw [hagent] at hdone
          cases hdone
      | consumer got waiting =>
        unfold unsent
        rw [hagent]
    · exact hproducer (h.strangers p hp).1
  have hall : (gone ++ s.held).length = s.total := by
    rw [h.total, ← length_allWares]
    refine (perm_allWares fun p => ?_).length_eq
    rw [← hf.sent p, hunsent, List.append_nil]
  have hgone : gone.length = s.received := by
    rw [← hf.came.length_eq, List.length_flatMap, h.received]
    refine congrArg List.sum (List.map_congr_left fun u hu => ?_)
    have hnone := hhands u (List.mem_range.mp hu)
    unfold taken
    cases hagent : s.agent u with
    | producer todo waiting => rfl
    | consumer got waiting =>
      rw [hnone (by rw [hagent]; rfl)]
      exact (congrArg List.length (List.append_nil _)).trans List.length_reverse
  exact ⟨gone, hf, hunsent, hgone, by rw [← hall, List.length_append, hgone]⟩

/-- Whenever somebody is not done, there is an agent to wait for, if there is a consumer at all. -/
theorem somebody (hconsumers : 0 < consumers) (hdone : s.allDone (producers + consumers) = false) :
    ∃ t k, t < producers + consumers ∧ k ≤ 39 ∧ s.Awaits t k := by
  have hawaits : ∀ t, t < producers + consumers → s.isDone t = false →
      ((s.agent t).consumes = true → s.held ≠ [] ∨ s.world.inHand t ≠ [] ∨ s.total ≤ s.received) →
      ∃ t k, t < producers + consumers ∧ k ≤ 39 ∧ s.Awaits t k := fun t ht hbusy huse => by
    have hload := (h.stands t).load_le
    exact ⟨t, 39, ht, Nat.le_refl _, hbusy, huse, by omega, fun _ _ => by omega⟩
  by_cases hall : s.total ≤ s.received
  · obtain ⟨t, ht, hbusy⟩ := List.all_eq_false.mp hdone
    exact hawaits t (List.mem_range.mp ht) (Bool.not_eq_true _ ▸ hbusy) fun _ => Or.inr (Or.inr hall)
  have hbusy : ∀ t, (s.agent t).consumes = true → s.isDone t = false := fun t hc => by
    refine Bool.eq_false_iff.mpr fun hdone => ?_
    rcases of_isDone hdone with hagent | ⟨-, hle⟩
    · rw [hagent] at hc
      cases hc
    · exact hall hle
  by_cases hproducers : ∀ t, t < producers + consumers → (s.agent t).consumes = false → s.isDone t = true
  case neg =>
    push Not at hproducers
    obtain ⟨t, ht, hc, hbusy⟩ := hproducers
    exact hawaits t ht (Bool.eq_false_iff.mpr hbusy) fun hc' => by rw [hc] at hc'; cases hc'
  by_cases hhands : ∀ t, t < producers + consumers → (s.agent t).consumes = true → s.world.inHand t = []
  case neg =>
    push Not at hhands
    obtain ⟨t, ht, hc, hne⟩ := hhands
    exact hawaits t ht (hbusy t hc) fun _ => Or.inr (Or.inl hne)
  -- all that is left is in the queue
  obtain ⟨-, -, -, -, hsum⟩ := h.settled hproducers hhands
  have hlt : producers < producers + consumers := Nat.lt_add_of_pos_right hconsumers
  refine hawaits producers hlt (hbusy _ ((h.consumes _).mpr ⟨Nat.le_refl _, hlt⟩)) fun _ => Or.inl fun hnil => ?_
  rw [hnil, List.length_nil] at hsum
  omega

end Sound

/-- The contest comes to an end, as there is always an agent to wait for. -/
theorem proceeds (hconsumers : 0 < consumers) : Proceeds turn (allDone (producers + consumers)) (producers + consumers)
    (Sound producers consumers per) (toDo (producers + consumers)) Awaits 39 where
  keeps s t ht h := by
    cases hdone : s.isDone t with
    | true => rw [turn_of_isDone hdone]; exact h
    | false => exact h.played ht (h.turn hdone)
  le s t ht h := by
    cases hdone : s.isDone t with
    | true => rw [turn_of_isDone hdone]
    | false =>
      have hplayed := h.turn hdone
      have hle := hplayed.toDo_le h.reach ht
      have hshare := hplayed.share_le
      omega
  own s t k ht h ha := by
    have hplayed := h.turn ha.busy
    have hle := hplayed.toDo_le h.reach ht
    rcases hplayed.nearer with hlt | ⟨-, -, -, hnearer⟩
    · exact Or.inl (by omega)
    · exact Or.inr (hnearer k ha)
  others s t u k hu hne h ha := by
    cases hdone : s.isDone u with
    | true => rw [turn_of_isDone hdone]; exact Or.inr ⟨k, Nat.le_refl k, ha⟩
    | false =>
      have hplayed := h.turn hdone
      have hle := hplayed.toDo_le h.reach hu
      rcases hplayed.nearer with hlt | ⟨-, hheld, hreceived, -⟩
      · exact Or.inl (by omega)
      · exact Or.inr ⟨k, Nat.le_refl k, hplayed.awaits_of_ne h (Ne.symm hne) hheld hreceived ha⟩
  somebody s h hdone := h.somebody hconsumers hdone

section

variable (producers consumers per : Nat) (limits : Limits) (t : Nat)

theorem agent_start : t < producers ∧ (start producers consumers per limits).agent t = .producer (wares per t) false ∨
    producers ≤ t ∧ t < producers + consumers ∧ (start producers consumers per limits).agent t = .consumer [] false ∨
    producers + consumers ≤ t ∧ (start producers consumers per limits).agent t = default := by
  have hlen : ((List.range producers).map fun p => Agent.producer (wares per p) false).length = producers := by simp
  unfold agent start Table.get
  simp only [List.getElem?_toArray]
  rcases Nat.lt_or_ge t producers with hp | hp
  · refine Or.inl ⟨hp, ?_⟩
    rw [List.getElem?_append_left (hlen.symm ▸ hp)]
    simp [hp]
  · rw [List.getElem?_append_right (hlen.symm ▸ hp), hlen, List.getElem?_replicate]
    rcases Nat.lt_or_ge t (producers + consumers) with hc | hc
    · rw [if_pos (by omega)]
      exact Or.inr (Or.inl ⟨hp, hc, rfl⟩)
    · rw [if_neg (by omega)]
      exact Or.inr (Or.inr ⟨hc, rfl⟩)

theorem idle_start : (start producers consumers per limits).world.Idle t := ⟨⟨rfl, rfl⟩, rfl⟩

theorem unsent_start : (start producers consumers per limits).unsent t = if t < producers then wares per t else [] := by
  unfold unsent
  rw [(idle_start producers consumers per limits t).inHand]
  rcases agent_start producers consumers per limits t with ⟨hp, hagent⟩ | ⟨hp, -, hagent⟩ | ⟨hp, hagent⟩ <;> rw [hagent]
  · rw [if_pos hp]
    rfl
  · rw [if_neg (Nat.not_lt.mpr hp)]
  · rw [if_neg (by omega)]
    rfl

theorem taken_start : (start producers consumers per limits).taken t = [] := by
  unfold taken
  rw [(idle_start producers consumers per limits t).inHand]
  rcases agent_start producers consumers per limits t with ⟨-, hagent⟩ | ⟨-, -, hagent⟩ | ⟨-, hagent⟩ <;> rw [hagent] <;> rfl

theorem sound_start : (start producers consumers per limits).Sound producers consumers per where
  reach := World.Reach.start.move 0 (.newQueue limits) rfl
  linksOnly := nofun
  opened := rfl
  total := rfl
  stands t := by
    have hidle := idle_start producers consumers per limits t
    rcases agent_start producers consumers per limits t with ⟨-, hagent⟩ | ⟨-, -, hagent⟩ | ⟨-, hagent⟩ <;> rw [hagent] <;>
      exact hidle
  consumes t := by
    rcases agent_start producers consumers per limits t with ⟨hp, hagent⟩ | ⟨hp, hc, hagent⟩ | ⟨hc, hagent⟩ <;> rw [hagent]
    · exact ⟨nofun, fun ⟨hle, _⟩ => absurd hp (Nat.not_lt.mpr hle)⟩
    · exact ⟨fun _ => ⟨hp, hc⟩, fun _ => rfl⟩
    · exact ⟨nofun, fun ⟨_, hlt⟩ => absurd hlt (Nat.not_lt.mpr hc)⟩
  strangers t ht := by
    rcases agent_start producers consumers per limits t with ⟨hp, -⟩ | ⟨-, hc, -⟩ | ⟨-, hagent⟩
    · omega
    · omega
    · exact ⟨hagent, rfl⟩
  flow := ⟨[], fun p => unsent_start producers consumers per limits p,
    List.Perm.of_eq (List.flatMap_eq_nil_iff.mpr fun t _ => taken_start producers consumers per limits t),
    fun t => by rw [taken_start]⟩
  received := by
    refine (Finset.sum_eq_zero fun t _ => ?_).symm
    rcases agent_start producers consumers per limits t with ⟨-, hagent⟩ | ⟨-, -, hagent⟩ | ⟨-, hagent⟩ <;> rw [hagent] <;>
      rfl

theorem dues_start : (t < producers → (start producers consumers per limits).dues t = deedsEach * per) ∧
    (producers ≤ t → (start producers consumers per limits).dues t ≤ 1) := by
  unfold dues
  rw [(idle_start producers consumers per limits t).inHand]
  rcases agent_start producers consumers per limits t with ⟨hp, hagent⟩ | ⟨hp, hc, hagent⟩ | ⟨hc, hagent⟩ <;> rw [hagent]
  · exact ⟨fun _ => congrArg (deedsEach * ·) (length_wares per t), fun hle => absurd hp (Nat.not_lt.mpr hle)⟩
  · refine ⟨fun hlt => absurd hlt (Nat.not_lt.mpr hp), fun _ => ?_⟩
    dsimp only
    split
    · exact Nat.zero_le _
    · exact Nat.le_refl _
  · exact ⟨fun hlt => absurd hlt (by omega), fun _ => Nat.zero_le _⟩

theorem toDo_start :
    (start producers consumers per limits).toDo (producers + consumers) ≤ deedsEach * (producers * per) + consumers + 1 := by
  have hproducers : ∑ t ∈ Finset.range producers, (start producers consumers per limits).dues t =
      deedsEach * (producers * per) := by
    rw [Finset.sum_const_nat fun t ht => (dues_start producers consumers per limits t).1 (Finset.mem_range.mp ht),
      Finset.card_range, Nat.mul_left_comm]
  have hconsumers : ∑ t ∈ Finset.range consumers, (start producers consumers per limits).dues (producers + t) ≤ consumers := by
    refine Nat.le_trans (Finset.sum_le_sum fun t _ =>
      (dues_start producers consumers per limits (producers + t)).2 (Nat.le_add_right _ _)) (Nat.le_of_eq ?_)
    rw [Finset.sum_const_nat fun _ _ => rfl, Finset.card_range, Nat.mul_one]
  unfold toDo
  rw [Finset.sum_range_add, hproducers]
  exact Nat.add_le_add_right (Nat.add_le_add_left hconsumers _) 1

end

/-- The rounds are enough: in the end all agents are done. -/
theorem contend_isDone (hconsumers : 0 < consumers) (producers per : Nat) (limits : Limits) :
    (contend producers consumers per limits).Sound producers consumers per ∧
      (contend producers consumers per limits).allDone (producers + consumers) = true :=
  (proceeds hconsumers).ends (sound_start producers consumers per limits)
    (Nat.mul_le_mul_right patience (toDo_start producers consumers per limits))

/-! ## What has come through -/

/-- What the consumers have got, one after another. -/
def perConsumer (n : Nat) (s : Traffic) : List (List Ware) := (List.range n).filterMap s.got

/-- Every ware has come through once, to a consumer that has seen none after a later one of its producer. -/
structure Delivered (producers n per : Nat) (s : Traffic) : Prop where
  idle : ∀ t, s.world.Idle t
  empty : s.held = []
  all : (s.perConsumer n).flatten.Perm (allWares producers per)
  order : ∀ got ∈ s.perConsumer n, got.Pairwise fun v w => v.1 = w.1 → v.2 < w.2

theorem Sound.delivered (h : s.Sound producers consumers per) (hconsumers : 0 < consumers)
    (hdone : s.allDone (producers + consumers) = true) : s.Delivered producers (producers + consumers) per := by
  have hagents : ∀ t, t < producers + consumers → s.isDone t = true := fun t ht =>
    List.all_eq_true.mp hdone t (List.mem_range.mpr ht)
  have hidle : ∀ t, s.world.Idle t := fun t => by
    have hstands := h.stands t
    rcases Nat.lt_or_ge t (producers + consumers) with ht | ht
    · rcases of_isDone (hagents t ht) with hagent | ⟨⟨got, hagent⟩, -⟩ <;> rw [hagent] at hstands <;> exact hstands
    · rw [(h.strangers t ht).1] at hstands
      exact hstands
  obtain ⟨gone, hf, hunsent, hgone, hsum⟩ := h.settled (fun t ht _ => hagents t ht) fun t _ _ => (hidle t).inHand
  -- a consumer is done when all has come through
  have hall : s.total ≤ s.received := by
    have hlt : producers < producers + consumers := Nat.lt_add_of_pos_right hconsumers
    rcases of_isDone (hagents producers hlt) with hagent | ⟨-, hle⟩
    · have hc := (h.consumes producers).mpr ⟨Nat.le_refl _, hlt⟩
      rw [hagent] at hc
      cases hc
    · exact hle
  have hempty : s.held = [] := List.length_eq_zero_iff.mp (by omega)
  have hsent : ∀ p, gone.filter (·.1 == p) = if p < producers then wares per p else [] := fun p => by
    rw [← hf.sent p, hunsent, hempty, List.append_nil, List.append_nil]
  have htaken : ∀ t, (s.got t).getD [] = s.taken t := fun t => by
    unfold got taken
    rw [(hidle t).inHand]
    cases s.agent t with
    | producer todo waiting => rfl
    | consumer got waiting => exact (List.append_nil _).symm
  refine ⟨hidle, hempty, ?_, fun got hgot => ?_⟩
  · rw [perConsumer, flatten_filterMap, funext htaken]
    exact hf.came.trans (perm_allWares hsent)
  · obtain ⟨t, -, ht⟩ := List.mem_filterMap.mp hgot
    have hsub := hf.order t
    rw [← htaken, ht] at hsub
    refine List.Pairwise.sublist hsub (pairwise_of_filter fun p => ?_)
    rw [hsent]
    split
    · exact pairwise_wares per p
    · exact List.Pairwise.nil

/-! ## The end -/

variable {k fuel : Nat}

theorem await_of_completes {w w' : World Ware} {x : Signal Ware} (h : World.Completes t k w w' x) (hs : s.world = w)
    (hk : k ≤ fuel) : await t fuel s = (x, { s with world := w' }) := by
  induction h generalizing s fuel with
  | @ends w x _ hsignal hx =>
    obtain ⟨fuel, rfl⟩ : ∃ f, fuel = f + 1 := ⟨fuel - 1, by omega⟩
    unfold await stepWorld
    rw [hs]
    cases x with
    | finished r => dsimp only; rw [hsignal]
    | answered a => dsimp only; rw [hsignal]
    | _ => cases hx
  | @goesOn n w w' x _ hend _ ih =>
    obtain ⟨fuel, rfl⟩ : ∃ f, fuel = f + 1 := ⟨fuel - 1, by omega⟩
    have hrest := ih (s := { s with world := (w.step t).1 }) rfl (Nat.le_of_succ_le_succ hk)
    unfold await stepWorld
    rw [hs]
    generalize w.step t = r at hend hrest ⊢
    obtain ⟨w₁, signal⟩ := r
    cases signal with
    | finished r => cases hend
    | answered a => cases hend
    | _ => exact hrest

/-- A last dequeue finds nothing. -/
theorem findsNothing_of_last (h : s.world.Last t s.queue) (hnil : s.held = []) :
    ∃ w', s.findsNothing t = (true, { s with world := w' }) ∧ w'.Last t s.queue ∧ w'.store.values s.queue = [] := by
  obtain ⟨k, w', hk, hrun, hlast, hnil'⟩ := h.dequeues hnil
  refine ⟨w', ?_, hlast, hnil'⟩
  unfold findsNothing stepsEnough
  rw [await_of_completes (s := { s with world := s.world.dequeue t s.queue }) hrun rfl hk]

theorem asksEmpty_of_last (h : s.world.Last t s.queue) (hnil : s.held = []) :
    ∃ w', s.asksEmpty t = (true, { s with world := w' }) ∧ w'.Last t s.queue ∧ w'.store.values s.queue = [] := by
  obtain ⟨k, w', hk, hrun, hlast, hnil'⟩ := h.asksEmpty hnil
  refine ⟨w', ?_, hlast, hnil'⟩
  unfold asksEmpty stepsEnough
  rw [await_of_completes (s := { s with world := s.world.isEmpty t s.queue }) hrun rfl hk]

/-- When as many flushes are left as it takes, the queue has its sentinel alone at the end. -/
theorem flushAll_of_last {j : Nat} (h : s.world.Last t s.queue) (hnil : s.held = []) (ha : s.world.domain.Aged t j)
    (hj : j ≤ 2) (hk : 3 ≤ j + k) :
    ∃ w', flushAll t k s = { s with world := w' } ∧ (w'.store.queue s.queue).live = 1 := by
  induction k generalizing s j with
  | zero => omega
  | succ k ih =>
    obtain ⟨m, w₁, a, hm, hrun, hlast, hsifted, hvals⟩ := h.flushes
    obtain ⟨hasks, hreg, hoard, horphans⟩ := hlast.asks
    have hold := ha.sifted (hsifted.congr hreg hoard horphans)
    have hpending : ((w₁.pending t).2.domain.pending t).1 = (w₁.pending t).1 := by
      rw [Reclaim.Domain.pending_fst, hoard, ← Reclaim.Domain.pending_fst]
      rfl
    unfold flushAll stepsEnough
    rw [await_of_completes (s := { s with world := s.world.flush t }) hrun rfl hm]
    dsimp only
    by_cases h0 : (w₁.pending t).1 = 0
    · rw [if_pos h0]
      exact ⟨_, rfl, hasks.live_eq_one (hvals.trans hnil) (hpending.trans h0) (horphans.trans hsifted.orphans)⟩
    · rw [if_neg h0]
      have hnot : j + 1 ≠ 3 := fun e => h0 (hpending ▸ (e ▸ hold).nothing)
      exact ih (s := { s with world := (w₁.pending t).2 }) hasks (hvals.trans hnil) hold (by omega) (by omega)

end Traffic

/-- All that is sent comes through, once and in order, however many threads there are, as long as there is
    somebody to receive it; and in the end the queue is empty and all garbage destroyed. -/
theorem traffic_eq {consumers : Nat} (hconsumers : 0 < consumers) (producers per : Nat) (limits : Limits) :
    traffic producers consumers per limits =
      { received := producers * per, lost := 0, duplicated := 0, disorder := 0, empty := true, live := 1 } := by
  obtain ⟨hsound, hdone⟩ := Traffic.contend_isDone hconsumers producers per limits
  have h := hsound.delivered hconsumers hdone
  unfold traffic
  generalize Traffic.contend producers consumers per limits = s at *
  generalize hn : producers + consumers = n at *
  have hlast : (s.exitBelow n).world.Last n s.queue :=
    hsound.reach.last_exits hsound.linksOnly hsound.opened h.idle fun u hu => (hsound.strangers u (hn ▸ hu)).2
  have hheld : (s.exitBelow n).held = [] := by
    unfold Traffic.exitBelow Traffic.held
    rw [World.foldl_exit]
    exact h.empty
  obtain ⟨w₁, hfinds, hlast₁, hheld₁⟩ := Traffic.findsNothing_of_last hlast hheld
  obtain ⟨w₂, hasks, hlast₂, hheld₂⟩ :=
    Traffic.asksEmpty_of_last (s := { s.exitBelow n with world := w₁ }) hlast₁ hheld₁
  obtain ⟨w₃, hflush, hlive⟩ := Traffic.flushAll_of_last (k := 3) (j := 0) (s := { s.exitBelow n with world := w₂ }) hlast₂
    hheld₂ trivial (Nat.zero_le _) (Nat.le_refl _)
  dsimp only
  rw [hfinds]
  dsimp only
  rw [hasks]
  dsimp only
  rw [hflush]
  have hgot : (List.range n).filterMap ({ s.exitBelow n with world := w₃ } : Traffic).got = s.perConsumer n := rfl
  have hcounts : tally producers per (s.perConsumer n).flatten = Array.replicate (producers * per) 1 := tally_eq h.all
  have hlost : ((Array.replicate (producers * per) 1).filter (· == 0)).size = 0 := by simp
  have hdoubled : (Array.replicate (producers * per) 1).foldl (fun n c => n + (c - 1)) 0 = 0 := by
    rw [← Array.foldl_toList, Array.toList_replicate]
    refine foldl_eq_zero fun c hc => ?_
    rw [List.eq_of_mem_replicate hc]
  rw [hgot, hcounts, hlost, hdoubled, foldl_eq_zero fun got hgot => disorder_eq_zero (h.order got hgot) producers,
    h.all.length_eq, length_allWares]
  exact congrArg _ hlive

end EpochQueue.Contest
