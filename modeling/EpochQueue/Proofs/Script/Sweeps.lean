/-
  EpochQueue.Proofs.Script.Sweeps — the end of a script: one more thread tidies up, and nothing is left.

  What is left of queues goes without the domain (`Settled.tidied`). Then every flush destroys
  something, so that less is left to destroy, or brings what waits one epoch nearer to its end; three
  flushes without anything destroyed leave nothing pending, so the flushes that a sweep allows itself
  are more than it needs (`flushAll_swept`, `finish_swept`).
-/

import EpochQueue.Proofs.Script.Flushes

namespace EpochQueue.Script

open EpochQueue.Fifo (Store World)

variable {α : Type}

namespace State

/-! ## Queues that are dropped -/

/-- Queues were dropped, and nothing else. -/
structure Tidied (s s' : State α) : Prop where
  sound : s'.Sound
  domain : s'.world.domain = s.world.domain
  workers : s'.workers = s.workers
  nextQueue : s'.world.store.nextQueue = s.world.store.nextQueue

section

variable {s s' s'' : State α} {t : Nat}

theorem Tidied.trans (h : Tidied s s') (h' : Tidied s' s'') : Tidied s s'' :=
  ⟨h'.sound, h'.domain.trans h.domain, h'.workers.trans h.workers, h'.nextQueue.trans h.nextQueue⟩

theorem Sound.dropQueue (hs : s.Sound) {id : Nat} (hid : id < s.world.store.nextQueue) : Tidied s (s.dropQueue id) := by
  obtain ⟨hworld, hobjects, hq, hi, hworkers⟩ := s.dropQueue_frame id
  have hnext := (Store.next_tearDown s.world.store id).1
  refine ⟨⟨?_, ?_, ?_, ?_, fun t => ?_⟩, by rw [hworld]; rfl, hworkers, by rw [hworld]; exact hnext⟩
  · rw [hworld]
    exact hs.queueInv.choose_spec.tornDown hid
  · rw [hworld, hobjects]
    exact hs.booked
  · rw [hworld, hq]
    exact hs.queues.mono (Nat.le_of_eq hnext.symm)
  · rw [hworld, hi]
    exact hs.iterators.mono (Nat.le_of_eq hnext.symm)
  · have hworker : (s.dropQueue id).worker t = s.worker t := by unfold worker; rw [hworkers]
    rw [hworld, hworker]
    exact (hs.seated t).mono (Nat.le_of_eq hnext.symm)

end

end State

namespace Session

open State

variable {s : Session α} {σ : State α} {t : Nat}

theorem tidied_dropAll (hs : σ.Sound) {ids : Array (Option Nat)} (hids : Made σ.world.store.nextQueue ids) :
    Tidied σ (dropAll ids σ) := by
  have hmem : ∀ id, some id ∈ ids.toList → id < σ.world.store.nextQueue := fun id hid => by
    obtain ⟨q, hq⟩ := List.getElem?_of_mem hid
    exact hids q id (by rw [← Array.getElem?_toList]; exact hq)
  unfold dropAll
  rw [← Array.foldl_toList]
  clear hids
  generalize ids.toList = l at hmem ⊢
  induction l generalizing σ with
  | nil => exact ⟨hs, rfl, rfl, rfl⟩
  | cons x l ih =>
    have hrest : ∀ id, some id ∈ l → id < σ.world.store.nextQueue := fun id hid => hmem id (List.mem_cons_of_mem _ hid)
    cases x with
    | none => exact ih hs hrest
    | some id =>
      have hdrop := hs.dropQueue (hmem id List.mem_cons_self)
      exact hdrop.trans (ih hdrop.sound fun id' hid' => hdrop.nextQueue ▸ hrest id' hid')

theorem tidied_tidy (hs : s.state.Sound) : Tidied s.state s.tidy.state := by
  have hnone : ∀ (n : Nat) (ids : Array (Option Nat)), Made n (ids.map fun _ => none) := fun n ids q id h => by
    rw [Array.getElem?_map] at h
    cases hq : ids[q]? <;> rw [hq] at h <;> cases h
  have hi := tidied_dropAll hs hs.iterators
  have hq := tidied_dropAll hi.sound (hi.nextQueue ▸ hs.queues)
  obtain ⟨hsound, hd, hw, hn⟩ := hi.trans hq
  exact ⟨⟨hsound.queueInv, hsound.booked, hnone _ _, hnone _ _, hsound.seated⟩, hd, hw, hn⟩

/-- Only the thread that sweeps is left. -/
theorem tidy_sweeping (hs : Settled s) (hgone : ∀ u, Gone s.state u) (n : Nat) :
    Sweeping { s with nextThread := n }.tidy.state s.nextThread := by
  have hsame : { s with nextThread := n }.tidy.state = s.tidy.state := by unfold tidy; rfl
  rw [hsame]
  obtain ⟨hsound, hd, hw, -⟩ := tidied_tidy hs.sound
  have hworker : ∀ u, s.tidy.state.worker u = s.state.worker u := fun u => by unfold State.worker; rw [hw]
  refine ⟨hsound, fun u => by rw [hworker]; exact ⟨(hgone u).frames, (hgone u).guards⟩, ?_, fun u _ => ?_⟩
  · rw [hd, Reclaim.Domain.handle?_eq, hs.fresh _ (Nat.le_refl _)]
    rfl
  · rw [hd]
    exact (hgone u).tenure

/-! ## Flushes -/

theorem pending_eq (w : World α) (t : Nat) : (w.pending t).1 = (w.domain.pending t).1 := rfl

/-- Asking what is pending changes nothing of account. -/
theorem pending_kept (h : Sweeping σ t) (s' : State α) (hs' : s' = (σ.withWorld fun w => w.pending t).2) :
    Sweeping s' t ∧ s'.stock = σ.stock ∧ s'.world.domain.orphans = σ.world.domain.orphans ∧
      s'.world.domain.registry = σ.world.domain.registry ∧
      (s'.world.domain.thread t).hoard = (σ.world.domain.thread t).hoard := by
  subst hs'
  obtain ⟨x, hx⟩ := Option.isSome_iff_exists.mp h.handle
  obtain ⟨hop, hc, -⟩ := h.resting t
  obtain ⟨hreg, horph, -, hst⟩ := Reclaim.Domain.pending_frame σ.world.domain t
  have hthread := Reclaim.Domain.thread_pending_of_handle hx t
  rw [if_pos rfl] at hthread
  have hmay : σ.world.mayBegin t = true :=
    World.mayBegin_iff.mpr ⟨hop, by rw [Reclaim.Domain.mayCall_eq, hc]; rfl⟩
  have hw := World.onward_pending h.sound.queueInv.choose_spec hmay
  have ho : Onward t σ (σ.withWorld fun w => w.pending t).2 := by
    refine h.sound.onward hw (fun _ _ => rfl) ?_ h.sound.queues h.sound.iterators ?_
    · show Booked σ.objects (σ.world.domain.pending t).2.story
      rw [hst]
      exact h.sound.booked
    · show Seated _ (σ.worker t) (σ.world.operation t) ((σ.world.domain.pending t).2.thread t)
      have hseat := h.sound.seated t
      rw [hthread]
      exact ⟨hseat.stands, hseat.tickets, hseat.guards, hseat.numbers, hseat.bound, hseat.fine⟩
  refine ⟨h.onward ho (h.idle t).1 (h.idle t).2, ?_, horph, hreg, ?_⟩
  · have hfrees : (σ.world.domain.pending t).2.frees = σ.world.domain.frees := by
      rw [Reclaim.Domain.frees_eq, Reclaim.Domain.frees_eq, hst]
    show _ + (σ.world.store.nextLink - ((σ.world.domain.pending t).2.frees.filterMap (·.link?)).length) = _
    rw [hfrees]
    rfl
  · show ((σ.world.domain.pending t).2.thread t).hoard = _
    rw [hthread, Reclaim.Domain.hoard_eq hx]
    exact Reclaim.Thread.hoard_of_handle rfl

/-- The session after one flush of `t` and a look at what is pending. -/
def afterFlush (s : Session α) (t : Nat) : Session α :=
  { s with state := (((s.state.give t .flush).run t none).1.withWorld fun w => w.pending t).2 }

theorem flushAll_succ (s : Session α) (t fuel : Nat) : s.flushAll t (fuel + 1) =
    if (((s.state.give t .flush).run t none).1.world.pending t).1 = 0 then
      ([resultOf ((s.state.give t .flush).run t none).2.2], s.afterFlush t)
    else (resultOf ((s.state.give t .flush).run t none).2.2 :: ((s.afterFlush t).flushAll t fuel).1,
      ((s.afterFlush t).flushAll t fuel).2) := by
  rw [flushAll]
  unfold runCommand afterFlush
  generalize (s.state.give t .flush).run t none = x
  rfl

theorem sweep_eq (s : Session α) : s.sweep = { s with nextThread := s.nextThread + 1 }.tidy.flushAll s.nextThread
    (flushesEnough { s with nextThread := s.nextThread + 1 }.tidy.state) := rfl

theorem play_drain (ls : List (Line α)) : (play ls).1.drain.reply = .result (.list (finish ls).2.2.sweep.1) := by
  unfold play drain
  obtain ⟨steps, ends, s⟩ := finish ls
  dsimp only
  obtain ⟨rs, s'⟩ := s.sweep
  rfl

/-- The flushes of `t` come to an end by themselves, and leave nothing pending. -/
structure Drains (s : Session α) (t fuel : Nat) : Prop where
  flushes : ∃ ns : List Nat, ns ≠ [] ∧ (s.flushAll t fuel).1 = ns.map .number
  /-- It makes no more of them, if it might. -/
  stops : ∀ more, s.flushAll t (fuel + more) = s.flushAll t fuel
  pending : ((s.flushAll t fuel).2.state.world.pending t).1 = 0
  sweeping : Sweeping (s.flushAll t fuel).2.state t
  orphans : (s.flushAll t fuel).2.state.world.domain.orphans = []

/-- The more flushes have destroyed nothing, the fewer can still do so. -/
theorem flushAll_drains : ∀ {fuel : Nat} {s : Session α} {j : Nat}, Sweeping s.state t → s.state.world.domain.Aged t j →
    j ≤ 2 → 3 * s.state.stock + (3 - j) ≤ fuel → Drains s t fuel := by
  -- On the flushes that are allowed: each takes something from the stock or adds one to `j`, and three
  -- in a row that take nothing leave nothing pending.
  intro fuel
  induction fuel with
  | zero => intro s j _ _ hj hfuel; omega
  | succ fuel ih =>
    intro s j hs ha hj hfuel
    obtain ⟨n, hdone, hflushed⟩ := flush_ends hs
    obtain ⟨hs', hstock, horph, hreg, hoard⟩ := pending_kept hflushed.sweeping (s.afterFlush t).state rfl
    have hresult : resultOf ((s.state.give t .flush).run t none).2.2 = .number n := by rw [hdone]; rfl
    by_cases h0 : (((s.state.give t .flush).run t none).1.world.pending t).1 = 0
    · have hlast : ∀ fuel, s.flushAll t (fuel + 1) = ([.number n], s.afterFlush t) := fun fuel => by
        rw [flushAll_succ, if_pos h0, hresult]
      refine ⟨⟨[n], List.cons_ne_nil _ _, by rw [hlast]; rfl⟩, fun more => ?_, ?_, by rw [hlast]; exact hs',
        by rw [hlast]; exact horph.trans hflushed.orphans⟩
      · rw [Nat.add_right_comm, hlast, hlast]
      · rw [hlast]
        rw [pending_eq, Reclaim.Domain.pending_fst, hoard, ← Reclaim.Domain.pending_fst, ← pending_eq]
        exact h0
    · have hnext : ∀ fuel, s.flushAll t (fuel + 1) =
          (.number n :: ((s.afterFlush t).flushAll t fuel).1, ((s.afterFlush t).flushAll t fuel).2) := fun fuel => by
        rw [flushAll_succ, if_neg h0, hresult]
      have hdrains : Drains (s.afterFlush t) t fuel := by
        rcases hflushed.less with hless | ⟨hle, hsifted⟩
        · -- There may be new garbage, so nothing is known of how old it is.
          exact ih hs' (j := 0) trivial (Nat.zero_le _) (by rw [hstock]; omega)
        · have hold := ha.sifted hsifted
          have hnot : j + 1 ≠ 3 := fun e => h0 (e ▸ hold).nothing
          have hage : (s.afterFlush t).state.world.domain.Aged t (j + 1) := by
            unfold Reclaim.Domain.Aged at hold ⊢
            rw [hoard, horph, hreg]
            exact hold
          exact ih hs' hage (by omega) (by rw [hstock]; omega)
      obtain ⟨⟨ns, -, hns⟩, hstops, hpending, hsweeping, horphans⟩ := hdrains
      refine ⟨⟨n :: ns, List.cons_ne_nil _ _, by rw [hnext, hns]; rfl⟩, fun more => ?_, by rw [hnext]; exact hpending,
        by rw [hnext]; exact hsweeping, by rw [hnext]; exact horphans⟩
      rw [Nat.add_right_comm, hnext, hnext, hstops]

/-! ## Sweeps -/

/-- What a sweep of the session comes to. -/
structure Swept (s : Session α) : Prop where
  /-- Before it every thread has dropped its guards, and its handle has been destroyed. -/
  ended : ∀ u, (s.state.world.domain.thread u).calls = [] ∧ (s.state.world.domain.thread u).guards = [] ∧
    ∀ h, (s.state.world.domain.thread u).tenure ≠ .live h
  /-- Every flush returns. -/
  flushes : ∃ ns : List Nat, ns ≠ [] ∧ s.sweep.1 = ns.map .number
  /-- There are no more of them, however many are allowed. -/
  stops : ∀ more, ({ s with nextThread := s.nextThread + 1 }.tidy.flushAll s.nextThread
    (flushesEnough { s with nextThread := s.nextThread + 1 }.tidy.state + more)) = s.sweep
  pending : (s.sweep.2.state.world.pending s.nextThread).1 = 0
  cleared : s.sweep.2.state.world.domain.Cleared
  /-- The objects have it on them. -/
  objects : ∀ (i : Nat) (o : Object α), s.sweep.2.state.objects[i]? = some o → o.freed = o.retired

theorem swept (hs : Settled s) (hgone : ∀ u, Gone s.state u) : Swept s := by
  have hsweeping := tidy_sweeping hs hgone (s.nextThread + 1)
  have heq := s.sweep_eq
  generalize hs' : ({ s with nextThread := s.nextThread + 1 } : Session α).tidy = s' at hsweeping heq
  have henough : 3 * s'.state.stock + (3 - 0) ≤ flushesEnough s'.state := by
    have hfuel := left_lt_fuel (hsweeping.resting s.nextThread).2.1
    unfold left at hfuel
    unfold flushesEnough
    omega
  have hdrains := flushAll_drains (j := 0) hsweeping trivial (Nat.zero_le _) henough
  have hstops := hdrains.stops
  obtain ⟨hflushes, -, hpending, hlast, horphans⟩ := hdrains
  rw [← heq] at hflushes hpending hlast horphans hstops
  have hcleared := hlast.deserted.cleared hlast.reach horphans (by rw [← pending_eq]; exact hpending)
  refine ⟨fun u => ?_, hflushes, by rw [hs']; exact hstops, hpending, hcleared, fun i o ho => ?_⟩
  · obtain ⟨-, hc, hg⟩ := (hs.sound.seated u).guards_of_idle (hgone u).frames
    rw [(hgone u).guards] at hg
    exact ⟨hc, hg.eq_nil, (hgone u).tenure⟩
  · have hbooked := hlast.sound.booked
    have hiff : o.freed = true ↔ o.retired = true := by
      rw [hbooked.freed i o ho, hbooked.retired i o ho]
      refine ⟨hlast.sound.freed_known, fun hret => ?_⟩
      have hone := hcleared.once (.object i) ((Reclaim.Domain.mem_story rfl).mp hret)
      refine (Reclaim.Domain.mem_story rfl).mpr (Reclaim.Domain.mem_frees.mp (List.count_pos_iff.mp ?_))
      exact Nat.lt_of_lt_of_eq Nat.one_pos hone.symm
    exact Bool.eq_iff_iff.mpr hiff

/-- Whatever a script does, as long as its destructors are orderly: one more thread frees all that was
    ever retired. -/
theorem finish_swept {ls : List (Line α)} (hls : ∀ l ∈ ls, l.directive.orderly = true) :
    Swept (finish ls).2.2 ∧ (play ls).1.drain.reply = .result (.list (finish ls).2.2.sweep.1) := by
  obtain ⟨hs, hgone⟩ := finish_settled hls
  exact ⟨swept hs hgone, play_drain ls⟩

/-- One thread ends with a live guard, one retires without ever pinning, and destructors make more
    garbage, flush and pin. -/
def nestedScript : List (Line Nat) :=
  let inner : List (Command Nat) := [.retireNew 1 2 false [.pin], .flush]
  [⟨0, .run .pin, none⟩, ⟨0, .run (.retireNew 2 1 true [.repeated 2 inner]), none⟩, ⟨0, .leave, none⟩,
    ⟨1, .run (.retireNew 1 0 false inner), none⟩]

theorem nestedScript_swept : (∀ l ∈ nestedScript, l.directive.orderly = true) ∧ Swept (finish nestedScript).2.2 ∧
    (finish nestedScript).2.2.sweep.2.state.world.domain.frees.length = 8 :=
  ⟨by decide, (finish_swept (by decide)).1, by decide +kernel⟩

/-- A destructor stores in an order that stores cannot have, and what was to be destroyed after it is
    lost. -/
def misorderedScript : List (Line Nat) :=
  [⟨0, .run (.new 0 false []), none⟩, ⟨0, .run (.cell (some 0)), none⟩, ⟨0, .run (.retireNew 1 0 false []), none⟩,
    ⟨0, .run (.retireNew 1 0 false [.store 0 none (some "acquire")]), none⟩]

theorem misorderedScript_not_swept :
    .object 1 ∈ (finish misorderedScript).2.2.sweep.2.state.world.domain.retirements ∧
    .object 1 ∉ (finish misorderedScript).2.2.sweep.2.state.world.domain.frees ∧
    ¬ Swept (finish misorderedScript).2.2 := by
  have hretired : .object 1 ∈ (finish misorderedScript).2.2.sweep.2.state.world.domain.retirements := by decide +kernel
  have hkept : .object 1 ∉ (finish misorderedScript).2.2.sweep.2.state.world.domain.frees := by decide +kernel
  refine ⟨hretired, hkept, fun h => ?_⟩
  have hone := h.cleared.once _ (Reclaim.Domain.mem_retirements.mp hretired)
  rw [List.count_eq_zero_of_not_mem hkept] at hone
  cases hone

end Session

end EpochQueue.Script
