/-
  EpochQueue.Proofs.Fifo.SingleUser — what a single user of a queue leaves to be freed.

  One thread enqueues, dequeues, asks whether the queue is empty, and flushes. Others may move
  meanwhile, but none of them is pinned, none leaves orphans behind, and none works on the queue
  (`World.Uses`). Between two operations the thread then has at most two bags and a batch that is not
  full.

  An operation is pinned once and retires one link at most, so it seals at most one batch while it is
  pinned. `Stint` lists where the thread can be and how it stands with its bags there
  (`Domain.Thrifty`); every move keeps it (`InStint.step`, `InStint.begun`, `InStint.others`).

  What the queue counts beyond its values and its sentinel was retired and is not freed. Nobody but
  the thread has retired any of it (`Spared`), so all of it is in that batch and those bags.
-/

import EpochQueue.Proofs.Fifo.Census
import EpochQueue.Proofs.Fifo.Errands
import EpochQueue.Proofs.Reclaim.Conservation
import EpochQueue.Proofs.Reclaim.LatePins
import EpochQueue.Proofs.Reclaim.Thrift

namespace EpochQueue.Fifo

open Reclaim (Call Domain Guard Notice Phase)

variable {α : Type}

/-- What somebody does who has no use for anything but `q`. -/
def Move.uses (q : Nat) : Move α → Prop
  | .tryEnqueue p _ _ | .dequeue p | .isEmpty p => p = q
  | .flush | .pending => True
  | _ => False

/-- An access does not touch the guard. -/
theorem Store.guard_access (s : Store α) (o : Operation α) (spot : Spot) : (s.access o spot).op.guard = o.guard := by
  rcases spot with ⟨node, place⟩ | place | place
  · cases place <;> simp only [access, accessEnqueue] <;> (repeat' split) <;> rfl
  · cases place <;> simp only [access, accessDequeue] <;> (repeat' split) <;> rfl
  · cases place <;> rfl

namespace World

variable {w w' w₀ : World α} {lay : Nat → Layout} {t u q : Nat}

/-- No slot is pinned but that of `t`, there are no orphans, and nobody else works on `q`. -/
structure Alone (w : World α) (t q : Nat) : Prop where
  pinned : w.domain.PinnedAlone t
  orphans : w.domain.orphans = []
  others : ∀ u, u ≠ t → ∀ o ∈ w.operations u, o.queue ≠ q

/-- What `t` and the others can bring a world to while `t` uses `q` and is alone throughout. Between
    its operations `t` does nothing else. -/
inductive Uses (t q : Nat) (w₀ : World α) : World α → Prop
  | start : w₀.Alone t q → Uses t q w₀ w₀
  | move {w : World α} (u : Nat) (m : Move α) : Uses t q w₀ w → w.may u m →
      (u = t → m = .step ∨ w.rests t ∧ m.uses q) → (w.move u m).Alone t q → Uses t q w₀ (w.move u m)

/-! ## Where the user is -/

/-- Where `t` is in what it does, by its operation, its calls and its guards, and how it stands with its bags. -/
inductive Stint (d : Domain Garbage (Option (Operation α))) (t : Nat) :
    Option (Operation α) → List (Call Garbage (Option (Operation α))) → List Guard → Prop
  | resting (light : d.Light t) : Stint d t none [] []
  | pinning (o : Operation α) (p : Phase Garbage) (pin : p.pin?.isSome = true) (unguarded : o.guard = none)
      (thrifty : d.Thrifty t p) : Stint d t none [⟨some o, p⟩] []
  | working (o : Operation α) (g : Guard) (guarded : o.guard = some g) (ready : d.Ready t) : Stint d t (some o) [] [g]
  | retiring (o : Operation α) (r : Outcome α) (g : Guard) (p : Phase Garbage) (pin : p.pin? = none)
      (guarded : o.guard = some g) (point : o.point = .leave r) (thrifty : d.Thrifty t p) :
      Stint d t none [⟨some o, p⟩] [g]
  | leaving (o : Operation α) (r : Outcome α) (g : Guard) (guarded : o.guard = some g) (point : o.point = .leave r)
      (light : d.Light t) : Stint d t (some o) [] [g]
  | flushing (p : Phase Garbage) (flush : p.isFlush = true) (thrifty : d.Thrifty t p) : Stint d t none [⟨none, p⟩] []

def InStint (w : World α) (t : Nat) : Prop :=
  Stint w.domain t (w.operation t) (w.domain.thread t).calls (w.domain.thread t).guards

theorem InStint.of_eq {o : Option (Operation α)} {calls : List (Call Garbage (Option (Operation α)))}
    {guards : List Guard} (ho : w.operation t = o) (hc : (w.domain.thread t).calls = calls)
    (hg : (w.domain.thread t).guards = guards) (h : Stint w.domain t o calls guards) : w.InStint t := by
  rw [InStint, ho, hc, hg]
  exact h

/-- It does not depend on what others do. -/
theorem InStint.others (h : w.InStint t) (hr : w.domain.Reach) (hu : u ≠ t) {m : Move α} {x : Option (Notice Garbage)}
    (hturn : Domain.Turn w.domain u x (w.move u m).domain) (hx : x ≠ some (.advanced Reclaim.quiescent))
    (halone : (w.move u m).domain.PinnedAlone t) : (w.move u m).InStint t := by
  obtain ⟨hop, hth⟩ := move_of_ne (w := w) (Ne.symm hu) m
  rw [InStint, hop, hth]
  unfold InStint at h
  generalize w.operation t = o, (w.domain.thread t).calls = calls, (w.domain.thread t).guards = guards at h ⊢
  cases h with
  | resting light => exact .resting (light.others hturn hx hu)
  | pinning o p pin unguarded thrifty =>
    exact .pinning o p pin unguarded (thrifty.others hr.owned hturn hx hu halone)
  | working o g guarded ready => exact .working o g guarded (ready.others hr.owned hturn hx hu halone)
  | retiring o r g p pin guarded point thrifty =>
    exact .retiring o r g p pin guarded point (thrifty.others hr.owned hturn hx hu halone)
  | leaving o r g guarded point light => exact .leaving o r g guarded point (light.others hturn hx hu)
  | flushing p flush thrifty => exact .flushing p flush (thrifty.others hr.owned hturn hx hu halone)

/-- What a step makes of the only call of `t`, and of its bags. -/
inductive Carries (w : World α) (t : Nat) (k : Option (Operation α)) (p : Phase Garbage) (w' : World α) : Prop
  | on (q : Phase Garbage) (hop : w'.operation t = none) (hc : (w'.domain.thread t).calls = [⟨k, q⟩])
      (hg : (w'.domain.thread t).guards = (w.domain.thread t).guards) (pin : q.pin? = p.pin?)
      (flush : q.isFlush = p.isFlush) (thrifty : w'.domain.Thrifty t q) : Carries w t k p w'
  | resumed (o : Operation α) (g : Guard) (hk : k = some o) (pin : p.pin?.isSome = true)
      (hop : w'.operation t = some { o with guard := some g }) (hc : (w'.domain.thread t).calls = [])
      (hg : (w'.domain.thread t).guards = g :: (w.domain.thread t).guards) (ready : w'.domain.Ready t) :
      Carries w t k p w'
  | back (o : Operation α) (hk : k = some o) (pin : p.pin? = none) (hop : w'.operation t = some o)
      (hc : (w'.domain.thread t).calls = []) (hg : (w'.domain.thread t).guards = (w.domain.thread t).guards)
      (light : w'.domain.Light t) : Carries w t k p w'
  | answered (hk : k = none) (hop : w'.operation t = none) (hc : (w'.domain.thread t).calls = [])
      (hg : (w'.domain.thread t).guards = (w.domain.thread t).guards) (light : w'.domain.Light t) : Carries w t k p w'

section

variable {h : Reclaim.Handle Garbage}

theorem carries_step (hr : w.domain.Reach) (ha : w.Alone t q) (hh : w.domain.handle? t = some h)
    (hw : ¬ (w.step t).1.domain.wrapped) (hop : w.operation t = none) {k : Option (Operation α)} {p : Phase Garbage}
    (hc : (w.domain.thread t).calls = [⟨k, p⟩]) (hg : p.pin?.isSome = true → (w.domain.thread t).guards = [])
    (hk : k = none → p.isFlush = true) (ht : w.domain.Thrifty t p) : Carries w t k p (w.step t).1 := by
  have hd : (w.step t).1.domain = (w.domain.step t).1 := by rw [step_of_none hop, domain_stepCall]
  -- while it has not published its pin no slot is pinned
  have hquiet : p.shield? = none → p.pin?.isSome = true → ∀ tid,
      (w.domain.registry.slot tid).epoch = Reclaim.quiescent := fun hshield hpin =>
    ha.pinned.quiet hr (by rw [Reclaim.Thread.shields, Reclaim.Thread.seats, hc, hg hpin]; simp [hshield])
  obtain ⟨hon, hback⟩ := ht.step hc hr (hd ▸ hw) hh ha.orphans hquiet
  rw [← hd] at hon hback
  have hmoves := moves_call hop (by rw [hc]; exact List.cons_ne_nil _ _)
  generalize (w.step t).2 = signal at hmoves
  cases hmoves with
  | accessed o _ _ _ ho | took o _ _ _ ho | left o _ ho => rw [hop] at ho; cases ho
  | on c rest q' _ hop' hold hc' _ hflush hpin hg' =>
    cases hc.symm.trans hold
    exact .on q' hop' hc' hg' hpin hflush (hon q' hc')
  | freed c rest p' n todo freed _ _ hop' hold hphase hc' _ hg' =>
    cases hc.symm.trans hold
    cases hphase
    exact .on _ hop' hc' hg' rfl rfl (hon _ hc')
  | resumed c rest o g _ hop' hold hc' hticket hpin hg' =>
    cases hc.symm.trans hold
    exact .resumed o g hticket hpin hop' hc' hg' ((hback hc').2 hpin)
  | back c rest o _ hop' hold hc' hticket hpin hg' =>
    cases hc.symm.trans hold
    exact .back o hticket hpin hop' hc' hg' (hback hc').1
  | pinned c rest g _ hop' hold _ hticket hflush =>
    cases hc.symm.trans hold
    exact absurd (hk hticket) (by rw [show p.isFlush = false from hflush]; exact Bool.false_ne_true)
  | answered c rest a _ _ hop' hold hc' hticket _ hg' =>
    cases hc.symm.trans hold
    exact .answered hticket hop' hc' hg' (hback hc').1

/-- An operation that leaves drops its guard, and has nothing more to do with the bags. -/
theorem inStint_left (hr : w.domain.Reach) {o : Operation α} {r : Outcome α} {g : Guard} (hop : w.operation t = some o)
    (hp : o.point = .leave r) (hguard : o.guard = some g) (hc : (w.domain.thread t).calls = [])
    (hg : (w.domain.thread t).guards = [g]) (hlight : w.domain.Light t) : (w.step t).1.InStint t := by
  have hd : (w.step t).1.domain = w.domain.unpin t g := by
    rw [step_of_some hop, stepOperation, hp, hguard]
    rfl
  have hop' : (w.step t).1.operation t = none := by
    rw [step_of_some hop, stepOperation, hp, hguard]
    exact operation_of_set rfl
  obtain ⟨hc', hg'⟩ := Domain.calls_unpin w.domain t g
  have hmem : g ∈ (w.domain.thread t).guards := hg ▸ List.mem_cons_self
  have hidle : w.domain.mayCall t = true := by rw [Domain.mayCall_eq, hc]; rfl
  exact .of_eq hop' (by rw [hd, hc', hc]) (by rw [hd, hg', hg, List.erase_cons_head])
    (.resting (hd ▸ hlight.unpin hr.owned hidle hmem))

/-- The user goes on. -/
theorem InStint.step (hin : w.InStint t) (hs : QueueInv w lay) (ha : w.Alone t q) (hh : w.domain.handle? t = some h)
    (hw : ¬ (w.step t).1.domain.wrapped) (hrest : ¬ w.rests t) : (w.step t).1.InStint t := by
  unfold InStint at hin
  generalize hop : w.operation t = o, hc : (w.domain.thread t).calls = calls,
    hg : (w.domain.thread t).guards = guards at hin
  cases hin with
  | resting => exact absurd ⟨hop, hc⟩ hrest
  | pinning o p pin unguarded thrifty =>
    cases carries_step hs.reach ha hh hw hop hc (fun _ => hg) (fun hk => by cases hk) thrifty with
    | on p' hop' hc' hg' pin' _ thrifty' =>
      exact .of_eq hop' hc' (hg'.trans hg) (.pinning o p' (pin' ▸ pin) unguarded thrifty')
    | resumed o' g hk _ hop' hc' hg' ready =>
      cases hk
      exact .of_eq hop' hc' (by rw [hg', hg]) (.working _ g rfl ready)
    | back _ _ pin' => rw [pin'] at pin; cases pin
    | answered hk => cases hk
  | working o g guarded ready =>
    have hstep := step_of_some hop
    cases hp : o.point with
    | access spot =>
      rw [stepOperation, hp] at hstep
      rw [hstep]
      exact .of_eq (operation_of_set rfl) hc hg (.working _ g ((w.store.guard_access o spot).trans guarded) ready)
    | take head next =>
      rw [stepOperation, hp] at hstep
      rw [hstep]
      obtain ⟨p, hc', hg', pin, thrifty⟩ := ready.retire (k := some (o.leave (.dequeued (w.store.takeValue next).1))) hh
        (.link head)
      rw [hc] at hc'
      exact .of_eq (operation_of_set rfl) hc' (hg'.trans hg) (.retiring _ _ g p pin guarded rfl thrifty)
    | leave r => exact inStint_left hs.reach hop hp guarded hc hg ready.light
  | retiring o r g p pin guarded point thrifty =>
    cases carries_step hs.reach ha hh hw hop hc (fun h => by rw [pin] at h; cases h) (fun hk => by cases hk)
      thrifty with
    | on p' hop' hc' hg' pin' _ thrifty' =>
      exact .of_eq hop' hc' (hg'.trans hg) (.retiring o r g p' (pin'.trans pin) guarded point thrifty')
    | resumed _ _ _ pin' => rw [pin] at pin'; cases pin'
    | back o' hk _ hop' hc' hg' light =>
      cases hk
      exact .of_eq hop' hc' (hg'.trans hg) (.leaving o r g guarded point light)
    | answered hk => cases hk
  | leaving o r g guarded point light => exact inStint_left hs.reach hop point guarded hc hg light
  | flushing p flush thrifty =>
    cases carries_step hs.reach ha hh hw hop hc (fun _ => hg) (fun _ => flush) thrifty with
    | on p' hop' hc' hg' _ flush' thrifty' =>
      exact .of_eq hop' hc' (hg'.trans hg) (.flushing p' (flush'.trans flush) thrifty')
    | resumed _ _ hk => cases hk
    | back _ hk => cases hk
    | answered _ hop' hc' hg' light => exact .of_eq hop' hc' (hg'.trans hg) (.resting light)

/-- A user that has nothing under way begins something. -/
theorem InStint.begun (hin : w.InStint t) (hr : w.domain.Reach) (ha : w.Alone t q) (hh : w.domain.handle? t = some h)
    (hrest : w.rests t) {m : Move α} (huse : m.uses q) : (w.move t m).InStint t := by
  obtain ⟨hop, hc⟩ := hrest
  rw [InStint, hop, hc] at hin
  generalize hg : (w.domain.thread t).guards = guards at hin
  cases hin with
  | resting light =>
    have hkept : ∀ {v : World α}, v.operation t = none → (v.domain.thread t).calls = (w.domain.thread t).calls →
        (v.domain.thread t).guards = (w.domain.thread t).guards → v.domain.Light t → v.InStint t :=
      fun hop' hc' hg' hlight => .of_eq hop' (hc'.trans hc) (hg'.trans hg) (.resting hlight)
    have hpins : ∀ {s : Store α} {o : Operation α}, o.guard = none →
        ({ w with domain := w.domain.pin t (some o), store := s } : World α).InStint t := fun {s o} hunguarded => by
      have hnone : (w.domain.thread t).holds = [] := by
        rw [Reclaim.Thread.holds, Reclaim.Thread.pins, Reclaim.Thread.seats, hc, hg]
        rfl
      obtain ⟨p, hc', hg', pin, thrifty⟩ := light.pin (k := some o) hr.owned hh hnone
      exact .of_eq hop (hc'.trans (by rw [hc])) (hg'.trans hg) (.pinning o p pin hunguarded thrifty)
    cases m with
    | tryEnqueue p v memory =>
      cases memory with
      | true => exact hpins rfl
      | false => exact hkept hop rfl rfl light
    | dequeue p | isEmpty p => exact hpins rfl
    | flush =>
      obtain ⟨hc', hg'⟩ := Domain.flush_opens w.domain t (none : Option (Operation α))
      have hquiet := ha.pinned.quiet hr (by rw [Reclaim.Thread.shields, Reclaim.Thread.seats, hc, hg]; rfl)
      exact .of_eq hop (hc'.trans (by rw [hc])) (hg'.trans hg) (.flushing _ rfl (light.flush hquiet))
    | pending =>
      obtain ⟨hc', hg'⟩ := Domain.calls_pending w.domain t
      exact hkept hop hc' hg' (light.pending hh)
    | _ => exact False.elim huse

end

/-! ## Garbage of the queue -/

/-- Nobody but `t` has a link of `q` to free. -/
def Spared (w : World α) (t q : Nat) : Prop :=
  ∀ u, u ≠ t → ∀ n, .link n ∈ (w.domain.thread u).stock → (w.store.link n).home ≠ q

/-- Nobody else works on `q`, so nobody else retires a link of it. -/
theorem Spared.move (h : w.Spared t q) (hk : Kept w lay) (ha : w.Alone t q) {m : Move α} (hm : w.may u m) :
    (w.move u m).Spared t q := by
  obtain ⟨lay', hd⟩ := hk.opsFit.did hm
  have hold : ∀ v, v ≠ t → ∀ n, .link n ∈ (w.domain.thread v).stock → ((w.move u m).store.link n).home ≠ q :=
    fun v hv n hn => by
    rw [(hd.ages (hk.retired_lt (hk.retired_of_stock hn))).home]
    exact h v hv n hn
  intro v hv n hn
  rcases hk.domain_move hd with hsame | ⟨-, x, hx, hmove⟩
  · exact hold v hv n (hsame ▸ hn)
  by_cases e : v = u
  case neg => exact hold v hv n ((move_of_ne e m).2 ▸ hn)
  subst e
  obtain ⟨y, hturn, hhandled⟩ := hk.reach.owned.handled hx
  rw [← hmove] at hturn hhandled
  rcases hhandled.mem_stock hk.reach.neat hn with hy | hn | hn
  · -- it retires the link in this move
    have hst : .retired (.link n) ∈ (w.move v m).domain.story := by
      rw [hturn.story, hy]
      exact List.mem_append_right _ List.mem_cons_self
    rcases hd.retires hk.opsFit hst with hbefore | ⟨-, -, -, p, hp, next, hpt⟩
    · exact absurd hbefore (hturn.retires _ hy)
    · have hmem := hk.opsFit.mem_of_take hp hpt
      have hl := hk.opsFit.laid _ (hk.opsFit.sits v p hp).queue
      rw [(hd.ages (hl.bound n hmem)).home, hl.home n hmem]
      exact ha.others v hv p.1 (by rw [operations_eq]; exact List.mem_map_of_mem hp)
  · exact hold v hv n hn
  · rw [ha.orphans] at hn
    cases hn

/-! ## Runs -/

/-- What holds while `t` uses `q`. -/
structure Tended (w : World α) (t q : Nat) : Prop where
  made : q < w.store.nextQueue
  handle : (w.domain.handle? t).isSome = true
  stint : w.InStint t
  spared : w.Spared t q

/-- The user keeps its handle. -/
theorem follows_use (hk : Kept w lay) {m : Move α} (hm : w.may t m) (huse : m = .step ∨ w.rests t ∧ m.uses q) :
    w.domain.Follows t (w.move t m).domain := by
  have hs := hk.toQueueInv
  rcases huse with rfl | ⟨-, huse⟩
  · refine (onward_step hs hm fun o ho => ⟨hk.idle t (by rw [ho]; rfl), fun g hg => ?_⟩).follows
    exact (hk.minds t _ (stack_active ho ▸ List.mem_cons_self)).held g hg
  cases m with
  | tryEnqueue p v memory =>
    cases memory with
    | true => obtain ⟨c, -, ho⟩ := opens_enqueue hs hm.1 (Store.isOpen_lt hm.2) v; exact ho.follows
    | false => exact .refl
  | dequeue p => obtain ⟨c, -, ho⟩ := opens_dequeue hs hm.1 (Store.isOpen_lt hm.2); exact ho.follows
  | isEmpty p => obtain ⟨c, -, ho⟩ := opens_isEmpty hs hm.1 (Store.isOpen_lt hm.2); exact ho.follows
  | flush => exact (opens_flush hs hm).follows
  | pending => exact (onward_pending hs hm).follows
  | _ => exact False.elim huse

/-- No move breaks it. -/
theorem Tended.move (h : w.Tended t q) (hk : Kept w lay) (ha : w.Alone t q) {m : Move α} (hm : w.may u m)
    (huse : u = t → m = .step ∨ w.rests t ∧ m.uses q) (ha' : (w.move u m).Alone t q)
    (hw : ¬ (w.move u m).domain.wrapped) : (w.move u m).Tended t q := by
  obtain ⟨lay', hd⟩ := hk.opsFit.did hm
  obtain ⟨x, hx⟩ := Option.isSome_iff_exists.mp h.handle
  have hmade := Nat.lt_of_lt_of_le h.made hd.nextQueue_le
  have hspared := h.spared.move hk ha hm
  by_cases e : u = t
  case pos =>
    subst e
    refine ⟨hmade, (follows_use hk hm (huse rfl)).handle h.handle, ?_, hspared⟩
    rcases huse rfl with rfl | ⟨hrest, huse⟩
    · exact h.stint.step hk.toQueueInv ha hx hw hm
    · exact h.stint.begun hk.reach ha hx hrest huse
  obtain ⟨hop, hth⟩ := move_of_ne (w := w) (Ne.symm e) m
  refine ⟨hmade, ?_, ?_, hspared⟩
  · rw [Domain.handle?_isSome, hth, ← Domain.handle?_isSome]
    exact h.handle
  rcases hk.domain_move hd with hsame | ⟨-, y, hy, hmove⟩
  · refine .of_eq hop (by rw [hth]) (by rw [hth]) ?_
    rw [hsame]
    exact h.stint
  · obtain ⟨z, hturn⟩ := hk.reach.owned.turn hy
    rw [← hmove] at hturn
    exact h.stint.others hk.reach e hturn (hturn.not_wrapped hw).2 ha'.pinned

theorem Uses.start_alone (hrun : Uses t q w₀ w) : w₀.Alone t q := by
  induction hrun with
  | start ha => exact ha
  | move _ _ _ _ _ _ ih => exact ih

theorem Uses.alone (hrun : Uses t q w₀ w) : w.Alone t q := by
  cases hrun with
  | start ha => exact ha
  | move _ _ _ _ _ ha => exact ha

theorem Uses.reach (hrun : Uses t q w₀ w) (h₀ : w₀.Reach) : w.Reach := by
  induction hrun with
  | start _ => exact h₀
  | move u m _ hm _ _ ih => exact .move u m ih hm

/-- The epoch has not overflowed before, either. -/
theorem Uses.not_wrapped (hrun : Uses t q w₀ w) (h₀ : w₀.Reach) (hw : ¬ w.domain.wrapped) :
    ¬ w₀.domain.wrapped := by
  induction hrun with
  | start _ => exact hw
  | @move w u m hrun hm _ _ ih =>
    obtain ⟨lay, hk⟩ := (hrun.reach h₀).kept
    obtain ⟨lay', hd⟩ := hk.opsFit.did hm
    exact ih (hk.not_wrapped hd hw)

theorem Uses.tended (hrun : Uses t q w₀ w) (h₀ : w₀.Reach) (ht : w₀.Tended t q)
    (hw : ¬ w.domain.wrapped) : w.Tended t q := by
  induction hrun with
  | start _ => exact ht
  | @move w u m hrun hm huse ha ih =>
    obtain ⟨lay, hk⟩ := (hrun.reach h₀).kept
    obtain ⟨lay', hd⟩ := hk.opsFit.did hm
    exact (ih (hk.not_wrapped hd hw)).move hk hrun.alone hm huse ha hw

/-- So it is when the queue is new and the handle of `t` is fresh. -/
theorem Reach.tended_newQueue (h₀ : w₀.Reach) (hrest : w₀.rests t)
    (hfresh : w₀.domain.handle? t = some {}) {limits : Limits}
    (ha : (w₀.newQueue limits).2.Alone t (w₀.newQueue limits).1) (hw : ¬ w₀.domain.wrapped) :
    (w₀.newQueue limits).2.Tended t (w₀.newQueue limits).1 := by
  obtain ⟨lay, htr⟩ := h₀.linksPlaced
  have hdomain : (w₀.newQueue limits).2.domain = w₀.domain := rfl
  have hguards : (w₀.domain.thread t).guards = [] := List.eq_nil_iff_forall_not_mem.mpr fun g hg => by
    have hshield : (g.tid, g.detached) ∈ (w₀.domain.thread t).shields :=
      List.mem_append_right _ (List.mem_map_of_mem hg)
    -- its slot would be pinned, and the handle has none
    have hslot := ha.pinned g.tid (htr.reach.shielded hw t _ hshield)
    rw [hdomain, hfresh] at hslot
    cases hslot
  refine ⟨Nat.lt_succ_self _, by rw [hdomain, hfresh]; rfl, .of_eq hrest.1 hrest.2 hguards (.resting ?_),
    fun u hu n hn => ?_⟩
  · have hten : (w₀.domain.thread t).tenure.handle? = some {} := Domain.handle?_eq w₀.domain t ▸ hfresh
    rw [Domain.Light, hdomain, Reclaim.Thread.bags_of_handle hten]
    exact Reclaim.spare_nil _
  · have hlt := htr.retired_lt (htr.retired_of_stock hn)
    have hlink := (Laid.newQueue w₀.store limits).2.1 n
    rw [if_neg (Nat.ne_of_lt hlt)] at hlink
    rw [show (w₀.newQueue limits).2.store.link n = w₀.store.link n from hlink]
    exact Nat.ne_of_lt (htr.home n hlt).1

/-! ## The bound -/

theorem Tended.light (h : w.Tended t q) (hrest : w.rests t) : w.domain.Light t := by
  have hstint := h.stint
  rw [InStint, hrest.1, hrest.2] at hstint
  generalize (w.domain.thread t).guards = guards at hstint
  cases hstint with
  | resting light => exact light

/-- What was retired of `q` and is not freed waits with `t`. -/
theorem Tended.unreclaimed_le (h : w.Tended t q) (hr : w.Reach) (ha : w.Alone t q) (hrest : w.rests t) :
    (w.unreclaimed q).length ≤ (w.domain.thread t).hoard.nodes.length := by
  obtain ⟨lay, htr⟩ := hr.linksPlaced
  have hnodup : ((w.unreclaimed q).map Garbage.link).Nodup :=
    (List.nodup_range.filter _).map fun _ _ e => Garbage.link.inj e
  rw [← List.length_map Garbage.link]
  refine (List.subperm_of_subset hnodup fun g hg => ?_).length_le
  obtain ⟨n, hn, rfl⟩ := List.mem_map.mp hg
  obtain ⟨-, hhome, hret, hunsaid⟩ := LinksPlaced.mem_unreclaimed.mp hn
  have hbooks := (htr.reach.balanced.mem_books_iff _).mpr ⟨hret, hunsaid⟩
  rcases Domain.mem_books_iff_stock.mp hbooks with ⟨u, hstock⟩ | horphan
  · have hmine : u = t := Classical.not_not.mp fun hu => h.spared u hu n hstock hhome
    subst hmine
    refine (List.mem_append.mp hstock).resolve_right fun htodo => ?_
    rw [Reclaim.Thread.todo, hrest.2] at htodo
    cases htodo
  · rw [ha.orphans] at horphan
    cases horphan

theorem Alone.isQuiet (ha : w.Alone t q) (hrest : w.rests t) : w.isQuiet q := fun u o ho => by
  by_cases e : u = t
  · rw [e, operations, hrest.1, hrest.2] at ho
    cases ho
  · exact ha.others u e o ho

theorem Tended.bounded (h : w.Tended t q) (hr : w.Reach) (ha : w.Alone t q) (hrest : w.rests t) :
    (w.pending t).1 < 3 * Reclaim.bagCapacity ∧
      (w.store.queue q).live ≤ (w.store.values q).length + 3 * Reclaim.bagCapacity := by
  obtain ⟨lay, hk⟩ := hr.kept
  have hneat := hk.reach.neat.hoard t
  have hbags : (w.domain.thread t).hoard.bags.length ≤ 2 :=
    Reclaim.Thread.bags_hoard (w.domain.thread t) ▸ (h.light hrest).length
  have hwaits := hneat.waits_lt hbags
  have hpending : (w.pending t).1 < 3 * Reclaim.bagCapacity := Domain.pending_fst w.domain t ▸ hwaits
  have hleft := h.unreclaimed_le hr ha hrest
  rw [hneat.length_nodes] at hleft
  have hcensus := hr.census h.made
  refine ⟨hpending, ?_⟩
  cases hopen : w.store.isOpen q with
  | true =>
    rw [hcensus.quiet hopen (ha.isQuiet hrest)]
    omega
  | false =>
    rw [hcensus.closed hopen]
    omega

/-- A thread that starts with a fresh handle and uses one new queue, while no other slot is pinned and
    there are no orphans, leaves less than three full batches waiting after each of its operations, and
    its queue has no more links than that beyond those of its values. -/
theorem Uses.bounded_garbage {w₁ : World α} {limits : Limits} (h₀ : w₀.Reach) (hrest₀ : w₀.rests t)
    (hfresh : w₀.domain.handle? t = some {}) (hnew : w₀.newQueue limits = (q, w₁)) (hrun : Uses t q w₁ w)
    (hw : ¬ w.domain.wrapped) (hrest : w.rests t) :
    (w.pending t).1 < 3 * Reclaim.bagCapacity ∧
      (w.store.queue q).live ≤ (w.store.values q).length + 3 * Reclaim.bagCapacity ∧
      3 * Reclaim.bagCapacity = 192 := by
  have hq : q = (w₀.newQueue limits).1 := by rw [hnew]
  have hw₁ : w₁ = (w₀.newQueue limits).2 := by rw [hnew]
  subst hq hw₁
  have hmay : w₀.mayBegin t = true := mayBegin_iff.mpr ⟨hrest₀.1, by rw [Domain.mayCall_eq, hrest₀.2]; rfl⟩
  have hr₁ : (w₀.newQueue limits).2.Reach := .move t (.newQueue limits) h₀ hmay
  have htended := hrun.tended hr₁ (h₀.tended_newQueue hrest₀ hfresh hrun.start_alone (hrun.not_wrapped hr₁ hw)) hw
  obtain ⟨hpending, hlive⟩ := htended.bounded (hrun.reach hr₁) hrun.alone hrest
  exact ⟨hpending, hlive, rfl⟩

/-! ## Use given as lists of moves -/

instance : (m : Move α) → Decidable (m.uses q)
  | .tryEnqueue p _ _ | .dequeue p | .isEmpty p => inferInstanceAs (Decidable (p = q))
  | .flush | .pending => isTrue trivial
  | .pin | .unpin _ | .retire _ | .exit | .newQueue _ | .pop _ | .tearDown _ | .step => isFalse id

instance (w : World α) (t q : Nat) : Decidable (w.Alone t q) :=
  decidable_of_iff (w.domain.PinnedAlone t ∧ w.domain.orphans.isEmpty = true ∧
      ∀ u ∈ List.range w.span, u ≠ t → ∀ o ∈ w.operations u, o.queue ≠ q) <| by
    constructor
    · rintro ⟨hpinned, horphans, hothers⟩
      refine ⟨hpinned, List.isEmpty_iff.mp horphans, fun u hu o ho => ?_⟩
      by_cases hlt : u < w.span
      · exact hothers u (List.mem_range.mpr hlt) hu o ho
      · rw [operations_of_span_le (Nat.le_of_not_lt hlt)] at ho
        cases ho
    · exact fun h => ⟨h.pinned, List.isEmpty_iff.mpr h.orphans, fun u _ => h.others u⟩

/-- What a thread does when it uses `q`: it goes on, or begins something. -/
def mayUse (w : World α) (t q : Nat) (m : Move α) : Bool :=
  match m with
  | .step => true
  | m => decide (w.rests t ∧ m.uses q)

/-- Makes the moves one by one as long as `t` is alone and uses nothing but `q`. -/
def playUse (t q : Nat) (w : World α) : List (Nat × Move α) → Option (World α)
  | [] => some w
  | (u, m) :: ms =>
    if w.may u m ∧ (u = t → w.mayUse t q m = true) ∧ (w.move u m).Alone t q then playUse t q (w.move u m) ms else none

theorem Uses.of_play {ms : List (Nat × Move α)} : ∀ {w : World α}, Uses t q w₀ w →
    playUse t q w ms = some w' → Uses t q w₀ w' := by
  induction ms with
  | nil => intro w h heq; cases heq; exact h
  | cons e ms ih =>
    intro w h heq
    rw [playUse] at heq
    split at heq
    · rename_i hm
      refine ih (h.move _ _ hm.1 (fun hu => ?_) hm.2.2) heq
      have huse := hm.2.1 hu
      unfold mayUse at huse
      split at huse
      · exact Or.inl ‹_›
      · exact Or.inr (of_decide_eq_true huse)
    · cases heq

/-- A move adds one notice to the story at most. -/
theorem Reach.length_story_move (h : w.Reach) {m : Move α} (hm : w.may u m) :
    (w.move u m).domain.story.length ≤ w.domain.story.length + 1 := by
  obtain ⟨lay, hk⟩ := h.kept
  obtain ⟨lay', hd⟩ := hk.opsFit.did hm
  rcases hk.domain_move hd with hsame | ⟨-, y, hy, hmove⟩
  · rw [hsame]
    exact Nat.le_succ _
  · obtain ⟨x, hturn⟩ := hk.reach.owned.turn hy
    rw [hmove, hturn.story, List.length_append]
    exact Nat.add_le_add_left (by cases x <;> simp) _

theorem Reach.length_story_of_play {ms : List (Nat × Move α)} : ∀ {w : World α}, w.Reach →
    playUse t q w ms = some w' → w'.domain.story.length ≤ w.domain.story.length + ms.length := by
  induction ms with
  | nil => intro w _ heq; cases heq; exact Nat.le_refl _
  | cons e ms ih =>
    intro w h heq
    rw [playUse] at heq
    split at heq
    · rename_i hm
      have hrest := ih (.move e.1 e.2 h hm.1) heq
      have hfirst := h.length_story_move hm.1
      rw [List.length_cons]
      omega
    · cases heq

/-- Thread 0 enqueues a value and dequeues it, so many times. -/
def inAndOut : Nat → List (Nat × Move Nat)
  | 0 => []
  | k + 1 => (0, .tryEnqueue 0 k true) :: List.replicate 8 (0, .step) ++
    (0, .dequeue 0) :: List.replicate 10 (0, .step) ++ inAndOut k

/-- Thread 0 has 63 values go in and out, asks whether the queue is empty, and enqueues, which is its
    128th pin. The dequeue after that, in which thread 1 flushes, retires the 64th link and seals the
    batch. Another value is left in the queue. -/
def thriftyRun : List (Nat × Move Nat) := inAndOut 63 ++ List.flatten [
  (0, .isEmpty 0) :: List.replicate 5 (0, .step), (0, .tryEnqueue 0 7 true) :: List.replicate 10 (0, .step),
  (0, .dequeue 0) :: List.replicate 4 (0, .step), (1, .flush) :: List.replicate 3 (1, .step),
  List.replicate 8 (0, .step), (0, .tryEnqueue 0 8 true) :: List.replicate 8 (0, .step)]

theorem thriftyRun_ends : (playUse 0 0 (({} : World Nat).newQueue .standard).2 thriftyRun).map (fun w =>
    ((w.pending 0).1, (w.store.queue 0).live, w.store.values 0, (w.domain.thread 0).bags.length, decide (w.rests 0))) =
      some (64, 66, [8], 1, true) := by
  decide +kernel

/-- The sealed batch is pending, and so are its links. -/
theorem bounded_garbage_at_thriftyEnd : ∃ w : World Nat, Uses 0 0 (({} : World Nat).newQueue .standard).2 w ∧
    (w.pending 0).1 = 64 ∧ (w.store.queue 0).live = 66 ∧ w.store.values 0 = [8] ∧
    (w.domain.thread 0).bags.length = 1 ∧ (w.pending 0).1 < 3 * Reclaim.bagCapacity ∧
    (w.store.queue 0).live ≤ (w.store.values 0).length + 3 * Reclaim.bagCapacity := by
  obtain ⟨w, hplay, hend⟩ := Option.map_eq_some_iff.mp thriftyRun_ends
  obtain ⟨hpending, hlive, hvalues, hbags, hrest⟩ : (w.pending 0).1 = 64 ∧ (w.store.queue 0).live = 66 ∧
    w.store.values 0 = [8] ∧ (w.domain.thread 0).bags.length = 1 ∧ w.rests 0 := by simpa using hend
  have hmade : (({} : World Nat).newQueue .standard).2.Reach := .move 0 (.newQueue .standard) .start (by decide +kernel)
  have hnew : ({} : World Nat).newQueue .standard = (0, (({} : World Nat).newQueue .standard).2) := rfl
  have huses : Uses 0 0 (({} : World Nat).newQueue .standard).2 w := .of_play (.start (by decide +kernel)) hplay
  have hw : ¬ w.domain.wrapped := by
    obtain ⟨lay, hk⟩ := (huses.reach hmade).kept
    have hstory := hmade.length_story_of_play hplay
    have hempty : (({} : World Nat).newQueue .standard).2.domain.story.length = 0 := rfl
    have hlength : thriftyRun.length < UInt64.size - 1 := by decide +kernel
    exact (hk.reach.not_wrapped_of_story (by omega)).1
  obtain ⟨hfew, hnear, -⟩ := Uses.bounded_garbage .start (by decide +kernel) rfl hnew huses hw hrest
  exact ⟨w, huses, hpending, hlive, hvalues, hbags, hfew, hnear⟩

end World

end EpochQueue.Fifo
