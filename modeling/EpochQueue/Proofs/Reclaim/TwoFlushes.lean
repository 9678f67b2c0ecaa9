/-
  EpochQueue.Proofs.Reclaim.TwoFlushes — while nobody is pinned, two flushes destroy all that waits.

  A flush runs the destructors of what it destroys, and these may pin, retire and flush again on the
  same thread (`Flushing`). It returns, unless they never stop opening calls (`Flushing.returns`).

  With all slots quiescent the first steps of a flush advance the global epoch. No bag is stamped
  ahead of it, so what the first flush has not taken out has a stamp of before that, and it has
  expired when the second flush has advanced once more. In between it may lie among the bags of
  the thread or among the orphans, and the destructors' own flushes may have taken it up or put it
  back there: a bag keeps its stamp on all these ways, and what is taken out is destroyed before the
  call that took it out returns (`Handled.awaits`). The destructors drop what they have pinned, so
  the slots are quiescent when the second flush begins, too (`Flushes.quiet`).
-/

import EpochQueue.Proofs.Reclaim.LatePins
import EpochQueue.Proofs.Reclaim.Sweep

namespace EpochQueue.Reclaim

variable {ν κ : Type}

/-- What a step says of a node that it destroys. -/
def Signal.freed? : Signal ν κ → Option ν
  | .freed n => some n
  | _ => none

namespace Domain

variable {d d₁ d₂ d' e : Domain ν κ} {t : Nat} {n : ν}

/-- `t` opened a flush in `d` and has come from there to here by itself; the flush has returned at
    the last move, or not yet. -/
inductive Flushing (t : Nat) (d : Domain ν κ) : Domain ν κ → Prop
  | call (k : κ) : d.may t (.flush k) → Flushing t d (d.flush t k)
  | move {e : Domain ν κ} (m : Move ν κ) : Flushing t d e → (d.thread t).calls.length < (e.thread t).calls.length →
      e.may t m → Flushing t d (e.move t m)

/-- A flush of `t` leads from `d` to `d'`, and what its destructors have pinned they have dropped. -/
structure Flushes (t : Nat) (d d' : Domain ν κ) : Prop where
  run : Flushing t d d'
  returned : (d'.thread t).calls = (d.thread t).calls
  dropped : (d'.thread t).guards ⊆ (d.thread t).guards

/-! ## Ways of one thread -/

/-- In the middle of a call that runs no destructor there is nothing to do but to go on. -/
theorem step_of_calls {c : Call ν κ} {rest : List (Call ν κ)} (hc : (d.thread t).calls = c :: rest)
    (hbusy : c.phase.isFreeing = false) {m : Move ν κ} (hm : d.may t m) : m = .step := by
  have hno : ¬ d.mayCall t = true := fun h => by
    rw [isFreeing_of_mayCall h (Thread.point?_of_calls hc)] at hbusy
    cases hbusy
  cases m with
  | step => rfl
  | pin | flush | pending => exact absurd hm hno
  | unpin | retire => exact absurd hm.1 hno
  | exit => exact absurd (hc.symm.trans hm) (List.cons_ne_nil _ _)

theorem Follows.not_wrapped (h : Follows t d e) (hr : d.Reach) (hw : ¬ e.wrapped) : ¬ d.wrapped := by
  induction h with
  | refl => exact hw
  | move m hrun hm _ ih =>
    obtain ⟨x, ht⟩ := (hrun.reach hr).owned.turn hm
    exact ih (ht.not_wrapped hw).1

theorem Follows.epoch_le (h : Follows t d e) (hr : d.Reach) (hw : ¬ e.wrapped) :
    d.registry.epoch.toNat ≤ e.registry.epoch.toNat := by
  induction h with
  | refl => exact Nat.le_refl _
  | move m hrun hm _ ih =>
    obtain ⟨x, ht⟩ := (hrun.reach hr).owned.turn hm
    obtain ⟨hw', hx⟩ := ht.not_wrapped hw
    exact Nat.le_trans (ih hw') (ht.epoch_le hx)

/-! ## Where a node waits -/

/-- The node has been destroyed, or has been taken out for that, or is in a bag within the reach of
    `t` that is stamped with less than `E`. -/
def Awaits (E : Nat) (t : Nat) (n : ν) (d : Domain ν κ) : Prop :=
  .freed n ∈ d.story ∨ n ∈ (d.thread t).todo ∨ ∃ b ∈ d.pool t, n ∈ b.nodes ∧ b.epoch.toNat < E

theorem Handled.awaits {x : Option (Notice ν)} (h : Handled d t d' x) (ht : Turn d t x d') {E : Nat}
    (ha : Awaits E t n d) : Awaits E t n d' := by
  have hstory : .freed n ∈ d.story → Awaits E t n d' := fun hn => Or.inl (ht.mem_story.mpr (Or.inl hn))
  -- in most moves the bags stay where they are, and so does what was taken out
  have hkept : (∀ b ∈ d.pool t, b ∈ d'.pool t) → (d'.thread t).todo = (d.thread t).todo → Awaits E t n d' :=
    fun hpool htodo => ha.elim hstory fun ha => Or.inr <|
      ha.imp (fun hn => htodo ▸ hn) fun ⟨b, hb, hn⟩ => ⟨b, hpool b hb, hn⟩
  have hbags : ∀ {e : Domain ν κ}, e.pool t = (e.thread t).hoard.bags ++ e.orphans := by
    intro e
    rw [Thread.bags_hoard, pool]
  have hsame : (d'.thread t).hoard.bags = (d.thread t).hoard.bags → d'.orphans = d.orphans →
      ∀ b ∈ d.pool t, b ∈ d'.pool t := fun h h' b hb => by rwa [hbags, h, h', ← hbags]
  have hsealed : ∀ {h : Hoard ν}, h.bags = (d.thread t).hoard.bags → ∀ b ∈ d.pool t,
      b ∈ (h.sealed d.registry.epoch).bags ++ d.orphans := fun {h} hh b hb => by
    rw [hbags, ← hh] at hb
    refine (List.mem_append.mp hb).elim (fun hb => List.mem_append_left _ ?_) (List.mem_append_right _)
    unfold Hoard.sealed
    split
    · exact hb
    · exact List.mem_append_left _ hb
  cases h with
  | kept hx hoard orphans todo => exact hkept (hsame (by rw [hoard]) orphans) todo
  | batched n room hoard orphans todo => exact hkept (hsame (by rw [hoard]; rfl) orphans) todo
  | filled n full hoard orphans todo =>
    refine hkept (fun b hb => ?_) todo
    rw [hbags, hoard, orphans]
    exact hsealed (h := (d.thread t).hoard.add n) rfl b hb
  | cast n hoard orphans todo =>
    refine hkept (fun b hb => ?_) todo
    rw [hbags, hoard, orphans, ← List.append_assoc, ← hbags]
    exact List.mem_append_left _ hb
  | sealed hoard orphans todo =>
    exact hkept (fun b hb => by rw [hbags, hoard, orphans]; exact hsealed rfl b hb) todo
  | left hoard orphans todo =>
    refine hkept (fun b hb => ?_) todo
    rw [hbags, hoard, orphans]
    exact List.mem_append_right _ (List.perm_append_comm.mem_iff.mp (hsealed rfl b hb))
  | sorted g batch batchLen pool todo =>
    rcases ha with hn | hn | ⟨b, hb, hn, hstamp⟩
    · exact hstory hn
    · exact Or.inr (Or.inl (todo ▸ List.mem_append_right _ hn))
    · by_cases hg : b.isExpired g = true
      · refine Or.inr (Or.inl (todo ▸ List.mem_append_left _ ?_))
        exact List.mem_flatMap.mpr ⟨b, List.mem_filter.mpr ⟨hb, hg⟩, hn⟩
      · exact Or.inr (Or.inr ⟨b, pool ▸ List.mem_filter.mpr ⟨hb, by simpa using hg⟩, hn, hstamp⟩)
  | destroyed m hoard orphans todo =>
    rcases ha with hn | hn | ⟨b, hb, hn⟩
    · exact hstory hn
    · rcases List.mem_cons.mp (todo ▸ hn) with rfl | hn
      · exact Or.inl (ht.mem_story.mpr (Or.inr rfl))
      · exact Or.inr (Or.inl hn)
    · exact Or.inr (Or.inr ⟨b, hsame (by rw [hoard]) orphans b hb, hn⟩)

theorem Follows.awaits (h : Follows t d e) (hr : d.Reach) {E : Nat} (ha : Awaits E t n d) : Awaits E t n e := by
  induction h with
  | refl => exact ha
  | move m hrun hm _ ih =>
    obtain ⟨x, ht, hh⟩ := (hrun.reach hr).owned.handled hm
    exact hh.awaits ht ih

/-- What waits has not been destroyed, and no call is about to destroy it. -/
theorem Balanced.waits (hb : d.Balanced) (hn : n ∈ (d.thread t).batch ++ Bag.contents (d.pool t)) :
    .freed n ∉ d.trace ∧ n ∉ (d.thread t).todo := by
  have hnodup := hb.perm.nodup_iff.mp hb.nodup
  obtain ⟨-, hbooks, hapart⟩ := List.nodup_append.mp hnodup
  rw [pool, Bag.contents_append, ← List.append_assoc] at hn
  refine ⟨fun hf => hapart n (mem_frees.mpr hf) n (mem_books.mpr ?_) rfl, fun ht => ?_⟩
  · rcases List.mem_append.mp hn with hn | hn
    · exact Or.inl ⟨t, (List.mem_append.mp hn).imp_right Or.inl⟩
    · exact Or.inr hn
  · obtain ⟨rest, hperm, -⟩ := Table.exists_rest (g := Thread.stock) (t := d.threads) (s := d.threads) (i := t) rfl
      fun _ _ => rfl
    have hall := (hperm.append_right (Bag.contents d.orphans)).nodup_iff.mp hbooks
    obtain ⟨hmine, -, horphans⟩ := List.nodup_append.mp hall
    have hstock := (List.nodup_append.mp hmine).1
    rw [Thread.stock, Hoard.nodes, Thread.batch_hoard, Thread.bags_hoard] at hstock
    rcases List.mem_append.mp hn with hn | hn
    · exact (List.nodup_append.mp hstock).2.2 n hn n ht rfl
    · exact horphans n (List.mem_append_left _ (List.mem_append_right _ ht)) n hn rfl

/-! ## A flush from its call to its return -/

/-- Unless it is a step, a move leaves all that is under way as it is. -/
theorem suffix_of_ne_step {m : Move ν κ} (hm : m ≠ .step) :
    (d.thread t).calls <:+ ((d.move t m).thread t).calls := by
  cases m with
  | pin k =>
    obtain ⟨q, -, h, -⟩ := calls_pin d t k
    exact h ▸ List.suffix_cons _ _
  | retire n k =>
    obtain ⟨q, -, h, -⟩ := calls_retire d t n k
    exact h ▸ List.suffix_cons _ _
  | flush k => exact (flush_opens d t k).1 ▸ List.suffix_cons _ _
  | unpin g => exact (calls_unpin d t g).1 ▸ List.suffix_refl _
  | pending => exact (calls_pending d t).1 ▸ List.suffix_refl _
  | exit => exact (calls_exit d t).1 ▸ List.suffix_refl _
  | step => exact absurd rfl hm

/-- A move leaves alone what is under way beneath the innermost call. -/
theorem suffix_move {c : Call ν κ} {rest : List (Call ν κ)} (hc : (d.thread t).calls = c :: rest) (m : Move ν κ) :
    rest <:+ ((d.move t m).thread t).calls := by
  by_cases hstep : m = .step
  · subst hstep
    have hgoes := goes_step hc
    cases hgoes with
    | on q h =>
      rw [move, h]
      exact List.suffix_cons _ _
    | back h => exact h ▸ List.suffix_refl rest
  · have hall := suffix_of_ne_step (d := d) (t := t) hstep
    rw [hc] at hall
    exact (List.suffix_cons c rest).trans hall

namespace Flushing

theorem reach (h : Flushing t d e) (hr : d.Reach) : e.Reach := by
  induction h with
  | call k hm => exact hr.move t _ hm
  | move m _ _ hm ih => exact ih.move t m hm

/-- What was under way before stays as it was. -/
theorem suffix (h : Flushing t d e) : (d.thread t).calls <:+ (e.thread t).calls := by
  induction h with
  | call k _ =>
    rw [(flush_opens d t k).1]
    exact List.suffix_cons _ _
  | @move e m _ hlt hm ih =>
    cases hc : (e.thread t).calls with
    | nil =>
      rw [hc] at hlt
      cases hlt
    | cons c rest =>
      rw [hc] at ih hlt
      have hrest := (List.suffix_cons_iff.mp ih).resolve_left fun h => Nat.ne_of_lt hlt (congrArg List.length h)
      exact hrest.trans (suffix_move hc m)

end Flushing

/-- A step writes into the books that what it tells of was destroyed. -/
theorem step_books (d : Domain ν κ) (t : Nat) : (d.step t).1.retirements = d.retirements ∧
    (d.step t).1.frees = d.frees ++ (d.step t).2.freed?.toList := by
  have hbooks : ∀ {d' : Domain ν κ} {ys : List (Notice ν)}, d'.story = d.story ++ ys → ys.filterMap (·.retired?) = [] →
      d'.retirements = d.retirements ∧ d'.frees = d.frees ++ ys.filterMap (·.freed?) := fun hs hnone => by
    rw [retirements_eq, retirements_eq, frees_eq, frees_eq, hs, List.filterMap_append, List.filterMap_append, hnone,
      List.append_nil]
    exact ⟨rfl, rfl⟩
  have hsilent : ∀ {d' : Domain ν κ}, d'.story = d.story → d'.retirements = d.retirements ∧ d'.frees = d.frees ++ [] :=
    fun hs => hbooks (hs.trans (List.append_nil _).symm) rfl
  cases hc : (d.thread t).calls with
  | nil =>
    rw [step_nil hc]
    exact hsilent rfl
  | cons c rest =>
    have hw := step_wanes hc
    generalize (d.step t).1 = d', (d.step t).2 = signal at hw ⊢
    cases hw with
    | on q _ _ _ _ _ hs =>
      rcases hs with hs | ⟨e, hs⟩
      · exact hsilent hs
      · exact hbooks hs rfl
    | freed p x todo freed _ _ _ hs => exact hbooks hs rfl
    | pinned g _ _ _ _ _ hs => exact hbooks hs rfl
    | returned a _ _ _ _ _ _ hs => exact hsilent hs

/-- The steps of calls, the destruction of nodes apart. -/
def callsLeft : List (Call ν κ) → Nat
  | [] => 0
  | c :: rest => c.phase.left + callsLeft rest

/-- The steps that `t` has to make until nothing is under way on it, if it opens no more calls. -/
def due (d : Domain ν κ) (t : Nat) : Nat := callsLeft (d.thread t).calls + (d.retirements.length - d.frees.length)

theorem Reach.due_step (h : d.Reach) (hm : d.may t .step) : (d.step t).1.due t < d.due t := by
  obtain ⟨c, rest, hc⟩ := List.exists_cons_of_ne_nil (show (d.thread t).calls ≠ [] from hm)
  have hle := (h.move t .step hm).balanced.frees_le
  obtain ⟨hret, hfree⟩ := step_books d t
  have hw := step_wanes hc
  have hleft := c.phase.left_pos
  unfold due
  rw [hret, hfree, hc, List.length_append]
  rw [Domain.move, hret, hfree, List.length_append] at hle
  generalize (d.step t).1 = d', (d.step t).2 = signal at hw hle ⊢
  cases hw with
  | on q hc' hq _ _ _ _ =>
    rw [hc']
    simp only [callsLeft, Signal.freed?, Option.toList_none, List.length_nil]
    omega
  | freed p n todo freed hp hc' _ _ =>
    -- one node less waits, and the call has as many steps to make as before
    rw [hc']
    simp only [callsLeft, hp, Phase.left, Signal.freed?, Option.toList_some, List.length_singleton] at hle ⊢
    omega
  | pinned g _ _ _ hc' _ _ | returned a _ _ _ _ hc' _ _ =>
    rw [hc']
    simp only [callsLeft, Signal.freed?, Option.toList_none, List.length_nil]
    omega

/-- `k` steps of `t`. -/
def steps (d : Domain ν κ) (t : Nat) : Nat → Domain ν κ
  | 0 => d
  | k + 1 => (d.step t).1.steps t k

/-- By steps alone `t` brings a flush that it opened in `d` from here to its end. -/
def Returns (t : Nat) (d e : Domain ν κ) : Prop :=
  ∃ k, Flushing t d (e.steps t k) ∧ ((e.steps t k).thread t).calls = (d.thread t).calls

/-- A flush returns, wherever it has come to, if its destructors open no more calls. -/
theorem Flushing.returns (h : Flushing t d e) (hr : d.Reach) : Returns t d e := by
  generalize hdue : e.due t = b
  induction b using Nat.strongRecOn generalizing e with
  | ind b ih =>
    rcases Nat.lt_or_eq_of_le h.suffix.length_le with hlt | heq
    · have hm : e.may t .step := fun h0 => by
        rw [h0] at hlt
        cases hlt
      obtain ⟨k, hk⟩ := ih _ (hdue ▸ (h.reach hr).due_step hm) (h.move .step hlt hm) rfl
      exact ⟨k + 1, hk⟩
    · exact ⟨0, h, (h.suffix.eq_of_length heq).symm⟩

/-- The first moves of a flush are its own. -/
theorem Flushing.starts (h : Flushing t d e) : ∃ k, d.may t (.flush k) ∧
    (e = d.flush t k ∨ e = ((d.flush t k).step t).1 ∨ Follows t (((d.flush t k).step t).1.step t).1 e) := by
  induction h with
  | call k hm => exact ⟨k, hm, Or.inl rfl⟩
  | @move e m _ hlt hm ih =>
    obtain ⟨k, hk, he⟩ := ih
    refine ⟨k, hk, Or.inr ?_⟩
    have hc₀ := (flush_opens d t k).1
    rcases he with rfl | rfl | he
    · rw [step_of_calls hc₀ rfl hm]
      exact Or.inl rfl
    · have hc₁ := thread_advance hc₀ .flush t
      rw [if_pos rfl] at hc₁
      have hs : ((d.flush t k).step t).1 = (d.flush t k).advance t .flush := by rw [step_eq hc₀]
      rw [step_of_calls (by rw [hs, hc₁]) rfl hm]
      exact Or.inr .refl
    · refine Or.inr (he.move m hm fun hexit => ?_)
      subst hexit
      rw [show (e.thread t).calls = [] from hm] at hlt
      cases hlt

theorem Flushes.starts (h : Flushes t d d') : ∃ k,
    Follows t d (((d.flush t k).step t).1.step t).1 ∧ Follows t (((d.flush t k).step t).1.step t).1 d' := by
  obtain ⟨k, hk, he⟩ := h.run.starts
  have hlen := congrArg List.length h.returned
  have hc₀ := (flush_opens d t k).1
  have hc₁ := thread_advance hc₀ .flush t
  rw [if_pos rfl] at hc₁
  have hs : ((d.flush t k).step t).1 = (d.flush t k).advance t .flush := by rw [step_eq hc₀]
  rw [← hs] at hc₁
  have h₀ : Follows t d (d.flush t k) := .one (m := .flush k) hk nofun
  have h₁ : Follows t d ((d.flush t k).step t).1 := h₀.move .step (by rw [may, hc₀]; exact List.cons_ne_nil _ _) nofun
  refine ⟨k, h₁.move .step (by rw [may, hc₁]; exact List.cons_ne_nil _ _) nofun, ?_⟩
  rcases he with rfl | rfl | he
  · rw [hc₀, List.length_cons] at hlen
    omega
  · rw [hc₁, List.length_cons] at hlen
    omega
  · exact he

theorem Flushes.follows (h : Flushes t d d') : Follows t d d' :=
  have ⟨_, hto, hfrom⟩ := h.starts
  hto.trans hfrom

/-! ## Two flushes -/

/-- After a flush everything is as quiet as before it. -/
theorem Flushes.quiet (h : Flushes t d d') (hr : d.Reach) (hw : ¬ d.wrapped)
    (hquiet : ∀ tid, (d.registry.slot tid).epoch = quiescent) (tid : Nat) :
    (d'.registry.slot tid).epoch = quiescent := by
  refine Classical.by_contradiction fun h0 => ?_
  obtain ⟨u, b, hu⟩ := (h.run.reach hr).occupied tid h0
  refine hr.shielded hw u (tid, b) ?_ (hquiet tid)
  by_cases hut : u = t
  · subst hut
    rw [Thread.shields, h.returned] at hu
    exact (List.mem_append.mp hu).elim (List.mem_append_left _) fun hu =>
      List.mem_append_right _ (List.map_subset _ h.dropped hu)
  · exact h.follows.thread_of_ne hut ▸ hu

/-- The bags of `t` and those that were left are among those that its flush looks at. -/
theorem pool_subset_swept (d : Domain ν κ) (t : Nat) : d.pool t ⊆ d.swept t := fun b hb => by
  rw [pool, ← Thread.bags_hoard] at hb
  refine (List.mem_append.mp hb).elim (fun hb => List.mem_append_left _ ?_) (List.mem_append_right _)
  unfold Hoard.sealed
  split
  · exact hb
  · exact List.mem_append_left _ hb

/-- Whatever waits is in a bag that the flush looks at, and that is not stamped ahead of the global epoch. -/
theorem Reach.mem_swept (hr : d.Reach) (hw : ¬ d.wrapped)
    (hn : n ∈ (d.thread t).batch ++ Bag.contents (d.pool t)) :
    ∃ b ∈ d.swept t, n ∈ b.nodes ∧ b.epoch.toNat ≤ d.registry.epoch.toNat := by
  rcases List.mem_append.mp hn with hn | hn
  · rw [← Thread.batch_hoard] at hn
    have hlen : (d.thread t).hoard.batchLen ≠ 0 := fun h0 => by
      rw [(hr.neat.hoard t).batchLen_eq, List.length_eq_zero_iff] at h0
      rw [h0] at hn
      cases hn
    refine ⟨⟨d.registry.epoch, _, (d.thread t).hoard.batchLen⟩, List.mem_append_left _ ?_, hn, Nat.le_refl _⟩
    rw [Hoard.sealed, if_neg hlen]
    exact List.mem_append_right _ (List.mem_singleton_self _)
  · obtain ⟨b, hb, hn⟩ := List.mem_flatMap.mp hn
    exact ⟨b, pool_subset_swept d t hb, hn, (hr.stamped hw).bag b ⟨t, hb⟩⟩

/-- What a flush has left in its bags it has taken out, or it has not expired. -/
theorem Sorts.awaits {k : κ} (h : Sorts d t k d') {b : Bag ν} (hb : b ∈ d.swept t) (hn : n ∈ b.nodes) {E : Nat}
    (hE : b.isExpired (d.registry.epoch + 1) = false → b.epoch.toNat < E) : Awaits E t n d' := by
  refine Or.inr ?_
  cases he : b.isExpired (d.registry.epoch + 1) with
  | true =>
    refine Or.inl (List.mem_flatMap.mpr ⟨_, h.calls ▸ List.mem_cons_self, ?_⟩)
    exact List.mem_flatMap.mpr ⟨b, List.mem_filter.mpr ⟨hb, he⟩, hn⟩
  | false => exact Or.inr ⟨b, h.pool ▸ List.mem_filter.mpr ⟨hb, by simpa using he⟩, hn, hE he⟩

/-- When the flush has returned, nothing is left of what it took out. -/
theorem Flushes.awaits (h : Flushes t d d') {E : Nat} (ha : Awaits E t n d') (hn : n ∉ (d.thread t).todo) :
    .freed n ∈ d'.story ∨ ∃ b ∈ d'.pool t, n ∈ b.nodes ∧ b.epoch.toNat < E :=
  ha.imp_right fun ha => ha.resolve_left fun hin => hn (by rwa [Thread.todo, h.returned] at hin)

/-- While no slot is pinned a flush takes out what has expired with the next epoch. -/
theorem Flushes.sorts (h : Flushes t d d') (hquiet : ∀ tid, (d.registry.slot tid).epoch = quiescent) :
    ∃ k f, Sorts d t k f ∧ Follows t d f ∧ Follows t f d' := by
  obtain ⟨k, hto, hfrom⟩ := h.starts
  obtain ⟨e, f, hs, hs', -, hsorts⟩ := flush_sorts hquiet t k
  rw [hs, hs'] at hto hfrom
  exact ⟨k, f, hsorts, hto, hfrom⟩

/-- The epoch after an epoch, as long as the counter has not overflowed. -/
theorem Sorts.epoch_toNat {k : κ} (h : Sorts d t k d') (hr : d'.Reach) (hw : ¬ d'.wrapped) :
    d'.registry.epoch.toNat = d.registry.epoch.toNat + 1 := by
  have hpos := (hr.stamped hw).positive
  rw [h.epoch] at hpos ⊢
  exact toNat_succ hpos

/-- While no slot is pinned, two flushes of a thread in a row destroy all that it had in its batch
    and its bags and all that was orphaned before the first of them, whatever their destructors do
    meanwhile; and both return. -/
theorem Reach.two_flushes (hr : d.Reach) (hquiet : ∀ tid, (d.registry.slot tid).epoch = quiescent) :
    (∀ e, Flushing t d e → Returns t d e) ∧
    ∀ d₁, Flushes t d d₁ → (∀ e, Flushing t d₁ e → Returns t d₁ e) ∧
      ∀ d₂, Flushes t d₁ d₂ → ¬ d₂.wrapped →
        ∀ n ∈ (d.thread t).batch ++ Bag.contents ((d.thread t).bags ++ d.orphans),
          .freed n ∉ d.trace ∧ .freed n ∈ d₂.trace := by
  refine ⟨fun e he => he.returns hr, fun d₁ h₁ => ⟨fun e he => he.returns (h₁.run.reach hr),
    fun d₂ h₂ hw₂ n hn => ?_⟩⟩
  have hr₁ := h₁.run.reach hr
  have hw₁ := h₂.follows.not_wrapped hr₁ hw₂
  have hw := h₁.follows.not_wrapped hr hw₁
  obtain ⟨hnew, htodo⟩ := hr.balanced.waits hn
  have htodo₁ : n ∉ (d₁.thread t).todo := by rwa [Thread.todo, h₁.returned]
  -- the first flush leaves the node in a bag with an old stamp, if it does not destroy it
  obtain ⟨k₁, f₁, hsorts₁, hto₁, hfrom₁⟩ := h₁.sorts hquiet
  have hf₁ := hto₁.reach hr
  obtain ⟨b, hb, hnb, hstamp⟩ := hr.mem_swept hw hn
  have hfirst := hfrom₁.awaits hf₁ (hsorts₁.awaits hb hnb fun _ => Nat.lt_succ_of_le hstamp)
  have hepoch : d.registry.epoch.toNat + 1 ≤ d₁.registry.epoch.toNat := by
    rw [← hsorts₁.epoch_toNat hf₁ (hfrom₁.not_wrapped hf₁ hw₁)]
    exact hfrom₁.epoch_le hf₁ hw₁
  -- the second one takes that bag out
  have hsecond : Awaits 0 t n d₂ := by
    rcases h₁.awaits hfirst htodo with hfreed | ⟨b, hb, hnb, hlt⟩
    · exact h₂.follows.awaits hr₁ (Or.inl hfreed)
    · obtain ⟨k₂, f₂, hsorts₂, hto₂, hfrom₂⟩ := h₂.sorts (h₁.quiet hr hw hquiet)
      have hf₂ := hto₂.reach hr₁
      have hnext := hsorts₂.epoch_toNat hf₂ (hfrom₂.not_wrapped hf₂ hw₂)
      rw [hsorts₂.epoch] at hnext
      have hexpired : b.isExpired (d₁.registry.epoch + 1) = true := by
        rw [Bag.isExpired_iff, UInt64.toNat_sub_of_le _ _ (UInt64.le_iff_toNat_le.mpr (by omega))]
        omega
      exact hfrom₂.awaits hf₂ (hsorts₂.awaits (pool_subset_swept d₁ t hb) hnb fun h => by rw [hexpired] at h; cases h)
  refine ⟨hnew, (mem_story rfl).mp ((h₂.awaits hsecond htodo₁).resolve_right ?_)⟩
  rintro ⟨b, -, -, hlt⟩
  exact Nat.not_lt_zero _ hlt

/-! ## Flushes given as lists of moves -/

section

variable [DecidableEq ν]

/-- Makes the moves of `t` in order as long as the flush that it opened in `d` has not returned. -/
def playFlush (t : Nat) (d e : Domain ν κ) : List (Move ν κ) → Option (Domain ν κ)
  | [] => some e
  | m :: ms =>
    if (d.thread t).calls.length < (e.thread t).calls.length ∧ e.may t m then playFlush t d (e.move t m) ms else none

theorem Flushing.of_play {ms : List (Move ν κ)} : ∀ {e : Domain ν κ}, Flushing t d e →
    playFlush t d e ms = some d' → Flushing t d d' := by
  induction ms with
  | nil => intro e h heq; cases heq; exact h
  | cons m ms ih =>
    intro e h heq
    rw [playFlush] at heq
    split at heq
    · rename_i hm
      exact ih (h.move m hm.1 hm.2) heq
    · cases heq

end

/-- Thread 1 retires node 1 and exits, thread 0 retires node 2, flushes and retires node 3, thread 2
    retires node 4 and exits. -/
def litteredRun : List (Nat × Move Nat Nat) :=
  [(1, .retire 1 0), (1, .step), (1, .exit), (0, .retire 2 0), (0, .step), (0, .flush 0), (0, .step), (0, .step),
    (0, .step), (0, .retire 3 0), (0, .step), (2, .retire 4 0), (2, .step), (2, .exit)]

theorem litteredRun_plays : (({} : Domain Nat Nat).play litteredRun).isSome = true := by decide +kernel

def littered : Domain Nat Nat := (({} : Domain Nat Nat).play litteredRun).get litteredRun_plays

theorem littered_reached : littered.Reach := .of_play .start (Option.some_get litteredRun_plays).symm

/-- The destructor of node 2 pins, retires node 5 and drops its guard; that of node 1 does nothing. -/
def firstFlush : List (Move Nat Nat) :=
  [.step, .step, .step, .pin 1, .step, .step, .retire 5 1, .step, .unpin ⟨0, 0, false⟩, .step, .step]

/-- The destructor of node 3 retires node 6 and flushes, which destroys node 5; that of node 4 does nothing. -/
def secondFlush : List (Move Nat Nat) :=
  [.step, .step, .step, .retire 6 1, .step, .flush 1, .step, .step, .step, .step, .step, .step]

theorem firstFlush_plays : (playFlush 0 littered (littered.flush 0 0) firstFlush).isSome = true := by decide +kernel

def tidied : Domain Nat Nat := (playFlush 0 littered (littered.flush 0 0) firstFlush).get firstFlush_plays

theorem secondFlush_plays : (playFlush 0 tidied (tidied.flush 0 0) secondFlush).isSome = true := by decide +kernel

def cleaned : Domain Nat Nat := (playFlush 0 tidied (tidied.flush 0 0) secondFlush).get secondFlush_plays

theorem tidied_flushed : Flushes 0 littered tidied where
  run := .of_play (.call 0 (by decide +kernel)) (Option.some_get firstFlush_plays).symm
  returned := (List.isEmpty_iff.mp (by decide +kernel)).trans (List.isEmpty_iff.mp (by decide +kernel)).symm
  dropped := by decide +kernel

theorem cleaned_flushed : Flushes 0 tidied cleaned where
  run := .of_play (.call 0 (by decide +kernel)) (Option.some_get secondFlush_plays).symm
  returned := (List.isEmpty_iff.mp (by decide +kernel)).trans (List.isEmpty_iff.mp (by decide +kernel)).symm
  dropped := by decide +kernel

/-- The first flush destroys nodes 1 and 2, the second one nodes 3 and 4. -/
theorem two_flushes_at_littered : (∀ tid, (littered.registry.slot tid).epoch = quiescent) ∧
    (littered.thread 0).batch ++ Bag.contents ((littered.thread 0).bags ++ littered.orphans) = [3, 2, 1, 4] ∧
    tidied.frees = [2, 1] ∧ cleaned.frees = [2, 1, 3, 5, 4] ∧ ¬ cleaned.wrapped ∧
    ∀ n ∈ [3, 2, 1, 4], .freed n ∉ littered.trace ∧ .freed n ∈ cleaned.trace := by
  have hquiet := Registry.quiet_of_slots (r := littered.registry) (by decide +kernel)
  have hw : ¬ cleaned.wrapped :=
    (cleaned_flushed.run.reach (tidied_flushed.run.reach littered_reached)).not_wrapped_of_size (by decide +kernel)
  have hlist : (littered.thread 0).batch ++ Bag.contents ((littered.thread 0).bags ++ littered.orphans) =
    [3, 2, 1, 4] := by decide +kernel
  refine ⟨hquiet, hlist, by decide +kernel, by decide +kernel, hw, fun n hn => ?_⟩
  have hboth := (Reach.two_flushes littered_reached hquiet).2 tidied tidied_flushed
  exact hboth.2 cleaned cleaned_flushed hw n (hlist ▸ hn)

end Domain

end EpochQueue.Reclaim
