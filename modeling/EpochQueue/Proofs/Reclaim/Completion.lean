/-
  EpochQueue.Proofs.Reclaim.Completion — calls that a thread brings to their end by itself.

  `Completes t n d d' a` says that `n` steps of `t` in a row, the last of which answers `a`, lead from
  `d` to `d'`. Every call that is under way completes, in as many steps as are due
  (`Reach.completes`). A flush of the last thread that is left finds no slot pinned: what it does not
  destroy is one epoch older afterwards (`Deserted.flushes`), and three of them in a row leave nothing
  (`Aged.nothing`).
-/

import EpochQueue.Proofs.Reclaim.TwoFlushes

namespace EpochQueue.Reclaim.Domain

variable {ν κ : Type} {d d' : Domain ν κ} {t n : Nat} {a : Answer}

/-- So many steps of `t`, with the answer in the last of them. -/
inductive Completes (t : Nat) : Nat → Domain ν κ → Domain ν κ → Answer → Prop
  | returned {d d' : Domain ν κ} {k : κ} {a : Answer} : d.step t = (d', .returned k a) → Completes t 1 d d' a
  | quiet {d d₁ d' : Domain ν κ} {n : Nat} {a : Answer} :
      d.step t = (d₁, .quiet) → Completes t n d₁ d' a → Completes t (n + 1) d d' a
  | freed {d d₁ d' : Domain ν κ} {n : Nat} {a : Answer} {x : ν} :
      d.step t = (d₁, .freed x) → Completes t n d₁ d' a → Completes t (n + 1) d d' a

/-- A step that is heard of is one of a call. -/
theorem follows_step {signal : Signal ν κ} (h : d.step t = (d', signal)) (hs : signal ≠ .idle) : Follows t d d' := by
  have hm : d.may t .step := fun hc => hs (by rw [step_nil hc] at h; exact (Prod.mk.inj h).2.symm)
  have hd : d.move t .step = d' := congrArg Prod.fst h
  exact hd ▸ .one hm nofun

theorem Completes.follows (h : Completes t n d d' a) : Follows t d d' := by
  induction h with
  | returned h => exact follows_step h nofun
  | quiet h _ ih => exact (follows_step h nofun).trans ih
  | freed h _ ih => exact (follows_step h nofun).trans ih

/-- A call that is under way completes, in no more steps than are due. -/
theorem Reach.completes (hr : d.Reach) {c : Call ν κ} {rest : List (Call ν κ)} (hc : (d.thread t).calls = c :: rest) :
    ∃ n d' a, n ≤ d.due t ∧ Completes t n d d' a ∧ (d'.thread t).calls = rest ∧
      (c.phase.pin? = none → (d'.thread t).guards = (d.thread t).guards) := by
  generalize hdue : d.due t = b
  induction b using Nat.strongRecOn generalizing d c with
  | ind b ih =>
    have hm : d.may t .step := by rw [may, hc]; exact List.cons_ne_nil _ _
    have hlt := hdue ▸ hr.due_step hm
    have hr' : (d.step t).1.Reach := hr.move t .step hm
    have hw := step_wanes hc
    generalize hd : d.step t = r at hlt hr' hw
    obtain ⟨d₁, signal⟩ := r
    cases hw with
    | on q hc' _ _ hpin hg _ =>
      obtain ⟨n, d', a, hn, hrun, hcalls, hguards⟩ := ih _ hlt hr' hc' rfl
      exact ⟨n + 1, d', a, by omega, .quiet hd hrun, hcalls, fun hp => (hguards (hpin.trans hp)).trans hg⟩
    | freed p x todo freed hp hc' hg _ =>
      obtain ⟨n, d', a, hn, hrun, hcalls, hguards⟩ := ih _ hlt hr' hc' rfl
      refine ⟨n + 1, d', a, by omega, .freed hd hrun, hcalls, fun hnone => (hguards ?_).trans hg⟩
      rw [hp] at hnone
      exact hnone
    | pinned g hp _ _ hc' _ _ =>
      exact ⟨1, d₁, _, by omega, .returned hd, hc', fun hnone => by rw [hp] at hnone; cases hnone⟩
    | returned a _ _ _ _ hc' hg _ => exact ⟨1, d₁, a, by omega, .returned hd, hc', fun _ => hg⟩

/-- While a flush destroys what it has taken out, nothing else becomes of the garbage. -/
theorem Completes.calm (h : Completes t n d d' a) {k : κ} {todo : List ν} {freed : Nat} {rest : List (Call ν κ)}
    (hc : (d.thread t).calls = ⟨k, .free .flush todo freed⟩ :: rest) : d'.registry = d.registry ∧
      (d'.thread t).hoard = (d.thread t).hoard ∧ d'.orphans = d.orphans := by
  induction h generalizing todo freed with
  | @returned d d' k' a h =>
    cases todo with
    | cons x todo =>
      rw [step_eq hc] at h
      cases (Prod.mk.inj h).2
    | nil =>
      rw [step_eq hc] at h
      obtain rfl : (d.answer t k .flush freed).1 = d' := congrArg Prod.fst h
      have hthread := thread_answer_of_pin?_none d t k freed (p := .flush) rfl t
      obtain ⟨hr, ho, -, -⟩ := answer_frame_of_pin?_none d t k freed (p := .flush) rfl
      rw [if_pos rfl] at hthread
      exact ⟨hr, by rw [hthread]; rfl, ho⟩
  | quiet h _ _ =>
    rw [step_eq hc] at h
    cases todo <;> cases (Prod.mk.inj h).2
  | @freed d d₁ d' n a x h _ ih =>
    cases todo with
    | nil =>
      rw [step_eq hc] at h
      cases (Prod.mk.inj h).2
    | cons x todo =>
      have hthread := thread_free hc (.free .flush todo (freed + 1)) x t
      rw [step_eq hc] at h
      obtain rfl : (d.setPhase t (.free .flush todo (freed + 1))).note (.freed x) = d₁ := congrArg Prod.fst h
      rw [if_pos rfl] at hthread
      obtain ⟨hr, hh, ho⟩ := ih (by rw [hthread])
      exact ⟨hr, hh.trans (by rw [hthread]; rfl), ho⟩

/-- A call of the last thread that makes no guard comes to its end, and then only that thread is left again. -/
theorem Deserted.completes (h : d.Deserted t) (hr : d.Reach) {m : Move ν κ} (hm : d.may t m) (hstay : m ≠ .exit)
    {c : Call ν κ} (hc : ((d.move t m).thread t).calls = [c]) (hpin : c.phase.pin? = none)
    (hg : ((d.move t m).thread t).guards = (d.thread t).guards) : ∃ n d' a, n ≤ (d.move t m).due t ∧
    Completes t n (d.move t m) d' a ∧ d'.Deserted t := by
  obtain ⟨n, d', a, hn, hrun, hrest, hkeeps⟩ := Reach.completes (hr.move t m hm) hc
  have hfollows : Follows t d d' := (Follows.one hm hstay).trans hrun.follows
  refine ⟨n, d', a, hn, hrun, fun u => ?_, fun u => ?_, hfollows.handle h.handle, fun u hu => ?_⟩
  · by_cases e : u = t
    · rw [e, hrest]
    · rw [hfollows.thread_of_ne e, h.calls u]
  · by_cases e : u = t
    · rw [e, hkeeps hpin, hg, h.guards t]
    · rw [hfollows.thread_of_ne e, h.guards u]
  · rw [hfollows.thread_of_ne hu]
    exact h.others u hu

theorem Deserted.mayCall (h : d.Deserted t) : d.mayCall t = true := by
  rw [mayCall_eq, h.calls t]
  rfl

/-- What a flush of the last thread does not destroy is one epoch older afterwards. -/
theorem Deserted.flushes (h : d.Deserted t) (hr : d.Reach) (k : κ) : ∃ n d' a, n ≤ (d.flush t k).due t ∧
    Completes t n (d.flush t k) d' a ∧ d'.Deserted t ∧ Sifted d t d' := by
  obtain ⟨hcalls, hguards⟩ := flush_opens d t k
  rw [h.calls t] at hcalls
  obtain ⟨n, d', a, hn, hrun, hdeserted⟩ :=
    h.completes hr (m := .flush k) h.mayCall nofun hcalls rfl hguards
  obtain ⟨d₁, d₂, hs₁, hs₂, hsifted, hc₂⟩ := h.sifts hr k
  refine ⟨n, d', a, hn, hrun, hdeserted, ?_⟩
  -- the first two steps are the ones that sort, and the others only destroy
  cases hrun with
  | returned h₁ => cases hs₁.symm.trans h₁
  | freed h₁ _ => cases hs₁.symm.trans h₁
  | quiet h₁ hrun =>
    cases (Prod.mk.inj (hs₁.symm.trans h₁)).1
    cases hrun with
    | returned h₂ => cases hs₂.symm.trans h₂
    | freed h₂ _ => cases hs₂.symm.trans h₂
    | quiet h₂ hrun =>
      cases (Prod.mk.inj (hs₂.symm.trans h₂)).1
      obtain ⟨hreg, hoard, horphans⟩ := hrun.calm hc₂
      exact hsifted.congr hreg hoard horphans

/-- Asking what is pending changes nothing of account. -/
theorem Deserted.asks (h : d.Deserted t) : (d.pending t).2.Deserted t ∧
    (d.pending t).2.registry = d.registry ∧ ((d.pending t).2.thread t).hoard = (d.thread t).hoard ∧
    (d.pending t).2.orphans = d.orphans ∧ (d.pending t).2.story = d.story := by
  obtain ⟨x, hx⟩ := Option.isSome_iff_exists.mp h.handle
  obtain ⟨hreg, horphans, -, hstory⟩ := pending_frame d t
  obtain ⟨hc, hg⟩ := calls_pending d t
  have hothers := fun u (hu : u ≠ t) => thread_pending_of_ne (d := d) hu
  have hthread := thread_pending_of_handle hx t
  rw [if_pos rfl] at hthread
  refine ⟨⟨fun u => ?_, fun u => ?_, ?_, fun u hu => ?_⟩, hreg, ?_, horphans, hstory⟩
  · by_cases e : u = t
    · rw [e, hc, h.calls t]
    · rw [hothers u e, h.calls u]
  · by_cases e : u = t
    · rw [e, hg, h.guards t]
    · rw [hothers u e, h.guards u]
  · rw [handle?_isSome, hthread]
    rfl
  · rw [hothers u hu]
    exact h.others u hu
  · rw [hthread, hoard_eq hx]
    exact Thread.hoard_of_handle rfl

/-! ## All others exit -/

theorem not_live_exit (d : Domain ν κ) (u : Nat) (h : Handle ν) : ((d.exit u).thread u).tenure ≠ .live h := by
  cases hh : (d.thread u).tenure with
  | live x => rw [thread_exit_of_live hh, if_pos rfl]; exact nofun
  | unused => rw [exit_of_not_live fun x e => by (rw [hh] at e; cases e), hh]; exact nofun
  | gone => rw [exit_of_not_live fun x e => by (rw [hh] at e; cases e), hh]; exact nofun

/-- Threads exit one after another, with nothing under way anywhere. -/
theorem Reach.exits (hr : d.Reach) (hcalls : ∀ u, (d.thread u).calls = []) (us : List Nat) :
    (us.foldl exit d).Reach ∧ (us.foldl exit d).story = d.story ∧ ∀ u,
      ((us.foldl exit d).thread u).calls = [] ∧ ((us.foldl exit d).thread u).guards = (d.thread u).guards ∧
      (u ∉ us → (us.foldl exit d).thread u = d.thread u) ∧
      (u ∈ us ∨ (∀ h, (d.thread u).tenure ≠ .live h) → ∀ h, ((us.foldl exit d).thread u).tenure ≠ .live h) := by
  induction us generalizing d with
  | nil =>
    exact ⟨hr, rfl, fun u => ⟨hcalls u, rfl, fun _ => rfl, fun h => h.resolve_left List.not_mem_nil⟩⟩
  | cons v us ih =>
    obtain ⟨hc, hg, hst⟩ := calls_exit d v
    have hcalls' : ∀ u, ((d.exit v).thread u).calls = [] := fun u => by
      by_cases e : u = v
      · rw [e, hc]; exact hcalls v
      · rw [thread_exit_of_ne e]; exact hcalls u
    obtain ⟨hr', hst', hall⟩ := ih (hr.move v .exit (hcalls v)) hcalls'
    refine ⟨hr', hst'.trans hst, fun u => ?_⟩
    obtain ⟨hu, hug, hkept, hgone⟩ := hall u
    by_cases e : u = v
    · subst e
      exact ⟨hu, hug.trans hg, fun h => absurd List.mem_cons_self h, fun _ => hgone (Or.inr (not_live_exit d u))⟩
    · have hsame := thread_exit_of_ne (d := d) e
      refine ⟨hu, hug.trans (congrArg Thread.guards hsame), fun h => ?_, fun h => hgone ?_⟩
      · exact (hkept fun hm => h (List.mem_cons_of_mem _ hm)).trans hsame
      · rw [show (d.move v .exit).thread u = d.thread u from hsame]
        exact h.imp_left fun hm => (List.mem_cons.mp hm).resolve_left e

/-- Once all of those below `t` have exited, only `t` is left. -/
theorem Reach.deserted_exits (hr : d.Reach) (hcalls : ∀ u, (d.thread u).calls = [])
    (hguards : ∀ u, (d.thread u).guards = []) (hunused : ∀ u, t ≤ u → (d.thread u).tenure = .unused) :
    ((List.range t).foldl exit d).Deserted t := by
  obtain ⟨-, -, hall⟩ := hr.exits hcalls (List.range t)
  refine ⟨fun u => (hall u).1, fun u => (hall u).2.1.trans (hguards u), ?_, fun u hu => ?_⟩
  · rw [handle?_isSome, (hall t).2.2.1 fun h => Nat.lt_irrefl _ (List.mem_range.mp h), hunused t (Nat.le_refl t)]
    rfl
  · refine (hall u).2.2.2 ?_
    rcases Nat.lt_or_ge u t with hlt | hge
    · exact Or.inl (List.mem_range.mpr hlt)
    · exact Or.inr fun h e => by rw [hunused u hge] at e; cases e

end EpochQueue.Reclaim.Domain
