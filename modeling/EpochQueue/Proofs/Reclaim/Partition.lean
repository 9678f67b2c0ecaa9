/-
  EpochQueue.Proofs.Reclaim.Partition — a collection parts the bags and keeps their order.

  A thread with a handle turns its bags and the orphans round once and keeps what has not expired;
  a thread without one splits the orphans and puts back what has not expired. Both go by the epoch
  that the attempt to advance left behind, and both have taken out every expired bag before the
  first destructor runs (`Collects`). From there the nodes taken out are destroyed in their order,
  whatever the destructors and other threads do in between, and the call answers how many they were
  (`Clears`, by way of `Destroys.calls`).

  In a bag the node that was retired last comes first (`Reach.stacked`).

  So a flush that finds nothing of its own does the same on both ways: the steps signal the same, and
  the same bags are left, in the handle or among the orphans (`partitions`).
-/

import EpochQueue.Proofs.Reclaim.TwoFlushes

namespace EpochQueue.Reclaim

variable {ν κ : Type}

/-! ## Bags are stacks -/

namespace Hoard

/-- In the batch and in each of the bags the node retired last comes first. -/
structure Stacked (h : Hoard ν) (retired : List ν) : Prop where
  batch : h.batch.reverse.Sublist retired
  bags : ∀ b ∈ h.bags, b.nodes.reverse.Sublist retired

variable {h : Hoard ν} {rs : List ν}

theorem stacked_empty (rs : List ν) : ({} : Hoard ν).Stacked rs := ⟨List.nil_sublist rs, nofun⟩

theorem Stacked.mono (hs : h.Stacked rs) (ns : List ν) : h.Stacked (rs ++ ns) :=
  ⟨hs.batch.trans (List.sublist_append_left rs ns), fun b hb => (hs.bags b hb).trans (List.sublist_append_left rs ns)⟩

theorem Stacked.add (hs : h.Stacked rs) (n : ν) : (h.add n).Stacked (rs ++ [n]) := by
  refine ⟨?_, (hs.mono [n]).bags⟩
  show (n :: h.batch).reverse.Sublist (rs ++ [n])
  rw [List.reverse_cons]
  exact hs.batch.append (List.Sublist.refl [n])

theorem Stacked.sealed (hs : h.Stacked rs) (e : Epoch) : (h.sealed e).Stacked rs := by
  unfold Hoard.sealed
  split
  · exact hs
  · refine ⟨List.nil_sublist rs, ?_⟩
    intro b hb
    rcases List.mem_append.mp hb with hb | hb
    · exact hs.bags b hb
    · rw [List.mem_singleton.mp hb]
      exact hs.batch

end Hoard

namespace Domain

variable {d d' e : Domain ν κ} {t u : Nat} {k : κ} {p : Purpose} {rest : List (Call ν κ)} {ns todo : List ν}

/-- All that waits lies as it was retired. -/
structure Stacked (d : Domain ν κ) : Prop where
  hoard : ∀ t, (d.thread t).hoard.Stacked d.retirements
  orphans : ∀ b ∈ d.orphans, b.nodes.reverse.Sublist d.retirements

theorem Stacked.pool (hs : d.Stacked) (t : Nat) : ∀ b ∈ d.pool t, b.nodes.reverse.Sublist d.retirements := by
  intro b hb
  rcases List.mem_append.mp hb with hb | hb
  · exact (hs.hoard t).bags b (Thread.bags_hoard (d.thread t) ▸ hb)
  · exact hs.orphans b hb

theorem Handled.stacked {x : Option (Notice ν)} (h : Handled d t d' x) (ht : Turn d t x d') (hs : d.Stacked) :
    d'.Stacked := by
  have hret := ht.retirements_append
  generalize hns : (x.bind (·.retired?)).toList = ns at hret
  -- what stays where it is stays in order, so it is enough to look at the thread that moves
  have key : (d'.thread t).hoard.Stacked d'.retirements →
      (∀ b ∈ d'.orphans, b ∈ d.orphans ∨ b.nodes.reverse.Sublist d'.retirements) → d'.Stacked := by
    intro hmine horphans
    refine ⟨fun u => ?_, fun b hb => ?_⟩
    · by_cases hu : u = t
      · exact hu ▸ hmine
      · rw [ht.others u hu, hret]
        exact (hs.hoard u).mono ns
    · refine (horphans b hb).elim (fun hb => ?_) id
      rw [hret]
      exact (hs.orphans b hb).trans (List.sublist_append_left _ ns)
  have hmine := hs.hoard t
  have hkept := hret ▸ hmine.mono ns
  cases h with
  | kept hx hoard orphans todo =>
    exact key (hoard ▸ hkept) fun b hb => Or.inl (orphans ▸ hb)
  | batched n room hoard orphans todo =>
    subst hns
    exact key (hoard ▸ hret ▸ hmine.add n) fun b hb => Or.inl (orphans ▸ hb)
  | filled n full hoard orphans todo =>
    subst hns
    exact key (hoard ▸ hret ▸ (hmine.add n).sealed _) fun b hb => Or.inl (orphans ▸ hb)
  | cast n hoard orphans todo =>
    subst hns
    refine key (hoard ▸ hkept) fun b hb => ?_
    rw [orphans] at hb
    refine (List.mem_append.mp hb).imp_right fun hb => ?_
    rw [List.mem_singleton.mp hb, hret]
    exact List.sublist_append_right _ [n]
  | sealed hoard orphans todo =>
    exact key (hoard ▸ hkept.sealed _) fun b hb => Or.inl (orphans ▸ hb)
  | left hoard orphans todo =>
    refine key (hoard ▸ Hoard.stacked_empty _) fun b hb => ?_
    rw [orphans] at hb
    exact (List.mem_append.mp hb).imp_right ((hkept.sealed _).bags b)
  | sorted g batch batchLen pool todo =>
    have hpool : ∀ b ∈ d'.pool t, b.nodes.reverse.Sublist d'.retirements := by
      intro b hb
      rw [pool] at hb
      rw [hret]
      exact (hs.pool t b (List.mem_filter.mp hb).1).trans (List.sublist_append_left _ ns)
    refine key ⟨batch ▸ hkept.batch, fun b hb => ?_⟩ fun b hb => Or.inr (hpool b (List.mem_append_right _ hb))
    exact hpool b (List.mem_append_left _ (Thread.bags_hoard (d'.thread t) ▸ hb))
  | destroyed n hoard orphans todo =>
    exact key (hoard ▸ hkept) fun b hb => Or.inl (orphans ▸ hb)

theorem Reach.stacked (h : d.Reach) : d.Stacked := by
  induction h with
  | start => exact ⟨fun t => Hoard.stacked_empty _, nofun⟩
  | move t m hr hm ih =>
    obtain ⟨x, ht, hh⟩ := hr.owned.handled hm
    exact hh.stacked ht ih

/-! ## Steps of one thread alone -/

/-- What the next `j` steps of `t` signal. -/
def signals (d : Domain ν κ) (t : Nat) : Nat → List (Signal ν κ)
  | 0 => []
  | j + 1 => (d.step t).2 :: (d.step t).1.signals t j

theorem steps_add (d : Domain ν κ) (t i j : Nat) : d.steps t (i + j) = (d.steps t i).steps t j := by
  induction i generalizing d with
  | zero => rw [Nat.zero_add]; rfl
  | succ i ih => rw [Nat.add_right_comm]; exact ih _

theorem signals_add (d : Domain ν κ) (t i j : Nat) :
    d.signals t (i + j) = d.signals t i ++ (d.steps t i).signals t j := by
  induction i generalizing d with
  | zero => rw [Nat.zero_add]; rfl
  | succ i ih => rw [Nat.add_right_comm]; exact congrArg _ (ih _)

theorem answer_returns (d : Domain ν κ) (t : Nat) (k : κ) (p : Purpose) (n : Nat) :
    ∃ a, (d.answer t k p n).2 = .returned k a := by
  cases p <;> exact ⟨_, rfl⟩

/-- The next step of a call that destroys. -/
theorem step_free {n : ν} {freed : Nat} (hc : (d.thread t).calls = ⟨k, .free p (n :: todo) freed⟩ :: rest) :
    (d.step t).2 = .freed n ∧ (d.step t).1.registry = d.registry ∧ (d.step t).1.orphans = d.orphans ∧
      (d.step t).1.thread t = { d.thread t with calls := ⟨k, .free p todo (freed + 1)⟩ :: rest } := by
  rw [step_eq hc]
  refine ⟨rfl, rfl, rfl, ?_⟩
  rw [thread_free hc, if_pos rfl]

/-- A call with nothing left to destroy answers. -/
theorem step_last {freed : Nat} (hc : (d.thread t).calls = ⟨k, .free p [] freed⟩ :: rest) :
    d.step t = d.answer t k p freed := step_eq hc

/-- What `t` does by itself while it destroys. -/
theorem steps_free (todo : List ν) : ∀ {d : Domain ν κ} {freed : Nat},
    (d.thread t).calls = ⟨k, .free p todo freed⟩ :: rest →
      d.signals t todo.length = todo.map .freed ∧ (d.steps t todo.length).registry = d.registry ∧
      (d.steps t todo.length).orphans = d.orphans ∧ (d.steps t todo.length).thread t =
        { d.thread t with calls := ⟨k, .free p [] (freed + todo.length)⟩ :: rest } := by
  induction todo with
  | nil =>
    intro d freed hc
    refine ⟨rfl, rfl, rfl, ?_⟩
    show d.thread t = _
    rw [List.length_nil, Nat.add_zero, ← hc]
  | cons n todo ih =>
    intro d freed hc
    obtain ⟨hsignal, hregistry, horphans, hthread⟩ := step_free hc
    have hc' : ((d.step t).1.thread t).calls = ⟨k, .free p todo (freed + 1)⟩ :: rest := by
      rw [hthread]
    obtain ⟨hsignals, hregistry', horphans', hthread'⟩ := ih hc'
    refine ⟨?_, hregistry'.trans hregistry, horphans'.trans horphans, ?_⟩
    · rw [List.length_cons, signals, hsignal, hsignals, List.map_cons]
    · rw [List.length_cons, steps, hthread', hthread, Nat.add_right_comm, Nat.add_assoc]

/-! ## A call that destroys, from its first node to its answer -/

/-- The call of `t` that stands on `rest` has destroyed `ns` since `d`. Between its own steps the
    destructors and the other threads have made any moves. -/
inductive Destroys (t : Nat) (rest : List (Call ν κ)) (d : Domain ν κ) : List ν → Domain ν κ → Prop
  | start : Destroys t rest d [] d
  | own {ns : List ν} {e : Domain ν κ} {n : ν} : Destroys t rest d ns e →
      (e.thread t).calls.length = rest.length + 1 → (e.step t).2 = .freed n → Destroys t rest d (ns ++ [n]) (e.step t).1
  | aside {ns : List ν} {e : Domain ν κ} (u : Nat) (m : Move ν κ) : Destroys t rest d ns e → e.may u m →
      (u = t → m = .step → rest.length + 1 < (e.thread t).calls.length) → Destroys t rest d ns (e.move u m)

/-- A call that is innermost has nothing above it. -/
theorem nil_of_innermost {above calls : List (Call ν κ)} {c : Call ν κ} (hcalls : calls = above ++ c :: rest)
    (hlen : calls.length = rest.length + 1) : above = [] := by
  rw [hcalls, List.length_append, List.length_cons] at hlen
  exact List.length_eq_zero_iff.mp (by omega)

/-- However far it has come, the call has the rest of its nodes before it. -/
theorem Destroys.calls (h : Destroys t rest d ns e) (hc : (d.thread t).calls = ⟨k, .free p todo 0⟩ :: rest) :
    ∃ left above, ns ++ left = todo ∧ (e.thread t).calls = above ++ ⟨k, .free p left ns.length⟩ :: rest := by
  induction h with
  | start => exact ⟨todo, [], rfl, hc⟩
  | @own ns e n _ htop hfreed ih =>
    obtain ⟨left, above, hleft, hcalls⟩ := ih
    obtain rfl := nil_of_innermost hcalls htop
    cases left with
    | nil =>
      obtain ⟨a, ha⟩ := answer_returns e t k p ns.length
      rw [step_last hcalls, ha] at hfreed
      cases hfreed
    | cons n' left =>
      obtain ⟨hsignal, -, -, hthread⟩ := step_free hcalls
      rw [hsignal] at hfreed
      cases hfreed
      refine ⟨left, [], ?_, ?_⟩
      · rw [List.append_assoc]
        exact hleft
      · rw [hthread, List.length_append]
        rfl
  | @aside ns e u m _ hm hnot ih =>
    obtain ⟨left, above, hleft, hcalls⟩ := ih
    suffices hsuffix : ⟨k, .free p left ns.length⟩ :: rest <:+ ((e.move u m).thread t).calls by
      obtain ⟨above', h⟩ := hsuffix
      exact ⟨left, above', hleft, h.symm⟩
    by_cases hu : u = t
    · subst hu
      have hbelow : ⟨k, .free p left ns.length⟩ :: rest <:+ (e.thread u).calls := ⟨above, hcalls.symm⟩
      by_cases hstep : m = .step
      · -- a step belongs to a call further in
        have hdeep := hnot rfl hstep
        obtain ⟨c, above', rfl⟩ : ∃ c above', above = c :: above' := by
          refine List.exists_cons_of_ne_nil ?_
          rintro rfl
          rw [hcalls] at hdeep
          exact Nat.lt_irrefl _ hdeep
        exact (List.suffix_append above' _).trans (suffix_move hcalls m)
      · exact hbelow.trans (suffix_of_ne_step hstep)
    · rw [thread_move_of_ne (Ne.symm hu)]
      exact ⟨above, hcalls.symm⟩

/-- The innermost call of `t` in `d` stands on `rest` and is about to destroy `todo`, and so it does. -/
structure Clears (d : Domain ν κ) (t : Nat) (k : κ) (p : Purpose) (rest : List (Call ν κ)) (todo : List ν) : Prop where
  calls : (d.thread t).calls = ⟨k, .free p todo 0⟩ :: rest
  /-- What it has destroyed at any time are the first of these nodes, in order, and it is still open. -/
  order : ∀ ns e, Destroys t rest d ns e → ns <+: todo ∧ rest.length < (e.thread t).calls.length
  /-- While nothing is under way in a destructor, its step destroys the next of them. -/
  next : ∀ ns e n left, Destroys t rest d ns e → (e.thread t).calls.length = rest.length + 1 →
    ns ++ n :: left = todo → (e.step t).2 = .freed n
  /-- When it has destroyed them all it answers how many they were. -/
  last : ∀ e, Destroys t rest d todo e → (e.thread t).calls.length = rest.length + 1 →
    e.step t = e.answer t k p todo.length
  /-- If nobody else moves and the destructors call nothing, it comes to that by its own steps. -/
  alone : d.signals t (todo.length + 1) =
    todo.map .freed ++ [((d.steps t todo.length).answer t k p todo.length).2]

theorem clears (hc : (d.thread t).calls = ⟨k, .free p todo 0⟩ :: rest) : d.Clears t k p rest todo := by
  -- when it is innermost, the call stands right on `rest`
  have htop : ∀ {ns e}, Destroys t rest d ns e → (e.thread t).calls.length = rest.length + 1 →
      ∃ left, ns ++ left = todo ∧ (e.thread t).calls = ⟨k, .free p left ns.length⟩ :: rest := by
    intro ns e h hlen
    obtain ⟨left, above, hleft, hcalls⟩ := h.calls hc
    obtain rfl := nil_of_innermost hcalls hlen
    exact ⟨left, hleft, hcalls⟩
  constructor
  case calls => exact hc
  case order =>
    intro ns e h
    obtain ⟨left, above, hleft, hcalls⟩ := h.calls hc
    refine ⟨⟨left, hleft⟩, ?_⟩
    rw [hcalls, List.length_append, List.length_cons]
    omega
  case next =>
    intro ns e n left h hlen hleft
    obtain ⟨left', hleft', hcalls⟩ := htop h hlen
    obtain rfl : left' = n :: left := List.append_cancel_left (hleft'.trans hleft.symm)
    exact (step_free hcalls).1
  case last =>
    intro e h hlen
    obtain ⟨left, hleft, hcalls⟩ := htop h hlen
    obtain rfl : left = [] := List.append_right_eq_self.mp hleft
    exact step_last hcalls
  case alone =>
    obtain ⟨hsignals, -, -, hthread⟩ := steps_free todo hc
    rw [signals_add, hsignals]
    refine congrArg (_ ++ [·]) ?_
    rw [step_last (congrArg Thread.calls hthread), Nat.zero_add]

/-! ## A collection -/

/-- A collection that is about to begin as the innermost call of `t` in `d`: in two steps it takes
    those of `bags` that have expired, and then it destroys what they hold. -/
structure Collects (d : Domain ν κ) (t : Nat) (k : κ) (p : Purpose) (rest : List (Call ν κ))
    (bags : List (Bag ν)) : Prop where
  begins : d.signals t 2 = [.quiet, .quiet]
  registry : (d.steps t 2).registry = d.registry.tryAdvance.2
  others : ∀ u, u ≠ t → (d.steps t 2).thread u = d.thread u
  clears : (d.steps t 2).Clears t k p rest (Bag.contents (bags.filter (·.isExpired d.registry.tryAdvance.1)))

/-- The two steps of a collection before it destroys. -/
theorem steps_select (hc : (d.thread t).calls = ⟨k, .advance p⟩ :: rest) :
    d.signals t 2 = [.quiet, .quiet] ∧ d.steps t 2 = (d.advance t p).select t p d.registry.tryAdvance.1 ∧
    ((d.advance t p).thread t) = { d.thread t with calls := ⟨k, .select p d.registry.tryAdvance.1⟩ :: rest } := by
  have hadvanced : d.registry.tryAdvance.1 = d.registry.advanced := congrArg Prod.fst d.registry.tryAdvance_eq
  rw [hadvanced]
  have hthread := thread_advance hc p t
  rw [if_pos rfl] at hthread
  have hfirst : d.step t = (d.advance t p, .quiet) := step_eq hc
  have hsecond : (d.advance t p).step t = ((d.advance t p).select t p d.registry.advanced, .quiet) :=
    step_eq (congrArg Thread.calls hthread)
  refine ⟨?_, ?_, hthread⟩
  · simp only [signals, hfirst, hsecond]
  · simp only [steps, hfirst, hsecond]

theorem handle?_advance (hc : (d.thread t).calls = ⟨k, .advance p⟩ :: rest) :
    (d.advance t p).handle? t = d.handle? t := by
  rw [handle?_eq, handle?_eq, (steps_select hc).2.2]

theorem pool_advance (hc : (d.thread t).calls = ⟨k, .advance p⟩ :: rest) : (d.advance t p).pool t = d.pool t := by
  rw [pool, (steps_select hc).2.2, (advance_frame d t p).2.1]
  rfl

theorem pool_of_handle {h : Handle ν} (hh : d.handle? t = some h) : d.pool t = h.bags ++ d.orphans := by
  rw [pool, Thread.bags_of_handle (handle?_eq d t ▸ hh)]

theorem pool_of_gone (hh : d.handle? t = none) : d.pool t = d.orphans := by
  have hbags : (d.thread t).bags = [] := Thread.bags_of_gone (handle?_eq d t ▸ hh)
  rw [pool, hbags, List.nil_append]

/-- Whether the thread has a handle or not. -/
theorem collects (hc : (d.thread t).calls = ⟨k, .advance p⟩ :: rest) : d.Collects t k p rest (d.pool t) := by
  obtain ⟨hsignals, hsteps, hthread⟩ := steps_select hc
  refine ⟨hsignals, ?_, ?_, clears ?_⟩
  · rw [hsteps, (select_frame _ t p _).1, (advance_frame d t p).1, d.registry.tryAdvance_eq]
  · intro u hu
    show ((d.step t).1.step t).1.thread u = _
    rw [thread_step_of_ne hu, thread_step_of_ne hu]
  · obtain ⟨-, -, -, hcalls⟩ := select_sorts (congrArg Thread.calls hthread) p d.registry.tryAdvance.1
    rw [hsteps, hcalls, pool_advance hc]

theorem collects_of_handle {h : Handle ν} (hc : (d.thread t).calls = ⟨k, .advance p⟩ :: rest)
    (hh : d.handle? t = some h) : d.Collects t k p rest (h.bags ++ d.orphans) ∧ (d.steps t 2).handle? t = some { h with
      bags := (h.bags ++ d.orphans).filter (!·.isExpired d.registry.tryAdvance.1) } ∧ (d.steps t 2).orphans = [] := by
  obtain ⟨-, hsteps, hthread⟩ := steps_select hc
  have hh' := (handle?_advance hc).trans hh
  have hselect := thread_select_of_handle (congrArg Thread.calls hthread) hh' p d.registry.tryAdvance.1 t
  rw [if_pos rfl, pool_advance hc, pool_of_handle hh] at hselect
  refine ⟨pool_of_handle hh ▸ collects hc, ?_, ?_⟩
  · rw [hsteps, handle?_eq, hselect]
    rfl
  · rw [hsteps, orphans_select_of_handle hh']

theorem collects_of_gone (hc : (d.thread t).calls = ⟨k, .advance p⟩ :: rest) (hh : d.handle? t = none) :
    d.Collects t k p rest d.orphans ∧ (d.steps t 2).handle? t = none ∧
      (d.steps t 2).orphans = d.orphans.filter (!·.isExpired d.registry.tryAdvance.1) := by
  obtain ⟨-, hsteps, hthread⟩ := steps_select hc
  have hh' := (handle?_advance hc).trans hh
  have hselect := thread_select_of_gone (congrArg Thread.calls hthread) hh' p d.registry.tryAdvance.1 t
  rw [if_pos rfl] at hselect
  refine ⟨pool_of_gone hh ▸ collects hc, ?_, ?_⟩
  · calc (d.steps t 2).handle? t = (d.advance t p).handle? t := by
          rw [hsteps, handle?_eq, hselect, handle?_eq]
      _ = none := hh'
  · rw [hsteps, orphans_select_of_gone hh', pool_advance hc, pool_of_gone hh]

/-! ## A flush that runs by itself -/

theorem frees_steps (d : Domain ν κ) (t j : Nat) :
    (d.steps t j).frees = d.frees ++ (d.signals t j).filterMap (·.freed?) := by
  induction j generalizing d with
  | zero => exact (List.append_nil _).symm
  | succ j ih =>
    rw [steps, ih, (step_books d t).2, signals, List.filterMap_cons, List.append_assoc]
    cases (d.step t).2.freed? <;> rfl

/-- A flush that `t` opens in `d` destroys `ns` and answers how many they were, if nobody else moves
    and no destructor calls anything; then it has come to `d'`. -/
structure FlushesAlone (d : Domain ν κ) (t : Nat) (k : κ) (ns : List ν) (d' : Domain ν κ) : Prop where
  signals : (d.flush t k).signals t (ns.length + 3) =
    [.quiet, .quiet] ++ ns.map .freed ++ [.returned k (.flushed ns.length)]
  comes : (d.flush t k).steps t (ns.length + 3) = d'
  frees : d'.frees = d.frees ++ ns
  calls : (d'.thread t).calls = (d.thread t).calls

/-- What has been sorted out in the first two steps stays so until the flush returns. -/
theorem Collects.flushesAlone {bags : List (Bag ν)} (h : (d.flush t k).Collects t k .flush (d.thread t).calls bags) :
    ∃ e, FlushesAlone d t k (Bag.contents (bags.filter (·.isExpired d.registry.tryAdvance.1))) e ∧
      e.handle? t = ((d.flush t k).steps t 2).handle? t ∧ e.orphans = ((d.flush t k).steps t 2).orphans ∧
      e.registry = d.registry.tryAdvance.2 := by
  obtain ⟨hreg₀, -, -, hstory₀⟩ := flush_frame d t k
  obtain ⟨hbegins, hregistry, -, hclears⟩ := h
  rw [hreg₀] at hclears hregistry
  generalize hns : Bag.contents (bags.filter (·.isExpired d.registry.tryAdvance.1)) = ns at hclears ⊢
  obtain ⟨-, hreg, horphans, hthread⟩ := steps_free ns hclears.calls
  have halone := hclears.alone
  -- the last step answers
  have hlast := step_last (congrArg Thread.calls hthread)
  rw [Nat.zero_add] at hlast
  have hcomes : (d.flush t k).steps t (ns.length + 3) =
      ((((d.flush t k).steps t 2).steps t ns.length).answer t k .flush ns.length).1 := by
    rw [show ns.length + 3 = 2 + (ns.length + 1) by omega, steps_add, steps_add, steps, hlast]
    rfl
  have hsignals : (d.flush t k).signals t (ns.length + 3) =
      [.quiet, .quiet] ++ ns.map .freed ++ [.returned k (.flushed ns.length)] := by
    rw [show ns.length + 3 = 2 + (ns.length + 1) by omega, signals_add, hbegins, halone, List.append_assoc]
    rfl
  generalize ((d.flush t k).steps t 2).steps t ns.length = e at hreg horphans hthread hcomes
  have hanswer := thread_answer_of_pin?_none e t k ns.length (p := .flush) rfl t
  rw [if_pos rfl, hthread] at hanswer
  obtain ⟨hreg', horphans', -, -⟩ := answer_frame_of_pin?_none e t k ns.length (p := .flush) rfl
  refine ⟨_, ⟨hsignals, hcomes, ?_, ?_⟩, ?_, ?_, ?_⟩
  · rw [← hcomes, frees_steps, hsignals, frees_eq, hstory₀, ← frees_eq]
    simp [Signal.freed?, List.filterMap_map]
  · rw [hanswer]
    rfl
  · rw [handle?_eq, hanswer, handle?_eq]
  · rw [horphans', horphans]
  · rw [hreg', hreg, hregistry]

/-- Collections in `d` by `t`, and its flushes when it has nothing of its own. -/
structure Partitions (d : Domain ν κ) (t : Nat) : Prop where
  /-- With a handle it takes the expired ones of its own bags and then of the orphans. The others are
      its bags when the first destructor runs, in the same order, and there are no orphans. -/
  handle : ∀ k p rest h, (d.thread t).calls = ⟨k, .advance p⟩ :: rest → d.handle? t = some h →
    d.Collects t k p rest (h.bags ++ d.orphans) ∧ (d.steps t 2).handle? t = some { h with
      bags := (h.bags ++ d.orphans).filter (!·.isExpired d.registry.tryAdvance.1) } ∧ (d.steps t 2).orphans = []
  /-- Without one it takes the expired orphans. The others are the orphans when the first destructor
      runs, in the same order. -/
  gone : ∀ k p rest, (d.thread t).calls = ⟨k, .advance p⟩ :: rest → d.handle? t = none →
    d.Collects t k p rest d.orphans ∧ (d.steps t 2).handle? t = none ∧
      (d.steps t 2).orphans = d.orphans.filter (!·.isExpired d.registry.tryAdvance.1)
  /-- Each of these bags has as many nodes as it says, the one retired last at the front. -/
  newestFirst : d.Reach → ∀ b ∈ d.pool t, b.len = b.nodes.length ∧ b.nodes.reverse.Sublist d.retirements
  /-- By a handle with nothing in it or by a thread without one, on the same slots and orphans: a flush
      that runs by itself destroys the same, answers the same and leaves the same bags. -/
  alike : ∀ h d' u k, d.handle? t = some h → h.batchLen = 0 → h.bags = [] →
    d'.handle? u = none → d'.registry = d.registry → d'.orphans = d.orphans →
      ∃ e e', FlushesAlone d t k (Bag.contents (d.orphans.filter (·.isExpired d.registry.tryAdvance.1))) e ∧
        FlushesAlone d' u k (Bag.contents (d.orphans.filter (·.isExpired d.registry.tryAdvance.1))) e' ∧
        e.handle? t = some { h with bags := e'.orphans } ∧ e.orphans = [] ∧ e'.handle? u = none ∧
        e'.orphans = d.orphans.filter (!·.isExpired d.registry.tryAdvance.1) ∧ e.registry = e'.registry

/-- With a handle that has nothing in it. -/
theorem flushesAlone_of_handle {h : Handle ν} (hh : d.handle? t = some h) (hlen : h.batchLen = 0)
    (hbags : h.bags = []) (k : κ) :
    ∃ e, FlushesAlone d t k (Bag.contents (d.orphans.filter (·.isExpired d.registry.tryAdvance.1))) e ∧
      e.handle? t = some { h with bags := d.orphans.filter (!·.isExpired d.registry.tryAdvance.1) } ∧
      e.orphans = [] ∧ e.registry = d.registry.tryAdvance.2 := by
  obtain ⟨hreg, horphans, -, -⟩ := flush_frame d t k
  have hseal : h.sealBatch d.registry.epoch = h := by
    rw [Handle.sealBatch, if_pos hlen]
  have hh₀ : (d.flush t k).handle? t = some h := by
    rw [(flush_hoard d t k).2, hh, Option.map_some, hseal]
  obtain ⟨hcollects, hkept, hnone⟩ := collects_of_handle (flush_opens d t k).1 hh₀
  rw [hbags, List.nil_append, horphans, hreg] at hkept
  rw [hbags, List.nil_append, horphans] at hcollects
  obtain ⟨e, halone, hhandle, hleft, hregistry⟩ := hcollects.flushesAlone
  exact ⟨e, halone, hhandle.trans hkept, hleft.trans hnone, hregistry⟩

theorem flushesAlone_of_gone (hh : d.handle? t = none) (k : κ) :
    ∃ e, FlushesAlone d t k (Bag.contents (d.orphans.filter (·.isExpired d.registry.tryAdvance.1))) e ∧
      e.handle? t = none ∧ e.orphans = d.orphans.filter (!·.isExpired d.registry.tryAdvance.1) ∧
      e.registry = d.registry.tryAdvance.2 := by
  obtain ⟨hreg, horphans, -, -⟩ := flush_frame d t k
  have hh₀ : (d.flush t k).handle? t = none := by
    rw [(flush_hoard d t k).2, hh, Option.map_none]
  obtain ⟨hcollects, hgone, hkept⟩ := collects_of_gone (flush_opens d t k).1 hh₀
  rw [horphans, hreg] at hkept
  rw [horphans] at hcollects
  obtain ⟨e, halone, hhandle, hleft, hregistry⟩ := hcollects.flushesAlone
  exact ⟨e, halone, hhandle.trans hgone, hleft.trans hkept, hregistry⟩

/-- Collecting parts the bags and keeps their order, and it does so in the same way with a handle and
    without one. -/
theorem partitions (d : Domain ν κ) (t : Nat) : d.Partitions t where
  handle _ _ _ _ hc hh := collects_of_handle hc hh
  gone _ _ _ hc hh := collects_of_gone hc hh
  newestFirst hr b hb := ⟨(hr.neat.pool b hb).len_eq, hr.stacked.pool t b hb⟩
  alike h d' u k hh hlen hbags hh' hreg horphans := by
    obtain ⟨e, halone, hhandle, hnone, hregistry⟩ := flushesAlone_of_handle hh hlen hbags k
    obtain ⟨e', halone', hgone, hleft, hregistry'⟩ := flushesAlone_of_gone hh' k
    rw [hreg, horphans] at halone' hleft
    rw [hreg] at hregistry'
    exact ⟨e, e', halone, halone', hleft ▸ hhandle, hnone, hgone, hleft, hregistry.trans hregistry'.symm⟩

deriving instance DecidableEq for Call

/-- Thread 1 exits with nothing. Thread 4 keeps node 6 through a flush, thread 2 retires nodes 1 and 2
    and exits, thread 1 flushes, thread 3 retires node 3 and exits. Then thread 4 retires nodes 4 and 5
    and opens a flush, and thread 0 gets a handle. -/
def mixedRun : List (Nat × Move Nat Nat) :=
  [(1, .pending), (1, .exit), (4, .retire 6 0), (4, .step), (4, .flush 0), (4, .step), (4, .step), (4, .step),
    (2, .retire 1 0), (2, .step), (2, .retire 2 0), (2, .step), (2, .exit), (1, .flush 0), (1, .step), (1, .step),
    (1, .step), (3, .retire 3 0), (3, .step), (3, .exit), (4, .retire 4 0), (4, .step), (4, .retire 5 0), (4, .step),
    (4, .flush 0), (0, .pending)]

theorem mixedRun_plays : (({} : Domain Nat Nat).play mixedRun).isSome = true := by decide +kernel

def mixed : Domain Nat Nat := (({} : Domain Nat Nat).play mixedRun).get mixedRun_plays

theorem mixed_reached : mixed.Reach := .of_play .start (Option.some_get mixedRun_plays).symm

/-- Thread 4 destroys nodes 6, 2 and 1, or thread 1 does, if it flushes instead, nodes 2 and 1. Thread 0
    would do as thread 1. -/
theorem partitions_of_mixed :
    mixed.Collects 4 0 .flush [] [⟨1, [6], 1⟩, ⟨3, [5, 4], 2⟩, ⟨2, [2, 1], 2⟩, ⟨3, [3], 1⟩] ∧
    ((mixed.steps 4 2).handle? 4).map (·.bags) = some [⟨3, [5, 4], 2⟩, ⟨3, [3], 1⟩] ∧ (mixed.steps 4 2).orphans = [] ∧
    (mixed.flush 1 0).Collects 1 0 .flush [] [⟨2, [2, 1], 2⟩, ⟨3, [3], 1⟩] ∧
    ((mixed.flush 1 0).steps 1 2).orphans = [⟨3, [3], 1⟩] ∧
    [4, 5].Sublist mixed.retirements ∧
    ∃ e e', FlushesAlone mixed 0 0 [2, 1] e ∧ FlushesAlone mixed 1 0 [2, 1] e' ∧
      (e.handle? 0).map (·.bags) = some [⟨3, [3], 1⟩] ∧ e'.orphans = [⟨3, [3], 1⟩] := by
  have horphans : mixed.orphans = [⟨2, [2, 1], 2⟩, ⟨3, [3], 1⟩] := by decide +kernel
  have htaken : Bag.contents (mixed.orphans.filter (·.isExpired mixed.registry.tryAdvance.1)) = [2, 1] := by
    decide +kernel
  have hleft : mixed.orphans.filter (!·.isExpired mixed.registry.tryAdvance.1) = [⟨3, [3], 1⟩] := by decide +kernel
  -- thread 4 is about to advance, with two bags of its own
  have hbags : (mixed.handle? 4).map (·.bags) = some [⟨1, [6], 1⟩, ⟨3, [5, 4], 2⟩] := by decide +kernel
  have hmine : ((mixed.steps 4 2).handle? 4).map (·.bags) = some [⟨3, [5, 4], 2⟩, ⟨3, [3], 1⟩] := by decide +kernel
  obtain ⟨x, hx, hxbags⟩ := Option.map_eq_some_iff.mp hbags
  obtain ⟨hcollects, -, hnone⟩ := (partitions mixed 4).handle 0 .flush [] x (by decide +kernel) hx
  rw [hxbags, horphans] at hcollects
  have hstack := ((partitions mixed 4).newestFirst mixed_reached ⟨3, [5, 4], 2⟩ (by decide +kernel)).2
  -- thread 1 has no handle
  have hgone : mixed.handle? 1 = none := Option.isNone_iff_eq_none.mp (by decide +kernel)
  obtain ⟨hreg, horph, -, -⟩ := flush_frame mixed 1 0
  obtain ⟨hcollects', -, hkept⟩ := (partitions (mixed.flush 1 0) 1).gone 0 .flush [] (by decide +kernel)
    (Option.isNone_iff_eq_none.mp (by decide +kernel))
  rw [horph, horphans] at hcollects'
  rw [horph, hreg, hleft] at hkept
  -- and thread 0 has one with nothing in it
  have hempty : (mixed.handle? 0).map (fun h => (h.batchLen, h.bags)) = some (0, []) := by decide +kernel
  obtain ⟨h, hh, hh0⟩ := Option.map_eq_some_iff.mp hempty
  obtain ⟨hlen, hnil⟩ := Prod.mk.inj hh0
  obtain ⟨e, e', halone, halone', hhandle, -, -, hwait, -⟩ :=
    (partitions mixed 0).alike h mixed 1 0 hh hlen hnil hgone rfl rfl
  rw [htaken] at halone halone'
  rw [hleft] at hwait
  refine ⟨hcollects, hmine, hnone, hcollects', hkept, hstack, e, e', halone, halone', ?_, hwait⟩
  rw [hhandle, hwait]
  rfl

end Domain

end EpochQueue.Reclaim
