/-
  EpochQueue.Proofs.Fifo.Linearization — every run of the queues is a run of abstract queues.

  `DeedsAgree` joins the simulation, which says what each queue holds, with the progress of every
  operation under way, so that an operation that ends has done what its outcome says, once: an
  enqueue has appended its value, a dequeue has removed the value it returns, or has last looked
  when the queue was empty. `linearizable` reads both off, for any number of threads, in any order
  of single accesses, with whole operations inside the calls of others.
-/

import EpochQueue.Proofs.Fifo.Fates
import EpochQueue.Proofs.Fifo.Progress
import EpochQueue.Proofs.Fifo.Schedules

namespace EpochQueue.Fifo

variable {α : Type}

/-! ## Runs -/

namespace Annals

/-- The operations under way on a thread with their ids. -/
def entries (a : Annals α) (t : Nat) : List (Nat × Operation α × Bool) := (a.ids t).zip (a.world.stack t)

/-- Ids tell operations apart. -/
structure Filed (a : Annals α) : Prop where
  length : ∀ t, (a.ids t).length = (a.world.stack t).length
  fresh : ∀ t, ∀ id ∈ a.ids t, id < a.nextId
  apart : Apart a.ids
  known : ∀ d ∈ a.deeds, ∀ id, d.author? = some id → id < a.nextId

/-- The deeds agree with the world: they say what every queue holds, how far every operation under way
    has come, and what every one that ended has done. -/
structure DeedsAgree (a : Annals α) : Prop extends Filed a where
  holds : ∀ q, q < a.world.store.nextQueue → Holds q a.deeds (a.world.store.values q)
  unmade : ∀ q, a.world.store.nextQueue ≤ q → Holds q a.deeds []
  progress : ∀ t, ∀ e ∈ a.entries t, Progress a.world.store a.deeds e.1 e.2.1.queue e.2.1.point.stage
  complete : ∀ id r, .ended id r ∈ a.deeds → Account id a.deeds r

variable {a : Annals α} {lay lay' : Nat → Layout} {t : Nat} {m : Move α}

theorem mem_entries {e : Nat × Operation α × Bool} (he : e ∈ a.entries t) : e.1 ∈ a.ids t ∧ e.2 ∈ a.world.stack t :=
  List.of_mem_zip he

theorem Filed.exists_entry (hf : a.Filed) {id : Nat} (h : id ∈ a.ids t) : ∃ p, (id, p) ∈ a.entries t := by
  obtain ⟨i, hi, rfl⟩ := List.getElem_of_mem h
  have hi' : i < (a.world.stack t).length := hf.length t ▸ hi
  refine ⟨(a.world.stack t)[i], List.mem_iff_getElem.mpr ⟨i, ?_, List.getElem_zip⟩⟩
  rw [entries, List.length_zip]
  exact Nat.lt_min.mpr ⟨hi, hi'⟩

theorem Filed.entries_cons (hf : a.Filed) {p : Operation α × Bool} {rest : List (Operation α × Bool)}
    (ho : a.world.stack t = p :: rest) : ∃ id ids, a.ids t = id :: ids ∧ a.entries t = (id, p) :: ids.zip rest := by
  obtain ⟨id, ids, hids⟩ : ∃ id ids, a.ids t = id :: ids := List.exists_cons_of_length_pos (by
    rw [hf.length, ho]
    exact Nat.succ_pos _)
  exact ⟨id, ids, hids, by rw [entries, hids, ho, List.zip_cons_cons]⟩

theorem move_ids_of_ne {u : Nat} (h : u ≠ t) : (a.move t m).ids u = a.ids u := if_neg h

theorem move_ids : (a.move t m).ids t = a.refile t (a.deed? t m) := if_pos rfl

theorem entries_of_ne {u : Nat} (h : u ≠ t) : (a.move t m).entries u = a.entries u := by
  unfold entries
  rw [move_ids_of_ne h, show (a.move t m).world.stack u = _ from World.stack_of_ne h m]

/-- What is left to show of a move: the ids, and what becomes of the operations of `t`. -/
theorem DeedsAgree.move (ht : a.DeedsAgree) (hw : OpsFit a.world lay) (hd : Did a.world lay t m (a.world.move t m) lay')
    (hfiled : (a.move t m).Filed)
    (hauthor : ∀ d, a.deed? t m = some d → ∀ u, u ≠ t → ∀ id ∈ a.ids u, d.author? ≠ some id)
    (hmine : ∀ e ∈ (a.move t m).entries t,
      Progress (a.move t m).world.store (a.move t m).deeds e.1 e.2.1.queue e.2.1.point.stage)
    (hcomplete : ∀ id r, .ended id r ∈ (a.move t m).deeds → Account id (a.move t m).deeds r) :
    (a.move t m).DeedsAgree := by
  have hw' : OpsFit (a.world.move t m) lay' := hd.opsFit hw fun u e => World.stack_of_ne e m
  refine { hfiled with
    holds := fun q hq => ?_
    unmade := fun q hq => ?_
    progress := fun u e he => ?_
    complete := hcomplete }
  · rcases Nat.lt_or_ge q a.world.store.nextQueue with h | h
    · exact (hd.alters hw h _ _).holds (ht.holds q h)
    · have hh : Holds q (a.move t m).deeds [] := (Altered.same fun x => hd.unmade hw h _ _).holds (ht.unmade q h)
      have hl := hw'.laid q hq
      rw [(hd.queue_new hq h).1] at hl
      rwa [show (a.move t m).world.store.values _ = [] from hl.values_nil (Nat.le_refl _)]
  · rcases Nat.lt_or_ge q a.world.store.nextQueue with h | h
    · exact absurd (Nat.lt_of_lt_of_le h hd.nextQueue_le) (Nat.not_lt_of_le hq)
    · exact (Altered.same fun x => hd.unmade hw h _ _).holds (ht.unmade q h)
  · by_cases e' : u = t
    · subst e'; exact hmine e he
    · rw [entries_of_ne e'] at he
      obtain ⟨hid, hp⟩ := mem_entries he
      refine (ht.progress u e he).keep (fun d hdn => hauthor d (Option.mem_toList.mp hdn) u e' e.1 hid) fun n hn => ?_
      exact hd.kept hw hp (by rw [World.stack_of_ne e' m]; exact hp) hn

/-- The move begins and ends no operation. -/
theorem DeedsAgree.on (ht : a.DeedsAgree) (hw : OpsFit a.world lay) (hd : Did a.world lay t m (a.world.move t m) lay')
    (hdeed : ∀ d, a.deed? t m = some d → (∀ i q r, d ≠ .began i q r) ∧ (∀ i r, d ≠ .ended i r) ∧
      ∀ id, d.author? = some id → id ∈ a.ids t)
    (hlen : ((a.world.move t m).stack t).length = (a.world.stack t).length)
    (hmine : ∀ e ∈ (a.ids t).zip ((a.world.move t m).stack t),
      Progress (a.move t m).world.store (a.move t m).deeds e.1 e.2.1.queue e.2.1.point.stage) :
    (a.move t m).DeedsAgree := by
  have hids : (a.move t m).ids = a.ids := by
    funext u
    by_cases e : u = t
    · subst e
      rw [move_ids]
      unfold refile
      split
      · rename_i h; exact absurd rfl ((hdeed _ h).1 _ _ _)
      · rename_i h; exact absurd rfl ((hdeed _ h).2.1 _ _)
      · rfl
    · exact move_ids_of_ne e
  have hnext : (a.move t m).nextId = a.nextId := by
    dsimp only [Annals.move]
    split
    · rename_i h; exact absurd rfl ((hdeed _ h).1 _ _ _)
    · rfl
  have hnew : ∀ d ∈ (a.deed? t m).toList, ∀ id, d.author? = some id → id ∈ a.ids t := fun d h =>
    (hdeed d (Option.mem_toList.mp h)).2.2
  refine ht.move hw hd ⟨fun u => ?_, ?_, ?_, fun d hm id hid => ?_⟩ (fun d hd u hu id hid hd' => ?_)
    (fun e he => hmine e ?_)
    fun id r hm => ?_
  · rw [hids]
    by_cases e : u = t
    · subst e; exact (ht.length u).trans hlen.symm
    · exact (ht.length u).trans (by rw [show (a.move t m).world.stack u = _ from World.stack_of_ne e m])
  · rw [hids, hnext]; exact ht.fresh
  · rw [hids]; exact ht.apart
  · rw [hnext]
    rcases List.mem_append.mp hm with hm | hm
    · exact ht.known d hm id hid
    · exact ht.fresh t id (hnew d hm id hid)
  · exact hu (ht.apart.owner u t id hid ((hdeed d hd).2.2 id hd'))
  · rwa [entries, hids] at he
  · have hm := (List.mem_append.mp hm).resolve_right fun hm => (hdeed _ (Option.mem_toList.mp hm)).2.1 _ _ rfl
    refine (ht.complete id r hm).keep fun d hdn hid => ?_
    obtain ⟨p, hp⟩ := ht.exists_entry (hnew d hdn id hid)
    exact (ht.progress t _ hp).not_ended r hm

/-- The operation on top of the stack goes on. -/
theorem DeedsAgree.turn (ht : a.DeedsAgree) (hw : OpsFit a.world lay) (hd : Did a.world lay t m (a.world.move t m) lay')
    {o o' : Operation α} {b b' : Bool} {rest : List (Operation α × Bool)} (ho : a.world.stack t = (o, b) :: rest)
    (hk : (a.world.move t m).stack t = (o', b') :: rest)
    (hdeed : ∀ d, a.deed? t m = some d → (∀ i q r, d ≠ .began i q r) ∧ (∀ i r, d ≠ .ended i r) ∧
      d.author? = some ((a.ids t).headD 0))
    (hmine : Progress a.world.store a.deeds ((a.ids t).headD 0) o.queue o.point.stage →
      Progress (a.move t m).world.store (a.move t m).deeds ((a.ids t).headD 0) o'.queue o'.point.stage) :
    (a.move t m).DeedsAgree := by
  obtain ⟨id, ids, hids, hentries⟩ := ht.entries_cons ho
  rw [hids, List.headD_cons] at hdeed hmine
  have hmem : id ∈ a.ids t := hids ▸ List.mem_cons_self
  refine ht.on hw hd (fun d hd => ⟨(hdeed d hd).1, (hdeed d hd).2.1, fun i hi => ?_⟩) (by rw [hk, ho]; rfl)
    fun e he => ?_
  · rw [(hdeed d hd).2.2] at hi
    cases hi
    exact hmem
  · rw [hids, hk, List.zip_cons_cons] at he
    rcases List.mem_cons.mp he with rfl | hrest
    · exact hmine (ht.progress t (id, o, b) (hentries ▸ List.mem_cons_self))
    · have hnd := ht.apart.nodup t
      rw [hids] at hnd
      refine (ht.progress t e (hentries ▸ List.mem_cons_of_mem _ hrest)).keep (fun d hdn hauth => ?_) fun n hn => ?_
      · rw [(hdeed d (Option.mem_toList.mp hdn)).2.2] at hauth
        cases hauth
        exact (List.nodup_cons.mp hnd).1 (List.of_mem_zip hrest).1
      · have hp := (List.of_mem_zip hrest).2
        exact hd.kept hw (by rw [ho]; exact List.mem_cons_of_mem _ hp) (by rw [hk]; exact List.mem_cons_of_mem _ hp) hn

/-- No operation of `t` is concerned. -/
theorem DeedsAgree.beside (ht : a.DeedsAgree) (hw : OpsFit a.world lay)
    (hd : Did a.world lay t m (a.world.move t m) lay') (hdeed : ∀ d, a.deed? t m = some d → d.author? = none)
    (hk : (a.world.move t m).stack t = a.world.stack t) : (a.move t m).DeedsAgree := by
  refine ht.on hw hd (fun d hd => ⟨?_, ?_, fun id hid => ?_⟩) (by rw [hk]) fun e he => ?_
  · rintro i q r rfl; cases hdeed _ hd
  · rintro i r rfl; cases hdeed _ hd
  · rw [hdeed d hd] at hid; cases hid
  · have hp := (List.of_mem_zip he).2
    rw [hk] at he
    refine (ht.progress t e he).keep (fun d hdn hid => ?_) fun n hn => hd.kept hw (hk ▸ hp) hp hn
    rw [hdeed d (Option.mem_toList.mp hdn)] at hid
    cases hid

theorem DeedsAgree.began (ht : a.DeedsAgree) (hw : OpsFit a.world lay)
    (hd : Did a.world lay t m (a.world.move t m) lay') {o : Operation α} {r : Request α}
    (hst : Starts a.world.store (a.world.move t m).store o r) (hdeed : a.deed? t m = some (.began a.nextId o.queue r))
    (hk : (a.world.move t m).stack t = (o, true) :: a.world.stack t) : (a.move t m).DeedsAgree := by
  have hids : (a.move t m).ids t = a.nextId :: a.ids t := by rw [move_ids, hdeed]; rfl
  have hnext : (a.move t m).nextId = a.nextId + 1 := by dsimp only [Annals.move]; rw [hdeed]
  have hdeeds : (a.move t m).deeds = a.deeds ++ [.began a.nextId o.queue r] := by
    dsimp only [Annals.move]; rw [hdeed]; rfl
  have hfresh : ∀ u, a.nextId ∉ a.ids u := fun u h => Nat.lt_irrefl _ (ht.fresh u _ h)
  have hold : ∀ u, u ≠ t → (a.move t m).ids u = a.ids u := fun u e => move_ids_of_ne e
  refine ht.move hw hd ⟨fun u => ?_, fun u id hid => ?_, ?_, fun d hm id hid => ?_⟩ (fun d hd u hu id hid hd' => ?_)
    (fun e he => ?_) fun id r' hm => ?_
  · by_cases e : u = t
    · subst e
      rw [hids, show (a.move u m).world.stack u = _ from hk, List.length_cons, List.length_cons, ht.length]
    · rw [hold u e, show (a.move t m).world.stack u = _ from World.stack_of_ne e m]
      exact ht.length u
  · rw [hnext]
    by_cases e : u = t
    · subst e
      rw [hids] at hid
      rcases List.mem_cons.mp hid with rfl | hid
      · exact Nat.lt_succ_self _
      · exact Nat.lt_succ_of_lt (ht.fresh u id hid)
    · rw [hold u e] at hid
      exact Nat.lt_succ_of_lt (ht.fresh u id hid)
  · exact ht.apart.grow hold hids (List.Sublist.refl _) hfresh
  · rw [hnext]
    rw [hdeeds] at hm
    rcases List.mem_append.mp hm with hm | hm
    · exact Nat.lt_succ_of_lt (ht.known d hm id hid)
    · cases List.mem_singleton.mp hm
      cases hid
      exact Nat.lt_succ_self _
  · rw [hdeed] at hd
    cases hd
    cases hd'
    exact hfresh u hid
  · rw [entries, hids, show (a.move t m).world.stack t = _ from hk, List.zip_cons_cons] at he
    rw [hdeeds]
    rcases List.mem_cons.mp he with rfl | hrest
    · have hnone : deedsOf a.nextId a.deeds = [] := deedsOf_nil fun d hm h => Nat.lt_irrefl _ (ht.known d hm _ h)
      have hone : deedsOf a.nextId (a.deeds ++ [.began a.nextId o.queue r]) = [.began a.nextId o.queue r] := by
        rw [deedsOf_append, hnone]
        simp [deedsOf, Deed.author?, Deed.isLook]
      change Progress (a.world.move t m).store _ _ _ _
      generalize (a.world.move t m).store = s at hst
      cases hst with
      | enqueue q v b => exact ⟨v, by rw [Store.link_alloc, if_pos rfl], hone⟩
      | dequeue q b => exact hone
      | isEmpty q b => exact hone
    · obtain ⟨hid, hp⟩ := List.of_mem_zip hrest
      refine (ht.progress t e hrest).keep (fun d hdn hauth => ?_) fun n hn => ?_
      · cases List.mem_singleton.mp hdn
        exact hfresh t (Option.some.inj hauth ▸ hid)
      · exact hd.kept hw hp (by rw [hk]; exact List.mem_cons_of_mem _ hp) hn
  · rw [hdeeds] at hm ⊢
    have hm := (List.mem_append.mp hm).resolve_right (by simp)
    refine (ht.complete id r' hm).keep fun d hdn hid => ?_
    cases List.mem_singleton.mp hdn
    cases hid
    exact Nat.lt_irrefl _ (ht.known _ hm _ rfl)

theorem DeedsAgree.left (ht : a.DeedsAgree) (hw : OpsFit a.world lay) (hd : Did a.world lay t m (a.world.move t m) lay')
    {o : Operation α} {r : Outcome α} {rest : List (Operation α × Bool)} (hp : o.point = .leave r)
    (ho : a.world.stack t = (o, false) :: rest) (hdeed : a.deed? t m = some (.ended ((a.ids t).headD 0) r))
    (hk : (a.world.move t m).stack t = rest) : (a.move t m).DeedsAgree := by
  obtain ⟨id, ids, hids, hentries⟩ := ht.entries_cons ho
  rw [hids, List.headD_cons] at hdeed
  have hids' : (a.move t m).ids t = ids := by rw [move_ids, hdeed, refile, hids]; rfl
  have hnext : (a.move t m).nextId = a.nextId := by dsimp only [Annals.move]; rw [hdeed]
  have hdeeds : (a.move t m).deeds = a.deeds ++ [.ended id r] := by dsimp only [Annals.move]; rw [hdeed]; rfl
  have hmem : id ∈ a.ids t := hids ▸ List.mem_cons_self
  have hprog := ht.progress t (id, o, false) (hentries ▸ List.mem_cons_self)
  have hsub : ∀ u, ((a.move t m).ids u).Sublist (a.ids u) := fun u => by
    by_cases e : u = t
    · subst e; rw [hids', hids]; exact List.sublist_cons_self _ _
    · rw [move_ids_of_ne e]
  refine ht.move hw hd ⟨fun u => ?_, fun u i hi => ?_, ?_, fun d hm i hi => ?_⟩ (fun d hd u hu i hi hd' => ?_)
    (fun e he => ?_) fun i r' hm => ?_
  · by_cases e : u = t
    · subst e
      have hlen := ht.length u
      rw [hids, ho, List.length_cons, List.length_cons] at hlen
      rw [hids', show (a.move u m).world.stack u = _ from hk]
      exact Nat.succ.inj hlen
    · rw [move_ids_of_ne e, show (a.move t m).world.stack u = _ from World.stack_of_ne e m]
      exact ht.length u
  · rw [hnext]; exact ht.fresh u i ((hsub u).subset hi)
  · exact ht.apart.shrink (fun u e => move_ids_of_ne e) (hsub t)
  · rw [hnext]
    rw [hdeeds] at hm
    rcases List.mem_append.mp hm with hm | hm
    · exact ht.known d hm i hi
    · cases List.mem_singleton.mp hm
      cases hi
      exact ht.fresh t _ hmem
  · rw [hdeed] at hd
    cases hd
    cases hd'
    exact hu (ht.apart.owner u t _ hi hmem)
  · rw [entries, hids', show (a.move t m).world.stack t = _ from hk] at he
    rw [hdeeds]
    obtain ⟨hi, hp⟩ := List.of_mem_zip he
    have hnd := ht.apart.nodup t
    rw [hids] at hnd
    refine (ht.progress t e (hentries ▸ List.mem_cons_of_mem _ he)).keep (fun d hdn hauth => ?_) fun n hn => ?_
    · cases List.mem_singleton.mp hdn
      exact (List.nodup_cons.mp hnd).1 (Option.some.inj hauth ▸ hi)
    · exact hd.kept hw (by rw [ho]; exact List.mem_cons_of_mem _ hp) (by rw [hk]; exact hp) hn
  · rw [hdeeds] at hm ⊢
    rcases List.mem_append.mp hm with hm | hm
    · refine (ht.complete i r' hm).keep fun d hdn hid => ?_
      cases List.mem_singleton.mp hdn
      cases hid
      exact hprog.not_ended r' hm
    · cases List.mem_singleton.mp hm
      exact Progress.account (by rwa [show (id, o, false).2.1.point = _ from hp] at hprog)

/-- Every move is one of these. -/
theorem DeedsAgree.step (ht : a.DeedsAgree) (hw : OpsFit a.world lay)
    (hd : Did a.world lay t m (a.world.move t m) lay') : (a.move t m).DeedsAgree := by
  have hdeeds : ∀ {d}, a.deed? t m = d → (a.move t m).deeds = a.deeds ++ d.toList := fun h => by
    dsimp only [Annals.move]; rw [h]
  have hquiet : (∀ fresh mine, a.world.deed? t fresh mine m = none) → ∀ d, a.deed? t m = some d → d.author? = none :=
    fun h d hd => by rw [show a.deed? t m = none from h _ _] at hd; cases hd
  have hplain : ∀ {d'}, a.deed? t m = some d' → d'.author? = none → ∀ d, a.deed? t m = some d → d.author? = none :=
    fun h ha d hd => by rw [h] at hd; exact Option.some.inj hd ▸ ha
  have hd' := hd
  cases hd with
  | called hdeed _ _ hk => exact ht.beside hw hd' (hquiet hdeed) hk
  | freed _ _ hdeed _ _ hk => exact ht.beside hw hd' (hquiet hdeed) hk
  | made _ hdeed _ _ hk => exact ht.beside hw hd' (hplain (hdeed _ _) rfl) hk
  | began o r hst _ hdeed _ hk => exact ht.began hw hd' hst (hdeed _ _) hk
  | accessed o spot L' rest hp ho hv hf hdeed _ hs hk =>
    have hq := (hw.sits t (o, false) (ho ▸ List.mem_cons_self)).queue
    have hspot : a.deed? t m = spot.deed? a.world.store o ((a.ids t).headD 0) := hdeed _ _
    refine ht.turn hw hd' ho hk (fun d hd => ?_) fun h => ?_
    · rw [hspot] at hd
      have := Spot.author?_deed? hd
      exact ⟨this.2.2, this.2.1, this.1⟩
    · rw [hdeeds hspot, hv.queue, show (a.move t m).world.store = _ from hs]
      exact Progress.access hv hf (ht.holds _ hq) (by rwa [hp] at h)
  | took o head next rest hp _ ho hdeed _ hs hk =>
    refine ht.turn hw hd' ho hk (fun d hd => ?_) fun h => ?_
    · rw [show a.deed? t m = none from hdeed _ _] at hd; cases hd
    · rw [hdeeds (hdeed _ _), Option.toList_none, List.append_nil]
      rw [hp] at h
      obtain ⟨v, hv, h⟩ := h
      rw [hv]
      exact h
  | resumed o g rest ho hdeed _ _ _ hs hk =>
    refine ht.turn hw hd' ho hk (fun d hd => ?_) fun h => ?_
    · rw [show a.deed? t m = none from hdeed _ _] at hd; cases hd
    · rw [hdeeds (hdeed _ _), Option.toList_none, List.append_nil, show (a.move t m).world.store = _ from hs]
      exact h
  | left o r rest hp _ ho hdeed _ _ hk => exact ht.left hw hd' hp ho (hdeed _ _) hk
  | popped _ _ _ _ _ _ _ _ _ _ _ _ _ hdeed _ _ hk => exact ht.beside hw hd' (hplain (hdeed _ _) rfl) hk
  | tornDown _ _ _ _ _ _ _ _ _ _ hdeed _ _ hk => exact ht.beside hw hd' (hplain (hdeed _ _) rfl) hk

theorem Reach.world (h : a.Reach) : a.world.Reach := by
  induction h with
  | start => exact .start
  | move t m _ hm ih => exact .move t m ih hm

theorem Reach.deedsAgree (h : a.Reach) : a.DeedsAgree := by
  induction h with
  | start =>
    exact ⟨⟨fun _ => rfl, nofun, .empty, nofun⟩, nofun, fun _ _ => .nil, nofun, nofun⟩
  | move t m hr hm ih =>
    obtain ⟨lay, hw⟩ := hr.world.opsFit
    obtain ⟨lay', hd⟩ := hw.did hm
    exact ih.step hw hd

/-! ## Linearizability -/

/-- The step is the access by which an operation on `q` wins a race. -/
def wins (a : Annals α) (t : Nat) (m : Move α) (q : Nat) : Prop :=
  m = .step ∧ ∃ o spot, a.world.operation t = some o ∧ o.queue = q ∧ o.point = .access spot ∧
    spot.wins (a.world.store.access o spot).access = true

/-- The run up to here is one of abstract queues, and so is whatever may come next. -/
structure Linearizable (a : Annals α) : Prop where
  /-- A queue holds what its deeds make of an empty list. -/
  holds : ∀ q, q < a.world.store.nextQueue → Holds q a.deeds (a.world.store.values q)
  /-- A move changes the list as its deed says. -/
  simulates : ∀ t m, a.world.may t m → ∀ q, q < a.world.store.nextQueue →
    Altered q (a.world.store.values q) ((a.move t m).world.store.values q) (a.deed? t m)
  /-- Linking appends the value that the enqueue was begun with. -/
  appends : ∀ t o node tail, a.world.operation t = some o → o.point = .access (.enqueue node (.link tail)) →
    (a.world.store.access o (.enqueue node (.link tail))).access = .cas true →
    ∃ id v, .began id o.queue (.enqueue v) ∈ a.deeds ∧ a.deed? t .step = some (.appended id o.queue v) ∧
      (a.move t .step).world.store.values o.queue = a.world.store.values o.queue ++ [v]
  /-- Swinging the head removes the front value. -/
  removes : ∀ t o head next, a.world.operation t = some o → o.point = .access (.dequeue (.swingHead head next)) →
    (a.world.store.access o (.dequeue (.swingHead head next))).access = .cas true →
    ∃ id v, .began id o.queue .dequeue ∈ a.deeds ∧ a.deed? t .step = some (.removed id o.queue v) ∧
      a.world.store.values o.queue = v :: (a.move t .step).world.store.values o.queue
  /-- Nothing else changes the list, but for an only owner. -/
  rests : ∀ t m, a.world.may t m → ∀ q, q < a.world.store.nextQueue → ¬ a.wins t m q →
    (∀ p, m = .pop p ∨ m = .tearDown p → p ≠ q) → (a.move t m).world.store.values q = a.world.store.values q
  /-- An operation that ended did, between its beginning and its end, what its outcome says. -/
  accounts : ∀ id r, .ended id r ∈ a.deeds → Account id a.deeds r

/-- The operation that a thread works on has an id, and its progress is known. -/
theorem DeedsAgree.active (ht : a.DeedsAgree) {o : Operation α} (ho : a.world.operation t = some o) :
    Progress a.world.store a.deeds ((a.ids t).headD 0) o.queue o.point.stage := by
  obtain ⟨id, ids, hids, hentries⟩ := ht.entries_cons (World.stack_active ho)
  rw [hids]
  exact ht.progress t (id, o, false) (hentries ▸ List.mem_cons_self)

theorem simulates (hw : OpsFit a.world lay) (hm : a.world.may t m) {q : Nat} (hq : q < a.world.store.nextQueue) :
    Altered q (a.world.store.values q) ((a.move t m).world.store.values q) (a.deed? t m) := by
  obtain ⟨lay', hd⟩ := hw.did hm
  exact hd.alters hw hq _ _

theorem deed?_of_access {o : Operation α} {spot : Spot} (ho : a.world.operation t = some o)
    (hp : o.point = .access spot) : a.deed? t .step = spot.deed? a.world.store o ((a.ids t).headD 0) := by
  unfold Annals.deed? World.deed?
  dsimp only
  rw [ho, Option.bind_some, Operation.deed?, hp]

theorem may_step {o : Operation α} (ho : a.world.operation t = some o) : a.world.may t .step := fun hr => by
  rw [hr.1] at ho
  cases ho

theorem sits_of_operation (hw : OpsFit a.world lay) {o : Operation α} (ho : a.world.operation t = some o) :
    o.Sits a.world.store lay := hw.sits t (o, false) (World.stack_active ho ▸ List.mem_cons_self)

theorem DeedsAgree.appends (ht : a.DeedsAgree) (hw : OpsFit a.world lay) {o : Operation α} {node tail : Nat}
    (ho : a.world.operation t = some o) (hp : o.point = .access (.enqueue node (.link tail)))
    (hacc : (a.world.store.access o (.enqueue node (.link tail))).access = .cas true) :
    ∃ id v, .began id o.queue (.enqueue v) ∈ a.deeds ∧ a.deed? t .step = some (.appended id o.queue v) ∧
      (a.move t .step).world.store.values o.queue = a.world.store.values o.queue ++ [v] := by
  have hprog := ht.active ho
  rw [hp] at hprog
  obtain ⟨v, hv, hds⟩ := hprog
  have hd : a.deed? t .step = some (.appended ((a.ids t).headD 0) o.queue v) := by
    rw [deed?_of_access ho hp]
    unfold Spot.deed?
    dsimp only
    rw [if_pos hacc, hv]
    rfl
  refine ⟨_, v, mem_of_mem_deedsOf (hds ▸ List.mem_cons_self), hd, ?_⟩
  have hsim := simulates hw (may_step ho) (sits_of_operation hw ho).queue
  rw [hd] at hsim
  exact Deed.Alters.appended hsim

theorem DeedsAgree.removes (ht : a.DeedsAgree) (hw : OpsFit a.world lay) {o : Operation α} {head next : Nat}
    (ho : a.world.operation t = some o) (hp : o.point = .access (.dequeue (.swingHead head next)))
    (hacc : (a.world.store.access o (.dequeue (.swingHead head next))).access = .cas true) :
    ∃ id v, .began id o.queue .dequeue ∈ a.deeds ∧ a.deed? t .step = some (.removed id o.queue v) ∧
      a.world.store.values o.queue = v :: (a.move t .step).world.store.values o.queue := by
  have hprog := ht.active ho
  rw [hp] at hprog
  have hsits := sits_of_operation hw ho
  have hfit : Spot.Fits (lay o.queue) 0 (.dequeue (.swingHead head next)) := by
    have := hsits.fits
    rwa [hp] at this
  obtain ⟨L', -, hf⟩ := (hw.laid _ hsits.queue).access hfit nofun
  -- of all that the access can be, only a removal wins this race
  have hf : Served.Removes a.world.store o (.dequeue (.swingHead head next)) (lay o.queue) L' := by
    rcases hf with hf | ⟨_, _, _, he, -⟩ | hf
    · have hwins := hf.wins
      rw [hacc] at hwins
      cases hwins
    · cases he
    · exact hf
  obtain ⟨v, hd, -⟩ := Spot.deed?_of_removes (i := (a.ids t).headD 0) hf
  rw [← deed?_of_access ho hp] at hd
  have hmem : .began ((a.ids t).headD 0) o.queue .dequeue ∈ deedsOf ((a.ids t).headD 0) a.deeds :=
    hprog ▸ List.mem_cons_self
  refine ⟨_, v, mem_of_mem_deedsOf hmem, hd, ?_⟩
  have hsim := simulates hw (may_step ho) hsits.queue
  rw [hd] at hsim
  exact Deed.Alters.removed hsim

/-- A step whose deed concerns a queue wins a race there. -/
theorem wins_of_concerns {q : Nat} {x : Deed α} (hx : a.deed? t .step = some x) (hc : x.concerns q = true) :
    a.wins t .step q := by
  obtain ⟨o, ho, hx⟩ := Option.bind_eq_some_iff.mp hx
  unfold Operation.deed? at hx
  split at hx
  · rename_i spot hp
    refine ⟨rfl, o, spot, ho, Classical.byContradiction fun e => ?_, hp, Bool.of_not_eq_false fun hw => ?_⟩
    · rw [Spot.concerns_deed? hx (beq_eq_false_iff_ne.mpr e)] at hc
      cases hc
    · rcases Spot.deed?_of_not_wins (i := (a.ids t).headD 0) hw with h | ⟨-, h⟩
      · rw [h] at hx; cases hx
      · rw [h] at hx; cases hx; cases hc
  · cases hx
  · cases hx; cases hc

theorem rests (hw : OpsFit a.world lay) (hm : a.world.may t m) {q : Nat} (hq : q < a.world.store.nextQueue)
    (hwin : ¬ a.wins t m q) (hown : ∀ p, m = .pop p ∨ m = .tearDown p → p ≠ q) :
    (a.move t m).world.store.values q = a.world.store.values q := by
  refine (simulates hw hm hq).inv.resolve_right ?_
  rintro ⟨x, hx, hc⟩
  have hnot : ∀ {p}, (p == q) = true → p = q := fun h => beq_iff_eq.mp h
  cases m with
  | pop p =>
    obtain ⟨v, -, rfl⟩ := Option.map_eq_some_iff.mp hx
    exact hown p (Or.inl rfl) (hnot hc)
  | tearDown p =>
    cases hx
    exact hown p (Or.inr rfl) (hnot hc)
  | step => exact hwin (wins_of_concerns hx hc)
  | tryEnqueue p v memory => cases memory <;> cases hx; cases hc
  | newQueue limits => cases hx; cases hc
  | dequeue p => cases hx; cases hc
  | isEmpty p => cases hx; cases hc
  | _ => cases hx

/-- Any number of threads, in any order of single accesses. -/
theorem Reach.linearizable (h : a.Reach) : a.Linearizable := by
  have ht := h.deedsAgree
  obtain ⟨lay, hw⟩ := h.world.opsFit
  exact {
    holds := ht.holds
    simulates := fun t m hm q hq => simulates hw hm hq
    appends := fun t o node tail ho hp hacc => ht.appends hw ho hp hacc
    removes := fun t o head next ho hp hacc => ht.removes hw ho hp hacc
    rests := fun t m hm q hq hwin hown => rests hw hm hq hwin hown
    accounts := ht.complete }

/-- Thread 1 looks into the empty queue, thread 0 links 7 before thread 1 has returned, and only
    then thread 1 finds nothing; its next dequeue gets 7. -/
def crossRun : List (Nat × Move Nat) :=
  [(0, .newQueue .standard), (0, .tryEnqueue 0 7 true), (1, .dequeue 0)] ++ List.replicate 2 (0, .step) ++
    List.replicate 5 (1, .step) ++ List.replicate 5 (0, .step) ++ List.replicate 2 (1, .step) ++ [(0, .step)] ++
    [(1, .dequeue 0)] ++ List.replicate 10 (1, .step)

theorem crossRun_plays : (({} : Annals Nat).play crossRun).isSome = true := by decide +kernel

def crossEnd : Annals Nat := (({} : Annals Nat).play crossRun).get crossRun_plays

theorem crossEnd_reached : crossEnd.Reach := .of_play .start (Option.some_get crossRun_plays).symm

theorem crossEnd_linearizable : .appended 0 0 7 ∈ crossEnd.deeds ∧ .ended 1 (.dequeued none) ∈ crossEnd.deeds ∧
    .ended 2 (.dequeued (some 7)) ∈ crossEnd.deeds ∧ crossEnd.Linearizable := by
  have ha : .appended 0 0 7 ∈ crossEnd.deeds := by decide +kernel
  have hn : .ended 1 (.dequeued none) ∈ crossEnd.deeds := by decide +kernel
  have hs : .ended 2 (.dequeued (some 7)) ∈ crossEnd.deeds := by decide +kernel
  exact ⟨ha, hn, hs, crossEnd_reached.linearizable⟩

end Annals

end EpochQueue.Fifo
