/-
  EpochQueue.Proofs.Fifo.LockFreedom — no operation starts over for ever without another one getting on.

  A round of a loop begins with its first load. `Annals.Spins` is a run beside which the rounds of one
  operation are counted; what the operation still owes (`owed`) falls with every round that it begins,
  and nobody makes it grow who does not win a race on the same queue (`Owes.move`).

  `Annals.Reach.lockFree` is what comes of it, for every operation under way: it begins at most two
  more rounds until an operation of another thread links a link or swings the head, and by the steps of
  its own thread alone it gets through, whatever others stand in the middle of, with two rounds at most.
-/

import EpochQueue.Proofs.Fifo.Linearization
import EpochQueue.Proofs.Fifo.Rest
import EpochQueue.Proofs.Fifo.Rounds

namespace EpochQueue.Fifo

variable {α : Type}

/-! ## What an operation owes -/

/-- The rounds that an operation begins from here on, one that waits for its guard included. -/
def owed (s : Store α) (p : Operation α × Bool) : Nat := if p.2 then 2 else p.1.rounds s

theorem owed_le (s : Store α) (p : Operation α × Bool) : owed s p ≤ 2 := by
  unfold owed
  split
  · exact Nat.le_refl 2
  · exact p.1.rounds_le s

theorem World.Waiting.owed {p : Operation α × Bool} (h : World.Waiting p) (s s' : Store α) : owed s p = owed s' p := by
  unfold Fifo.owed
  rcases h with h | ⟨r, hr⟩
  · rw [if_pos h, if_pos h]
  · rw [Operation.rounds_of_leave hr, Operation.rounds_of_leave hr]

/-- A queue that somebody works on keeps its links and its head if it holds what it held. -/
theorem Did.calm {w w' : World α} {lay lay' : Nat → Layout} {t : Nat} {m : Move α} (hd : Did w lay t m w' lay')
    (hw : OpsFit w lay) {u : Nat} {p : Operation α × Bool} (hp : p ∈ w.stack u)
    (hvals : w'.store.values p.1.queue = w.store.values p.1.queue) :
    (lay' p.1.queue).nodes = (lay p.1.queue).nodes ∧ (lay' p.1.queue).head = (lay p.1.queue).head := by
  have hq := (hw.sits u p hp).queue
  have hrelay : ∀ {q L}, (p.1.queue = q → L.nodes = (lay q).nodes ∧ L.head = (lay q).head) →
      (relay lay q L p.1.queue).nodes = (lay p.1.queue).nodes ∧
        (relay lay q L p.1.queue).head = (lay p.1.queue).head := fun {q L} h => by
    by_cases e : p.1.queue = q
    · subst e; rw [relay_self]; exact h rfl
    · rw [relay_of_ne e]; exact ⟨rfl, rfl⟩
  cases hd with
  | made => rw [relay_of_ne (Nat.ne_of_lt hq)]; exact ⟨rfl, rfl⟩
  | accessed o spot L' rest _ _ hv hf _ _ hs =>
    refine hrelay fun e => ?_
    rw [hs, e] at hvals
    have hlen := (hw.laid _ hq).length_values
    have hlen' := hv.laid.length_values
    rw [e] at hlen
    rcases hf with hf | ⟨node, tail, v, -, -, -, -, -, hvals'⟩ | ⟨head, next, v, -, -, -, -, -, -, -, hvals'⟩
    · rw [hf.values, hf.nodes] at hlen'
      exact ⟨hf.nodes, by omega⟩
    · exact absurd (congrArg List.length (hvals'.symm.trans hvals)) (by simp)
    · exact absurd (congrArg List.length (hvals'.symm.trans hvals.symm)) (by simp)
  | popped q n v L' hquiet => exact hrelay fun e => absurd (e ▸ hquiet) (World.not_quiet hp)
  | tornDown q L' hquiet => exact hrelay fun e => absurd (e ▸ hquiet) (World.not_quiet hp)
  | _ => exact ⟨rfl, rfl⟩

theorem Deed.of_no_author {d : Deed α} (h : d.author? = none) :
    (∀ id q r, d ≠ .began id q r) ∧ ∀ id r, d ≠ .ended id r := by
  refine ⟨?_, ?_⟩
  · rintro id q r rfl; cases h
  · rintro id r rfl; cases h

namespace Annals

variable {a : Annals α} {lay : Nat → Layout} {t u : Nat} {m : Move α} {id q n : Nat}

/-- Nobody owes more after a move that wins no race on his queue. -/
theorem owed_move (hs : QueueInv a.world lay) (hm : a.world.may u m) {p : Operation α × Bool}
    (hp : p ∈ a.world.stack t) (hwin : ¬ a.wins u m p.1.queue) :
    owed (a.move u m).world.store p ≤ owed a.world.store p := by
  have hsits := hs.opsFit.sits t p hp
  have hvals := rests hs.opsFit hm hsits.queue hwin fun q e hq => by
    subst hq
    rcases e with rfl | rfl
    · exact World.not_quiet hp hm.2.2
    · exact World.not_quiet hp hm.2.2
  obtain ⟨lay', hd⟩ := hs.opsFit.did hm
  obtain ⟨hnodes, hhead⟩ := hd.calm hs.opsFit hp hvals
  have hw' := hd.opsFit hs.opsFit fun v e => World.stack_of_ne e m
  have heases := (hs.opsFit.laid _ hsits.queue).eases
    (hw'.laid _ (Nat.lt_of_lt_of_le hsits.queue hd.nextQueue_le)) (hd.grows hsits.queue)
    (hs.taut _ hsits.queue) hnodes hhead
  unfold owed
  split
  · exact Nat.le_refl 2
  · unfold Operation.rounds
    have hfits := hsits.fits
    cases hpt : p.1.point with
    | access spot => exact Spot.rounds_eases heases (by rwa [hpt] at hfits)
    | _ => exact Nat.le_refl 0

/-- One if the move is the access with which the operation begins a round of its loop. -/
def begins (a : Annals α) (t : Nat) (m : Move α) (id : Nat) : Nat :=
  match m, a.world.operation t with
  | .step, some o => if (a.ids t).head? = some id then o.begins else 0
  | _, _ => 0

/-- The move is an access. -/
def accesses (a : Annals α) (t : Nat) (m : Move α) : Prop :=
  m = .step ∧ ∃ o spot, a.world.operation t = some o ∧ o.point = .access spot

theorem begins_of_not_accesses (h : ¬ a.accesses t m) (id : Nat) : a.begins t m id = 0 := by
  unfold begins
  split
  · rename_i o ho
    have hstart : o.point.isStart = false := by
      cases hp : o.point with
      | access spot => exact absurd ⟨rfl, o, spot, ho, hp⟩ h
      | _ => rfl
    unfold Operation.begins
    rw [hstart, if_neg Bool.false_ne_true, ite_self]
  · rfl

theorem begins_of_head_ne (h : (a.ids t).head? ≠ some id) : a.begins t m id = 0 := by
  unfold begins
  split
  · exact if_neg h
  · rfl

theorem begins_of_not_mem (h : id ∉ a.ids t) : a.begins t m id = 0 :=
  begins_of_head_ne fun e => h (List.mem_of_head? e)

theorem not_wins_of_not_accesses (h : ¬ a.accesses t m) (q : Nat) : ¬ a.wins t m q :=
  fun ⟨e, o, spot, ho, _, hp, _⟩ => h ⟨e, o, spot, ho, hp⟩

/-- What a move makes of the operations under way on its thread. -/
inductive Turns (a : Annals α) (t : Nat) (m : Move α) : Prop
  | rest (hk : (a.move t m).entries t = a.entries t) (hquiet : ¬ a.accesses t m)
  | began (e : Nat × Operation α × Bool) (hk : (a.move t m).entries t = e :: a.entries t)
      (hquiet : ¬ a.accesses t m)
  | left (e : Nat × Operation α × Bool) (ho : a.entries t = e :: (a.move t m).entries t)
      (hids : a.ids t = e.1 :: (a.move t m).ids t) (hquiet : ¬ a.accesses t m)
  /-- The one on top goes on, and those below wait. -/
  | turned (id : Nat) (p p' : Operation α × Bool) (below : List (Nat × Operation α × Bool))
      (ho : a.entries t = (id, p) :: below) (hk : (a.move t m).entries t = (id, p') :: below)
      (hbelow : ∀ e ∈ below, World.Waiting e.2 ∧ a.begins t m e.1 = 0)
      (hqueue : p'.1.queue = p.1.queue)
      (howed : a.begins t m id + owed (a.move t m).world.store p' ≤ owed a.world.store p)

theorem ids_of_deed (h : ∀ d, a.deed? t m = some d → (∀ i q r, d ≠ .began i q r) ∧ ∀ i r, d ≠ .ended i r) :
    (a.move t m).ids t = a.ids t := by
  rw [move_ids]
  unfold refile
  split
  · rename_i hd; exact absurd rfl ((h _ hd).1 _ _ _)
  · rename_i hd; exact absurd rfl ((h _ hd).2 _ _)
  · rfl

theorem Reach.turned (hr : a.Reach) {p p' : Operation α × Bool} {rest : List (Operation α × Bool)}
    (ho : a.world.stack t = p :: rest) (hk : (a.move t m).world.stack t = p' :: rest)
    (hids : (a.move t m).ids t = a.ids t) (hqueue : p'.1.queue = p.1.queue)
    (howed : ∀ id, a.begins t m id + owed (a.move t m).world.store p' ≤ owed a.world.store p) : Turns a t m := by
  obtain ⟨id, ids, hcons, hentries⟩ := hr.deedsAgree.entries_cons ho
  have hnd := hr.deedsAgree.apart.nodup t
  rw [hcons] at hnd
  refine .turned id p p' (ids.zip rest) hentries (by rw [entries, hids, hcons, hk, List.zip_cons_cons])
    (fun e he => ⟨hr.world.waiting ho e.2 (List.of_mem_zip he).2, ?_⟩) hqueue (howed id)
  refine begins_of_head_ne fun hhead => (List.nodup_cons.mp hnd).1 ?_
  rw [hcons, List.head?_cons] at hhead
  exact Option.some.inj hhead ▸ (List.of_mem_zip he).1

/-- The operation makes an access. -/
theorem Reach.turned_access (hr : a.Reach) (hs : QueueInv a.world lay) {o : Operation α} {spot : Spot}
    {rest : List (Operation α × Bool)} (hp : o.point = .access spot)
    (ho : a.world.stack t = (o, false) :: rest)
    (hk : (a.move t m).world.stack t = ((a.world.store.access o spot).op, false) :: rest)
    (hstore : (a.move t m).world.store = (a.world.store.access o spot).store)
    (hdeed : a.deed? t m = spot.deed? a.world.store o ((a.ids t).headD 0))
    (hbegins : ∀ id, a.begins t m id ≤ o.begins) : Turns a t m := by
  have hmem : (o, false) ∈ a.world.stack t := ho ▸ List.mem_cons_self
  have hsits := hs.opsFit.sits t _ hmem
  have hl := hs.opsFit.laid _ hsits.queue
  have hfit : spot.Fits (lay o.queue) 0 := by
    have := hsits.fits
    rwa [show (o, false).1.point = _ from hp] at this
  obtain ⟨L', hv, -⟩ := hl.access hfit fun node t' e => hsits.brought node (by
    rw [show (o, false).1.point = _ from hp, e]
    rfl)
  refine hr.turned ho hk (ids_of_deed fun d hd => ?_) hv.queue fun id => ?_
  · rw [hdeed] at hd
    have := Spot.author?_deed? hd
    exact ⟨this.2.2, this.2.1⟩
  · have hrounds := Operation.rounds_access hl (hs.taut _ hsits.queue) hp hfit
    rw [hstore]
    exact Nat.le_trans (Nat.add_le_add_right (hbegins id) _) hrounds

/-- Every move is one of these. -/
theorem Reach.turns (hr : a.Reach) (hs : QueueInv a.world lay) (hm : a.world.may t m) : Turns a t m := by
  by_cases hacc : a.accesses t m
  · obtain ⟨rfl, o, spot, hop, hp⟩ := hacc
    have hmove : a.world.move t .step = (a.world.stepOperation t o).1 := by
      dsimp only [World.move, World.step]
      rw [hop]
    have hstep : (a.world.stepOperation t o).1 = { a.world with
        store := (a.world.store.access o spot).store
        active := a.world.active.set t (some (a.world.store.access o spot).op) } := by
      simp only [World.stepOperation, hp]
    refine hr.turned_access hs hp (World.stack_active hop) ?_ ?_ (deed?_of_access hop hp) fun id => ?_
    · rw [show (a.move t .step).world = _ from hmove.trans hstep]
      exact World.stack_active (World.operation_of_set rfl)
    · rw [show (a.move t .step).world = _ from hmove.trans hstep]
    · unfold begins
      rw [hop]
      dsimp only
      split
      · exact Nat.le_refl _
      · exact Nat.zero_le _
  have hbegins : ∀ id, a.begins t m id = 0 := begins_of_not_accesses hacc
  have hsame : ∀ {d : Deed α}, (∀ fresh mine, a.world.deed? t fresh mine m = none) ∨
      (∀ fresh mine, a.world.deed? t fresh mine m = some d) ∧ d.author? = none →
      (a.world.move t m).stack t = a.world.stack t → Turns a t m := fun {d} hdeed hk => by
    refine .rest ?_ hacc
    have hids : (a.move t m).ids t = a.ids t := ids_of_deed fun d' hd' => by
      rcases hdeed with h | ⟨h, hauthor⟩
      · rw [show a.deed? t m = none from h _ _] at hd'; cases hd'
      · rw [show a.deed? t m = some d from h _ _] at hd'
        cases hd'
        exact Deed.of_no_author hauthor
    rw [entries, hids, show (a.move t m).world.stack t = _ from hk, entries]
  have hnone : (∀ fresh mine, a.world.deed? t fresh mine m = none) → (a.move t m).ids t = a.ids t := fun h =>
    ids_of_deed fun d hd => by rw [show a.deed? t m = none from h _ _] at hd; cases hd
  obtain ⟨lay', hd⟩ := hs.opsFit.did hm
  cases hd with
  | called hdeed _ _ hk => exact hsame (d := .made 0) (Or.inl hdeed) hk
  | freed _ _ hdeed _ _ hk => exact hsame (d := .made 0) (Or.inl hdeed) hk
  | made _ hdeed _ _ hk => exact hsame (Or.inr ⟨hdeed, rfl⟩) hk
  | popped _ _ _ _ _ _ _ _ _ _ _ _ _ hdeed _ _ hk => exact hsame (Or.inr ⟨hdeed, rfl⟩) hk
  | tornDown _ _ _ _ _ _ _ _ _ _ hdeed _ _ hk => exact hsame (Or.inr ⟨hdeed, rfl⟩) hk
  | began o r _ _ hdeed _ hk =>
    refine .began (a.nextId, o, true) ?_ hacc
    have hids : (a.move t m).ids t = a.nextId :: a.ids t := by
      rw [move_ids, show a.deed? t m = _ from hdeed _ _]
      rfl
    rw [entries, hids, show (a.move t m).world.stack t = _ from hk, List.zip_cons_cons]
    rfl
  | accessed o spot L' rest hp ho hv hf hdeed _ hstore hk =>
    exact hr.turned_access hs hp ho hk hstore (hdeed _ _) fun id => by rw [hbegins]; exact Nat.zero_le _
  | took o head next rest hp _ ho hdeed _ _ hk =>
    refine hr.turned ho hk (hnone hdeed) rfl fun id => ?_
    rw [hbegins]
    exact Nat.zero_le _
  | resumed o g rest ho hdeed _ _ _ _ hk =>
    refine hr.turned ho hk (hnone hdeed) rfl fun id => ?_
    rw [hbegins, Nat.zero_add]
    exact owed_le _ _
  | left o r rest hp hop ho hdeed _ _ hk =>
    obtain ⟨id, ids, hids, hentries⟩ := hr.deedsAgree.entries_cons ho
    have hids' : (a.move t m).ids t = ids := by
      rw [move_ids, show a.deed? t m = _ from hdeed _ _, refile, hids]
      rfl
    refine .left (id, o, false) ?_ (by rw [hids, hids']) hacc
    rw [hentries, entries, hids', show (a.move t m).world.stack t = _ from hk]

/-! ## Runs -/

/-- A run of moves that are as `ok` says, in which the operation begins `k` rounds. -/
inductive Spins (ok : Annals α → Nat → Move α → Prop) (id : Nat) (a : Annals α) : Nat → Annals α → Prop
  | here : Spins ok id a 0 a
  | move {k : Nat} {b : Annals α} (t : Nat) (m : Move α) : Spins ok id a k b → b.world.may t m → ok b t m →
      Spins ok id a (k + b.begins t m id) (b.move t m)

theorem Spins.reach {ok : Annals α → Nat → Move α → Prop} {k : Nat} {b : Annals α} (h : a.Spins ok id k b)
    (hr : a.Reach) : b.Reach := by
  induction h with
  | here => exact hr
  | move t m _ hm _ ih => exact .move t m ih hm

/-- The operation of `t` on `q` is over, or begins at most `n` more rounds. -/
def Owes (a : Annals α) (t id q n : Nat) : Prop :=
  id < a.nextId ∧ ((∀ u, id ∉ a.ids u) ∨ ∃ p, (id, p) ∈ a.entries t ∧ p.1.queue = q ∧ owed a.world.store p ≤ n)

theorem nextId_le (a : Annals α) (t : Nat) (m : Move α) : a.nextId ≤ (a.move t m).nextId := by
  dsimp only [Annals.move]
  split
  · exact Nat.le_succ _
  · exact Nat.le_refl _

/-- An operation that begins gets a new id. -/
theorem deed?_began {r : Request α} (h : a.deed? t m = some (.began id q r)) : id = a.nextId := by
  cases m with
  | step =>
    obtain ⟨o, -, ho⟩ := Option.bind_eq_some_iff.mp h
    unfold Operation.deed? at ho
    split at ho
    · exact absurd rfl ((Spot.author?_deed? ho).2.2 _ _ _)
    · cases ho
    · cases ho
  | pop p =>
    obtain ⟨v, -, hv⟩ := Option.map_eq_some_iff.mp h
    cases hv
  | tryEnqueue p v memory => cases memory <;> cases h; rfl
  | _ => cases h <;> rfl

/-- It is the innermost operation that ends. -/
theorem deed?_ended {r : Outcome α} (h : a.deed? t m = some (.ended id r)) : id = (a.ids t).headD 0 := by
  cases m with
  | step =>
    obtain ⟨o, -, ho⟩ := Option.bind_eq_some_iff.mp h
    unfold Operation.deed? at ho
    split at ho
    · exact absurd rfl ((Spot.author?_deed? ho).2.1 _ _)
    · cases ho
    · cases ho; rfl
  | pop p =>
    obtain ⟨v, -, hv⟩ := Option.map_eq_some_iff.mp h
    cases hv
  | tryEnqueue p v memory => cases memory <;> cases h
  | _ => cases h

/-- An id that is gone does not come back. -/
theorem not_mem_move (hid : id < a.nextId) (h : ∀ u, id ∉ a.ids u) (t : Nat) (m : Move α) :
    ∀ u, id ∉ (a.move t m).ids u := by
  intro u hu
  by_cases e : u = t
  case neg => exact h u (move_ids_of_ne e ▸ hu)
  subst e
  rw [move_ids] at hu
  unfold refile at hu
  split at hu
  · rename_i i q r hd
    rcases List.mem_cons.mp hu with rfl | hu
    · exact Nat.lt_irrefl _ (deed?_began hd ▸ hid)
    · exact h u hu
  · exact h u (List.mem_of_mem_tail hu)
  · exact h u hu

/-- What one move does to the debts of an operation. -/
theorem Owes.move (h : a.Owes t id q n) (hr : a.Reach) (hm : a.world.may u m) (hwin : a.wins u m q → u = t) :
    ∃ k, a.begins u m id + k ≤ n ∧ (a.move u m).Owes t id q k := by
  have ht := hr.deedsAgree
  obtain ⟨lay, hk⟩ := hr.world.kept
  have hs := hk.toQueueInv
  obtain ⟨hid, hover | ⟨p, hp, rfl, hn⟩⟩ := h
  · have hzero := begins_of_not_mem (m := m) (hover u)
    exact ⟨0, by rw [hzero]; exact Nat.zero_le _,
      Nat.lt_of_lt_of_le hid (a.nextId_le u m), Or.inl (not_mem_move hid hover u m)⟩
  have hid' := Nat.lt_of_lt_of_le hid (a.nextId_le u m)
  obtain ⟨hids, hstack⟩ := mem_entries hp
  -- an operation that the move leaves as it is
  have hkeep : (id, p) ∈ (a.move u m).entries t → a.begins u m id = 0 →
      (a.wins u m p.1.queue → World.Waiting p) →
      ∃ k, a.begins u m id + k ≤ n ∧ (a.move u m).Owes t id p.1.queue k := fun hp' hzero hwait => by
    refine ⟨owed (a.move u m).world.store p, ?_, hid', Or.inr ⟨p, hp', rfl, Nat.le_refl _⟩⟩
    rw [hzero, Nat.zero_add]
    refine Nat.le_trans ?_ hn
    by_cases hw : a.wins u m p.1.queue
    · exact Nat.le_of_eq ((hwait hw).owed _ _)
    · exact owed_move hs hm hstack hw
  by_cases e : u = t
  case neg =>
    have hnot : id ∉ a.ids u := fun h => e (ht.apart.owner u t id h hids)
    exact hkeep (by rw [entries_of_ne (Ne.symm e)]; exact hp) (begins_of_not_mem hnot) fun hw => absurd (hwin hw) e
  subst e
  cases hr.turns hs hm with
  | rest hk hquiet =>
    exact hkeep (hk ▸ hp) (begins_of_not_accesses hquiet id) fun hw => absurd hw (not_wins_of_not_accesses hquiet _)
  | began e hk hquiet =>
    exact hkeep (hk ▸ List.mem_cons_of_mem _ hp) (begins_of_not_accesses hquiet id) fun hw =>
      absurd hw (not_wins_of_not_accesses hquiet _)
  | left e ho hids' hquiet =>
    rcases List.mem_cons.mp (ho ▸ hp) with rfl | hp'
    · refine ⟨0, by rw [begins_of_not_accesses hquiet]; exact Nat.zero_le _, hid', Or.inl fun v hv => ?_⟩
      by_cases e : v = u
      · subst e
        have hnd := ht.apart.nodup v
        rw [hids'] at hnd
        exact (List.nodup_cons.mp hnd).1 hv
      · exact e (ht.apart.owner v u id (move_ids_of_ne e ▸ hv) hids)
    · exact hkeep hp' (begins_of_not_accesses hquiet id) fun hw => absurd hw (not_wins_of_not_accesses hquiet _)
  | turned i p₀ p' below ho hk hbelow hqueue howed =>
    rcases List.mem_cons.mp (ho ▸ hp) with e | hp'
    · cases e
      exact ⟨_, Nat.le_trans howed hn, hid', Or.inr ⟨p', hk ▸ List.mem_cons_self, hqueue, Nat.le_refl _⟩⟩
    · exact hkeep (hk ▸ List.mem_cons_of_mem _ hp') (hbelow _ hp').2 fun _ => (hbelow _ hp').1

/-- Nobody else wins a race on `q`. -/
def Unrivalled (t q : Nat) (a : Annals α) (u : Nat) (m : Move α) : Prop := a.wins u m q → u = t

/-- Only `t` goes on. -/
def Alone (t : Nat) (_ : Annals α) (u : Nat) (m : Move α) : Prop := u = t ∧ m = .step

theorem Spins.mono {ok ok' : Annals α → Nat → Move α → Prop} (hok : ∀ b u m, ok b u m → ok' b u m) {k : Nat}
    {b : Annals α} (h : a.Spins ok id k b) : a.Spins ok' id k b := by
  induction h with
  | here => exact .here
  | move u m _ hm hk ih => exact .move u m ih hm (hok _ u m hk)

/-- What it owed it has begun, or owes still. -/
theorem Spins.owes {k : Nat} {b : Annals α} (h : a.Spins (Unrivalled t q) id k b) (hr : a.Reach)
    (ho : a.Owes t id q n) : ∃ l, k + l ≤ n ∧ b.Owes t id q l := by
  induction h with
  | here => exact ⟨n, Nat.le_of_eq (Nat.zero_add n), ho⟩
  | move u m hrun hm hok ih =>
    obtain ⟨l, hl, ho⟩ := ih
    obtain ⟨l', hl', ho'⟩ := ho.move (hrun.reach hr) hm hok
    exact ⟨l', by omega, ho'⟩

/-- Two rounds are the most. -/
theorem Spins.le_two {k : Nat} {b : Annals α} {p : Operation α × Bool}
    (h : a.Spins (Unrivalled t p.1.queue) id k b) (hr : a.Reach) (hp : (id, p) ∈ a.entries t) : k ≤ 2 := by
  have hid := hr.deedsAgree.fresh t id (mem_entries hp).1
  obtain ⟨l, hl, -⟩ := h.owes hr ⟨hid, Or.inr ⟨p, hp, rfl, owed_le _ _⟩⟩
  omega

end Annals

/-! ## Getting through -/

/-- The request of the operation has had its effect: the value is appended or a value removed, or a
    dequeue has returned nothing. -/
def Request.Settled (id q : Nat) (ds : List (Deed α)) : Request α → Prop
  | .enqueue v => .appended id q v ∈ ds
  | .dequeue => (∃ v, .removed id q v ∈ ds) ∨ .ended id (.dequeued none) ∈ ds
  | .isEmpty => ∃ b, .ended id (.emptiness b) ∈ ds

/-- An operation that ended has settled what it was begun for. -/
theorem Account.settled {id q : Nat} {ds : List (Deed α)} {r : Request α} {x : Outcome α} (h : Account id ds x)
    (hb : .began id q r ∈ ds) : r.Settled id q ds := by
  have hb : .began id q r ∈ deedsOf id ds := List.mem_filter.mpr ⟨hb, by simp [Deed.author?, Deed.isLook]⟩
  have hmem : ∀ d ∈ deedsOf id ds, d ∈ ds := fun d => mem_of_mem_deedsOf
  cases x with
  | enqueued =>
    obtain ⟨p, v, h⟩ := h
    obtain ⟨rfl, rfl⟩ : q = p ∧ r = .enqueue v := by simpa [h] using hb
    exact hmem _ (by simp [h])
  | dequeued w =>
    cases w with
    | some v =>
      obtain ⟨p, h⟩ := h
      obtain ⟨rfl, rfl⟩ : q = p ∧ r = .dequeue := by simpa [h] using hb
      exact Or.inl ⟨v, hmem _ (by simp [h])⟩
    | none =>
      obtain ⟨p, h, -⟩ := h
      obtain ⟨rfl, rfl⟩ : q = p ∧ r = .dequeue := by simpa [h] using hb
      exact Or.inr (hmem _ (by simp [h]))
  | emptiness b =>
    obtain ⟨p, h⟩ := h
    obtain ⟨rfl, rfl⟩ : q = p ∧ r = .isEmpty := by simpa [h] using hb
    exact ⟨b, hmem _ (by simp [h])⟩

theorem Progress.began {s : Store α} {ds : List (Deed α)} {id q : Nat} {st : Stage α} (h : Progress s ds id q st) :
    ∃ r, .began id q r ∈ ds := by
  have hfirst : ∀ {r rest}, deedsOf id ds = .began id q r :: rest → ∃ r, .began id q r ∈ ds := fun h =>
    ⟨_, mem_of_mem_deedsOf (h ▸ List.mem_cons_self)⟩
  cases st with
  | waiting n => obtain ⟨v, -, h⟩ := h; exact hfirst h
  | linked => obtain ⟨v, h⟩ := h; exact hfirst h
  | unfound => exact hfirst h.1
  | taking n => obtain ⟨v, -, h⟩ := h; exact hfirst h
  | _ => exact hfirst h

namespace Annals

variable {a b : Annals α} {t id k : Nat} {ok : Annals α → Nat → Move α → Prop}

theorem Spins.deeds (h : a.Spins ok id k b) {d : Deed α} (hd : d ∈ a.deeds) : d ∈ b.deeds := by
  induction h with
  | here => exact hd
  | move u m _ _ _ ih => exact List.mem_append_left _ ih

/-- An operation is under way until it ends. -/
theorem Spins.ended (h : a.Spins ok id k b) {i : Nat} (hi : i ∈ a.ids t) :
    i ∈ b.ids t ∨ ∃ r, .ended i r ∈ b.deeds := by
  induction h with
  | here => exact Or.inl hi
  | @move _ b u m _ _ _ ih =>
    rcases ih with ih | ⟨r, ih⟩
    case inr => exact Or.inr ⟨r, List.mem_append_left _ ih⟩
    by_cases e : t = u
    case neg => exact Or.inl (by rwa [move_ids_of_ne e])
    subst e
    rw [move_ids]
    unfold refile
    split
    · exact Or.inl (List.mem_cons_of_mem _ ih)
    · rename_i x r hd
      obtain ⟨y, ys, hids⟩ := List.exists_cons_of_ne_nil (List.ne_nil_of_mem ih)
      have hx := deed?_ended hd
      rw [hids] at hx ih ⊢
      rcases List.mem_cons.mp ih with rfl | ih
      · refine Or.inr ⟨r, List.mem_append_right _ ?_⟩
        rw [hd, hx]
        exact List.mem_singleton_self _
      · exact Or.inl ih
    · exact Or.inl ih

/-- A thread that goes on alone comes to rest. -/
theorem Spins.rests (hr : a.Reach) (t id : Nat) : ∃ k b, a.Spins (Alone t) id k b ∧ b.world.rests t := by
  have hrun : ∀ n k b, a.Spins (Alone t) id k b → b.world.due t ≤ n →
      ∃ k b, a.Spins (Alone t) id k b ∧ b.world.rests t := by
    intro n
    induction n with
    | zero =>
      intro k b h hn
      refine ⟨k, b, h, Classical.byContradiction fun hrest => ?_⟩
      exact absurd ((h.reach hr).world.due_step hrest) (by omega)
    | succ n ih =>
      intro k b h hn
      by_cases hrest : b.world.rests t
      · exact ⟨k, b, h, hrest⟩
      · have hlt := (h.reach hr).world.due_step hrest
        exact ih _ _ (h.move t .step hrest ⟨rfl, rfl⟩) (by
          rw [show (b.move t .step).world = b.world.move t .step from rfl]
          omega)
  exact hrun _ 0 a .here (Nat.le_refl _)

theorem Filed.ids_of_rests (hf : a.Filed) (h : a.world.rests t) : a.ids t = [] := by
  have hstack : a.world.stack t = [] := World.stack_eq h.1 h.2
  exact List.length_eq_zero_iff.mp (by rw [hf.length, hstack]; rfl)

/-! ## Lock-freedom -/

/-- Whoever starts over does so because another one got on, and whoever is alone gets through. -/
structure LockFree (a : Annals α) : Prop where
  /-- Until an operation of another thread wins a race on its queue, an operation begins two more
      rounds at most. -/
  bounded : ∀ t id p, (id, p) ∈ a.entries t → ∀ k b, a.Spins (Unrivalled t p.1.queue) id k b → k ≤ 2
  /-- By the steps of its own thread alone it gets through with two more rounds at most. -/
  alone : ∀ t id p, (id, p) ∈ a.entries t → ∃ r, .began id p.1.queue r ∈ a.deeds ∧
    ∃ k b, k ≤ 2 ∧ a.Spins (Alone t) id k b ∧ r.Settled id p.1.queue b.deeds

/-- However many operations are under way, and wherever each of them stands. -/
theorem Reach.lockFree (h : a.Reach) : a.LockFree where
  bounded := fun t id p hp k b hrun => hrun.le_two h hp
  alone := fun t id p hp => by
    obtain ⟨r, hr⟩ := (h.deedsAgree.progress t _ hp).began
    obtain ⟨k, b, hrun, hrest⟩ := Spins.rests h t id
    have hb := (hrun.reach h).deedsAgree
    refine ⟨r, hr, k, b, (hrun.mono fun b u m hok _ => hok.1).le_two h hp, hrun, ?_⟩
    rcases hrun.ended (mem_entries hp).1 with hi | ⟨x, hx⟩
    · rw [hb.ids_of_rests hrest] at hi
      cases hi
    · exact (hb.complete id x hx).settled (hrun.deeds hr)

/-- Thread 1 was about to link 9 behind the sentinel when thread 0 linked 8 there, and the tail has not
    been swung yet. -/
def stalledRun : List (Nat × Move Nat) :=
  [(0, .newQueue .standard), (1, .tryEnqueue 0 9 true)] ++ List.replicate 5 (1, .step) ++
    [(0, .tryEnqueue 0 8 true)] ++ List.replicate 6 (0, .step)

theorem stalledRun_plays : (({} : Annals Nat).play stalledRun).isSome = true := by decide +kernel

def stalledEnd : Annals Nat := (({} : Annals Nat).play stalledRun).get stalledRun_plays

theorem stalledEnd_reached : stalledEnd.Reach := .of_play .start (Option.some_get stalledRun_plays).symm

/-- Thread 1 starts over twice: once to move the tail along, and once to link. -/
theorem stalledEnd_lockFree : stalledEnd.ids 1 = [0] ∧
    (stalledEnd.world.operation 1).map (·.rounds stalledEnd.world.store) = some 2 ∧ stalledEnd.LockFree := by
  have hids : stalledEnd.ids 1 = [0] := by decide +kernel
  have hrounds : (stalledEnd.world.operation 1).map (·.rounds stalledEnd.world.store) = some 2 := by decide +kernel
  exact ⟨hids, hrounds, stalledEnd_reached.lockFree⟩

end Annals

end EpochQueue.Fifo
