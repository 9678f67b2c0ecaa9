/-
  EpochQueue.Proofs.Fifo.Places — where the pointers that an operation has read stand.

  An operation holds pointers read some time ago. Each of them stood at a place of the layout
  then, and links keep their places, so `Spot.Fits` can say where: a tail seen before a next link
  is right in front of it, a head seen before a tail is not behind it, and a head is about to be
  swung only from a place before the tail. No pointer stands before the place `b` at which the
  head was when the operation got its guard.

  `Laid.access` is the one lemma about accesses: each makes the layout grow to one where the new
  point fits, and only the two that win a race for a link's next or for the head change what the
  queue holds.
-/

import EpochQueue.Proofs.Fifo.Layout
import EpochQueue.Fifo.Operation

namespace EpochQueue.Fifo

variable {α : Type}

def Spot.Fits (L : Layout) (b : Nat) : Spot → Prop
  | .enqueue _ .loadTail | .dequeue .loadHead | .isEmpty .loadHead => True
  | .enqueue _ (.loadNext tail) | .enqueue _ (.link tail) => ∃ i, b ≤ i ∧ L.nodes[i]? = some tail
  | .enqueue _ (.reloadTail tail next) =>
    ∃ i, b ≤ i ∧ L.nodes[i]? = some tail ∧ ∀ n, next = some n → L.nodes[i + 1]? = some n
  | .enqueue _ (.helpTail tail next) | .dequeue (.helpTail tail next) =>
    ∃ i : Nat, L.nodes[i]? = some tail ∧ L.nodes[i + 1]? = some next
  | .enqueue node (.swingTail tail) => ∃ i : Nat, L.nodes[i]? = some tail ∧ L.nodes[i + 1]? = some node
  | .dequeue (.loadTail head) => ∃ i, b ≤ i ∧ i ≤ L.head ∧ L.nodes[i]? = some head
  | .dequeue (.loadNext head tail) => ∃ i j, b ≤ i ∧ i ≤ L.head ∧ i ≤ j ∧ j ≤ L.tail ∧
    L.nodes[i]? = some head ∧ L.nodes[j]? = some tail
  | .dequeue (.reloadHead head tail next) => ∃ i j, b ≤ i ∧ i ≤ L.head ∧ i ≤ j ∧ j ≤ L.tail ∧
    L.nodes[i]? = some head ∧ L.nodes[j]? = some tail ∧ ∀ n, next = some n → L.nodes[i + 1]? = some n
  | .dequeue (.swingHead head next) => ∃ i, b ≤ i ∧ i ≤ L.head ∧ i < L.tail ∧
    L.nodes[i]? = some head ∧ L.nodes[i + 1]? = some next
  | .isEmpty (.loadNext head) => ∃ i, b ≤ i ∧ L.nodes[i]? = some head

def Point.Fits (L : Layout) (b : Nat) : Point α → Prop
  | .access spot => spot.Fits L b
  | .take head next => ∃ i, b ≤ i ∧ i < L.head ∧ L.nodes[i]? = some head ∧ L.nodes[i + 1]? = some next
  | .leave _ => True

/-- The link waits to be linked in `q`. -/
structure Store.Waits (s : Store α) (q n : Nat) (v : α) : Prop where
  bound : n < s.nextLink
  home : (s.link n).home = q
  next : (s.link n).next = none
  value : (s.link n).value = some v

section

variable {L L' : Layout} {b : Nat}

/-- Places are kept when the layout grows. -/
theorem Spot.Fits.grows {spot : Spot} (h : spot.Fits L b) (hg : L.Grows L') : spot.Fits L' b := by
  have at' := fun {i n : Nat} (hi : L.nodes[i]? = some n) => hg.getElem? hi
  rcases spot with ⟨node, _ | t | ⟨t, nx⟩ | ⟨t, n⟩ | t | t⟩ | (_ | h | ⟨h, t⟩ | ⟨h, t, nx⟩ | ⟨t, n⟩ | ⟨h, n⟩) | (_ | h)
  · trivial
  · obtain ⟨i, hb, hi⟩ := h
    exact ⟨i, hb, at' hi⟩
  · obtain ⟨i, hb, hi, hn⟩ := h
    exact ⟨i, hb, at' hi, fun n e => at' (hn n e)⟩
  · obtain ⟨i, hi, hn⟩ := h
    exact ⟨i, at' hi, at' hn⟩
  · obtain ⟨i, hb, hi⟩ := h
    exact ⟨i, hb, at' hi⟩
  · obtain ⟨i, hi, hn⟩ := h
    exact ⟨i, at' hi, at' hn⟩
  · trivial
  · obtain ⟨i, hb, hh, hi⟩ := h
    exact ⟨i, hb, Nat.le_trans hh hg.head, at' hi⟩
  · obtain ⟨i, j, hb, hh, hij, ht, hi, hj⟩ := h
    exact ⟨i, j, hb, Nat.le_trans hh hg.head, hij, Nat.le_trans ht hg.tail, at' hi, at' hj⟩
  · obtain ⟨i, j, hb, hh, hij, ht, hi, hj, hn⟩ := h
    exact ⟨i, j, hb, Nat.le_trans hh hg.head, hij, Nat.le_trans ht hg.tail, at' hi, at' hj, fun n e => at' (hn n e)⟩
  · obtain ⟨i, hi, hn⟩ := h
    exact ⟨i, at' hi, at' hn⟩
  · obtain ⟨i, hb, hh, ht, hi, hn⟩ := h
    exact ⟨i, hb, Nat.le_trans hh hg.head, Nat.lt_of_lt_of_le ht hg.tail, at' hi, at' hn⟩
  · trivial
  · obtain ⟨i, hb, hi⟩ := h
    exact ⟨i, hb, at' hi⟩

theorem Point.Fits.grows {p : Point α} (h : p.Fits L b) (hg : L.Grows L') : p.Fits L' b := by
  cases p with
  | access spot => exact Spot.Fits.grows h hg
  | take hd n =>
    obtain ⟨i, hb, hh, hi, hn⟩ := h
    exact ⟨i, hb, Nat.lt_of_lt_of_le hh hg.head, hg.getElem? hi, hg.getElem? hn⟩
  | leave r => trivial

/-- What an operation touches next stands at a place not before `b`. -/
theorem Point.Fits.touches {p : Point α} (h : p.Fits L b) {n : Nat} (hn : n ∈ p.touches) :
    ∃ i, b ≤ i ∧ L.nodes[i]? = some n := by
  rcases p with ⟨⟨node, _ | t | ⟨t, nx⟩ | ⟨t, m⟩ | t | t⟩ | (_ | hd | ⟨hd, t⟩ | ⟨hd, t, nx⟩ | ⟨t, m⟩ | ⟨hd, m⟩) |
    (_ | hd)⟩ | ⟨hd, m⟩ | r <;> cases hn
  case access.enqueue.loadNext.head => exact h
  case access.enqueue.link.head => exact h
  case access.dequeue.loadNext.head => obtain ⟨i, j, hb, -, -, -, hi, -⟩ := h; exact ⟨i, hb, hi⟩
  case access.isEmpty.loadNext.head => exact h
  case take.head => obtain ⟨i, hb, -, -, hm⟩ := h; exact ⟨i + 1, Nat.le_succ_of_le hb, hm⟩
  all_goals rename_i h'; cases h'

end

/-! ## Accesses -/

namespace Laid

variable {s s' : Store α} {q n b : Nat} {L L' : Layout}

/-- The access moves at most the tail. -/
structure Calm (s s' : Store α) (q : Nat) (L L' : Layout) : Prop where
  laid : Laid s' q L'
  grows : L.Grows L'
  nodes : L'.nodes = L.nodes
  head : L'.head = L.head
  off : Off s s' q L.nodes
  link : ∀ n, s'.link n = s.link n

theorem Calm.refl (hl : Laid s q L) : Calm s s q L L :=
  ⟨hl, .refl L, rfl, rfl, .refl s q _, fun _ => rfl⟩

theorem Calm.values (hc : Calm s s' q L L') (hl : Laid s q L) : s'.values q = s.values q := by
  rw [hc.laid.values_eq, hl.values_eq, hc.nodes, hc.head]
  exact List.filterMap_congr fun n _ => by rw [hc.link]

/-- The tail moves from a link to the next one, or not at all. -/
theorem casTail (hl : Laid s q L) {i seen new : Nat} (hi : L.nodes[i]? = some seen)
    (hn : L.nodes[i + 1]? = some new) : ∃ L', Calm s (s.casTail q seen new).2 q L L' := by
  unfold Store.casTail
  by_cases e : (s.queue q).tail = seen
  · rw [if_pos e]
    have hit : i = L.tail := hl.place hi (e ▸ hl.tail)
    refine ⟨_, hl.swingTail (hit ▸ hn), ⟨List.prefix_refl _, Nat.le_refl _, Nat.le_succ _⟩, rfl, rfl,
      ⟨Nat.le_refl _, rfl, fun p hp => ?_, fun p hp => ?_, fun _ _ => rfl⟩, fun _ => rfl⟩ <;>
      rw [Store.queue_modifyQueue, if_neg hp]
  · rw [if_neg e]
    exact ⟨L, Calm.refl hl⟩

end Laid

/-! ## Stages -/

/-- The access wins the race that changes what the queue holds. -/
def Spot.wins : Spot → Access → Bool
  | .enqueue _ (.link _), .cas true | .dequeue (.swingHead _ _), .cas true => true
  | _, _ => false

/-- How far an operation has come, as far as it matters to the queue's contents. -/
inductive Stage (α : Type) where
  /-- An enqueue has not linked its link yet. -/
  | waiting (node : Nat)
  | linked
  /-- A dequeue has found nothing to take yet. -/
  | looking
  /-- Nothing followed the head that it saw. -/
  | unfound
  /-- It has swung the head to this link and has yet to take the value. -/
  | taking (next : Nat)
  | taken (v : α)
  | asking

def Point.stage : Point α → Stage α
  | .access (.enqueue _ (.swingTail _)) | .leave .enqueued => .linked
  | .access (.enqueue node _) => .waiting node
  | .access (.dequeue (.reloadHead _ _ none)) | .leave (.dequeued none) => .unfound
  | .access (.dequeue _) => .looking
  | .take _ next => .taking next
  | .leave (.dequeued (some v)) => .taken v
  | .access (.isEmpty _) | .leave (.emptiness _) => .asking

/-- The head has reached the link that a value is about to be taken from. -/
theorem Point.Fits.taking {p : Point α} {L : Layout} {b n : Nat} (h : p.Fits L b) (hs : p.stage = .taking n) :
    ∃ i, i ≤ L.head ∧ L.nodes[i]? = some n := by
  unfold Point.stage at hs
  split at hs <;> cases hs
  obtain ⟨i, -, hi, -, hn⟩ := h
  exact ⟨i + 1, hi, hn⟩

/-- What an access comes to, in the queue that it is made in and for the operation that makes it. -/
structure Served (s : Store α) (o : Operation α) (spot : Spot) (L L' : Layout) : Prop where
  laid : Laid (s.access o spot).store o.queue L'
  grows : L.Grows L'
  off : Laid.Off s (s.access o spot).store o.queue L.nodes
  kept : ∀ n, ((s.access o spot).store.link n).value = (s.link n).value ∧
    ((s.access o spot).store.link n).freed = (s.link n).freed
  fits : ∀ b, b ≤ L.head → spot.Fits L b → (s.access o spot).op.point.Fits L' b
  queue : (s.access o spot).op.queue = o.queue
  guard : (s.access o spot).op.guard = o.guard

namespace Served

variable {s : Store α} {o : Operation α} {spot : Spot} {L L' : Layout}

/-- Nobody wins anything. A look that finds nothing behind the head finds the queue empty. -/
structure Idle (s : Store α) (o : Operation α) (spot : Spot) (L L' : Layout) : Prop where
  nodes : L'.nodes = L.nodes
  wins : spot.wins (s.access o spot).access = false
  values : (s.access o spot).store.values o.queue = s.values o.queue
  stage : (s.access o spot).op.point.stage = (Point.access spot : Point α).stage ∨
    (Point.access spot : Point α).stage = .unfound ∧ (s.access o spot).op.point.stage = .looking ∨
    (∃ head tail, spot = .dequeue (.loadNext head tail)) ∧ (s.access o spot).op.point.stage = .unfound ∧
      s.values o.queue = []

/-- The operation's own link joins at the end. -/
def Appends (s : Store α) (o : Operation α) (spot : Spot) (L L' : Layout) : Prop :=
  ∃ node tail v, spot = .enqueue node (.link tail) ∧ (s.access o spot).access = .cas true ∧
    (s.access o spot).op.point.stage = .linked ∧ L'.nodes = L.nodes ++ [node] ∧ (s.link node).value = some v ∧
    (s.access o spot).store.values o.queue = s.values o.queue ++ [v]

/-- The head moves on, over the front value. -/
def Removes (s : Store α) (o : Operation α) (spot : Spot) (L L' : Layout) : Prop :=
  ∃ head next v, spot = .dequeue (.swingHead head next) ∧ (s.access o spot).access = .cas true ∧
    (s.access o spot).op.point = .take head next ∧ L'.nodes = L.nodes ∧ L.nodes[L.head]? = some head ∧
    L'.head = L.head + 1 ∧ (s.link next).value = some v ∧
    s.values o.queue = v :: (s.access o spot).store.values o.queue

/-- An enqueue that still has to link its link has not done so. -/
theorem waiting (hf : Idle s o spot L L' ∨ Appends s o spot L L' ∨ Removes s o spot L L') {n : Nat}
    (hn : (s.access o spot).op.point.stage = .waiting n) :
    (Point.access spot : Point α).stage = .waiting n ∧ L'.nodes = L.nodes := by
  rcases hf with hf | ⟨_, _, _, -, -, hst, -⟩ | ⟨_, _, _, -, -, hpt, -⟩
  · rcases hf.stage with h | ⟨-, h⟩ | ⟨-, h, -⟩
    · exact ⟨h ▸ hn, hf.nodes⟩
    · rw [hn] at h; cases h
    · rw [hn] at h; cases h
  · rw [hn] at hst; cases hst
  · rw [hpt] at hn; cases hn

/-- A dequeue that is about to take a value has just swung the head over its link. -/
theorem taking (hf : Idle s o spot L L' ∨ Appends s o spot L L' ∨ Removes s o spot L L') {head next : Nat}
    (hp : (s.access o spot).op.point = .take head next) : L.nodes[L.head]? = some head := by
  have hst : (s.access o spot).op.point.stage = .taking next := by rw [hp]; rfl
  rcases hf with hf | ⟨_, _, _, -, -, h, -⟩ | ⟨_, _, _, -, -, hpt, -, hhead, -⟩
  · rcases hf.stage with h | ⟨-, h⟩ | ⟨-, h, -⟩
    · rw [hst] at h
      rcases spot with ⟨_, _ | _ | _ | _ | _ | _⟩ | (_ | _ | _ | ⟨_, _, _ | _⟩ | _ | _) | _ <;> cases h
    · rw [hst] at h; cases h
    · rw [hst] at h; cases h
  · rw [hst] at h; cases h
  · rw [hp] at hpt
    cases hpt
    exact hhead

/-- All that an access can be. -/
def Fine (s : Store α) (o : Operation α) (spot : Spot) (L : Layout) : Prop :=
  ∃ L', Served s o spot L L' ∧ (Idle s o spot L L' ∨ Appends s o spot L L' ∨ Removes s o spot L L')

theorem of_calm {M : Layout} (hl : Laid s o.queue L) (hc : Laid.Calm s (s.access o spot).store o.queue L M)
    (hf : ∀ b, b ≤ L.head → spot.Fits L b → (s.access o spot).op.point.Fits M b)
    (hq : (s.access o spot).op.queue = o.queue) (hg : (s.access o spot).op.guard = o.guard)
    (hw : spot.wins (s.access o spot).access = false)
    (hst : (s.access o spot).op.point.stage = (Point.access spot : Point α).stage ∨
      (Point.access spot : Point α).stage = .unfound ∧ (s.access o spot).op.point.stage = .looking ∨
      (∃ head tail, spot = .dequeue (.loadNext head tail)) ∧ (s.access o spot).op.point.stage = .unfound ∧
        s.values o.queue = []) : Fine s o spot L :=
  ⟨M, ⟨hc.laid, hc.grows, hc.off, fun n => by rw [hc.link]; exact ⟨rfl, rfl⟩, hf, hq, hg⟩,
    Or.inl ⟨hc.nodes, hw, hc.values hl, hst⟩⟩

theorem of_casTail (hl : Laid s o.queue L) {i seen new : Nat} (hi : L.nodes[i]? = some seen)
    (hn : L.nodes[i + 1]? = some new) (hs : (s.access o spot).store = (s.casTail o.queue seen new).2)
    (hf : ∀ L' b, (s.access o spot).op.point.Fits L' b) (hq : (s.access o spot).op.queue = o.queue)
    (hg : (s.access o spot).op.guard = o.guard) (hw : spot.wins (s.access o spot).access = false)
    (hst : (s.access o spot).op.point.stage = (Point.access spot : Point α).stage) : Fine s o spot L := by
  obtain ⟨L', hc⟩ := hl.casTail hi hn
  exact of_calm hl (hs ▸ hc) (fun b _ _ => hf L' b) hq hg hw (Or.inl hst)

theorem link (hl : Laid s o.queue L) {node t b : Nat} {v : α} (hf : Spot.Fits L b (.enqueue node (.link t)))
    (hnew : node ∉ L.nodes) (hn : s.Waits o.queue node v) : Fine s o (.enqueue node (.link t)) L := by
  obtain ⟨i, -, hi⟩ := hf
  cases hnext : (s.link t).next with
  | some m =>
    have hcas : s.casNext t node = (false, s) := by
      unfold Store.casNext
      simp only [hnext]
    have hacc : s.access o (.enqueue node (.link t)) =
        { access := .cas false, pause := o.backoff.wait.1,
          op := { o with backoff := o.backoff.wait.2 }.goto (.enqueue node .loadTail), store := s } := by
      simp only [Store.access, Store.accessEnqueue, hcas, Bool.false_eq_true, if_false]
    refine of_calm (M := L) hl ?_ (fun _ _ _ => ?_) ?_ ?_ ?_ (Or.inl ?_) <;> rw [hacc]
    · exact .refl hl
    · trivial
    all_goals rfl
  | none =>
    have hcas : s.casNext t node =
        (true, { s with links := s.links.modify t fun l => { l with next := some node } }) := by
      unfold Store.casNext
      simp only [hnext]
    have hacc : s.access o (.enqueue node (.link t)) =
        { access := .cas true, op := o.goto (.enqueue node (.swingTail t)),
          store := { s with links := s.links.modify t fun l => { l with next := some node } } } := by
      simp only [Store.access, Store.accessEnqueue, hcas, if_true]
    have hlen := hl.last_of_next_none hi hnext
    have hl' := hl.append (Laid.mem hi) hnext hnew hn.bound hn.home hn.value hn.next
    have hlink : ∀ m, Store.link { s with links := s.links.modify t fun l => { l with next := some node } } m =
        if m = t then { s.link t with next := some node } else s.link m := fun m => Table.get_modify _ _ _ _
    have hnt : node ≠ t := fun e => hnew (e ▸ Laid.mem hi)
    refine ⟨{ L with nodes := L.nodes ++ [node] }, ⟨?_, ⟨List.prefix_append _ _, Nat.le_refl _, Nat.le_refl _⟩, ?_,
      fun m => ?_, fun _ _ _ => ?_, ?_, ?_⟩, Or.inr (Or.inl ⟨node, t, v, rfl, ?_, ?_, rfl, hn.value, ?_⟩)⟩ <;> rw [hacc]
    · exact hl'
    · refine ⟨Nat.le_refl _, rfl, fun _ _ => rfl, fun _ _ => rfl, fun m hm => ?_⟩
      rw [hlink, if_neg]
      rintro rfl
      exact hm (Laid.mem hi)
    · rw [hlink]
      split
      · subst m; exact ⟨rfl, rfl⟩
      · exact ⟨rfl, rfl⟩
    · refine ⟨i, ?_, ?_⟩
      · rw [List.getElem?_append_left (L.lt_of_getElem? hi), hi]
      · rw [List.getElem?_append_right (Nat.le_of_eq hlen), hlen, Nat.sub_self]; rfl
    · rfl
    · rfl
    · rfl
    · exact hl.values_append hnt hn.value hl'

theorem enqueue (hl : Laid s o.queue L) {node b : Nat} {place : EnqueueAt} (hf : Spot.Fits L b (.enqueue node place))
    (hn : ∀ t, place = .link t → node ∉ L.nodes ∧ ∃ v, s.Waits o.queue node v) : Fine s o (.enqueue node place) L := by
  cases place with
  | loadTail =>
    exact of_calm hl (.refl hl) (fun b hb _ => ⟨L.tail, Nat.le_trans hb hl.order, hl.tail⟩) rfl rfl rfl (Or.inl rfl)
  | loadNext t =>
    refine of_calm hl (.refl hl) (fun b _ hf => ?_) rfl rfl rfl (Or.inl rfl)
    obtain ⟨i, hbi, hi⟩ := hf
    exact ⟨i, hbi, hi, fun n e => (hl.next i t hi).symm.trans e⟩
  | reloadTail t nx =>
    by_cases e : (s.queue o.queue).tail = t
    · cases nx with
      | none =>
        have hacc : s.access o (.enqueue node (.reloadTail t none)) =
            { access := .load false, op := o.goto (.enqueue node (.link t)), store := s } := by
          simp [Store.access, Store.accessEnqueue, e]
        refine of_calm (M := L) hl ?_ (fun b _ hf => ?_) ?_ ?_ ?_ (Or.inl ?_) <;> rw [hacc]
        · exact .refl hl
        · obtain ⟨i, hbi, hi, -⟩ := hf
          exact ⟨i, hbi, hi⟩
        all_goals rfl
      | some n =>
        have hacc : s.access o (.enqueue node (.reloadTail t (some n))) =
            { access := .load false, op := o.goto (.enqueue node (.helpTail t n)), store := s } := by
          simp [Store.access, Store.accessEnqueue, e]
        refine of_calm (M := L) hl ?_ (fun b _ hf => ?_) ?_ ?_ ?_ (Or.inl ?_) <;> rw [hacc]
        · exact .refl hl
        · obtain ⟨i, -, hi, hnx⟩ := hf
          exact ⟨i, hi, hnx n rfl⟩
        all_goals rfl
    · have hacc : s.access o (.enqueue node (.reloadTail t nx)) =
          { access := .load false, op := o.goto (.enqueue node .loadTail), store := s } := by
        simp [Store.access, Store.accessEnqueue, e]
      refine of_calm (M := L) hl ?_ (fun _ _ _ => ?_) ?_ ?_ ?_ (Or.inl ?_) <;> rw [hacc]
      · exact .refl hl
      · trivial
      all_goals rfl
  | helpTail t n =>
    obtain ⟨i, hi, hn⟩ := hf
    exact of_casTail hl hi hn rfl (fun _ _ => trivial) rfl rfl rfl rfl
  | link t =>
    obtain ⟨hnew, v, hv⟩ := hn t rfl
    exact link hl hf hnew hv
  | swingTail t =>
    obtain ⟨i, hi, hn⟩ := hf
    exact of_casTail hl hi hn rfl (fun _ _ => trivial) rfl rfl rfl rfl

theorem swingHead (hl : Laid s o.queue L) {h n b : Nat} (hf : Spot.Fits L b (.dequeue (.swingHead h n))) :
    Fine s o (.dequeue (.swingHead h n)) L := by
  by_cases e : (s.queue o.queue).head = h
  · obtain ⟨i, -, -, hit, hi, hn⟩ := hf
    have hacc : s.access o (.dequeue (.swingHead h n)) =
        { access := .cas true, op := { o with point := .take h n },
          store := s.modifyQueue o.queue fun x => { x with head := n } } := by
      simp [Store.access, Store.accessDequeue, Store.casHead, e]
    cases hl.place hi (e ▸ hl.head)
    have hl' := hl.swingHead hit hn
    obtain ⟨v, hv⟩ := hl.value _ n (Nat.lt_succ_self _) hn
    refine ⟨{ L with head := L.head + 1 }, ⟨?_, ⟨List.prefix_refl _, Nat.le_succ _, Nat.le_refl _⟩, ?_, fun m => ?_,
      fun b hb _ => ?_, ?_, ?_⟩, Or.inr (Or.inr ⟨h, n, v, rfl, ?_, ?_, rfl, hi, rfl, hv, ?_⟩)⟩ <;> rw [hacc]
    · exact hl'
    · refine ⟨Nat.le_refl _, rfl, fun p hp => ?_, fun p hp => ?_, fun _ _ => rfl⟩ <;>
        rw [Store.queue_modifyQueue, if_neg hp]
    · exact ⟨rfl, rfl⟩
    · exact ⟨L.head, hb, Nat.lt_succ_self _, hi, hn⟩
    · rw [hl.values_cons hn hv, hl'.values_eq]
      rfl
  · have hacc : s.access o (.dequeue (.swingHead h n)) =
        { access := .cas false, pause := o.backoff.wait.1,
          op := { o with backoff := o.backoff.wait.2 }.goto (.dequeue .loadHead), store := s } := by
      simp [Store.access, Store.accessDequeue, Store.casHead, e]
    refine of_calm (M := L) hl ?_ (fun _ _ _ => ?_) ?_ ?_ ?_ (Or.inl ?_) <;> rw [hacc]
    · exact .refl hl
    · trivial
    all_goals rfl

theorem reloadHead (hl : Laid s o.queue L) {h t : Nat} {nx : Option Nat} :
    Fine s o (.dequeue (.reloadHead h t nx)) L := by
  by_cases e : (s.queue o.queue).head = h
  · cases nx with
    | none =>
      have hacc : s.access o (.dequeue (.reloadHead h t none)) =
          { access := .load false, op := o.leave (.dequeued none), store := s } := by
        simp [Store.access, Store.accessDequeue, e]
      refine of_calm (M := L) hl ?_ (fun _ _ _ => ?_) ?_ ?_ ?_ (Or.inl ?_) <;> rw [hacc]
      · exact .refl hl
      · trivial
      all_goals rfl
    | some n =>
      by_cases et : h = t
      · have hacc : s.access o (.dequeue (.reloadHead h t (some n))) =
            { access := .load false, op := o.goto (.dequeue (.helpTail t n)), store := s } := by
          simp [Store.access, Store.accessDequeue, e, et]
        refine of_calm (M := L) hl ?_ (fun b _ hf => ?_) ?_ ?_ ?_ (Or.inl ?_) <;> rw [hacc]
        · exact .refl hl
        · obtain ⟨i, j, -, -, -, -, hi, -, hn⟩ := hf
          exact ⟨i, et ▸ hi, hn n rfl⟩
        all_goals rfl
      · have hacc : s.access o (.dequeue (.reloadHead h t (some n))) =
            { access := .load false, op := o.goto (.dequeue (.swingHead h n)), store := s } := by
          simp [Store.access, Store.accessDequeue, e, et]
        refine of_calm (M := L) hl ?_ (fun b _ hf => ?_) ?_ ?_ ?_ (Or.inl ?_) <;> rw [hacc]
        · exact .refl hl
        · -- head and tail differ, so the head seen stands before the tail seen
          obtain ⟨i, j, hbi, hih, hij, hjt, hi, hj, hn⟩ := hf
          have hne : i ≠ j := fun e' => et (Option.some.inj (hi.symm.trans (e' ▸ hj)))
          exact ⟨i, hbi, hih, by omega, hi, hn n rfl⟩
        all_goals rfl
  · have hacc : s.access o (.dequeue (.reloadHead h t nx)) =
        { access := .load false, op := o.goto (.dequeue .loadHead), store := s } := by
      simp [Store.access, Store.accessDequeue, e]
    refine of_calm (M := L) hl ?_ (fun _ _ _ => ?_) ?_ ?_ ?_ ?_ <;> rw [hacc]
    · exact .refl hl
    · trivial
    · rfl
    · rfl
    · rfl
    · cases nx with
      | none => exact Or.inr (Or.inl ⟨rfl, rfl⟩)
      | some n => exact Or.inl rfl

theorem lookNext (hl : Laid s o.queue L) {h t b : Nat} (hf : Spot.Fits L b (.dequeue (.loadNext h t))) :
    Fine s o (.dequeue (.loadNext h t)) L := by
  have hfits : ∀ b, Spot.Fits L b (.dequeue (.loadNext h t)) →
      Spot.Fits L b (.dequeue (.reloadHead h t (s.link h).next)) := by
    rintro b ⟨i, j, hbi, hih, hij, hjt, hi, hj⟩
    exact ⟨i, j, hbi, hih, hij, hjt, hi, hj, fun n e => (hl.next i h hi).symm.trans e⟩
  cases hnext : (s.link h).next with
  | some n =>
    have hacc : s.access o (.dequeue (.loadNext h t)) =
        { access := .load false, op := o.goto (.dequeue (.reloadHead h t (some n))), store := s } := by
      simp [Store.access, Store.accessDequeue, hnext]
    refine of_calm (M := L) hl ?_ (fun b _ hf => ?_) ?_ ?_ ?_ (Or.inl ?_) <;> rw [hacc]
    · exact .refl hl
    · exact hnext ▸ hfits b hf
    all_goals rfl
  | none =>
    have hacc : s.access o (.dequeue (.loadNext h t)) =
        { access := .load true, op := o.goto (.dequeue (.reloadHead h t none)), store := s } := by
      simp [Store.access, Store.accessDequeue, hnext]
    -- the head seen is the last link, so it is the head still
    obtain ⟨i, -, -, hih, -, -, hi, -⟩ := hf
    have hlen := hl.last_of_next_none hi hnext
    refine of_calm (M := L) hl ?_ (fun b _ hf => ?_) ?_ ?_ ?_
      (Or.inr (Or.inr ⟨⟨h, t, rfl⟩, ?_, hl.values_nil (by omega)⟩)) <;> rw [hacc]
    · exact .refl hl
    · exact hnext ▸ hfits b hf
    all_goals rfl

theorem dequeue (hl : Laid s o.queue L) {b : Nat} {place : DequeueAt} (hf : Spot.Fits L b (.dequeue place)) :
    Fine s o (.dequeue place) L := by
  cases place with
  | loadHead =>
    exact of_calm hl (.refl hl) (fun b hb _ => ⟨L.head, hb, Nat.le_refl _, hl.head⟩) rfl rfl rfl (Or.inl rfl)
  | loadTail h =>
    refine of_calm hl (.refl hl) (fun b _ hf => ?_) rfl rfl rfl (Or.inl rfl)
    obtain ⟨i, hbi, hih, hi⟩ := hf
    exact ⟨i, L.tail, hbi, hih, Nat.le_trans hih hl.order, Nat.le_refl _, hi, hl.tail⟩
  | loadNext h t => exact lookNext hl hf
  | reloadHead h t nx => exact reloadHead hl
  | helpTail t n =>
    obtain ⟨i, hi, hn⟩ := hf
    exact of_casTail hl hi hn rfl (fun _ _ => trivial) rfl rfl rfl rfl
  | swingHead h n => exact swingHead hl hf

end Served

/-- Every access leads from a layout that the operation fits into to another. -/
theorem Laid.access {s : Store α} {o : Operation α} {spot : Spot} {b : Nat} {L : Layout} (hl : Laid s o.queue L)
    (hf : spot.Fits L b)
    (hn : ∀ node t, spot = .enqueue node (.link t) → node ∉ L.nodes ∧ ∃ v, s.Waits o.queue node v) :
    Served.Fine s o spot L := by
  cases spot with
  | enqueue node place => exact Served.enqueue hl hf fun t e => hn node t (e ▸ rfl)
  | dequeue place => exact Served.dequeue hl hf
  | isEmpty place =>
    cases place with
    | loadHead => exact Served.of_calm hl (.refl hl) (fun b hb _ => ⟨L.head, hb, hl.head⟩) rfl rfl rfl (Or.inl rfl)
    | loadNext h => exact Served.of_calm hl (.refl hl) (fun _ _ _ => trivial) rfl rfl rfl (Or.inl rfl)

end EpochQueue.Fifo
