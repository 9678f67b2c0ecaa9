/-
  EpochQueue.Proofs.Reclaim.Calls — what a move does to the open calls of the thread that makes it.

  A move leaves the other threads alone (`thread_move_of_ne`). Pinning, retiring and flushing push
  one call with the given ticket. A call has a few steps to make, and one for each node that it
  destroys: a step brings the innermost call nearer to its answer, with the same guard under
  construction, or returns it to the holder of its ticket (`step_wanes`). `step_cases` is what is
  left of that where it does not matter how far a call has come.
-/

import EpochQueue.Proofs.Reclaim.Effects

namespace EpochQueue.Reclaim

variable {ν κ : Type}

def Purpose.isFlush : Purpose → Bool
  | .flush => true
  | .pin _ _ | .retire => false

namespace Phase

/-- The steps that a call has yet to make, beside one for each node that it destroys. -/
def left : Phase ν → Nat
  | .publish _ _ _ => 4
  | .advance _ => 3
  | .select _ _ => 2
  | .free _ _ _ => 1

def isFlush : Phase ν → Bool
  | .publish _ _ _ => false
  | .advance p | .select p _ | .free p _ _ => p.isFlush

theorem left_le (q : Phase ν) : q.left ≤ 4 := by cases q <;> simp [left]

theorem left_pos (q : Phase ν) : 1 ≤ q.left := by cases q <;> simp [left]

end Phase

namespace Domain

variable {d : Domain ν κ} {t u : Nat}

/-! ## Other threads -/

theorem thread_pin_of_ne (hu : u ≠ t) (k : κ) : (d.pin t k).thread u = d.thread u := by
  cases hh : d.handle? t with
  | some h =>
    cases hs : h.slot with
    | some tid => rw [thread_pin_of_slot hh hs, if_neg hu]
    | none => rw [thread_pin_of_no_slot hh hs, if_neg hu]
  | none => rw [thread_pin_of_gone hh, if_neg hu]

theorem thread_unpin_of_ne (hu : u ≠ t) (g : Guard) : (d.unpin t g).thread u = d.thread u := by
  cases hd : g.detached with
  | true => rw [thread_unpin_of_detached hd, if_neg hu]
  | false =>
    cases hh : d.handle? t with
    | some h => rw [thread_unpin_of_live hd hh, if_neg hu]
    | none => rw [thread_unpin_of_gone hd hh, if_neg hu]

theorem thread_retire_of_ne (hu : u ≠ t) (n : ν) (k : κ) : (d.retire t n k).thread u = d.thread u := by
  cases hh : d.handle? t with
  | some h => rw [thread_retire_of_handle n hh, if_neg hu]
  | none => rw [thread_retire_of_gone n hh, if_neg hu]

theorem thread_flush_of_ne (hu : u ≠ t) (k : κ) : (d.flush t k).thread u = d.thread u := by
  cases hh : d.handle? t with
  | some h => rw [thread_flush_of_handle hh, if_neg hu]
  | none => rw [thread_flush_of_gone hh, if_neg hu]

theorem thread_pending_of_ne (hu : u ≠ t) : (d.pending t).2.thread u = d.thread u := by
  cases hh : d.handle? t with
  | some h => rw [thread_pending_of_handle hh, if_neg hu]
  | none => rw [pending_of_gone hh]

theorem thread_exit_of_ne (hu : u ≠ t) : (d.exit t).thread u = d.thread u := by
  cases hh : (d.thread t).tenure with
  | live h => rw [thread_exit_of_live hh, if_neg hu]
  | unused => rw [exit_of_not_live fun h e => by rw [hh] at e; cases e]
  | gone => rw [exit_of_not_live fun h e => by rw [hh] at e; cases e]

theorem step_nil (hc : (d.thread t).calls = []) : d.step t = (d, .idle) := by
  unfold step
  simp only [hc]

theorem thread_step_of_ne (hu : u ≠ t) : (d.step t).1.thread u = d.thread u := by
  cases hc : (d.thread t).calls with
  | nil => rw [step_nil hc]
  | cons c rest =>
    rw [step_eq hc]
    rcases hp : c.phase with ⟨tid, e, b⟩ | p | ⟨p, g⟩ | ⟨p, todo, freed⟩
    · cases b with
      | true => simp only [thread_publish_of_detached hc, if_neg hu]
      | false =>
        cases hh : d.handle? t with
        | some h => simp only [thread_publish_of_handle hc hh, if_neg hu]
        | none => simp only [thread_publish_of_gone hc hh, if_neg hu]
    · simp only [thread_advance hc, if_neg hu]
    · cases hh : d.handle? t with
      | some h => simp only [thread_select_of_handle hc hh, if_neg hu]
      | none => simp only [thread_select_of_gone hc hh, if_neg hu]
    · cases todo with
      | cons n todo => simp only [thread_free hc, if_neg hu]
      | nil =>
        cases p with
        | pin tid b => simp only [thread_answer_pin, if_neg hu]
        | retire => simp only [thread_answer_of_pin?_none d t c.ticket freed (p := .retire) rfl, if_neg hu]
        | flush => simp only [thread_answer_of_pin?_none d t c.ticket freed (p := .flush) rfl, if_neg hu]

theorem thread_move_of_ne (hu : u ≠ t) (m : Move ν κ) : (d.move t m).thread u = d.thread u := by
  cases m with
  | pin k => exact thread_pin_of_ne hu k
  | unpin g => exact thread_unpin_of_ne hu g
  | retire n k => exact thread_retire_of_ne hu n k
  | flush k => exact thread_flush_of_ne hu k
  | pending => exact thread_pending_of_ne hu
  | exit => exact thread_exit_of_ne hu
  | step => exact thread_step_of_ne hu

/-! ## Calls opened -/

theorem calls_pin (d : Domain ν κ) (t : Nat) (k : κ) : ∃ q : Phase ν, q.pin?.isSome ∧
    ((d.pin t k).thread t).calls = ⟨k, q⟩ :: (d.thread t).calls ∧
    ((d.pin t k).thread t).guards = (d.thread t).guards := by
  have hby : ∀ (h : Handle ν) (tid : Nat) (e : Epoch), ∃ q : Phase ν, q.pin?.isSome ∧
      ((d.thread t).pinBy h tid k e).calls = ⟨k, q⟩ :: (d.thread t).calls ∧
      ((d.thread t).pinBy h tid k e).guards = (d.thread t).guards := by
    intro h tid e
    refine ⟨_, ?_, rfl, rfl⟩
    split <;> rfl
  cases hh : d.handle? t with
  | some h =>
    cases hs : h.slot with
    | some tid => rw [thread_pin_of_slot hh hs, if_pos rfl]; exact hby h tid _
    | none => rw [thread_pin_of_no_slot hh hs, if_pos rfl]; exact hby h _ _
  | none => rw [thread_pin_of_gone hh, if_pos rfl]; exact ⟨_, rfl, rfl, rfl⟩

theorem pin_opens (d : Domain ν κ) (t : Nat) (k : κ) : ∃ q : Phase ν, q.pin?.isSome ∧ q.isFlush = false ∧
    ((d.pin t k).thread t).calls = ⟨k, q⟩ :: (d.thread t).calls ∧
    ((d.pin t k).thread t).guards = (d.thread t).guards := by
  obtain ⟨q, hq, hc, hg⟩ := calls_pin d t k
  refine ⟨q, hq, ?_, hc, hg⟩
  cases q with
  | publish => rfl
  | advance p | select p g | free p todo freed => cases p <;> first | rfl | cases hq

theorem retire_opens (d : Domain ν κ) (t : Nat) (n : ν) (k : κ) : ∃ q : Phase ν, q.pin? = none ∧ q.isFlush = false ∧
    q.left ≤ 3 ∧ ((d.retire t n k).thread t).calls = ⟨k, q⟩ :: (d.thread t).calls ∧
    ((d.retire t n k).thread t).guards = (d.thread t).guards ∧ (d.retire t n k).story = d.story ++ [.retired n] := by
  cases hh : d.handle? t with
  | some h =>
    rw [thread_retire_of_handle n hh, if_pos rfl, (retire_frame_of_handle n hh).2.2.2]
    refine ⟨_, ?_, ?_, ?_, rfl, rfl, rfl⟩ <;> split <;> first | rfl | simp [Phase.left]
  | none =>
    rw [thread_retire_of_gone n hh, if_pos rfl, (retire_frame_of_gone n hh).2.2.2]
    exact ⟨_, rfl, rfl, by simp [Phase.left], rfl, rfl, rfl⟩

theorem calls_retire (d : Domain ν κ) (t : Nat) (n : ν) (k : κ) : ∃ q : Phase ν, q.pin? = none ∧
    ((d.retire t n k).thread t).calls = ⟨k, q⟩ :: (d.thread t).calls ∧
    ((d.retire t n k).thread t).guards = (d.thread t).guards ∧ (d.retire t n k).story = d.story ++ [.retired n] :=
  have ⟨q, hpin, _, _, h⟩ := retire_opens d t n k
  ⟨q, hpin, h⟩

theorem flush_opens (d : Domain ν κ) (t : Nat) (k : κ) :
    ((d.flush t k).thread t).calls = ⟨k, .advance .flush⟩ :: (d.thread t).calls ∧
    ((d.flush t k).thread t).guards = (d.thread t).guards := by
  cases hh : d.handle? t with
  | some h => rw [thread_flush_of_handle hh, if_pos rfl]; exact ⟨rfl, rfl⟩
  | none => rw [thread_flush_of_gone hh, if_pos rfl]; exact ⟨rfl, rfl⟩

theorem calls_flush (d : Domain ν κ) (t : Nat) (k : κ) : ∃ q : Phase ν, q.pin? = none ∧
    ((d.flush t k).thread t).calls = ⟨k, q⟩ :: (d.thread t).calls ∧
    ((d.flush t k).thread t).guards = (d.thread t).guards :=
  ⟨_, rfl, flush_opens d t k⟩

theorem calls_unpin (d : Domain ν κ) (t : Nat) (g : Guard) :
    ((d.unpin t g).thread t).calls = (d.thread t).calls ∧
    ((d.unpin t g).thread t).guards = (d.thread t).guards.erase g := by
  cases hd : g.detached with
  | true => rw [thread_unpin_of_detached hd, if_pos rfl]; exact ⟨rfl, rfl⟩
  | false =>
    cases hh : d.handle? t with
    | some h => rw [thread_unpin_of_live hd hh, if_pos rfl]; exact ⟨rfl, rfl⟩
    | none => rw [thread_unpin_of_gone hd hh, if_pos rfl]; exact ⟨rfl, rfl⟩

theorem calls_pending (d : Domain ν κ) (t : Nat) : ((d.pending t).2.thread t).calls = (d.thread t).calls ∧
    ((d.pending t).2.thread t).guards = (d.thread t).guards := by
  cases hh : d.handle? t with
  | some h => rw [thread_pending_of_handle hh, if_pos rfl]; exact ⟨rfl, rfl⟩
  | none => rw [pending_of_gone hh]; exact ⟨rfl, rfl⟩

theorem calls_exit (d : Domain ν κ) (t : Nat) : ((d.exit t).thread t).calls = (d.thread t).calls ∧
    ((d.exit t).thread t).guards = (d.thread t).guards ∧ (d.exit t).story = d.story := by
  cases hh : (d.thread t).tenure with
  | live h =>
    rw [thread_exit_of_live hh, if_pos rfl, (exit_frame_of_live hh).2.2]
    exact ⟨rfl, rfl, rfl⟩
  | unused => rw [exit_of_not_live fun h e => by rw [hh] at e; cases e]; exact ⟨rfl, rfl, rfl⟩
  | gone => rw [exit_of_not_live fun h e => by rw [hh] at e; cases e]; exact ⟨rfl, rfl, rfl⟩

/-! ## Steps -/

/-- What a step makes of the innermost call, with what it tells. -/
inductive Wanes (d : Domain ν κ) (t : Nat) (c : Call ν κ) (rest : List (Call ν κ)) (d' : Domain ν κ) :
    Signal ν κ → Prop
  | on (q : Phase ν) (hc : (d'.thread t).calls = { c with phase := q } :: rest) (hleft : q.left < c.phase.left)
      (hflush : q.isFlush = c.phase.isFlush) (hpin : q.pin? = c.phase.pin?)
      (hg : (d'.thread t).guards = (d.thread t).guards)
      (hs : d'.story = d.story ∨ ∃ e, d'.story = d.story ++ [.advanced e]) : Wanes d t c rest d' .quiet
  | freed (p : Purpose) (n : ν) (todo : List ν) (freed : Nat) (hp : c.phase = .free p (n :: todo) freed)
      (hc : (d'.thread t).calls = { c with phase := .free p todo (freed + 1) } :: rest)
      (hg : (d'.thread t).guards = (d.thread t).guards) (hs : d'.story = d.story ++ [.freed n]) :
      Wanes d t c rest d' (.freed n)
  | pinned (g : Guard) (hp : c.phase.pin? = some (g.tid, g.detached)) (hleft : c.phase.left = 1)
      (hflush : c.phase.isFlush = false) (hc : (d'.thread t).calls = rest)
      (hg : (d'.thread t).guards = g :: (d.thread t).guards) (hs : d'.story = d.story ++ [.pinned g]) :
      Wanes d t c rest d' (.returned c.ticket (.guard g))
  | returned (a : Answer) (ha : ∀ g, a ≠ .guard g) (hp : c.phase.pin? = none) (hleft : c.phase.left = 1)
      (hflush : c.phase.isFlush = true → ∃ n, a = .flushed n) (hc : (d'.thread t).calls = rest)
      (hg : (d'.thread t).guards = (d.thread t).guards) (hs : d'.story = d.story) :
      Wanes d t c rest d' (.returned c.ticket a)

section

variable {c : Call ν κ} {rest : List (Call ν κ)}

/-- Nothing is heard of a call that goes on. -/
theorem Wanes.silent {d' : Domain ν κ} {p : Phase ν} (q : Phase ν) (hp : c.phase = p)
    (hc : (d'.thread t).calls = { c with phase := q } :: rest) (hleft : q.left < p.left)
    (hflush : q.isFlush = p.isFlush) (hpin : q.pin? = p.pin?) (hg : (d'.thread t).guards = (d.thread t).guards)
    (hs : d'.story = d.story) : Wanes d t c rest d' .quiet := by
  subst hp
  exact .on q hc hleft hflush hpin hg (Or.inl hs)

theorem publish_wanes (hc : (d.thread t).calls = c :: rest) {tid : Nat} {e : Epoch} {b : Bool}
    (hp : c.phase = .publish tid e b) : Wanes d t c rest (d.publish t tid e b) .quiet := by
  have hs := (publish_frame d t tid e b).2.2.2
  cases b with
  | true =>
    have ht := thread_publish_of_detached hc tid e t
    rw [if_pos rfl] at ht
    exact .silent _ hp (by rw [ht]) (by simp [Phase.left]) (by rfl) (by rfl) (by rw [ht]) hs
  | false =>
    cases hh : d.handle? t with
    | some h =>
      have ht := thread_publish_of_handle hc hh tid e t
      rw [if_pos rfl] at ht
      refine .silent _ hp (by rw [ht]) ?_ ?_ ?_ (by rw [ht]) hs <;> split <;> first | rfl | simp [Phase.left]
    | none =>
      have ht := thread_publish_of_gone hc hh tid e t
      rw [if_pos rfl] at ht
      exact .silent _ hp (by rw [ht]) (by simp [Phase.left]) (by rfl) (by rfl) (by rw [ht]) hs

theorem select_wanes (hc : (d.thread t).calls = c :: rest) {p : Purpose} {g : Epoch} (hp : c.phase = .select p g) :
    Wanes d t c rest (d.select t p g) .quiet := by
  have hs := (select_frame d t p g).2.2
  cases hh : d.handle? t with
  | some h =>
    have ht := thread_select_of_handle hc hh p g t
    rw [if_pos rfl] at ht
    exact .silent _ hp (by rw [ht]) (by simp [Phase.left]) (by rfl) (by rfl) (by rw [ht]) hs
  | none =>
    have ht := thread_select_of_gone hc hh p g t
    rw [if_pos rfl] at ht
    exact .silent _ hp (by rw [ht]) (by simp [Phase.left]) (by rfl) (by rfl) (by rw [ht]) hs

theorem answer_wanes (hc : (d.thread t).calls = c :: rest) {p : Purpose} {freed : Nat}
    (hp : c.phase = .free p [] freed) :
    Wanes d t c rest (d.answer t c.ticket p freed).1 (d.answer t c.ticket p freed).2 := by
  cases p with
  | pin tid b =>
    have ht := thread_answer_pin d t c.ticket freed tid b t
    rw [if_pos rfl, hc] at ht
    exact .pinned _ (by rw [hp]; rfl) (by rw [hp]; rfl) (by rw [hp]; rfl) (by rw [ht]; rfl) (by rw [ht]; rfl)
      (answer_pin_frame d t c.ticket freed tid b).2.2.2
  | retire =>
    have ht := thread_answer_of_pin?_none d t c.ticket freed (p := .retire) rfl t
    rw [if_pos rfl, hc] at ht
    exact .returned _ (fun _ e => by cases e) (by rw [hp]; rfl) (by rw [hp]; rfl) (by rw [hp]; exact nofun)
      (by rw [ht]; rfl) (by rw [ht]) (answer_frame_of_pin?_none d t c.ticket freed rfl).2.2.2
  | flush =>
    have ht := thread_answer_of_pin?_none d t c.ticket freed (p := .flush) rfl t
    rw [if_pos rfl, hc] at ht
    exact .returned _ (fun _ e => by cases e) (by rw [hp]; rfl) (by rw [hp]; rfl) (fun _ => ⟨freed, rfl⟩)
      (by rw [ht]; rfl) (by rw [ht]) (answer_frame_of_pin?_none d t c.ticket freed rfl).2.2.2

theorem step_wanes (hc : (d.thread t).calls = c :: rest) : Wanes d t c rest (d.step t).1 (d.step t).2 := by
  rw [step_eq hc]
  rcases hp : c.phase with ⟨tid, e, b⟩ | p | ⟨p, g⟩ | ⟨p, - | ⟨n, todo⟩, freed⟩
  · exact publish_wanes hc hp
  · have ht := thread_advance hc p t
    rw [if_pos rfl] at ht
    refine .on _ (by rw [ht]) (by rw [hp]; simp [Phase.left]) (by rw [hp]; rfl) (by rw [hp]; rfl) (by rw [ht]) ?_
    have hs := (advance_frame d t p).2.2.2
    split at hs
    · exact Or.inl (hs.trans (List.append_nil _))
    · exact Or.inr ⟨_, hs⟩
  · exact select_wanes hc hp
  · exact answer_wanes hc hp
  · have ht := thread_free hc (.free p todo (freed + 1)) n t
    rw [if_pos rfl] at ht
    exact .freed p n todo freed hp (by rw [ht]) (by rw [ht]) (by rw [story_note, story_setPhase]; rfl)

end

/-- What a step tells and what it leaves of the calls. -/
inductive Stepped (d : Domain ν κ) (t : Nat) (c : Call ν κ) (rest : List (Call ν κ)) (d' : Domain ν κ) :
    Signal ν κ → Prop
  | on (q : Phase ν) (hc : (d'.thread t).calls = { c with phase := q } :: rest) (hq : q.pin? = c.phase.pin?)
      (hg : (d'.thread t).guards = (d.thread t).guards)
      (hs : d'.story = d.story ∨ ∃ e, d'.story = d.story ++ [.advanced e]) : Stepped d t c rest d' .quiet
  | freed (n : ν) (hn : n ∈ c.phase.todo) (q : Phase ν) (hc : (d'.thread t).calls = { c with phase := q } :: rest)
      (hq : q.pin? = c.phase.pin?) (hg : (d'.thread t).guards = (d.thread t).guards)
      (hs : d'.story = d.story ++ [.freed n]) : Stepped d t c rest d' (.freed n)
  | pinned (g : Guard) (hp : c.phase.pin?.isSome) (hc : (d'.thread t).calls = rest)
      (hg : (d'.thread t).guards = g :: (d.thread t).guards) (hs : d'.story = d.story ++ [.pinned g]) :
      Stepped d t c rest d' (.returned c.ticket (.guard g))
  | returned (a : Answer) (ha : ∀ g, a ≠ .guard g) (hp : c.phase.pin? = none) (hc : (d'.thread t).calls = rest)
      (hg : (d'.thread t).guards = (d.thread t).guards) (hs : d'.story = d.story) :
      Stepped d t c rest d' (.returned c.ticket a)

theorem step_cases {c : Call ν κ} {rest : List (Call ν κ)} (hc : (d.thread t).calls = c :: rest) :
    Stepped d t c rest (d.step t).1 (d.step t).2 := by
  have hw := step_wanes hc
  generalize (d.step t).1 = d', (d.step t).2 = signal at hw ⊢
  cases hw with
  | on q hc' _ _ hpin hg hs => exact .on q hc' hpin hg hs
  | freed p n todo freed hp hc' hg hs =>
    exact .freed n (by rw [hp]; exact List.mem_cons_self) _ hc' (by rw [hp]; rfl) hg hs
  | pinned g hp _ _ hc' hg hs => exact .pinned g (by rw [hp]; rfl) hc' hg hs
  | returned a ha hp _ _ hc' hg hs => exact .returned a ha hp hc' hg hs

end Domain

end EpochQueue.Reclaim
