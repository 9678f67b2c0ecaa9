/-
  EpochQueue.Proofs.Reclaim.Protection — a guard protects what was retired after it was made.

  `Timely` says of each notice what the story before it must be like: nothing is freed that was
  not retired, or that was retired under a guard still alive; nothing is retired twice; no
  guard is made twice. `ReachAlone.timely` proves it of every notice of a run, and
  `guard_protects` reads it off the trace. That nothing is retired twice needs no turns
  (`Reach.retired_once`).
-/

import EpochQueue.Proofs.Reclaim.Garbage
import EpochQueue.Proofs.Reclaim.Schedules

namespace EpochQueue.Reclaim

variable {ν κ : Type}

/-- The notice fits the story before it. -/
def Notice.Timely (before : List (Notice ν)) : Notice ν → Prop
  | .freed n => .retired n ∈ before ∧ ∀ g, [.pinned g, .retired n].Sublist before → .unpinned g ∈ before
  | .retired n => .retired n ∉ before
  | .pinned g => .pinned g ∉ before ∧ .unpinned g ∉ before
  | _ => True

namespace Domain

variable {d d' : Domain ν κ} {t : Nat} {x : Option (Notice ν)}

/-- Every notice of the story is as it should be for what stands before it. -/
def Tells (d : Domain ν κ) (P : List (Notice ν) → Notice ν → Prop) : Prop :=
  ∀ before y after, d.story = before ++ y :: after → P before y

theorem tells_empty (P : List (Notice ν) → Notice ν → Prop) : ({} : Domain ν κ).Tells P := by
  intro before y after e
  cases before <;> cases e

theorem Tells.turn {P : List (Notice ν) → Notice ν → Prop} (ht : d.Tells P) (h : Turn d t x d')
    (hx : ∀ y, x = some y → P d.story y) : d'.Tells P := by
  intro before y after e
  rw [h.story] at e
  cases x with
  | none => exact ht before y after (by rwa [Option.toList_none, List.append_nil] at e)
  | some z =>
    rcases List.eq_nil_or_concat after with rfl | ⟨rest, w, rfl⟩
    · obtain ⟨rfl, hzy⟩ := List.append_inj' e rfl
      cases hzy
      exact hx y rfl
    · rw [List.concat_eq_append, ← List.cons_append, ← List.append_assoc] at e
      exact ht before y rest (List.append_inj' e rfl).1

/-- No node is retired that was retired before. -/
theorem Reach.tells_retired (h : d.Reach) : d.Tells fun before y => ∀ n, y = .retired n → .retired n ∉ before := by
  induction h with
  | start => exact tells_empty _
  | move t m hr hm ih =>
    obtain ⟨x, ht⟩ := hr.owned.turn hm
    exact ih.turn ht fun y hx n hy => ht.retires n (hx.trans (congrArg some hy))

/-- What a move adds to the story fits it. -/
theorem Turn.timely (h : Turn d t x d') (hr : d.Recorded) (hac : d.Accounted) (hs : d.Shielded) {y : Notice ν}
    (hy : x = some y) : y.Timely d.story := by
  cases y with
  | freed n =>
    have hn := h.frees n hy
    refine ⟨hac.todo t n hn, fun g hu => Classical.byContradiction fun hm => ?_⟩
    exact hs.todo g n t ((hr.alive g).mpr ⟨Under.pinned hu, hm⟩) hu hn
  | retired n => exact h.retires n hy
  | pinned g =>
    have hg := h.guards
    rw [hy] at hg
    have hnew : .pinned g ∉ d.story := fun hm => Nat.lt_irrefl _ (hg.1 ▸ hr.serial g hm)
    exact ⟨hnew, fun hm => hnew (hr.dropped g hm)⟩
  | _ => trivial

theorem ReachAlone.timely (h : d.ReachAlone) (hw : ¬ d.wrapped) : d.Tells fun before y => y.Timely before := by
  induction h with
  | start => exact tells_empty _
  | move t m hr hrest hm ih =>
    have hreach := hr.reach
    obtain ⟨x, ht⟩ := hreach.owned.turn hm
    obtain ⟨hw, -⟩ := ht.not_wrapped hw
    exact (ih hw).turn ht fun y hy => ht.timely hreach.recorded hreach.accounted (hr.shielded hw) hy

/-! ## Reading the trace -/

/-- The story up to a place in the trace. -/
def storyBefore (d : Domain ν κ) (i : Nat) : List (Notice ν) := (d.trace.toList.take i).filter (!·.isAside)

theorem Tells.at {P : List (Notice ν) → Notice ν → Prop} (h : d.Tells P) {i : Nat} {y : Notice ν}
    (hy : d.trace[i]? = some y) (ha : y.isAside = false) : P (d.storyBefore i) y := by
  rw [← Array.getElem?_toList] at hy
  obtain ⟨hi, rfl⟩ := List.getElem?_eq_some_iff.mp hy
  refine h _ _ ((d.trace.toList.drop (i + 1)).filter (!·.isAside)) ?_
  have hcons : d.trace.toList[i] :: (d.trace.toList.drop (i + 1)).filter (!·.isAside) =
      (d.trace.toList.drop i).filter (!·.isAside) := by
    rw [← List.getElem_cons_drop hi, List.filter_cons_of_pos (by rw [ha]; rfl)]
  rw [hcons, storyBefore, story, ← List.filter_append, List.take_append_drop]

theorem mem_storyBefore {i : Nat} {y : Notice ν} (ha : y.isAside = false) :
    y ∈ d.storyBefore i ↔ ∃ m, m < i ∧ d.trace[m]? = some y := by
  rw [storyBefore, List.mem_filter, List.mem_take_iff_getElem]
  simp only [ha, Bool.not_false, and_true, ← Array.getElem?_toList, List.getElem?_eq_some_iff]
  constructor
  · rintro ⟨m, hm, rfl⟩
    exact ⟨m, by omega, by omega, rfl⟩
  · rintro ⟨m, hm, hlt, rfl⟩
    exact ⟨m, by omega, rfl⟩

theorem pair_sublist_storyBefore {i j k : Nat} {a b : Notice ν} (ha : a.isAside = false) (hb : b.isAside = false)
    (hi : d.trace[i]? = some a) (hj : d.trace[j]? = some b) (hij : i < j) (hjk : j < k) :
    [a, b].Sublist (d.storyBefore k) := by
  rw [← Array.getElem?_toList] at hj
  obtain ⟨hlt, hj⟩ := List.getElem?_eq_some_iff.mp hj
  have hfirst : [a].Sublist (d.storyBefore j) := List.singleton_sublist.mpr ((mem_storyBefore ha).mpr ⟨i, hij, hi⟩)
  have hboth : [a, b].Sublist (d.storyBefore (j + 1)) := by
    have hsnoc : d.storyBefore (j + 1) = d.storyBefore j ++ [b] := by
      rw [storyBefore, List.take_succ_eq_append_getElem hlt, hj, List.filter_append,
        List.filter_cons_of_pos (by rw [hb]; rfl)]
      rfl
    rw [hsnoc]
    exact hfirst.append (List.Sublist.refl _)
  exact hboth.trans ((List.take_sublist_take_left hjk).filter _)

theorem Reach.retired_once (h : d.Reach) {i j : Nat} {n : ν} (hi : d.trace[i]? = some (.retired n))
    (hj : d.trace[j]? = some (.retired n)) : i = j := by
  have hnot : ∀ {i j : Nat}, d.trace[i]? = some (.retired n) → d.trace[j]? = some (.retired n) → ¬ i < j :=
    fun hi hj hlt =>
      h.tells_retired.at hj rfl n rfl ((mem_storyBefore rfl).mpr ⟨_, hlt, hi⟩)
  exact Nat.le_antisymm (Nat.le_of_not_lt (hnot hj hi)) (Nat.le_of_not_lt (hnot hi hj))

/-- What is retired after a guard was made and destroyed later is destroyed after the guard was dropped. -/
theorem Tells.protects (htimely : d.Tells fun before y => y.Timely before) {i j k : Nat} {g : Guard} {n : ν}
    (hi : d.trace[i]? = some (.pinned g)) (hj : d.trace[j]? = some (.retired n)) (hij : i < j)
    (hk : d.trace[k]? = some (.freed n)) : ∃ m, i < m ∧ m < k ∧ d.trace[m]? = some (.unpinned g) := by
  obtain ⟨hretired, hguards⟩ := htimely.at hk rfl
  have hjk : j < k := by
    obtain ⟨m, hmk, hm⟩ := (mem_storyBefore rfl).mp hretired
    refine Nat.lt_of_not_le fun hkj => htimely.at hj rfl ((mem_storyBefore rfl).mpr ⟨m, by omega, hm⟩)
  obtain ⟨m, hmk, hm⟩ := (mem_storyBefore rfl).mp (hguards g (pair_sublist_storyBefore rfl rfl hi hj hij hjk))
  refine ⟨m, Nat.lt_of_not_le fun hmi => ?_, hmk, hm⟩
  rcases Nat.lt_or_eq_of_le hmi with hlt | rfl
  · exact (htimely.at hi rfl).2 ((mem_storyBefore rfl).mpr ⟨m, hlt, hm⟩)
  · rw [hi] at hm
    cases hm

/-- A node retired after a guard was made is not destroyed before the guard is dropped,
    whichever thread does it and however the node got there. -/
theorem guard_protects (h : d.ReachAlone) (hw : ¬ d.wrapped) {i j k : Nat} {g : Guard} {n : ν}
    (hi : d.trace[i]? = some (.pinned g)) (hj : d.trace[j]? = some (.retired n)) (hij : i < j)
    (hk : d.trace[k]? = some (.freed n)) : ∃ m, i < m ∧ m < k ∧ d.trace[m]? = some (.unpinned g) :=
  (h.timely hw).protects hi hj hij hk

/-- Thread 0 pins and exits under its guard; thread 1 retires node 7, exits and flushes, in vain
    while the guard is alive and with success once it is dropped. -/
def strayRun : List (Nat × Move Nat Nat) :=
  [(0, .pin 0), (0, .step), (0, .step), (1, .retire 7 0), (1, .step), (1, .exit), (0, .exit),
    (1, .flush 0), (1, .step), (1, .step), (1, .step), (0, .unpin ⟨0, 0, false⟩),
    (1, .flush 0), (1, .step), (1, .step), (1, .step), (1, .step)]

theorem strayRun_plays : (({} : Domain Nat Nat).playAlone strayRun).isSome = true := by decide +kernel

def strayEnd : Domain Nat Nat := (({} : Domain Nat Nat).playAlone strayRun).get strayRun_plays

theorem strayEnd_reached : strayEnd.ReachAlone :=
  .of_playAlone .start (Option.some_get strayRun_plays).symm

theorem guard_protects_after_exit : strayEnd.trace[2]? = some (.pinned ⟨0, 0, false⟩) ∧
    strayEnd.trace[3]? = some (.retired 7) ∧ strayEnd.trace[15]? = some (.freed 7) ∧
    ∃ m, 2 < m ∧ m < 15 ∧ strayEnd.trace[m]? = some (.unpinned ⟨0, 0, false⟩) := by
  have hp : strayEnd.trace[2]? = some (.pinned ⟨0, 0, false⟩) := by decide +kernel
  have hr : strayEnd.trace[3]? = some (.retired 7) := by decide +kernel
  have hf : strayEnd.trace[15]? = some (.freed 7) := by decide +kernel
  have hw : ¬ strayEnd.wrapped := strayEnd_reached.reach.not_wrapped_of_size (by decide +kernel)
  exact ⟨hp, hr, hf, guard_protects strayEnd_reached hw hp hr (by decide) hf⟩

end Domain

end EpochQueue.Reclaim
