/-
  EpochQueue.Proofs.Reclaim.Handover — orphans change hands without loss, whoever gets in between.

  A `Depot` is the orphans with their history: the bags that were brought, those that have been pushed,
  in that order, and what each adoption came to. Bags leave the list only as a whole, and one thread
  at a time is at the list, so what was pushed is what the adoptions that are over came to, one after
  another, then what an adoption under way has in hand, then the list (`Agrees.handed`).

  The count says nothing while a thread has the lock: it may lag behind the list or be ahead of it. What
  it is off by can be read from where that thread stands (`Agrees.counted`), so it is right as soon as
  the lock is free, and what an adoption takes off it is there.
-/

import EpochQueue.Reclaim.OrphanList
import EpochQueue.Proofs.Ledger
import EpochQueue.Proofs.Lock.Exclusion

namespace EpochQueue.Reclaim

open EpochQueue.Lock (Guarded)

variable {β : Type}

/-! ## Stages -/

namespace OrphanStage

/-- The bags that the thread has yet to push. -/
def carries : OrphanStage β → List β
  | swap bags | watch bags | append bags => bags
  | _ => []

/-- The bags that it has taken and not returned with yet. -/
def hand : OrphanStage β → List β
  | lower bags | leaveAdopt bags => bags
  | _ => []

/-- How many bags it has put in the list and not counted. -/
def uncounted : OrphanStage β → Nat
  | raise added => added
  | _ => 0

/-- How many bags it has taken from the list that are counted still. -/
def overcounted : OrphanStage β → Nat
  | lower bags => bags.length
  | _ => 0

/-- What its adoption came to, if that is over. -/
def outcome : OrphanStage β → List (List β)
  | adopted bags => [bags]
  | _ => []

end OrphanStage

namespace OrphanList

variable (o : OrphanList β) (t : Nat) (s : OrphanStage β)

@[simp] theorem stage_setStage_same : (o.setStage t s).stage t = s := Table.get_set_same _ _ _

theorem stage_setStage_of_ne {t u : Nat} (h : u ≠ t) : (o.setStage t s).stage u = o.stage u := Table.get_set_ne _ _ h

@[simp] theorem lock_setStage : (o.setStage t s).lock = o.lock := rfl

@[simp] theorem count_setStage : (o.setStage t s).count = o.count := rfl

end OrphanList

/-! ## The history -/

structure Depot (β : Type) extends OrphanList β where
  /-- The bags with which threads came to push. -/
  brought : List β := []
  /-- Those that have been put in the list. -/
  pushed : List β := []
  /-- Who adopted what, for every adoption that is over. -/
  results : List (Nat × List β) := []

namespace Depot

def push (d : Depot β) (t : Nat) (bags : List β) : Depot β :=
  { d with
    toOrphanList := d.toOrphanList.push t bags
    brought := if (d.stage t).isFree then d.brought ++ bags else d.brought }

def adopt (d : Depot β) (t : Nat) : Depot β := { d with toOrphanList := d.toOrphanList.adopt t }

/-- What the next step of `t` puts in the list. -/
def appends (d : Depot β) (t : Nat) : List β :=
  match d.stage t with
  | .append bags => bags
  | _ => []

/-- What it comes back with from an adoption. -/
def returns (d : Depot β) (t : Nat) : List (Nat × List β) :=
  if (d.stage t).isFree then [] else ((d.toOrphanList.step t).stage t).outcome.map fun bags => (t, bags)

def step (d : Depot β) (t : Nat) : Depot β :=
  { d with
    toOrphanList := d.toOrphanList.step t
    pushed := d.pushed ++ d.appends t
    results := d.results ++ d.returns t }

/-- What threads can bring an empty list to, access by access in any order. -/
inductive Reach : Depot β → Prop
  | start : Reach {}
  | push {d : Depot β} (t : Nat) (bags : List β) : Reach d → Reach (d.push t bags)
  | adopt {d : Depot β} (t : Nat) : Reach d → Reach (d.adopt t)
  | step {d : Depot β} (t : Nat) : Reach d → Reach (d.step t)

/-- What a step of `t` does, by the stage that it has reached. -/
inductive Does (d : Depot β) (t : Nat) : Depot β → Prop
  | rests (h : (d.stage t).holds = false) : Does d t d
  | retries (bags : List β) (h : d.stage t = .watch bags) :
      Does d t { d with toOrphanList := d.setStage t (.swap bags) }
  | misses (bags : List β) (h : d.stage t = .swap bags) :
      Does d t { d with toOrphanList := d.setStage t (.watch bags) }
  | finds (h : d.stage t = .glance) : Does d t { d with toOrphanList := d.setStage t .tryLock }
  | leavesEmpty (h : d.stage t = .glance ∨ d.stage t = .tryLock) :
      Does d t { d with toOrphanList := d.setStage t (.adopted []), results := d.results ++ [(t, [])] }
  | gets (s : OrphanStage β) (free : d.lock.locked = false)
      (h : (∃ bags, d.stage t = .swap bags ∧ s = .append bags) ∨ d.stage t = .tryLock ∧ s = .take) :
      Does d t { d with toOrphanList := { d.toOrphanList with lock := d.lock.tryLock.2 }.setStage t s }
  | appends (bags : List β) (h : d.stage t = .append bags) :
      Does d t { d with
        toOrphanList := (d.setBags (d.lock.value ++ bags)).setStage t
          (if bags.isEmpty then .leavePush else .raise bags.length)
        pushed := d.pushed ++ bags }
  | raises (added : Nat) (h : d.stage t = .raise added) :
      Does d t { d with
        toOrphanList := { d.toOrphanList with count := d.count + added }.setStage t .leavePush }
  | leavesPush (h : d.stage t = .leavePush) :
      Does d t { d with toOrphanList := { d.toOrphanList with lock := d.lock.unlock }.setStage t .outside }
  | takes (h : d.stage t = .take) :
      Does d t { d with toOrphanList := (d.setBags []).setStage t (.lower d.lock.value) }
  | lowers (adopted : List β) (h : d.stage t = .lower adopted) :
      Does d t { d with
        toOrphanList := { d.toOrphanList with count := d.count - adopted.length }.setStage t (.leaveAdopt adopted) }
  | leavesAdopt (adopted : List β) (h : d.stage t = .leaveAdopt adopted) :
      Does d t { d with
        toOrphanList := { d.toOrphanList with lock := d.lock.unlock }.setStage t (.adopted adopted)
        results := d.results ++ [(t, adopted)] }

theorem does_step (d : Depot β) (t : Nat) : Does d t (d.step t) := by
  have hsame : d.toOrphanList.step t = d.toOrphanList → d.appends t = [] → d.returns t = [] → d.step t = d := by
    intro h₁ h₂ h₃
    rw [step, h₁, h₂, h₃, List.append_nil, List.append_nil]
  cases hs : d.stage t with
  | outside | adopted bags =>
    rw [hsame (by simp [OrphanList.step, hs]) (by simp [Depot.appends, hs]) (by simp [returns, hs, OrphanStage.isFree])]
    exact .rests (by rw [hs]; rfl)
  | swap bags =>
    cases hl : d.lock.locked with
    | true =>
      have := Does.misses bags hs
      simpa [step, OrphanList.step, Depot.appends, returns, hs, Guarded.tryLock_of_locked hl, OrphanStage.isFree,
        OrphanStage.outcome] using this
    | false =>
      have := Does.gets (.append bags) hl (Or.inl ⟨bags, hs, rfl⟩)
      simpa [step, OrphanList.step, Depot.appends, returns, hs, hl, Guarded.tryLock, OrphanStage.isFree,
        OrphanStage.outcome] using this
  | watch bags =>
    cases hl : d.lock.locked with
    | true =>
      rw [hsame (by simp [OrphanList.step, hs, hl]) (by simp [Depot.appends, hs])
        (by simp [returns, OrphanList.step, hs, hl, OrphanStage.outcome])]
      exact .rests (by rw [hs]; rfl)
    | false =>
      have := Does.retries bags hs
      simpa [step, OrphanList.step, Depot.appends, returns, hs, hl, OrphanStage.isFree, OrphanStage.outcome] using this
  | append bags =>
    have := Does.appends bags hs
    cases bags <;>
      simpa [step, OrphanList.step, Depot.appends, returns, hs, OrphanStage.isFree, OrphanStage.outcome] using this
  | raise added =>
    have := Does.raises added hs
    simpa [step, OrphanList.step, Depot.appends, returns, hs, OrphanStage.isFree, OrphanStage.outcome] using this
  | leavePush =>
    have := Does.leavesPush hs
    simpa [step, OrphanList.step, Depot.appends, returns, hs, OrphanStage.isFree, OrphanStage.outcome] using this
  | glance =>
    by_cases hc : d.count = 0
    · have := Does.leavesEmpty (Or.inl hs)
      simpa [step, OrphanList.step, Depot.appends, returns, hs, hc, OrphanStage.isFree, OrphanStage.outcome] using this
    · have := Does.finds hs
      simpa [step, OrphanList.step, Depot.appends, returns, hs, hc, OrphanStage.isFree, OrphanStage.outcome] using this
  | tryLock =>
    cases hl : d.lock.locked with
    | true =>
      have := Does.leavesEmpty (Or.inr hs)
      simpa [step, OrphanList.step, Depot.appends, returns, hs, Guarded.tryLock_of_locked hl, OrphanStage.isFree,
        OrphanStage.outcome] using this
    | false =>
      have := Does.gets .take hl (Or.inr ⟨hs, rfl⟩)
      simpa [step, OrphanList.step, Depot.appends, returns, hs, hl, Guarded.tryLock, OrphanStage.isFree,
        OrphanStage.outcome] using this
  | take =>
    have := Does.takes hs
    simpa [step, OrphanList.step, Depot.appends, returns, hs, OrphanStage.isFree, OrphanStage.outcome] using this
  | lower adopted =>
    have := Does.lowers adopted hs
    simpa [step, OrphanList.step, Depot.appends, returns, hs, OrphanStage.isFree, OrphanStage.outcome] using this
  | leaveAdopt adopted =>
    have := Does.leavesAdopt adopted hs
    simpa [step, OrphanList.step, Depot.appends, returns, hs, OrphanStage.isFree, OrphanStage.outcome] using this

/-! ## The list and its count -/

/-- What the bags and the count come to when the thread that is at the list stands at `s`; nobody is there, if
    `s` is outside. -/
structure Agrees (d : Depot β) (s : OrphanStage β) : Prop where
  handed : d.pushed = d.results.flatMap (·.2) ++ s.hand ++ d.lock.value
  counted : d.count + s.uncounted = d.lock.value.length + s.overcounted

/-- One thread at most has the lock, and the list and the count agree with how far that one has come. -/
structure Kept (d : Depot β) : Prop where
  sole : d.lock.Sole fun t => (d.stage t).holds
  free : d.lock.locked = false → d.Agrees .outside
  held : ∀ t, (d.stage t).holds = true → d.Agrees (d.stage t)

variable {d d' : Depot β} {t : Nat}

namespace Kept

theorem start : ({} : Depot β).Kept := by
  have hout : ∀ t, ({} : Depot β).stage t = .outside := fun t => Table.get_empty t
  have hnone : ∀ t, ¬ (({} : Depot β).stage t).holds = true := fun t => by rw [hout t]; nofun
  exact ⟨⟨⟨nofun, fun ⟨t, ht⟩ => absurd ht (hnone t)⟩, fun t _ ht => absurd ht (hnone t)⟩, fun _ => ⟨rfl, rfl⟩,
    fun t ht => absurd ht (hnone t)⟩

/-- A thread goes on that is not at the list, and does not get there. -/
theorem moved (h : d.Kept) (ht : (d.stage t).holds = false) (ht' : (d'.stage t).holds = false)
    (hothers : ∀ u, u ≠ t → d'.stage u = d.stage u) (hl : d'.lock = d.lock)
    (hagrees : ∀ s, d.Agrees s → d'.Agrees s) : d'.Kept := by
  have hholds : ∀ u, (d'.stage u).holds = (d.stage u).holds := by
    intro u
    by_cases e : u = t
    · rw [e, ht, ht']
    · rw [hothers u e]
  refine ⟨h.sole.keep (by rw [hl]) hholds, fun hfree => hagrees _ (h.free (hl ▸ hfree)), fun u hu => ?_⟩
  rw [hholds] at hu
  have hne : u ≠ t := fun e => by
    rw [e, ht] at hu
    cases hu
  exact hothers u hne ▸ hagrees _ (h.held u hu)

/-- A thread comes to the list. -/
theorem came (h : d.Kept) (hfree : d.lock.locked = false) (ht' : (d'.stage t).holds = true)
    (hothers : ∀ u, u ≠ t → d'.stage u = d.stage u) (hl : d'.lock = d.lock.tryLock.2)
    (hagrees : d.Agrees .outside → d'.Agrees (d'.stage t)) : d'.Kept := by
  have hnone := h.sole.free.mp hfree
  have hsole : d'.lock.Sole fun u => (d'.stage u).holds := by
    rw [hl]
    refine h.sole.tryLock (hnone t) ?_ fun u hu => by rw [hothers u hu]
    rw [ht', Guarded.tryLock, hfree]
    rfl
  refine ⟨hsole, fun hfree' => ?_, fun u hu => ?_⟩
  · rw [hl] at hfree'
    cases hfree'
  · obtain rfl := hsole.unique u t hu ht'
    exact hagrees (h.free hfree)

/-- The thread that is at the list goes on there. -/
theorem went (h : d.Kept) (ht : (d.stage t).holds = true) (ht' : (d'.stage t).holds = true)
    (hothers : ∀ u, u ≠ t → d'.stage u = d.stage u) (hl : d'.lock.locked = d.lock.locked)
    (hagrees : d.Agrees (d.stage t) → d'.Agrees (d'.stage t)) : d'.Kept := by
  have hholds : ∀ u, (d'.stage u).holds = (d.stage u).holds := by
    intro u
    by_cases e : u = t
    · rw [e, ht, ht']
    · rw [hothers u e]
  have hsole := h.sole.keep hl hholds
  refine ⟨hsole, fun hfree => ?_, fun u hu => ?_⟩
  · have := hsole.free.mp hfree t
    rw [ht'] at this
    cases this
  · obtain rfl := hsole.unique u t hu ht'
    exact hagrees (h.held u ht)

/-- It leaves. -/
theorem left (h : d.Kept) (ht : (d.stage t).holds = true) (ht' : (d'.stage t).holds = false)
    (hothers : ∀ u, u ≠ t → d'.stage u = d.stage u) (hl : d'.lock = d.lock.unlock)
    (hagrees : d.Agrees (d.stage t) → d'.Agrees .outside) : d'.Kept := by
  have hsole : d'.lock.Sole fun u => (d'.stage u).holds := by
    rw [hl]
    exact h.sole.unlock ht ht' fun u hu => by rw [hothers u hu]
  refine ⟨hsole, fun _ => hagrees (h.held t ht), fun u hu => ?_⟩
  have := hsole.free.mp (by rw [hl]; rfl) u
  rw [hu] at this
  cases this

theorem push (h : d.Kept) (t : Nat) (bags : List β) : (d.push t bags).Kept := by
  unfold Depot.push OrphanList.push
  split
  next hfree =>
    refine h.moved ?_ ?_ (fun u hu => OrphanList.stage_setStage_of_ne _ _ hu) rfl fun s hs => ⟨hs.handed, hs.counted⟩
    · cases hs : d.stage t <;> simp [hs, OrphanStage.isFree] at hfree <;> rfl
    · simp [OrphanStage.holds]
  next => simpa using h

theorem adopt (h : d.Kept) (t : Nat) : (d.adopt t).Kept := by
  unfold Depot.adopt OrphanList.adopt
  split
  next hfree =>
    refine h.moved ?_ ?_ (fun u hu => OrphanList.stage_setStage_of_ne _ _ hu) rfl fun s hs => ⟨hs.handed, hs.counted⟩
    · cases hs : d.stage t <;> simp [hs, OrphanStage.isFree] at hfree <;> rfl
    · simp [OrphanStage.holds]
  next => exact h

theorem step (h : d.Kept) (t : Nat) : (d.step t).Kept := by
  have hdoes := does_step d t
  generalize d.step t = d' at hdoes
  have hothers : ∀ (o : OrphanList β) s, o.stages = d.stages → ∀ u, u ≠ t → (o.setStage t s).stage u = d.stage u := by
    intro o s ho u hu
    rw [OrphanList.stage_setStage_of_ne _ _ hu, OrphanList.stage, ho]
    rfl
  cases hdoes with
  | rests => exact h
  | retries bags hs | misses bags hs | finds hs =>
    refine h.moved (by rw [hs]; rfl) ?_ (hothers _ _ rfl) rfl fun s hs => ⟨hs.handed, hs.counted⟩
    simp [OrphanStage.holds]
  | leavesEmpty hs =>
    refine h.moved (t := t) (by rcases hs with hs | hs <;> rw [hs] <;> rfl) ?_ (hothers _ _ rfl) rfl
      fun s hs => ⟨?_, hs.counted⟩
    · simp [OrphanStage.holds]
    · simpa using hs.handed
  | gets s hfree hs =>
    refine h.came (t := t) hfree ?_ (hothers _ _ rfl) rfl fun hout => ?_
    all_goals
      dsimp only
      rw [OrphanList.stage_setStage_same]
      obtain ⟨bags, -, rfl⟩ | ⟨-, rfl⟩ := hs
    · rfl
    · rfl
    · exact ⟨hout.handed, hout.counted⟩
    · exact ⟨hout.handed, hout.counted⟩
  | appends bags hs =>
    refine h.went (t := t) (by rw [hs]; rfl) ?_ (hothers _ _ rfl) rfl fun hat => ?_
    all_goals
      dsimp only
      rw [OrphanList.stage_setStage_same]
    · split <;> rfl
    · rw [hs] at hat
      have hhanded : d.pushed = d.results.flatMap (·.2) ++ d.lock.value := by simpa [OrphanStage.hand] using hat.handed
      have hcounted : d.count = d.lock.value.length := hat.counted
      constructor
      · cases bags <;> simp [OrphanStage.hand, OrphanList.setBags, hhanded]
      · cases bags <;> simp [OrphanStage.uncounted, OrphanStage.overcounted, OrphanList.setBags, hcounted]
  | raises added hs =>
    refine h.went (t := t) (by rw [hs]; rfl) ?_ (hothers _ _ rfl) rfl fun hat => ?_
    all_goals
      dsimp only
      rw [OrphanList.stage_setStage_same]
    · rfl
    · rw [hs] at hat
      exact ⟨hat.handed, hat.counted⟩
  | leavesPush hs =>
    refine h.left (t := t) (by rw [hs]; rfl) ?_ (hothers _ _ rfl) rfl fun hat => ?_
    · simp [OrphanStage.holds]
    · rw [hs] at hat
      exact ⟨hat.handed, hat.counted⟩
  | takes hs =>
    refine h.went (t := t) (by rw [hs]; rfl) ?_ (hothers _ _ rfl) rfl fun hat => ?_
    all_goals
      dsimp only
      rw [OrphanList.stage_setStage_same]
    · rfl
    · rw [hs] at hat
      exact ⟨by simpa [OrphanStage.hand, OrphanList.setBags] using hat.handed, by
        simpa [OrphanStage.uncounted, OrphanStage.overcounted, OrphanList.setBags] using hat.counted⟩
  | lowers adopted hs =>
    refine h.went (t := t) (by rw [hs]; rfl) ?_ (hothers _ _ rfl) rfl fun hat => ?_
    all_goals
      dsimp only
      rw [OrphanList.stage_setStage_same]
    · rfl
    · rw [hs] at hat
      have hcounted : d.count = d.lock.value.length + adopted.length := hat.counted
      exact ⟨hat.handed, show d.count - adopted.length = d.lock.value.length by omega⟩
  | leavesAdopt adopted hs =>
    refine h.left (t := t) (by rw [hs]; rfl) ?_ (hothers _ _ rfl) rfl fun hat => ?_
    · simp [OrphanStage.holds]
    · rw [hs] at hat
      exact ⟨by simpa [OrphanStage.hand, Guarded.unlock] using hat.handed, hat.counted⟩

end Kept

theorem Reach.kept (h : d.Reach) : d.Kept := by
  induction h with
  | start => exact .start
  | push t bags _ ih => exact ih.push t bags
  | adopt t _ ih => exact ih.adopt t
  | step t _ ih => exact ih.step t

/-! ## Bags on their way to the list -/

theorem ledger_setStage (o : OrphanList β) (t : Nat) (s : OrphanStage β) : ∃ rest,
    (o.stages.ledger OrphanStage.carries).Perm ((o.stage t).carries ++ rest) ∧
      ((o.setStage t s).stages.ledger OrphanStage.carries).Perm (s.carries ++ rest) := by
  obtain ⟨rest, hold, hnew⟩ := Table.exists_rest (t := o.stages) (s := o.stages.set t s) (i := t)
    (g := OrphanStage.carries) rfl fun u hu => Table.get_set_ne _ _ hu
  rw [Table.get_set_same] at hnew
  exact ⟨rest, hold, hnew⟩

/-- Nothing that was brought is lost on the way. -/
theorem Reach.brought (h : d.Reach) : d.brought.Perm (d.pushed ++ d.stages.ledger OrphanStage.carries) := by
  -- a stage that carries as much as the one before
  have hsame : ∀ (d : Depot β) t s, s.carries = (d.stage t).carries →
      (d.stages.ledger OrphanStage.carries).Perm ((d.setStage t s).stages.ledger OrphanStage.carries) := by
    intro d t s hs
    obtain ⟨rest, hold, hnew⟩ := ledger_setStage d.toOrphanList t s
    exact hold.trans (hs ▸ hnew.symm)
  induction h with
  | start => exact .refl _
  | @push d t bags _ ih =>
    unfold Depot.push OrphanList.push
    split
    next hfree =>
      obtain ⟨rest, hold, hnew⟩ := ledger_setStage d.toOrphanList t (.swap bags)
      have hnone : (d.stage t).carries = [] := by
        cases hs : d.stage t <;> simp [hs, OrphanStage.isFree] at hfree <;> rfl
      rw [hnone, List.nil_append] at hold
      calc List.Perm (d.brought ++ bags) (d.pushed ++ d.stages.ledger OrphanStage.carries ++ bags) :=
          ih.append_right bags
        List.Perm _ (d.pushed ++ (bags ++ rest)) := by
          rw [List.append_assoc]
          exact (List.perm_append_comm.trans (hold.append_left bags)).append_left _
        List.Perm _ _ := hnew.symm.append_left _
    next => simpa using ih
  | @adopt d t _ ih =>
    unfold Depot.adopt OrphanList.adopt
    split
    next hfree =>
      refine ih.trans ((hsame d t .glance ?_).append_left _)
      cases hs : d.stage t <;> simp [hs, OrphanStage.isFree] at hfree <;> rfl
    next => exact ih
  | @step d t _ ih =>
    have hdoes := does_step d t
    generalize d.step t = d' at hdoes
    cases hdoes with
    | rests => exact ih
    | appends bags hs =>
      obtain ⟨rest, hold, hnew⟩ := ledger_setStage (d.setBags (d.lock.value ++ bags)) t
        (if bags.isEmpty then .leavePush else .raise bags.length)
      have hnone : (if bags.isEmpty then .leavePush else .raise bags.length : OrphanStage β).carries = [] := by
        split <;> rfl
      rw [hnone, List.nil_append] at hnew
      have hbags : (d.stage t).carries = bags := by rw [hs]; rfl
      calc List.Perm d.brought (d.pushed ++ (bags ++ rest)) := ih.trans ((hbags ▸ hold).append_left _)
        List.Perm _ (d.pushed ++ bags ++ rest) := by rw [List.append_assoc]
        List.Perm _ _ := hnew.symm.append_left _
    | leavesEmpty hs =>
      exact ih.trans ((hsame d t _ (by rcases hs with hs | hs <;> rw [hs] <;> rfl)).append_left _)
    | gets s _ hs =>
      refine ih.trans ((hsame d t _ ?_).append_left _)
      obtain ⟨bags, hs, rfl⟩ | ⟨hs, rfl⟩ := hs <;> rw [hs] <;> rfl
    | retries _ hs | misses _ hs | finds hs | raises _ hs | leavesPush hs | takes hs | lowers _ hs | leavesAdopt _ hs =>
      exact ih.trans ((hsame d t _ (by rw [hs]; rfl)).append_left _)

/-! ## What the orphans come to -/

/-- Nothing is lost or handed out twice. -/
structure Handover (d : Depot β) : Prop where
  /-- What was brought has been pushed, or a thread is about to push it. -/
  brought : d.brought.Perm (d.pushed ++ d.stages.ledger OrphanStage.carries)
  /-- While nobody is at the list, what was pushed is what the adoptions came to, one after another, and then
      the list; and the count is right. -/
  free : d.lock.locked = false →
    d.pushed = d.results.flatMap (·.2) ++ d.lock.value ∧ d.count = d.lock.value.length
  /-- While somebody is, that is one thread; what it has in hand is between the two, and it returns with
      just that. -/
  held : d.lock.locked = true → ∃ t, (d.stage t).holds = true ∧ (∀ u, (d.stage u).holds = true → u = t) ∧
    d.pushed = d.results.flatMap (·.2) ++ (d.stage t).hand ++ d.lock.value
  /-- What an adoption takes off the count is there. -/
  covered : ∀ t adopted, d.stage t = .lower adopted → adopted.length ≤ d.count
  /-- An adoption on its own, of a list that is not empty, returns with the list. -/
  alone : ∀ t, d.lock.locked = false → d.lock.value ≠ [] → (d.stage t).isFree = true →
    ∃ d', (Depot.step · t)^[5] (d.adopt t) = d' ∧ d'.stage t = .adopted d.lock.value ∧
      d'.results = d.results ++ [(t, d.lock.value)] ∧ d'.lock.value = [] ∧ d'.lock.locked = false ∧ d'.count = 0

theorem Kept.alone (h : d.Kept) (hfree : d.lock.locked = false) (hsome : d.lock.value ≠ [])
    (ht : (d.stage t).isFree = true) : ∃ d', (Depot.step · t)^[5] (d.adopt t) = d' ∧
      d'.stage t = .adopted d.lock.value ∧ d'.results = d.results ++ [(t, d.lock.value)] ∧ d'.lock.value = [] ∧
      d'.lock.locked = false ∧ d'.count = 0 := by
  have hcount : d.count = d.lock.value.length := (h.free hfree).counted
  have hcomes : d.adopt t = { d with toOrphanList := d.setStage t .glance } := by
    simp [Depot.adopt, OrphanList.adopt, ht]
  refine ⟨_, rfl, ?_⟩
  simp [Function.iterate_succ, hcomes, Depot.step, OrphanList.step, hcount, hsome, hfree, Guarded.tryLock,
    Depot.appends, Depot.returns, OrphanStage.isFree, OrphanStage.outcome, OrphanList.setBags, Guarded.unlock]

theorem Reach.handover (h : d.Reach) : d.Handover where
  brought := h.brought
  free := by
    intro hfree
    obtain ⟨hhanded, hcounted⟩ := h.kept.free hfree
    exact ⟨by simpa [OrphanStage.hand] using hhanded, hcounted⟩
  held := by
    intro hheld
    obtain ⟨t, ht⟩ := h.kept.sole.locked.mp hheld
    exact ⟨t, ht, fun u hu => h.kept.sole.unique u t hu ht, (h.kept.held t ht).handed⟩
  covered := by
    intro t adopted hs
    have hcounted := (h.kept.held t (by rw [hs]; rfl)).counted
    rw [hs] at hcounted
    exact Nat.le.intro ((Nat.add_comm _ _).trans hcounted.symm)
  alone := fun t hfree hsome ht => h.kept.alone hfree hsome ht

set_option maxRecDepth 1000 in
/-- Two threads push and two adopt. One adoption finds the lock held and comes back with nothing, the other has
    taken the first two bags and not counted them off; a third is on its way, and is in the list in the end. -/
theorem handover_of_four : ∃ b c : Depot Nat,
    (b.Reach ∧ b.stage 1 = .watch [3] ∧ b.stage 3 = .lower [1, 2] ∧ b.results = [(2, [])] ∧ b.count = 2 ∧
      b.lock.value = [] ∧ [1, 2].length ≤ b.count ∧ b.Handover) ∧
    (c.Reach ∧ c.pushed = [1, 2, 3] ∧ c.results = [(2, []), (3, [1, 2])] ∧ c.lock.value = [3] ∧
      c.pushed = c.results.flatMap (·.2) ++ c.lock.value ∧
      ∃ d, (Depot.step · 2)^[5] (c.adopt 2) = d ∧ d.stage 2 = .adopted [3]) := by
  have hpushed := (((((Reach.start (β := Nat)).push 0 [1, 2]).step 0).push 1 [3]).step 1).step 0
  have hrefused := ((((hpushed.step 0).adopt 2).step 2).step 2).step 0
  have htaken := (((hrefused.adopt 3).step 3).step 3).step 3
  have hover := (((((((htaken.step 3).step 3).step 1).step 1).step 1).step 1).step 1)
  refine ⟨_, _, ⟨htaken, rfl, rfl, rfl, rfl, rfl, htaken.handover.covered 3 [1, 2] rfl, htaken.handover⟩,
    hover, rfl, rfl, rfl, (hover.handover.free rfl).1, ?_⟩
  obtain ⟨d, hd, hadopted, -⟩ := hover.handover.alone 2 rfl (by nofun) rfl
  exact ⟨d, hd, hadopted⟩

end Depot

end EpochQueue.Reclaim
