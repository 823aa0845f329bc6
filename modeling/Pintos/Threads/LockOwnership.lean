import Pintos.Threads.Code

/-!
# Who has a lock

The semaphore of a lock, its `holder` and the lists of locks of the threads tell the same story:
each lock is free, held by one thread, or in the middle of an operation of one thread.
Source `threads/synch.c:214–338`.
-/

namespace Pintos.Threads

open Base

/-- Where in `lock_release` or `lock_try_acquire` a thread stands. -/
inductive Stage
  | removed
  | cleared
  | taken
  | named
  deriving DecidableEq, Repr

/-- The lock that a piece of code is in the middle of releasing or acquiring. -/
def Action.stage : Action → Option (LockId × Stage)
  | releaseDonated l | releaseHolder l => some (l, .removed)
  | releaseSema l => some (l, .cleared)
  | tryHolder l => some (l, .taken)
  | tryInsert l => some (l, .named)
  | _ => none

/-- The lock that a thread is in the middle of releasing or acquiring. -/
def Kernel.stageOf (s : Kernel) (t : Tid) : Option (LockId × Stage) :=
  (s.thread t).todo.head?.bind Action.stage

/-- What becomes of a lock. -/
inductive Phase
  | free
  | held (t : Tid)
  | midway (t : Tid) (st : Stage)
  deriving DecidableEq, Repr

namespace Phase

/-- The value of the lock's semaphore. -/
def value : Phase → Nat
  | free => 1
  | _ => 0

/-- The `holder` field. -/
def holder : Phase → Option Tid
  | held t | midway t .removed | midway t .named => some t
  | _ => none

/-- The threads that have completed an acquire and not begun to release. -/
def owners : Phase → List Tid
  | held t => [t]
  | _ => []

/-- How often the lock is on a thread's list of locks. -/
def listed : Phase → Tid → Nat
  | held t, u => if u = t then 1 else 0
  | _, _ => 0

/-- The thread in the middle of an operation. -/
def stage : Phase → Tid → Option Stage
  | midway t st, u => if u = t then some st else none
  | _, _ => none

end Phase

/-- The lock is in the phase. -/
structure Custody (s : Kernel) (l : LockId) (p : Phase) : Prop where
  value : (s.sema (.lock l)).value = p.value
  holder : (s.lock l).holder = p.holder
  owners : (s.lock l).owners = p.owners
  listed : ∀ t, (s.thread t).locks.count l = p.listed t
  stage : ∀ t st, s.stageOf t = some (l, st) ↔ p.stage t = some st

/-- Every lock is in a phase, and threads that do not exist yet have no locks. -/
structure LockInv (s : Kernel) : Prop where
  custody : ∀ l, ∃ p, Custody s l p
  fresh : ∀ t, s.nextTid ≤ t → (s.thread t).locks = []

/-- The two states differ in nothing that says who has a lock. -/
structure SameOwners (s m : Kernel) (l : LockId) : Prop where
  value : (m.sema (.lock l)).value = (s.sema (.lock l)).value
  holder : (m.lock l).holder = (s.lock l).holder
  owners : (m.lock l).owners = (s.lock l).owners
  listed : ∀ t, (m.thread t).locks.count l = (s.thread t).locks.count l

namespace SameOwners

variable {s m m' : Kernel} {l : LockId}

private theorem refl (s : Kernel) (l : LockId) : SameOwners s s l := ⟨rfl, rfl, rfl, fun _ => rfl⟩

theorem trans (h : SameOwners s m l) (h' : SameOwners m m' l) : SameOwners s m' l where
  value := h'.value.trans h.value
  holder := h'.holder.trans h.holder
  owners := h'.owners.trans h.owners
  listed t := (h'.listed t).trans (h.listed t)

private theorem modify (s : Kernel) (t : Tid) (f : Thread → Thread) (l : LockId)
    (hf : (f (s.thread t)).locks.count l = (s.thread t).locks.count l) :
    SameOwners s (s.modify t f) l where
  value := rfl
  holder := rfl
  owners := rfl
  listed := Kernel.field_modify (·.locks.count l) hf

private theorem push (s : Kernel) (as : List Action) (l : LockId) : SameOwners s (s.push as) l :=
  modify s s.current _ l rfl

theorem pop (s : Kernel) (l : LockId) : SameOwners s s.pop l := modify s s.current _ l rfl

private theorem modifySema (s : Kernel) (k : SemaId) (f : Semaphore → Semaphore) (l : LockId)
    (hk : k ≠ .lock l) : SameOwners s (s.modifySema k f) l where
  value := by simp [Kernel.modifySema, Ne.symm hk]
  holder := rfl
  owners := rfl
  listed _ := rfl

private theorem modifyLock (s : Kernel) (j : LockId) (f : Lock → Lock) (l : LockId)
    (hf : j ≠ l ∨ (f (s.lock j)).holder = (s.lock j).holder ∧
      (f (s.lock j)).owners = (s.lock j).owners) :
    SameOwners s (s.modifyLock j f) l := by
  rcases hf with hne | ⟨hh, ho⟩
  · exact ⟨rfl, by simp [Kernel.modifyLock, Ne.symm hne], by simp [Kernel.modifyLock, Ne.symm hne],
      fun _ => rfl⟩
  · exact ⟨rfl, Kernel.field_modifyLock Lock.holder hh l,
      Kernel.field_modifyLock Lock.owners ho l, fun _ => rfl⟩

theorem donate (s : Kernel) (j l : LockId) : SameOwners s (s.donate j) l :=
  Kernel.donate_induct (P := (SameOwners s · l))
    (fun m i _ h => h.trans (modifyLock m i _ l (Or.inr ⟨rfl, rfl⟩)))
    (fun m t _ h => h.trans (modify m t _ l rfl)) (modify s s.current _ l rfl)

private theorem moved (h : Moved s m) (l : LockId) : SameOwners s m l where
  value := h.value _
  holder := by rw [h.lock]
  owners := by rw [h.lock]
  listed t := by rw [h.locks]

private theorem setPriorityEffect (s : Kernel) (n : Int) (l : LockId) :
    SameOwners s (s.setPriorityEffect n) l := by
  have hm : SameOwners s (s.modify s.current fun th =>
      { th with basePriority := n, priority := Kernel.newPriority th n }) l :=
    modify s s.current _ l rfl
  unfold Kernel.setPriorityEffect
  dsimp only
  split
  · exact hm.trans (push _ _ l)
  · exact hm

theorem mem_insertLock {s : Kernel} {l j : LockId} {ls : List LockId} :
    j ∈ s.insertLock l ls ↔ j = l ∨ j ∈ ls :=
  List.mem_orderedInsert _

private theorem count_insertLock (s : Kernel) (l : LockId) (ls : List LockId) (j : LockId) :
    (s.insertLock l ls).count j = (l :: ls).count j :=
  (List.perm_orderedInsert _ l ls).count_eq j

private theorem takeLock (s : Kernel) {j l : LockId} (hj : j ≠ l) :
    SameOwners s (s.takeLock j) l := by
  unfold Kernel.takeLock
  refine trans (trans (modifySema s _ _ l fun h => hj (SemaId.lock.inj h))
    (modifyLock _ j _ l (Or.inl hj))) (modify _ s.current _ l ?_)
  rw [count_insertLock, List.count_cons_of_ne hj]

private theorem acquireEffect (s : Kernel) {j l : LockId} (hj : j ≠ l) :
    SameOwners s (s.acquireEffect j) l := by
  unfold Kernel.acquireEffect
  split
  · exact push s _ l
  · exact takeLock s hj

private theorem semaTryDown (s : Kernel) {k : SemaId} (hk : k ≠ .lock l) :
    SameOwners s (s.semaTryDown k) l := by
  unfold Kernel.semaTryDown
  split
  · exact refl s l
  · exact modifySema s _ _ l hk

private theorem semaDownEffect (s : Kernel) {k : SemaId} (hk : k ≠ .lock l) :
    SameOwners s (s.semaDownEffect k) l := by
  unfold Kernel.semaDownEffect
  split
  · exact push s _ l
  · exact modifySema s _ _ l hk

private theorem takeTid (s : Kernel) (p : Int) (hf : (s.thread s.nextTid).locks = []) (l : LockId) :
    SameOwners s (s.takeTid p) l := by
  have hm : SameOwners s (s.modify s.nextTid fun _ =>
      initThread .blocked p [.kernelThread s.current]) l :=
    modify s s.nextTid _ l (by rw [hf]; rfl)
  refine trans ?_ (push _ _ l)
  exact { hm with }

end SameOwners

/-- The lock whose owner a piece of code may change. -/
def Action.lockOf : Action → Option LockId
  | lockAcquire l | lockRetest l | lockTryAcquire l | tryHolder l | tryInsert l | lockRelease l
  | releaseHolder l | releaseSema l => some l
  | _ => none

private theorem ne_lock_of_proper {a : Action} {k : SemaId} {l : LockId} (ha : a.proper = true)
    (hk : a = .semaDown k ∨ a = .semaRetest k ∨ a = .semaTryDown k ∨ a = .semaUp k) :
    k ≠ .lock l := by
  rintro rfl
  rcases hk with rfl | rfl | rfl | rfl <;> cases ha

/-- A piece of code leaves the other locks to those who have them. -/
theorem effect_sameOwners {s m : Kernel} {a : Action} {l : LockId} (h : s.effect a = some m)
    (ha : a.proper = true) (hl : a.lockOf ≠ some l) (hf : (s.thread s.nextTid).locks = []) :
    SameOwners s m l := by
  have hne : ∀ j, a.lockOf = some j → j ≠ l := by
    rintro j hj rfl
    exact hl hj
  cases a with
  | semaDown k | semaRetest k =>
    cases h
    exact SameOwners.semaDownEffect s (ne_lock_of_proper ha (by simp))
  | semaTryDown k =>
    cases h
    exact SameOwners.semaTryDown s (ne_lock_of_proper ha (by simp))
  | semaUp k =>
    cases h
    exact (SameOwners.push s _ l).trans
      (SameOwners.modifySema _ k _ l (ne_lock_of_proper ha (by simp)))
  | lockAcquire j =>
    simp only [Kernel.effect] at h
    split at h
    · cases h
    · cases h
      exact (SameOwners.donate s j l).trans (SameOwners.acquireEffect _ (hne j rfl))
  | lockRetest j =>
    cases h
    exact SameOwners.acquireEffect s (hne j rfl)
  | lockTryAcquire j =>
    simp only [Kernel.effect, Kernel.lockTryAcquire] at h
    split at h
    · cases h
    · split at h
      · cases h
        exact SameOwners.refl s l
      · cases h
        refine (SameOwners.semaTryDown s ?_).trans (SameOwners.push _ _ l)
        exact fun hj => hne j rfl (SemaId.lock.inj hj)
  | tryHolder j | releaseHolder j =>
    cases h
    exact (SameOwners.modifyLock s j _ l (Or.inl (hne j rfl))).trans (SameOwners.push _ _ l)
  | tryInsert j =>
    cases h
    refine (SameOwners.modifyLock s j _ l (Or.inl (hne j rfl))).trans
      (SameOwners.modify _ s.current _ l ?_)
    rw [SameOwners.count_insertLock, List.count_cons_of_ne (hne j rfl)]
  | lockRelease j =>
    simp only [Kernel.effect, Kernel.lockRelease] at h
    split at h
    · cases h
      refine ((SameOwners.modifyLock s j _ l (Or.inl (hne j rfl))).trans
        (SameOwners.modify _ s.current _ l ?_)).trans (SameOwners.push _ _ l)
      exact List.count_erase_of_ne (hne j rfl).symm
    · cases h
  | releaseDonated j =>
    cases h
    exact (SameOwners.modify s s.current _ l rfl).trans (SameOwners.push _ _ l)
  | releaseSema j =>
    cases h
    refine (SameOwners.push s _ l).trans (SameOwners.modifySema _ _ _ l ?_)
    exact fun hj => hne j rfl (SemaId.lock.inj hj)
  | releasePriority =>
    cases h
    exact SameOwners.setPriorityEffect s _ l
  | setPriority n =>
    cases h
    exact SameOwners.setPriorityEffect s n l
  | takeTid p =>
    cases h
    exact SameOwners.takeTid s p hf l
  | startThread t =>
    cases h
    exact SameOwners.push s _ l
  | condWait c j =>
    simp only [Kernel.effect, Kernel.condWait] at h
    split at h
    · cases h
      exact { SameOwners.push s _ l with }
    · cases h
  | condSignal c j =>
    simp only [Kernel.effect] at h
    split at h
    · split at h
      · cases h
        exact SameOwners.refl s l
      · rename_i w rest _
        cases h
        refine SameOwners.trans ?_ (SameOwners.modifySema _ (.cond w.1) _ l (by simp))
        exact { SameOwners.push s _ l with }
    · cases h
  | sleep n =>
    simp only [Kernel.effect] at h
    split at h
    · cases h
      exact SameOwners.refl s l
    · cases h
      exact (SameOwners.modify s s.current _ l rfl).trans (SameOwners.push _ _ l)
  | block | idle =>
    cases h
    exact SameOwners.push s _ l
  | unblock t =>
    simp only [Kernel.effect] at h
    split at h
    · cases h
      exact SameOwners.refl s l
    · cases h
  | _ =>
    cases h
    exact SameOwners.refl s l

section Stages

variable {s m : Kernel} {a : Action} {as : List Action}

private theorem Action.stage_of_deferred {b : Action} (h : b.deferred = true) :
    b.stage = none := by
  cases b <;> first | rfl | cases h

theorem Ran.stage_before (h : Ran s a as m) : s.stageOf s.current = a.stage := by
  rw [Kernel.stageOf, show (s.thread s.current).todo.head? = some a from h.head]
  rfl

theorem Ran.stage_after (h : Ran s a as m) :
    m.stageOf s.current = as.head?.bind Action.stage := by
  obtain ⟨rest, -, hrest, hd⟩ := h.todo_current
  rw [Kernel.stageOf, hrest]
  cases as with
  | cons b as => rfl
  | nil =>
    cases rest with
    | nil => rfl
    | cons b rest => exact Action.stage_of_deferred (hd b List.mem_cons_self)

theorem Ran.stage_other (h : Ran s a as m) {t : Tid} (ht : t ≠ s.current) :
    m.stageOf t = s.stageOf t := by
  rw [Kernel.stageOf, Kernel.stageOf]
  rcases h.head_other ht with he | ⟨-, hb, he⟩
  · rw [he]
  · rw [hb, he]
    rfl

/-- Only the code of an operation on the lock enters or leaves a stage of it. -/
private theorem Action.Next.stage_iff {l : LockId} (h : a.Next as) (hl : a.lockOf ≠ some l)
    (st : Stage) : as.head?.bind Action.stage = some (l, st) ↔ a.stage = some (l, st) := by
  cases a <;> grind [Action.Next, Action.lockOf, Action.stage]

end Stages

namespace Custody

variable {s m : Kernel} {a : Action} {as : List Action} {l : LockId} {p p' : Phase}

private theorem same (hc : Custody s l p) (hr : Ran s a as m) (ho : SameOwners s m l)
    (hst : ∀ st, as.head?.bind Action.stage = some (l, st) ↔ a.stage = some (l, st)) :
    Custody m l p where
  value := ho.value.trans hc.value
  holder := ho.holder.trans hc.holder
  owners := ho.owners.trans hc.owners
  listed t := (ho.listed t).trans (hc.listed t)
  stage t st := by
    by_cases ht : t = s.current
    · subst ht
      rw [hr.stage_after, hst, ← hr.stage_before]
      exact hc.stage _ st
    · rw [hr.stage_other ht]
      exact hc.stage t st

/-- A phase ends and another begins, both of which concern no thread but the running one. -/
private theorem advance (hc : Custody s l p) (hr : Ran s a as m)
    (hp : ∀ t, t ≠ s.current → p.stage t = none) (hp' : ∀ t, t ≠ s.current → p'.stage t = none)
    (hst : ∀ st, as.head?.bind Action.stage = some (l, st) ↔ p'.stage s.current = some st)
    (hv : (m.sema (.lock l)).value = p'.value) (hh : (m.lock l).holder = p'.holder)
    (ho : (m.lock l).owners = p'.owners)
    (hl : ∀ t, (m.thread t).locks.count l = p'.listed t) : Custody m l p' where
  value := hv
  holder := hh
  owners := ho
  listed := hl
  stage t st := by
    by_cases ht : t = s.current
    · subst ht
      rw [hr.stage_after]
      exact hst st
    · rw [hr.stage_other ht, hc.stage, hp t ht, hp' t ht]

theorem free_of_value (hc : Custody s l p) (hv : (s.sema (.lock l)).value ≠ 0) : p = .free := by
  rw [hc.value] at hv
  cases p with
  | free => rfl
  | held t => exact absurd rfl hv
  | midway t st => exact absurd rfl hv

private theorem of_stage (hc : Custody s l p) (hr : Ran s a as m) {st : Stage}
    (ha : a.stage = some (l, st)) : p = .midway s.current st := by
  have hs := (hc.stage s.current st).mp (hr.stage_before.trans ha)
  cases p with
  | free => cases hs
  | held t => cases hs
  | midway t st' =>
    simp only [Phase.stage] at hs
    split at hs
    · rename_i ht
      cases hs
      rw [ht]
    · cases hs

/-- A thread that is not in the middle of an operation on the lock holds it only outright. -/
theorem held_of_holder (hc : Custody s l p) (hr : Ran s a as m) (ha : a.stage = none)
    (hh : (s.lock l).holder = some s.current) : p = .held s.current := by
  rw [hc.holder] at hh
  have hno : ∀ st, p ≠ .midway s.current st := by
    rintro st rfl
    have hs := (hc.stage s.current st).mpr (by simp [Phase.stage])
    rw [hr.stage_before, ha] at hs
    cases hs
  cases p with
  | free => cases hh
  | held t =>
    cases hh
    rfl
  | midway t st =>
    cases st with
    | removed | named =>
      cases hh
      exact absurd rfl (hno _)
    | cleared | taken => cases hh

private theorem listed_of (hc : Custody s l p) (t : Tid)
    (hthread : ∀ u, u ≠ t → (m.thread u).locks.count l = (s.thread u).locks.count l)
    (hself : (m.thread t).locks.count l = p'.listed t)
    (hother : ∀ u, u ≠ t → p'.listed u = p.listed u) (u : Tid) :
    (m.thread u).locks.count l = p'.listed u := by
  by_cases hu : u = t
  · subst hu
    exact hself
  · rw [hthread u hu, hc.listed, hother u hu]

private theorem acquire (hc : Custody s l p) (hr : Ran s a as m) {e : Kernel}
    (he : SameOwners s e l) (hcur : e.current = s.current) (hm : m = e.acquireEffect l)
    (ha : a.stage = none) (has : as = [] ∨ as = [.lockRetest l]) : ∃ p', Custody m l p' := by
  have hstage : ∀ st, as.head?.bind Action.stage ≠ some (l, st) := by
    rcases has with rfl | rfl <;> rintro st ⟨⟩
  unfold Kernel.acquireEffect at hm
  split at hm
  · subst hm
    refine ⟨p, hc.same hr (he.trans (SameOwners.push e _ l)) ?_⟩
    intro st
    simp [hstage st, ha]
  · rename_i hv
    subst hm
    rw [he.value] at hv
    obtain rfl := hc.free_of_value hv
    refine ⟨.held s.current, hc.advance hr (fun _ _ => rfl) (fun _ _ => rfl) ?_ ?_ ?_ ?_ ?_⟩
    · exact fun st => ⟨fun h => absurd h (hstage st), by rintro ⟨⟩⟩
    · have h1 := he.value.trans hc.value
      simp [Kernel.takeLock, Kernel.modify, Kernel.modifyLock, Kernel.modifySema, h1, Phase.value]
    · simp [Kernel.takeLock, Kernel.modify, Kernel.modifyLock, hcur, Phase.holder]
    · have ho := he.owners.trans hc.owners
      simp [Kernel.takeLock, Kernel.modify, Kernel.modifyLock, Kernel.modifySema, hcur, ho,
        Phase.owners]
    · refine hc.listed_of s.current ?_ ?_ ?_
      · intro u hu
        rw [← he.listed u]
        simp [Kernel.takeLock, Kernel.modify, Kernel.modifyLock, Kernel.modifySema, hcur, hu]
      · have hl := (he.listed s.current).trans (hc.listed s.current)
        simp [Kernel.takeLock, Kernel.modify, Kernel.modifyLock, Kernel.modifySema, hcur,
          SameOwners.count_insertLock, hl, Phase.listed]
      · intro u hu
        simp [Phase.listed, hu]

private theorem midway_other {c : Tid} (st : Stage) :
    ∀ t, t ≠ c → (Phase.midway c st).stage t = none :=
  fun _ ht => if_neg ht

private theorem listed_of_sameLocks (hc : Custody s l p) (hp : p'.listed = p.listed)
    (hm : ∀ t, (m.thread t).locks = (s.thread t).locks) (t : Tid) :
    (m.thread t).locks.count l = p'.listed t := by
  rw [hm, hp, hc.listed]

private theorem tryAcquire (hc : Custody s l p) (hr : Ran s (.lockTryAcquire l) as m) :
    ∃ p', Custody m l p' := by
  have he := hr.effect
  have htodo := hr.continues.current
  simp only [Kernel.effect, Kernel.lockTryAcquire] at he
  split at he
  · cases he
  · split at he
    · cases he
      rw [List.self_eq_append_left] at htodo
      subst htodo
      exact ⟨p, hc.same hr (SameOwners.pop s l) fun st => ⟨by rintro ⟨⟩, by rintro ⟨⟩⟩⟩
    · rename_i hv
      cases he
      obtain rfl := hc.free_of_value hv
      have has : as = [.tryHolder l] := by
        refine List.append_cancel_right (htodo.symm.trans ?_)
        simp [Kernel.semaTryDown, hv, Kernel.push, Kernel.modify, Kernel.modifySema]
      subst has
      have hv' : (s.sema (.lock l)).value = 1 := hc.value
      refine ⟨.midway s.current .taken, hc.advance hr (fun _ _ => rfl) (midway_other _) ?_ ?_ ?_ ?_
        ?_⟩
      · intro st
        simp [Action.stage, Phase.stage]
      · simp [Kernel.semaTryDown, Kernel.push, Kernel.modify, Kernel.modifySema, Kernel.pop, hv',
          Phase.value]
      · simpa [Kernel.semaTryDown, Kernel.push, Kernel.modify, Kernel.modifySema, Kernel.pop, hv',
          Phase.holder] using hc.holder
      · simpa [Kernel.semaTryDown, Kernel.push, Kernel.modify, Kernel.modifySema, Kernel.pop, hv',
          Phase.owners] using hc.owners
      · exact hc.listed_of_sameLocks rfl fun t => by
          by_cases ht : t = s.current
          · subst ht
            simp [Kernel.semaTryDown, Kernel.push, Kernel.modify, Kernel.modifySema, Kernel.pop,
              hv']
          · simp [Kernel.semaTryDown, Kernel.push, Kernel.modify, Kernel.modifySema, Kernel.pop,
              hv', ht]

private theorem release (hc : Custody s l p) (hr : Ran s (.lockRelease l) as m) :
    ∃ p', Custody m l p' := by
  have he := hr.effect
  obtain rfl := hr.next
  simp only [Kernel.effect, Kernel.lockRelease] at he
  split at he
  · rename_i hh
    cases he
    obtain rfl := hc.held_of_holder hr rfl hh
    refine ⟨.midway s.current .removed, hc.advance hr (fun _ _ => rfl) (midway_other _) ?_
      hc.value ?_ ?_ ?_⟩
    · intro st
      simp [Action.stage, Phase.stage]
    · simpa [Kernel.push, Kernel.modify, Kernel.modifyLock, Kernel.pop, Phase.holder]
        using hc.holder
    · have ho := hc.owners
      simp [Kernel.push, Kernel.modify, Kernel.modifyLock, Kernel.pop, ho, Phase.owners]
    · refine hc.listed_of s.current ?_ ?_ ?_
      · intro u hu
        simp [Kernel.push, Kernel.modify, Kernel.modifyLock, Kernel.pop, hu]
      · have hl := hc.listed s.current
        simp [Kernel.push, Kernel.modify, Kernel.modifyLock, Kernel.pop, hl, Phase.listed]
      · intro u hu
        simp [Phase.listed, hu]
  · cases he

private theorem locks_pop_push (s : Kernel) (as : List Action) (t : Tid) :
    ((s.pop.push as).thread t).locks = (s.thread t).locks :=
  (Kernel.field_modify Thread.locks rfl t).trans (Kernel.field_modify Thread.locks rfl t)

private theorem ran (hc : Custody s l p) (hr : Ran s a as m)
    (hf : (s.thread s.nextTid).locks = []) :
    ∃ p', Custody m l p' := by
  have hpop := SameOwners.pop s l
  by_cases hl : a.lockOf = some l
  · have he := hr.effect
    have hn := hr.next
    cases a with
    | lockAcquire j =>
      cases hl
      simp only [Kernel.effect] at he
      split at he
      · cases he
      · exact hc.acquire hr (hpop.trans (SameOwners.donate s.pop l l))
          (SameCode.donate s.pop l).current (Option.some.inj he).symm rfl hn
    | lockRetest j =>
      cases hl
      exact hc.acquire hr hpop rfl (Option.some.inj he).symm rfl hn
    | lockTryAcquire j =>
      cases hl
      exact hc.tryAcquire hr
    | tryHolder j =>
      cases hl
      cases he
      obtain rfl := hn
      obtain rfl := hc.of_stage hr rfl
      refine ⟨.midway s.current .named, hc.advance hr (midway_other _) (midway_other _) ?_
        hc.value ?_ ?_ ?_⟩
      · intro st
        simp [Action.stage, Phase.stage]
      · simp [Kernel.tryHolder, Kernel.push, Kernel.modify, Kernel.modifyLock, Kernel.pop,
          Phase.holder]
      · simpa [Kernel.tryHolder, Kernel.push, Kernel.modify, Kernel.modifyLock, Kernel.pop,
          Phase.owners] using hc.owners
      · exact hc.listed_of_sameLocks rfl (locks_pop_push s [.tryInsert l])
    | tryInsert j =>
      cases hl
      cases he
      obtain rfl := hn
      obtain rfl := hc.of_stage hr rfl
      refine ⟨.held s.current, hc.advance hr (midway_other _) (fun _ _ => rfl) ?_
        hc.value ?_ ?_ ?_⟩
      · exact fun st => ⟨by rintro ⟨⟩, by rintro ⟨⟩⟩
      · simpa [Kernel.tryInsert, Kernel.modify, Kernel.modifyLock, Kernel.pop, Phase.holder]
          using hc.holder
      · have ho := hc.owners
        simp [Kernel.tryInsert, Kernel.modify, Kernel.modifyLock, Kernel.pop, ho, Phase.owners]
      · refine hc.listed_of s.current ?_ ?_ ?_
        · intro u hu
          simp [Kernel.tryInsert, Kernel.modify, Kernel.modifyLock, Kernel.pop, hu]
        · have hl := hc.listed s.current
          simp [Kernel.tryInsert, Kernel.modify, Kernel.modifyLock, Kernel.pop,
            SameOwners.count_insertLock, hl, Phase.listed]
        · intro u hu
          simp [Phase.listed, hu]
    | lockRelease j =>
      cases hl
      exact hc.release hr
    | releaseHolder j =>
      cases hl
      cases he
      obtain rfl := hn
      obtain rfl := hc.of_stage hr rfl
      refine ⟨.midway s.current .cleared, hc.advance hr (midway_other _) (midway_other _) ?_
        hc.value ?_ ?_ ?_⟩
      · intro st
        simp [Action.stage, Phase.stage]
      · simp [Kernel.releaseHolder, Kernel.push, Kernel.modify, Kernel.modifyLock, Kernel.pop,
          Phase.holder]
      · simpa [Kernel.releaseHolder, Kernel.push, Kernel.modify, Kernel.modifyLock, Kernel.pop,
          Phase.owners] using hc.owners
      · exact hc.listed_of_sameLocks rfl (locks_pop_push s [.releaseSema l])
    | releaseSema j =>
      cases hl
      cases he
      obtain rfl := hn
      obtain rfl := hc.of_stage hr rfl
      refine ⟨.free, hc.advance hr (midway_other _) (fun _ _ => rfl) ?_ ?_ hc.holder hc.owners ?_⟩
      · exact fun st => ⟨by rintro ⟨⟩, by rintro ⟨⟩⟩
      · have hv := hc.value
        simp [Kernel.semaUpEffect, Kernel.push, Kernel.modify, Kernel.modifySema, Kernel.pop, hv,
          Phase.value]
      · exact hc.listed_of_sameLocks rfl (locks_pop_push s [.semaYield, .releasePriority])
    | _ => cases hl
  · have hfp : (s.pop.thread s.pop.nextTid).locks = [] := by
      have hne := hr.ne
      simpa [Kernel.pop, Kernel.modify, Ne.symm hne] using hf
    exact ⟨p, hc.same hr (hpop.trans (effect_sameOwners hr.effect hr.proper hl hfp))
      (hr.next.stage_iff hl)⟩

end Custody

namespace LockInv

variable {s s' m : Kernel}

private theorem moved (h : LockInv s) (hm : Moved s s') : LockInv s' where
  custody l := by
    obtain ⟨p, hc⟩ := h.custody l
    have ho := SameOwners.moved hm l
    refine ⟨p, ho.value.trans hc.value, ho.holder.trans hc.holder, ho.owners.trans hc.owners,
      fun t => (ho.listed t).trans (hc.listed t), fun t st => ?_⟩
    rw [Kernel.stageOf, hm.todo]
    exact hc.stage t st
  fresh t ht := by
    rw [hm.nextTid] at ht
    rw [hm.locks]
    exact h.fresh t ht

private theorem begin (h : LockInv s) (hnil : s.cur.todo = []) (o : Op) :
    LockInv (s.push o.code) where
  custody l := by
    obtain ⟨p, hc⟩ := h.custody l
    have ho := SameOwners.push s o.code l
    refine ⟨p, ho.value.trans hc.value, ho.holder.trans hc.holder, ho.owners.trans hc.owners,
      fun t => (ho.listed t).trans (hc.listed t), fun t st => ?_⟩
    rw [← hc.stage]
    have hsame : (s.push o.code).stageOf t = s.stageOf t := by
      by_cases ht : t = s.current
      · subst ht
        have hcur : (s.thread s.current).todo = [] := hnil
        simp only [Kernel.stageOf, Kernel.push, Kernel.modify, Function.update_self, hcur]
        cases o <;> rfl
      · simp [Kernel.stageOf, Kernel.push, Kernel.modify, ht]
    rw [hsame]
  fresh t ht := by
    rw [show ((s.push o.code).thread t).locks = _ from Kernel.field_modify Thread.locks rfl t]
    exact h.fresh t ht

private theorem ran {a : Action} {as : List Action} (h : LockInv s) (hr : Ran s a as m)
    (hlt : s.current < s.nextTid) : LockInv m where
  custody l := by
    obtain ⟨p, hc⟩ := h.custody l
    exact hc.ran hr (h.fresh s.nextTid le_rfl)
  fresh t ht := by
    have hk := OthersKept.effect hr.effect
    have hle : s.nextTid ≤ t := hk.nextTid.trans ht
    have htc : t ≠ s.current := Nat.ne_of_gt (hlt.trans_le hle)
    have hn : t ≠ s.nextTid ∨ m.nextTid = s.nextTid := by
      by_cases hn : t = s.nextTid
      · exact Or.inr (le_antisymm (hn ▸ ht) hk.nextTid)
      · exact Or.inl hn
    obtain ⟨p, d, he⟩ := hk.thread t htc hn
    have hpop : s.pop.thread t = s.thread t := by simp [Kernel.pop, Kernel.modify, htc]
    rw [he, hpop]
    exact h.fresh t hle

theorem step {i : Input} (h : LockInv s) (hi : SystemInv s) (hs : step s i = some s') :
    LockInv s' := by
  refine hi.step_preserves h (fun o hnil => h.begin hnil o) (fun _ hr => ?_) (fun h hm => ?_) hs
  · exact h.ran hr hi.queues.current_lt
  · exact h.moved hm

end LockInv

theorem lockInv_threadStart (v : Nat → Nat) : LockInv (threadStart v) where
  custody l := by
    refine ⟨.free, rfl, rfl, rfl, fun t => ?_, fun t st => ?_⟩
    · simp only [threadStart]
      split_ifs <;> rfl
    · simp only [Kernel.stageOf, threadStart]
      split_ifs <;> exact ⟨by rintro ⟨⟩, by rintro ⟨⟩⟩
  fresh t _ := by
    simp only [threadStart]
    split_ifs <;> rfl

/-- The system and its locks, in every state that threads and the timer reach. -/
theorem lockInv_run {v : Nat → Nat} {is : List Input} {s : Kernel}
    (hr : run step (threadStart v) is = some s)
    (hu : Along step UnblocksBlocked (threadStart v) is) : SystemInv s ∧ LockInv s := by
  refine run_preserves_along (P := fun s => SystemInv s ∧ LockInv s) ?_
    ⟨systemInv_threadStart v, lockInv_threadStart v⟩ hu hr
  rintro s i s' ⟨hi, hl⟩ hc hs
  exact ⟨hi.step hc hs, hl.step hi hs⟩

/-- Of every lock, at most one thread is between a completed acquire and the matching release, and
its semaphore's value is 0 or 1. While no thread is in the middle of an operation on the lock, the
value is 1 exactly when the lock has no holder, and a lock with a holder is once on the holder's
list of locks and on no other. -/
theorem lock_representation {v : Nat → Nat} {is : List Input} {s : Kernel}
    (hr : run step (threadStart v) is = some s)
    (hu : Along step UnblocksBlocked (threadStart v) is) (l : LockId) :
    (s.lock l).owners.length ≤ 1 ∧ (s.sema (.lock l)).value ≤ 1 ∧
      ((∀ t st, s.stageOf t ≠ some (l, st)) →
        ((s.sema (.lock l)).value = 1 ↔ (s.lock l).holder = none) ∧
        ∀ t, (s.lock l).holder = some t →
          (s.thread t).locks.count l = 1 ∧ ∀ u, u ≠ t → l ∉ (s.thread u).locks) := by
  obtain ⟨p, hc⟩ := (lockInv_run hr hu).2.custody l
  rw [hc.owners, hc.value, hc.holder]
  refine ⟨?_, ?_, fun hno => ?_⟩
  · cases p <;> simp [Phase.owners]
  · cases p <;> simp [Phase.value]
  · cases p with
    | free => exact ⟨⟨fun _ => rfl, fun _ => rfl⟩, by rintro t ⟨⟩⟩
    | held t =>
      refine ⟨⟨by rintro ⟨⟩, by rintro ⟨⟩⟩, ?_⟩
      rintro _ ⟨⟩
      refine ⟨(hc.listed t).trans (if_pos rfl), fun u hu => ?_⟩
      exact List.count_eq_zero.mp ((hc.listed u).trans (if_neg hu))
    | midway t st => exact absurd ((hc.stage t st).mpr (if_pos rfl)) (hno t st)

/-- A thread of priority 33 waits for a lock that the initial thread holds. -/
def oneWaiter : List Input :=
  [.op (.lockAcquire 1), .run, .op (.threadCreate 33)] ++ List.replicate 11 .run ++
    [.op (.lockAcquire 1), .run]

/-- The initial thread gives a lock back to a thread that waits for it. -/
def handOver : List Input :=
  oneWaiter ++ .op (.lockRelease 1) :: List.replicate 6 .run

/-- The thread that waited has the lock, and the lock is on its list and on no other. -/
theorem lock_representation_handOver : ∃ s,
    run step (threadStart fun _ => 0) handOver = some s ∧ (s.lock 1).holder = some 3 ∧
      (s.sema (.lock 1)).value ≠ 1 ∧ (s.thread 3).locks.count 1 = 1 ∧
      ∀ u, u ≠ 3 → 1 ∉ (s.thread u).locks := by
  obtain ⟨s, hs, hp⟩ := run_reaches step (threadStart fun _ => 0) handOver
    (fun s => decide ((s.lock 1).holder = some 3 ∧ (s.lock 1).owners = [3])) (by decide +kernel)
  obtain ⟨hholder, howners⟩ := of_decide_eq_true hp
  have hu : Along step UnblocksBlocked (threadStart fun _ => 0) handOver := by decide +kernel
  have hno : ∀ t st, s.stageOf t ≠ some (1, st) := by
    obtain ⟨p, hc⟩ := (lockInv_run hs hu).2.custody 1
    rw [hc.owners] at howners
    intro t st hst
    cases p with
    | held u => cases (hc.stage t st).mp hst
    | free | midway => cases howners
  obtain ⟨hvalue, hlisted⟩ := (lock_representation hs hu 1).2.2 hno
  refine ⟨s, hs, hholder, fun h1 => ?_, hlisted 3 hholder⟩
  rw [hvalue.mp h1] at hholder
  cases hholder

end Pintos.Threads
