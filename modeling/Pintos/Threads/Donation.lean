import Mathlib.Order.MinMax
import Pintos.Threads.LockOwnership

/-!
# Donated priority is given back

What a lock caches and what a thread has been donated never exceeds the priority of a thread that
waits for the lock, so that no thread keeps a priority that nobody waiting for it has. Each lock
operation runs without interruption except where it blocks or yields.
Source `threads/synch.c:238–275, 320–337`, `threads/thread.c:430–456`.
-/

namespace Pintos.Threads

open Base

variable {i : Input} {e : Kernel} {l : LockId} {t : Tid}

/-- The two states agree on priorities, donations and who waits for or has which lock. -/
structure SamePriorities (s m : Kernel) : Prop where
  priority : ∀ t, (m.thread t).priority = (s.thread t).priority
  basePriority : ∀ t, (m.thread t).basePriority = (s.thread t).basePriority
  donatedPriority : ∀ t, (m.thread t).donatedPriority = (s.thread t).donatedPriority
  waitingLock : ∀ t, (m.thread t).waitingLock = (s.thread t).waitingLock
  locks : ∀ t, (m.thread t).locks = (s.thread t).locks
  maxPriority : ∀ l, (m.lock l).maxPriority = (s.lock l).maxPriority

theorem SamePriorities.modifyLock (s : Kernel) (l : LockId) (f : Lock → Lock)
    (hf : (f (s.lock l)).maxPriority = (s.lock l).maxPriority) :
    SamePriorities s (s.modifyLock l f) where
  priority _ := rfl
  basePriority _ := rfl
  donatedPriority _ := rfl
  waitingLock _ := rfl
  locks _ := rfl
  maxPriority := Kernel.field_modifyLock Lock.maxPriority hf

/-- They also agree on who holds which lock. -/
structure SameData (s m : Kernel) : Prop extends SamePriorities s m where
  holder : ∀ l, (m.lock l).holder = (s.lock l).holder

namespace SameData

variable {s m m' : Kernel}

private theorem refl (s : Kernel) : SameData s s :=
  ⟨⟨fun _ => rfl, fun _ => rfl, fun _ => rfl, fun _ => rfl, fun _ => rfl, fun _ => rfl⟩, fun _ => rfl⟩

private theorem trans (h : SameData s m) (h' : SameData m m') : SameData s m' where
  priority t := (h'.priority t).trans (h.priority t)
  basePriority t := (h'.basePriority t).trans (h.basePriority t)
  donatedPriority t := (h'.donatedPriority t).trans (h.donatedPriority t)
  waitingLock t := (h'.waitingLock t).trans (h.waitingLock t)
  locks t := (h'.locks t).trans (h.locks t)
  maxPriority l := (h'.maxPriority l).trans (h.maxPriority l)
  holder l := (h'.holder l).trans (h.holder l)

theorem moved (h : Moved s m) : SameData s m where
  priority := h.priority
  basePriority := h.basePriority
  donatedPriority := h.donatedPriority
  waitingLock := h.waitingLock
  locks := h.locks
  maxPriority l := by rw [h.lock]
  holder l := by rw [h.lock]

private theorem modify (s : Kernel) (t : Tid) (f : Thread → Thread)
    (hf : ∀ th, f th = { th with
      status := (f th).status, wakeupTick := (f th).wakeupTick, todo := (f th).todo }) :
    SameData s (s.modify t f) where
  priority := Kernel.field_modify Thread.priority (by rw [hf])
  basePriority := Kernel.field_modify Thread.basePriority (by rw [hf])
  donatedPriority := Kernel.field_modify Thread.donatedPriority (by rw [hf])
  waitingLock := Kernel.field_modify Thread.waitingLock (by rw [hf])
  locks := Kernel.field_modify Thread.locks (by rw [hf])
  maxPriority _ := rfl
  holder _ := rfl

theorem push (s : Kernel) (as : List Action) : SameData s (s.push as) :=
  modify s s.current _ fun _ => rfl

theorem pop (s : Kernel) : SameData s s.pop := modify s s.current _ fun _ => rfl

end SameData

/-- The code that may change priorities, donations or who holds or waits for a lock. -/
def Action.donates : Action → Bool
  | lockAcquire _ | lockRetest _ | tryHolder _ | tryInsert _ | lockRelease _ | releaseDonated _
  | releaseHolder _ | releasePriority | setPriority _ | takeTid _ => true
  | _ => false

theorem effect_sameData {s m : Kernel} {a : Action} (h : s.effect a = some m)
    (ha : a.donates = false) : SameData s m := by
  cases a with
  | semaDown k | semaRetest k =>
    simp only [Kernel.effect, Kernel.semaDownEffect, Option.some.injEq] at h
    subst h
    split
    · exact SameData.push s _
    · exact { SameData.refl s with }
  | semaTryDown k =>
    simp only [Kernel.effect, Kernel.semaTryDown, Option.some.injEq] at h
    subst h
    split
    · exact SameData.refl s
    · exact { SameData.refl s with }
  | semaUp k =>
    cases h
    exact { SameData.push s _ with }
  | lockTryAcquire l =>
    simp only [Kernel.effect, Kernel.lockTryAcquire] at h
    split at h
    · cases h
    · split at h
      · cases h
        exact SameData.refl s
      · rename_i hv
        cases h
        rw [Kernel.semaTryDown, if_neg hv]
        exact { SameData.push s _ with }
  | releaseSema l =>
    cases h
    exact { SameData.push s _ with }
  | startThread t =>
    cases h
    exact SameData.push s _
  | condWait c l =>
    simp only [Kernel.effect, Kernel.condWait] at h
    split at h
    · cases h
      exact { SameData.push s _ with }
    · cases h
  | condSignal c l =>
    simp only [Kernel.effect] at h
    split at h
    · split at h
      · cases h
        exact SameData.refl s
      · cases h
        exact { SameData.push s _ with }
    · cases h
  | sleep n =>
    simp only [Kernel.effect] at h
    split at h
    · cases h
      exact SameData.refl s
    · cases h
      exact (SameData.modify s s.current _ fun _ => rfl).trans (SameData.push _ _)
  | block | idle =>
    cases h
    exact SameData.push s _
  | unblock t =>
    simp only [Kernel.effect] at h
    split at h
    · cases h
      exact SameData.refl s
    · cases h
  | lockAcquire l | lockRetest l | tryHolder l | tryInsert l | lockRelease l | releaseDonated l
  | releaseHolder l => cases ha
  | releasePriority => cases ha
  | setPriority n => cases ha
  | takeTid p => cases ha
  | _ =>
    cases h
    exact SameData.refl s

/-- What a lock caches is the priority of a thread that waits for it, what a thread has been
donated is cached in a lock it has, and what it has above its own priority has been donated.
Threads in `unsettled` are about to compute their donation anew, threads in `releasing` their
priority. -/
structure DonationInv (unsettled releasing : Tid → Prop) (s : Kernel) : Prop where
  cached : ∀ l, (s.lock l).maxPriority ≤ PRI_MIN ∨
    ∃ w, (s.thread w).waitingLock = some l ∧ (s.lock l).maxPriority ≤ (s.thread w).priority
  donated : ∀ t, ¬ unsettled t → (s.thread t).donatedPriority ≤ PRI_MIN ∨
    ∃ l ∈ (s.thread t).locks, (s.thread t).donatedPriority ≤ (s.lock l).maxPriority
  priority : ∀ t, ¬ releasing t →
    (s.thread t).priority ≤ max (s.thread t).basePriority (s.thread t).donatedPriority
  base : ∀ t, PRI_MIN ≤ (s.thread t).basePriority

namespace DonationInv

variable {U R U' R' : Tid → Prop} {s m : Kernel}

private theorem same (h : DonationInv U R s) (hd : SamePriorities s m) : DonationInv U R m where
  cached l := by
    simp only [hd.maxPriority, hd.waitingLock, hd.priority]
    exact h.cached l
  donated t ht := by
    simp only [hd.donatedPriority, hd.locks, hd.maxPriority]
    exact h.donated t ht
  priority t ht := by
    rw [hd.priority, hd.basePriority, hd.donatedPriority]
    exact h.priority t ht
  base t := by
    rw [hd.basePriority]
    exact h.base t

private theorem mono (h : DonationInv U R s) (hU : ∀ t, U t → U' t) (hR : ∀ t, R t → R' t) :
    DonationInv U' R' s where
  cached := h.cached
  donated t ht := h.donated t fun hu => ht (hU t hu)
  priority t ht := h.priority t fun hr => ht (hR t hr)
  base := h.base

/-- One thread changes. It may stop waiting only for a lock without a donation. -/
theorem update (h : DonationInv U R s) (c : Tid) (hother : ∀ t, t ≠ c → m.thread t = s.thread t)
    (hmax : ∀ l, (m.lock l).maxPriority = (s.lock l).maxPriority)
    (hU : ∀ t, t ≠ c → U t → U' t) (hR : ∀ t, t ≠ c → R t → R' t)
    (hw : ∀ l, (s.thread c).waitingLock = some l →
      (m.thread c).waitingLock = some l ∧ (s.thread c).priority ≤ (m.thread c).priority)
    (hd : ¬ U' c → (m.thread c).donatedPriority ≤ PRI_MIN ∨
      ∃ l ∈ (m.thread c).locks, (m.thread c).donatedPriority ≤ (s.lock l).maxPriority)
    (hp : ¬ R' c →
      (m.thread c).priority ≤ max (m.thread c).basePriority (m.thread c).donatedPriority)
    (hb : PRI_MIN ≤ (m.thread c).basePriority) : DonationInv U' R' m where
  cached l := by
    rw [hmax]
    refine (h.cached l).imp_right ?_
    rintro ⟨w, hwl, hle⟩
    by_cases hwc : w = c
    · subst hwc
      obtain ⟨hwait, hprio⟩ := hw l hwl
      exact ⟨w, hwait, hle.trans hprio⟩
    · rw [← hother w hwc] at hwl hle
      exact ⟨w, hwl, hle⟩
  donated t ht := by
    simp only [hmax]
    by_cases htc : t = c
    · exact htc ▸ hd (htc ▸ ht)
    · rw [hother t htc]
      exact h.donated t fun hu => ht (hU t htc hu)
  priority t ht := by
    by_cases htc : t = c
    · exact htc ▸ hp (htc ▸ ht)
    · rw [hother t htc]
      exact h.priority t fun hr => ht (hR t htc hr)
  base t := by
    by_cases htc : t = c
    · exact htc ▸ hb
    · rw [hother t htc]
      exact h.base t

private theorem raiseLock (h : DonationInv U R s) {w : Tid}
    (hw : (s.thread w).waitingLock = some l) :
    DonationInv U R (s.raiseLock l (s.thread w).priority) where
  cached j := by
    by_cases hj : j = l
    · subst hj
      simp only [Kernel.raiseLock, Kernel.modifyLock, Function.update_self]
      rcases max_choice (s.lock j).maxPriority (s.thread w).priority with he | he
      · rw [he]
        exact h.cached j
      · rw [he]
        exact Or.inr ⟨w, hw, le_rfl⟩
    · simpa [Kernel.raiseLock, Kernel.modifyLock, hj] using h.cached j
  donated t ht := by
    refine (h.donated t ht).imp_right ?_
    rintro ⟨j, hj, hle⟩
    refine ⟨j, hj, hle.trans ?_⟩
    by_cases hjl : j = l
    · subst hjl
      simp [Kernel.raiseLock, Kernel.modifyLock]
    · simp [Kernel.raiseLock, Kernel.modifyLock, hjl]
  priority := h.priority
  base := h.base

private theorem raiseThread (h : DonationInv U R s) {p : Int}
    (hl : l ∈ (s.thread t).locks) (hp : p ≤ (s.lock l).maxPriority) :
    DonationInv U R (s.raiseThread t p) := by
  have hself : (s.raiseThread t p).thread t = { s.thread t with
      priority := max (s.thread t).priority p
      donatedPriority := max (s.thread t).donatedPriority p } := by
    simp [Kernel.raiseThread, Kernel.modify]
  refine h.update t (fun u hu => by simp [Kernel.raiseThread, Kernel.modify, hu]) (fun _ => rfl)
    (fun _ _ hu => hu) (fun _ _ hr => hr) ?_ ?_ ?_ ?_
  all_goals simp only [hself]
  · exact fun j hj => ⟨hj, le_max_left _ _⟩
  · intro hu
    rcases max_choice (s.thread t).donatedPriority p with he | he
    · rw [he]
      exact h.donated t hu
    · rw [he]
      exact Or.inr ⟨l, hl, hp⟩
  · intro hr
    have hle := h.priority t hr
    omega
  · exact h.base t

private theorem hop (h : DonationInv U R s) {u : Tid}
    (hw : (s.thread t).waitingLock = some l) (hu : l ∈ (s.thread u).locks) :
    DonationInv U R ((s.raiseLock l (s.thread t).priority).raiseThread u
      (s.thread t).priority) := by
  refine (h.raiseLock hw).raiseThread (l := l) hu ?_
  simp [Kernel.raiseLock, Kernel.modifyLock]

end DonationInv

/-- Every lock with a holder is on the holder's list. -/
def HoldersListed (s : Kernel) : Prop :=
  ∀ l t, (s.lock l).holder = some t → l ∈ (s.thread t).locks

private theorem HoldersListed.hop {s : Kernel} (h : HoldersListed s) (l : LockId) (t : Tid)
    (p q : Int) : HoldersListed ((s.raiseLock l p).raiseThread t q) := by
  intro j u hj
  have hlock : ((s.raiseLock l p).lock j).holder = (s.lock j).holder :=
    Kernel.field_modifyLock Lock.holder rfl j
  have hlocks : (((s.raiseLock l p).raiseThread t q).thread u).locks = (s.thread u).locks :=
    Kernel.field_modify Thread.locks rfl u
  rw [hlocks]
  exact h j u (hlock ▸ hj)

namespace DonationInv

variable {U R U' R' : Tid → Prop} {s m : Kernel}

private theorem donateChain (d : Nat) (h : DonationInv U R s) (hl : HoldersListed s) (t : Tid) :
    DonationInv U R (s.donateChain t d) := by
  induction d generalizing s t with
  | zero => exact h
  | succ d ih =>
    rw [Kernel.donateChain]
    split
    · exact h
    · rename_i l hw
      dsimp only
      split
      · exact h.raiseLock hw
      · rename_i u hu
        exact ih (h.hop hw (hl l u hu)) (hl.hop l u _ _) u

private theorem setWaiting (h : DonationInv U R s) (hw : s.cur.waitingLock = none) (l : LockId) :
    DonationInv U R (s.modify s.current fun th => { th with waitingLock := some l }) := by
  have hself : (s.modify s.current fun th => { th with waitingLock := some l }).thread s.current =
      { s.cur with waitingLock := some l } := by
    simp [Kernel.modify, Kernel.cur]
  refine h.update s.current (fun t ht => by simp [Kernel.modify, ht]) (fun _ => rfl)
    (fun _ _ hu => hu) (fun _ _ hr => hr) ?_ ?_ ?_ ?_
  all_goals simp only [hself]
  · intro j hj
    rw [show (s.thread s.current).waitingLock = none from hw] at hj
    cases hj
  · exact h.donated s.current
  · exact h.priority s.current
  · exact h.base s.current

private theorem donate (h : DonationInv U R s) (hl : HoldersListed s)
    (hw : s.cur.waitingLock = none) (l : LockId) : DonationInv U R (s.donate l) := by
  have hs := h.setWaiting hw l
  let e := s.modify s.current fun th => { th with waitingLock := some l }
  have hle : HoldersListed e := by
    intro j t hj
    rw [show (e.thread t).locks = (s.thread t).locks from Kernel.field_modify Thread.locks rfl t]
    exact hl j t hj
  have hwait : (e.thread s.current).waitingLock = some l := by simp [e, Kernel.modify]
  have hp : s.cur.priority = (e.thread s.current).priority := by
    simp [e, Kernel.modify, Kernel.cur]
  unfold Kernel.donate
  dsimp only
  rw [hp]
  split
  · exact hs
  · rename_i u hu
    exact DonationInv.donateChain _ (hs.hop hwait (hle l u hu)) (hle.hop l u _ _) u

/-- A free lock is acquired, with what the waiters that remain would donate. -/
theorem takeLock (h : DonationInv U R s) (hfree : ∀ t, l ∉ (s.thread t).locks)
    (hw : ∀ j, s.cur.waitingLock = some j → j = l)
    (hfront : s.waiterPriority l ≤ PRI_MIN ∨ ∃ w, w ≠ s.current ∧
      (s.thread w).waitingLock = some l ∧ s.waiterPriority l ≤ (s.thread w).priority) :
    DonationInv U R (s.takeLock l) := by
  let m := s.takeLock l
  have hmax : ∀ j, j ≠ l → (m.lock j).maxPriority = (s.lock j).maxPriority := by
    intro j hj
    simp [m, Kernel.takeLock, Kernel.modify, Kernel.modifyLock, Kernel.modifySema, hj]
  have hmaxl : (m.lock l).maxPriority = s.waiterPriority l := by
    simp [m, Kernel.takeLock, Kernel.modify, Kernel.modifyLock, Kernel.modifySema]
  have hother : ∀ t, t ≠ s.current → m.thread t = s.thread t := by
    intro t ht
    simp [m, Kernel.takeLock, Kernel.modify, Kernel.modifyLock, Kernel.modifySema, ht]
  have hls : ∀ j ∈ (s.thread s.current).locks, j ∈ (m.thread s.current).locks := by
    intro j hj
    simp [m, Kernel.takeLock, Kernel.modify, Kernel.modifyLock, Kernel.modifySema,
      SameOwners.mem_insertLock, hj]
  have hd : ∀ t, (m.thread t).donatedPriority = (s.thread t).donatedPriority :=
    Kernel.field_takeLock Thread.donatedPriority s l fun _ _ => rfl
  have hb : ∀ t, (m.thread t).basePriority = (s.thread t).basePriority :=
    Kernel.field_takeLock Thread.basePriority s l fun _ _ => rfl
  have hp : ∀ t, (m.thread t).priority = (s.thread t).priority :=
    Kernel.field_takeLock Thread.priority s l fun _ _ => rfl
  change DonationInv U R m
  refine ⟨fun j => ?_, fun t ht => ?_, fun t ht => ?_, fun t => ?_⟩
  · by_cases hj : j = l
    · subst hj
      rw [hmaxl]
      refine hfront.imp_right ?_
      rintro ⟨w, hne, hwait, hle⟩
      exact ⟨w, by rw [hother w hne, hwait], by rw [hother w hne]; exact hle⟩
    · rw [hmax j hj]
      refine (h.cached j).imp_right ?_
      rintro ⟨w, hwait, hle⟩
      have hne : w ≠ s.current := by
        rintro rfl
        exact hj (hw j hwait)
      exact ⟨w, by rw [hother w hne, hwait], by rw [hother w hne]; exact hle⟩
  · rw [hd]
    refine (h.donated t ht).imp_right ?_
    rintro ⟨j, hj, hle⟩
    refine ⟨j, ?_, ?_⟩
    · by_cases htc : t = s.current
      · exact htc ▸ hls j (htc ▸ hj)
      · rw [hother t htc]
        exact hj
    · rw [hmax j fun he => hfree t (he ▸ hj)]
      exact hle
  · rw [hp, hb, hd]
    exact h.priority t ht
  · rw [hb]
    exact h.base t

/-- A change of the running thread that leaves its waiting lock and its priority alone. -/
private theorem modifyLocks (h : DonationInv U R s) (f : Thread → Thread)
    (hU : ∀ t, t ≠ s.current → U t → U' t) (hR : ∀ t, R t → R' t)
    (hf : (f s.cur).waitingLock = s.cur.waitingLock ∧ (f s.cur).priority = s.cur.priority ∧
      (f s.cur).basePriority = s.cur.basePriority)
    (hd : ¬ U' s.current → (f s.cur).donatedPriority ≤ PRI_MIN ∨ ∃ l ∈ (f s.cur).locks,
      (f s.cur).donatedPriority ≤ (s.lock l).maxPriority)
    (hp : ¬ R' s.current → (f s.cur).donatedPriority = s.cur.donatedPriority) :
    DonationInv U' R' (s.modify s.current f) := by
  have hself : (s.modify s.current f).thread s.current = f s.cur := by
    simp [Kernel.modify, Kernel.cur]
  refine h.update s.current (fun t ht => by simp [Kernel.modify, ht]) (fun _ => rfl) hU
    (fun t _ => hR t) ?_ ?_ ?_ ?_
  all_goals simp only [hself]
  · exact fun j hj => ⟨hf.1.trans hj, hf.2.1.ge⟩
  · exact hd
  · intro hr
    rw [hf.2.1, hf.2.2, hp hr]
    exact h.priority s.current fun hr' => hr (hR _ hr')
  · rw [hf.2.2]
    exact h.base s.current

private theorem setPriorityEffect (h : DonationInv U R s) {n : Int} (hn : PRI_MIN ≤ n)
    (hw : s.cur.waitingLock = none) (hR : ∀ t, t ≠ s.current → R t → R' t) :
    DonationInv U R' (s.setPriorityEffect n) := by
  let m := s.modify s.current fun th =>
    { th with basePriority := n, priority := Kernel.newPriority th n }
  have hcur : m.thread s.current =
      { s.cur with basePriority := n, priority := Kernel.newPriority s.cur n } := by
    simp [m, Kernel.modify, Kernel.cur]
  have hm : DonationInv U R' m := by
    refine h.update s.current (fun t ht => by simp [m, Kernel.modify, ht]) (fun _ => rfl)
      (fun _ _ hu => hu) hR ?_ ?_ ?_ ?_
    all_goals simp only [hcur]
    · intro j hj
      rw [show (s.thread s.current).waitingLock = none from hw] at hj
      cases hj
    · exact h.donated s.current
    · intro _
      simp only [Kernel.newPriority]
      split_ifs <;> omega
    · exact hn
  unfold Kernel.setPriorityEffect
  dsimp only
  split
  · exact hm.same (SameData.push _ _).toSamePriorities
  · exact hm

private theorem takeTid (h : DonationInv U R s) {p : Int} (hp : PRI_MIN ≤ p)
    (hnew : ∀ l, (s.thread s.nextTid).waitingLock ≠ some l) : DonationInv U R (s.takeTid p) := by
  let m : Kernel := { s.modify s.nextTid fun _ =>
    initThread .blocked p [.kernelThread s.current] with nextTid := s.nextTid + 1 }
  have hself : m.thread s.nextTid = initThread .blocked p [.kernelThread s.current] := by
    simp [m, Kernel.modify]
  have hm : DonationInv U R m := by
    refine h.update s.nextTid (fun t ht => by simp [m, Kernel.modify, ht]) (fun _ => rfl)
      (fun _ _ hu => hu) (fun _ _ hr => hr) ?_ ?_ ?_ ?_
    all_goals simp only [hself]
    · exact fun j hj => absurd hj (hnew j)
    · exact fun _ => Or.inl le_rfl
    · exact fun _ => le_max_left _ _
    · exact hp
  exact hm.same (SameData.push m _).toSamePriorities

end DonationInv

section FrontPriority

variable (s : Kernel) (ls : List LockId)

theorem frontPriority_eq : (ls = [] ∧ s.frontPriority ls = PRI_MIN) ∨
    ∃ l ∈ ls, s.frontPriority ls = (s.lock l).maxPriority := by
  have hperm := List.perm_insertionSort
    (fun a b => (s.lock b).maxPriority ≤ (s.lock a).maxPriority) ls
  unfold Kernel.frontPriority
  split
  · rename_i hnil
    rw [hnil] at hperm
    exact Or.inl ⟨hperm.symm.eq_nil, rfl⟩
  · rename_i l rest hcons
    rw [hcons] at hperm
    exact Or.inr ⟨l, hperm.mem_iff.mp List.mem_cons_self, rfl⟩

end FrontPriority

private theorem head_of_waitPlace {as : List Action}
    (hp : ∀ a ∈ as, a.proper = true) (h : waitPlace as = some (.waiters (.lock l))) :
    as.head? = some (.lockRetest l) := by
  unfold waitPlace at h
  split at h
  · cases h
    exact absurd (hp _ List.mem_cons_self) (by simp [Action.proper])
  · cases h
    rfl
  · cases h
  · cases h

/-- The thread is about to compute its donation anew. -/
def Unsettled (s : Kernel) (t : Tid) : Prop :=
  ∃ l, (s.thread t).todo.head? = some (.releaseDonated l)

/-- The code of `lock_release`, from the recomputation of the donation to the end. -/
def releasingCode : List Action → Bool
  | .releaseDonated _ :: _ | .releaseHolder _ :: _ | .releaseSema _ :: _
  | .semaYield :: .releasePriority :: _ | .releasePriority :: _ => true
  | _ => false

/-- The thread is in `lock_release` and has still to set its priority. -/
def Releasing (s : Kernel) (t : Tid) : Prop := releasingCode (s.thread t).todo = true

instance (s : Kernel) (t : Tid) : Decidable (Releasing s t) := instDecidableEqBool _ _

/-- A thread has a `waiting_lock` exactly while it is in `lock_acquire` of that lock. -/
def WaitInv (s : Kernel) : Prop :=
  ∀ t l, (s.thread t).waitingLock = some l ↔ (s.thread t).todo.head? = some (.lockRetest l)

/-- Only the running thread can be in the middle of releasing or trying to acquire a lock. -/
def Alone (s : Kernel) : Prop := ∀ t, t ≠ s.current → s.stageOf t = none

section Code

variable {s m : Kernel} {a : Action} {as : List Action}

private theorem Ran.head_before (h : Ran s a as m) :
    (s.thread s.current).todo.head? = some a := h.head

theorem Ran.head_after {b : Action} (h : Ran s a (b :: as) m) :
    (m.thread s.current).todo.head? = some b := by
  obtain ⟨rest, -, hm, -⟩ := h.todo_current
  rw [hm]
  rfl

theorem Ran.unsettled_other (h : Ran s a as m) (ht : t ≠ s.current) :
    Unsettled m t ↔ Unsettled s t := by
  rcases h.head_other ht with he | ⟨-, hb, he⟩
  · rw [Unsettled, Unsettled, he]
  · simp [Unsettled, hb, he]

theorem Ran.releasing_other (h : Ran s a as m) (ht : t ≠ s.current) :
    Releasing m t ↔ Releasing s t := by
  rcases h.head_other ht with he | ⟨-, hb, he⟩
  · rw [Releasing, Releasing, he]
  · simp [Releasing, hb, he, releasingCode]

theorem Ran.unsettled_before (h : Ran s a as m) :
    Unsettled s s.current ↔ ∃ l, a = .releaseDonated l := by
  simp [Unsettled, h.head_before]

/-- Whoever is releasing a lock goes on with it until the priority is set. -/
theorem Ran.releasing_after (h : Ran s a as m) (hr : Releasing s s.current)
    (ha : a ≠ .releasePriority) : Releasing m s.current := by
  obtain ⟨rest, hs, hm, -⟩ := h.todo_current
  have hn := h.next
  rw [Releasing, hs] at hr
  rw [Releasing, hm]
  cases a with
  | releaseDonated l | releaseHolder l | releaseSema l =>
    obtain rfl := hn
    rfl
  | semaYield =>
    obtain rfl := hn
    cases rest with
    | nil => cases hr
    | cons b rest => cases b <;> first | rfl | cases hr
  | releasePriority => exact absurd rfl ha
  | _ => cases hr

theorem Unsettled.releasing (h : Unsettled s t) : Releasing s t := by
  obtain ⟨l, hl⟩ := h
  rw [Releasing]
  cases ht : (s.thread t).todo with
  | nil =>
    rw [ht] at hl
    cases hl
  | cons b rest =>
    rw [ht] at hl
    cases hl
    rfl

theorem releasing_of_head
    (h : (s.thread t).todo.head? = some (.releaseHolder l)) : Releasing s t := by
  rw [Releasing]
  cases ht : (s.thread t).todo with
  | nil =>
    rw [ht] at h
    cases h
  | cons b rest =>
    rw [ht] at h
    cases h
    rfl

private theorem WaitInv.waitingLock_eq_none (hw : WaitInv s) (h : Ran s a as m)
    (ha : ∀ l, a ≠ .lockRetest l) : s.cur.waitingLock = none := by
  rw [Option.eq_none_iff_forall_ne_some]
  intro l hl
  have hhead := (hw s.current l).mp hl
  rw [h.head_before] at hhead
  exact ha l (Option.some.inj hhead)

/-- Outside the operations of the running thread every lock with a holder is on its list. -/
theorem LockInv.holdersListed (hl : LockInv s) (halone : Alone s)
    (hcur : s.stageOf s.current = none) : HoldersListed s := by
  intro l t ht
  obtain ⟨p, hc⟩ := hl.custody l
  have hno : ∀ u st, p ≠ .midway u st := by
    rintro u st rfl
    have hs := (hc.stage u st).mpr (if_pos rfl)
    by_cases hu : u = s.current
    · rw [hu, hcur] at hs
      cases hs
    · rw [halone u hu] at hs
      cases hs
  rw [hc.holder] at ht
  cases p with
  | free => cases ht
  | midway u st => exact absurd rfl (hno u st)
  | held u =>
    cases ht
    refine List.count_pos_iff.mp ?_
    rw [hc.listed, Phase.listed, if_pos rfl]
    exact Nat.one_pos

/-- Whoever is on the waiters list of a lock's semaphore waits for the lock. -/
theorem WaitInv.of_mem (hw : WaitInv s) (hi : SystemInv s) {w : Tid}
    (hm : w ∈ (s.sema (.lock l)).waiters) :
    w ≠ s.current ∧ (s.thread w).waitingLock = some l := by
  have hplace : s.place w = some (.waiters (.lock l)) :=
    (hi.queues.placed.mem_iff (.waiters (.lock l)) w).mp hm
  have hb := QueueInv.blocked_of_place hplace (by simp)
  refine ⟨?_, ?_⟩
  · rintro rfl
    rw [(hi.queues.running s.current).mpr rfl] at hb
    cases hb
  · rw [Kernel.place, hb] at hplace
    exact (hw w l).mpr (head_of_waitPlace (hi.code.head w) hplace)

private theorem WaitInv.front (hw : WaitInv s) (hi : SystemInv s) (he : e.sema = s.sema)
    (l : LockId) : e.waiterPriority l = PRI_MIN ∨ ∃ w, w ≠ s.current ∧
      (s.thread w).waitingLock = some l ∧ e.waiterPriority l = (e.thread w).priority := by
  have hperm := List.perm_insertionSort e.AtLeast (s.sema (.lock l)).waiters
  unfold Kernel.waiterPriority Kernel.sorted
  rw [he]
  split
  · exact Or.inl rfl
  · rename_i w rest hcons
    rw [hcons] at hperm
    obtain ⟨hne, hwait⟩ := hw.of_mem hi (hperm.mem_iff.mp List.mem_cons_self)
    exact Or.inr ⟨w, hne, hwait, rfl⟩

end Code

private theorem waitingLock_donate (s : Kernel) (l : LockId) :
    ((s.donate l).thread s.current).waitingLock = some l :=
  Kernel.donate_induct (P := fun m => (m.thread s.current).waitingLock = some l) (fun _ _ _ h => h)
    (fun _ _ _ h => (Kernel.field_modify Thread.waitingLock rfl _).trans h) (by simp [Kernel.modify])

namespace WaitInv

variable {s s' m : Kernel} {a : Action} {as : List Action}

private theorem moved (h : WaitInv s) (hm : Moved s s') : WaitInv s' := by
  intro t l
  rw [hm.waitingLock, hm.todo]
  exact h t l

private theorem acquire (hr : Ran s a as m)
    (hm : m = e.acquireEffect l) (hc : e.current = s.current)
    (hw : (e.thread s.current).waitingLock = some l)
    (ht : (e.thread s.current).todo = s.pop.cur.todo) (j : LockId) :
    (m.thread s.current).waitingLock = some j ↔
      (m.thread s.current).todo.head? = some (.lockRetest j) := by
  unfold Kernel.acquireEffect at hm
  split at hm
  · subst hm
    simp [Kernel.push, Kernel.modify, hc, hw]
  · subst hm
    have hnone : ((e.takeLock l).thread s.current).waitingLock = none := by
      simp [Kernel.takeLock, Kernel.modify, Kernel.modifyLock, Kernel.modifySema, hc]
    have htodo : ((e.takeLock l).thread s.current).todo = s.pop.cur.todo :=
      ((SameCode.takeLock e l).todo _).trans ht
    rw [hnone, htodo]
    refine ⟨by simp, fun hh => ?_⟩
    have hd := hr.deferred _ (List.mem_of_mem_head? hh)
    cases hd

private theorem waitingLock_cur (hr : Ran s a as m)
    (ha : ∀ l, a ≠ .lockAcquire l ∧ a ≠ .lockRetest l) :
    (m.thread s.current).waitingLock = s.cur.waitingLock := by
  have he := hr.effect
  have hpop : (s.pop.thread s.current).waitingLock = s.cur.waitingLock :=
    (SameData.pop s).waitingLock s.current
  rw [← hpop]
  by_cases hd : a.donates = false
  · exact (effect_sameData he hd).waitingLock s.current
  · have hset : ∀ n, ((s.pop.setPriorityEffect n).thread s.current).waitingLock =
        (s.pop.thread s.current).waitingLock := by
      intro n
      unfold Kernel.setPriorityEffect
      dsimp only
      split <;> simp [Kernel.push, Kernel.modify, Kernel.pop]
    cases a with
    | lockAcquire l => exact absurd rfl (ha l).1
    | lockRetest l => exact absurd rfl (ha l).2
    | tryHolder l =>
      cases he
      simp [Kernel.tryHolder, Kernel.push, Kernel.modify, Kernel.modifyLock, Kernel.pop]
    | tryInsert l =>
      cases he
      simp [Kernel.tryInsert, Kernel.modify, Kernel.modifyLock, Kernel.pop]
    | lockRelease l =>
      simp only [Kernel.effect, Kernel.lockRelease] at he
      split at he
      · cases he
        simp [Kernel.push, Kernel.modify, Kernel.modifyLock, Kernel.pop]
      · cases he
    | releaseDonated l =>
      cases he
      simp [Kernel.releaseDonated, Kernel.push, Kernel.modify, Kernel.pop]
    | releaseHolder l =>
      cases he
      simp [Kernel.releaseHolder, Kernel.push, Kernel.modify, Kernel.modifyLock, Kernel.pop]
    | releasePriority =>
      cases he
      exact hset _
    | setPriority n =>
      cases he
      exact hset n
    | takeTid p =>
      cases he
      have hne := hr.ne
      simp [Kernel.takeTid, Kernel.push, Kernel.modify, Kernel.pop, hne]
    | _ => exact absurd rfl hd

/-- Only `lock_acquire` leaves a test of the lock's semaphore to be run. -/
private theorem head_cur (hr : Ran s a as m) (ha : ∀ l, a ≠ .lockAcquire l ∧ a ≠ .lockRetest l)
    (l : LockId) : (m.thread s.current).todo.head? ≠ some (.lockRetest l) := by
  obtain ⟨rest, -, hm, hd⟩ := hr.todo_current
  have hn := hr.next
  rw [hm]
  cases as with
  | nil =>
    intro hh
    have hdef := hd _ (List.mem_of_mem_head? hh)
    cases hdef
  | cons b as =>
    rw [List.cons_append, List.head?_cons, ne_eq, Option.some.injEq]
    rintro rfl
    cases a <;> grind [Action.Next]

private theorem ran (h : WaitInv s) (hr : Ran s a as m) : WaitInv m := by
  intro t l
  by_cases ht : t = s.current
  · subst ht
    have he := hr.effect
    have hpw : (s.pop.thread s.current).waitingLock = s.cur.waitingLock :=
      (SameData.pop s).waitingLock s.current
    by_cases ha : ∀ l, a ≠ .lockAcquire l ∧ a ≠ .lockRetest l
    · rw [waitingLock_cur hr ha, h.waitingLock_eq_none hr fun l => (ha l).2]
      exact ⟨by simp, fun hh => absurd hh (head_cur hr ha l)⟩
    · cases a with
      | lockAcquire j =>
        simp only [Kernel.effect] at he
        split at he
        · cases he
        · refine acquire hr (Option.some.inj he).symm (SameCode.donate s.pop j).current ?_
            ((SameCode.donate s.pop j).todo _) l
          exact waitingLock_donate s.pop j
      | lockRetest j =>
        refine acquire hr (Option.some.inj he).symm rfl ?_ rfl l
        rw [hpw]
        exact (h s.current j).mpr hr.head_before
      | _ => exact absurd (fun l => ⟨by simp, by simp⟩) ha
  · have hk := OthersKept.effect hr.effect
    have hpop : s.pop.thread t = s.thread t := by simp [Kernel.pop, Kernel.modify, ht]
    by_cases hn : t ≠ s.nextTid ∨ m.nextTid = s.nextTid
    · obtain ⟨p, d, he⟩ := hk.thread t ht hn
      have hwait : (m.thread t).waitingLock = (s.thread t).waitingLock := by rw [he, hpop]
      rw [hwait]
      rcases hr.head_other ht with htodo | ⟨-, hb, htodo⟩
      · rw [htodo]
        exact h t l
      · rw [h t l, hb, htodo]
        exact ⟨by simp, by simp⟩
    · obtain ⟨rfl, hne⟩ : t = s.nextTid ∧ m.nextTid ≠ s.nextTid := by simpa using hn
      rw [show (m.thread s.nextTid).waitingLock = none from
        hk.made hne (hk.current.trans_ne hr.ne)]
      refine ⟨by simp, fun hh => ?_⟩
      rcases hr.head_other ht with htodo | ⟨-, -, htodo⟩
      · rw [htodo, hr.fresh] at hh
        cases hh
      · rw [htodo] at hh
        cases hh

private theorem begin (h : WaitInv s) (hnil : s.cur.todo = []) (o : Op) :
    WaitInv (s.push o.code) := by
  intro t l
  have hcur : (s.thread s.current).todo = [] := hnil
  rw [(SameData.push s o.code).waitingLock]
  by_cases ht : t = s.current
  · subst ht
    rw [h s.current l, hcur]
    simp only [Kernel.push, Kernel.modify, Function.update_self, hcur]
    cases o <;> exact ⟨by rintro ⟨⟩, by rintro ⟨⟩⟩
  · have htodo : ((s.push o.code).thread t).todo = (s.thread t).todo := by
      simp [Kernel.push, Kernel.modify, ht]
    rw [htodo]
    exact h t l

end WaitInv

/-- The timer does not interrupt `lock_release` or `lock_try_acquire` before they yield or return:
each lock operation runs atomically except where it blocks or yields. -/
def AtomicLocks (s : Kernel) (i : Input) : Prop := i = .tick → s.stageOf s.current = none

instance (s : Kernel) (i : Input) : Decidable (AtomicLocks s i) := by
  unfold AtomicLocks
  infer_instance

namespace Alone

variable {s s' : Kernel}

/-- The code in the middle of a lock operation does not give up the processor. -/
private theorem current_of_stage {a : Action} {as : List Action} (hn : a.Next as)
    (hst : as.head?.bind Action.stage ≠ none) (he : s.exec a = some s') :
    s'.current = s.current := by
  cases a with
  | lockTryAcquire l =>
    simp only [Kernel.exec, Kernel.lockTryAcquire] at he
    split at he
    · cases he
    · split at he
      · cases he
        rfl
      · cases he
        exact current_semaTryDown s _
  | tryHolder l =>
    cases he
    rfl
  | lockRelease l =>
    simp only [Kernel.exec, Kernel.lockRelease] at he
    split at he
    · cases he
      rfl
    · cases he
  | releaseDonated l =>
    cases he
    rfl
  | releaseHolder l =>
    cases he
    rfl
  | _ => grind [Action.Next, Action.stage]

private theorem step (h : Alone s) (hi : SystemInv s) (hc : AtomicLocks s i)
    (hs : step s i = some s') : Alone s' := by
  intro t ht
  cases i with
  | op o =>
    obtain ⟨-, rfl⟩ := step_op hs
    have htc : t ≠ s.current := ht
    have hsame : (s.push o.code).stageOf t = s.stageOf t := by
      simp [Kernel.stageOf, Kernel.push, Kernel.modify, htc]
    rw [hsame]
    exact h t htc
  | run =>
    obtain ⟨a, as, m, hr, hm, he⟩ := hi.ran hs
    have hstage : s'.stageOf t = m.stageOf t := by
      rw [Kernel.stageOf, Kernel.stageOf, hm.todo]
    rw [hstage]
    by_cases htc : t = s.current
    · subst htc
      by_contra hne
      rw [hr.stage_after] at hne
      exact ht (current_of_stage hr.next hne he).symm
    · rw [hr.stage_other htc]
      exact h t htc
  | tick =>
    obtain ⟨-, rfl⟩ := step_tick hs
    have hstage : s.timerInterrupt.stageOf t = s.stageOf t := by
      rw [Kernel.stageOf, Kernel.stageOf, (Moved.timerInterrupt s).todo]
    rw [hstage]
    by_cases htc : t = s.current
    · exact htc ▸ hc rfl
    · exact h t htc

end Alone

/-- What holds of threads and locks while lock operations are atomic. -/
structure AtomicInv (s : Kernel) : Prop where
  system : SystemInv s
  locks : LockInv s
  waits : WaitInv s
  alone : Alone s

private theorem WaitInv.step {s s' : Kernel} (h : WaitInv s) (hi : SystemInv s)
    (hs : step s i = some s') : WaitInv s' := by
  refine hi.step_preserves h (fun o hnil => h.begin hnil o) (fun _ hr => ?_) (fun h hm => ?_) hs
  · exact h.ran hr
  · exact h.moved hm

theorem AtomicInv.step {s s' : Kernel} (h : AtomicInv s) (hu : UnblocksBlocked s i)
    (hc : AtomicLocks s i) (hs : step s i = some s') : AtomicInv s' where
  system := h.system.step hu hs
  locks := h.locks.step h.system hs
  waits := h.waits.step h.system hs
  alone := h.alone.step h.system hc hs

theorem atomicInv_threadStart (v : Nat → Nat) : AtomicInv (threadStart v) where
  system := systemInv_threadStart v
  locks := lockInv_threadStart v
  waits t l := by
    simp only [threadStart]
    split_ifs <;> exact ⟨by rintro ⟨⟩, by rintro ⟨⟩⟩
  alone t _ := by
    simp only [Kernel.stageOf, threadStart]
    split_ifs <;> rfl

/-- A priority that the running thread sets is at least `PRI_MIN`: `thread_set_priority` does not
check it. -/
def SetsInRange (s : Kernel) : Input → Prop
  | .run =>
    match s.cur.todo.head? with
    | some (.setPriority n) => PRI_MIN ≤ n
    | _ => True
  | _ => True

instance (s : Kernel) (i : Input) : Decidable (SetsInRange s i) := by
  unfold SetsInRange
  split
  · split <;> infer_instance
  · infer_instance

namespace DonationInv

variable {s s' m : Kernel} {a : Action} {as : List Action}

/-- The threads that are about to compute something anew stay the same, but for the running one. -/
private theorem settle (hr : Ran s a as m) (h : DonationInv (Unsettled s) (Releasing s) m)
    (hd : ∀ l, a ≠ .releaseDonated l) (hp : a ≠ .releasePriority) :
    DonationInv (Unsettled m) (Releasing m) m := by
  refine h.mono (fun t ht => ?_) (fun t ht => ?_)
  · by_cases htc : t = s.current
    · subst htc
      obtain ⟨l, rfl⟩ := hr.unsettled_before.mp ht
      exact absurd rfl (hd l)
    · exact (hr.unsettled_other htc).mpr ht
  · by_cases htc : t = s.current
    · subst htc
      exact hr.releasing_after ht hp
    · exact (hr.releasing_other htc).mpr ht

private theorem setPriority {n : Int} (hr : Ran s a as (s.pop.setPriorityEffect n))
    (h : DonationInv (Unsettled s) (Releasing s) s.pop) (hn : PRI_MIN ≤ n)
    (hw : s.pop.cur.waitingLock = none) (ha : ∀ l, a ≠ .releaseDonated l) :
    DonationInv (Unsettled (s.pop.setPriorityEffect n)) (Releasing (s.pop.setPriorityEffect n))
      (s.pop.setPriorityEffect n) := by
  have hset : DonationInv (Unsettled s) (Releasing (s.pop.setPriorityEffect n))
      (s.pop.setPriorityEffect n) :=
    h.setPriorityEffect hn hw fun t ht hu => (hr.releasing_other ht).mpr hu
  refine hset.mono (fun t ht => ?_) fun _ ht => ht
  by_cases htc : t = s.current
  · subst htc
    obtain ⟨l, rfl⟩ := hr.unsettled_before.mp ht
    exact absurd rfl (ha l)
  · exact (hr.unsettled_other htc).mpr ht

private theorem acquire (hi : AtomicInv s) {U R : Tid → Prop}
    (h : DonationInv U R e) (hs : e.sema = s.sema) (hc : e.current = s.current)
    (ho : SameOwners s e l) (hw : (e.thread s.current).waitingLock = some l)
    (hother : ∀ t, t ≠ s.current → (e.thread t).waitingLock = (s.thread t).waitingLock) :
    DonationInv U R (e.acquireEffect l) := by
  unfold Kernel.acquireEffect
  split
  · exact h.same (SameData.push e _).toSamePriorities
  · rename_i hv
    obtain ⟨p, hcu⟩ := hi.locks.custody l
    rw [ho.value] at hv
    obtain rfl := hcu.free_of_value hv
    refine h.takeLock ?_ ?_ ?_
    · intro t
      exact List.count_eq_zero.mp ((ho.listed t).trans (hcu.listed t))
    · intro j hj
      rw [Kernel.cur, hc, hw] at hj
      exact (Option.some.inj hj).symm
    · rcases hi.waits.front hi.system hs l with he | ⟨w, hne, hwait, he⟩
      · exact Or.inl he.le
      · exact Or.inr ⟨w, hc ▸ hne, (hother w hne).trans hwait, he.le⟩

private theorem ran (h : DonationInv (Unsettled s) (Releasing s) s) (hi : AtomicInv s)
    (hset : SetsInRange s .run) (hr : Ran s a as m) :
    DonationInv (Unsettled m) (Releasing m) m := by
  have hp : DonationInv (Unsettled s) (Releasing s) s.pop :=
    h.same (SameData.pop s).toSamePriorities
  have hpw : s.pop.cur.waitingLock = s.cur.waitingLock := (SameData.pop s).waitingLock s.current
  have he := hr.effect
  have hn := hr.next
  by_cases hd : a.donates = false
  · refine settle hr (hp.same (effect_sameData he hd).toSamePriorities) ?_ ?_
    · rintro l rfl
      cases hd
    · rintro rfl
      cases hd
  · cases a with
    | lockAcquire l =>
      simp only [Kernel.effect] at he
      split at he
      · cases he
      · cases he
        refine settle hr ?_ (by simp) (by simp)
        have hstage : s.stageOf s.current = none := hr.stage_before
        have hlisted : HoldersListed s.pop := fun j t hj => by
          rw [(SameData.pop s).locks]
          exact hi.locks.holdersListed hi.alone hstage j t hj
        have hnone := hi.waits.waitingLock_eq_none hr (by simp)
        refine acquire hi (hp.donate hlisted (hpw.trans hnone) l) ?_
          (SameCode.donate s.pop l).current ((SameOwners.pop s l).trans
            (SameOwners.donate s.pop l l)) (waitingLock_donate s.pop l) ?_
        · exact sema_donate s.pop l
        · intro t ht
          obtain ⟨p, d, hd⟩ := (OthersKept.donate s.pop l).thread t ht
            (Or.inr (SameCode.donate s.pop l).nextTid)
          rw [hd]
          exact (SameData.pop s).waitingLock t
    | lockRetest l =>
      cases he
      refine settle hr (acquire hi hp rfl rfl (SameOwners.pop s l) ?_ ?_) (by simp) (by simp)
      · exact hpw.trans ((hi.waits s.current l).mpr hr.head_before)
      · exact fun t _ => (SameData.pop s).waitingLock t
    | tryHolder l | releaseHolder l =>
      cases he
      refine settle hr ?_ (by simp) (by simp)
      exact (hp.same (SamePriorities.modifyLock s.pop l _ rfl)).same
        (SameData.push _ _).toSamePriorities
    | tryInsert l =>
      cases he
      refine settle hr ?_ (by simp) (by simp)
      have hq : DonationInv (Unsettled s) (Releasing s) (s.pop.modifyLock l fun lk =>
          { lk with owners := s.pop.current :: lk.owners }) :=
        hp.same (SamePriorities.modifyLock s.pop l _ rfl)
      refine hq.modifyLocks _ (fun _ _ hu => hu) (fun _ hr => hr) ⟨rfl, rfl, rfl⟩ ?_ fun _ => rfl
      intro hu
      refine (hq.donated _ hu).imp_right ?_
      rintro ⟨j, hj, hle⟩
      exact ⟨j, SameOwners.mem_insertLock.mpr (Or.inr hj), hle⟩
    | lockRelease l =>
      simp only [Kernel.effect, Kernel.lockRelease] at he
      split at he
      · cases he
        obtain rfl := hn
        have hhead := hr.head_after
        have hq : DonationInv (Unsettled s) (Releasing s) (s.pop.modifyLock l fun lk =>
            { lk with owners := lk.owners.erase s.pop.current }) :=
          hp.same (SamePriorities.modifyLock s.pop l _ rfl)
        refine (hq.modifyLocks _ ?_ ?_ ⟨rfl, rfl, rfl⟩ ?_ ?_).same
          (SameData.push _ _).toSamePriorities
        · exact fun t ht hu => (hr.unsettled_other ht).mpr hu
        · intro t ht
          by_cases htc : t = s.current
          · subst htc
            exact hr.releasing_after ht (by simp)
          · exact (hr.releasing_other htc).mpr ht
        · exact fun hu => absurd ⟨l, hhead⟩ hu
        · exact fun hu => absurd (Unsettled.releasing ⟨l, hhead⟩) hu
      · cases he
    | releaseDonated l =>
      cases he
      obtain rfl := hn
      have hhead := hr.head_after
      refine (hp.modifyLocks _ ?_ ?_ ⟨rfl, rfl, rfl⟩ ?_ ?_).same
        (SameData.push _ _).toSamePriorities
      · exact fun t ht hu => (hr.unsettled_other ht).mpr hu
      · intro t ht
        by_cases htc : t = s.current
        · subst htc
          exact hr.releasing_after ht (by simp)
        · exact (hr.releasing_other htc).mpr ht
      · intro _
        rcases frontPriority_eq s.pop s.pop.cur.locks with ⟨-, hf⟩ | ⟨j, hj, hf⟩
        · exact Or.inl hf.le
        · exact Or.inr ⟨j, hj, hf.le⟩
      · exact fun hu => absurd (releasing_of_head hhead) hu
    | releasePriority =>
      cases he
      have hbase := hp.base s.pop.current
      exact setPriority hr hp hbase (hpw.trans (hi.waits.waitingLock_eq_none hr (by simp))) (by simp)
    | setPriority n =>
      cases he
      have hrange : PRI_MIN ≤ n := by
        simpa only [SetsInRange, hr.head] using hset
      exact setPriority hr hp hrange (hpw.trans (hi.waits.waitingLock_eq_none hr (by simp))) (by simp)
    | takeTid p =>
      cases he
      have hrange : PriorityInRange p := of_decide_eq_true hr.proper
      refine settle hr (hp.takeTid hrange.1 fun l hl => ?_) (by simp) (by simp)
      rw [(SameData.pop s).waitingLock, hi.waits] at hl
      rw [show (s.thread s.pop.nextTid).todo = [] from hr.fresh] at hl
      cases hl
    | _ => exact absurd rfl hd

private theorem begin (h : DonationInv (Unsettled s) (Releasing s) s) (hnil : s.cur.todo = [])
    (o : Op) :
    DonationInv (Unsettled (s.push o.code)) (Releasing (s.push o.code)) (s.push o.code) := by
  have hcur : (s.thread s.current).todo = [] := hnil
  refine (h.same (SameData.push s o.code).toSamePriorities).mono (fun t ht => ?_) fun t ht => ?_
  all_goals
    by_cases htc : t = s.current
    · subst htc
      simp [Unsettled, Releasing, hcur, releasingCode] at ht
    · simpa [Unsettled, Releasing, Kernel.push, Kernel.modify, htc] using ht

private theorem moved (h : DonationInv (Unsettled s) (Releasing s) s) (hm : Moved s s') :
    DonationInv (Unsettled s') (Releasing s') s' := by
  refine (h.same (SameData.moved hm).toSamePriorities).mono (fun t ht => ?_) fun t ht => ?_
  · rw [Unsettled, hm.todo]
    exact ht
  · rw [Releasing, hm.todo]
    exact ht

theorem step (h : DonationInv (Unsettled s) (Releasing s) s) (hi : AtomicInv s)
    (hset : SetsInRange s i) (hs : step s i = some s') :
    DonationInv (Unsettled s') (Releasing s') s' := by
  refine @SystemInv.step_preserves (fun s => DonationInv (Unsettled s) (Releasing s) s) _ _ _
    hi.system h (fun o hnil => h.begin hnil o) (fun hi' hr => ?_) (fun h hm => ?_) hs
  · subst hi'
    exact h.ran hi hset hr
  · exact h.moved hm

end DonationInv

theorem donationInv_threadStart (v : Nat → Nat) :
    DonationInv (Unsettled (threadStart v)) (Releasing (threadStart v)) (threadStart v) where
  cached _ := Or.inl le_rfl
  donated t _ := by
    simp only [threadStart]
    split_ifs <;> exact Or.inl le_rfl
  priority t _ := by
    simp only [threadStart]
    split_ifs <;> exact le_max_left _ _
  base t := by
    simp only [threadStart]
    split_ifs <;> decide

/-- The steps of a run in which lock operations are atomic except where they block or yield,
`thread_unblock` is called directly only on threads that called `thread_block` directly, and no
thread sets its priority below `PRI_MIN`. -/
def AtomicStep (s : Kernel) (i : Input) : Prop :=
  UnblocksBlocked s i ∧ AtomicLocks s i ∧ SetsInRange s i

instance (s : Kernel) (i : Input) : Decidable (AtomicStep s i) := instDecidableAnd

private theorem LockInv.holder_of_mem {s : Kernel} (h : LockInv s)
    (hl : l ∈ (s.thread t).locks) : (s.lock l).holder = some t := by
  obtain ⟨p, hc⟩ := h.custody l
  have hpos := List.count_pos_iff.mpr hl
  rw [hc.listed] at hpos
  rw [hc.holder]
  cases p with
  | free => cases hpos
  | midway u st => cases hpos
  | held u =>
    simp only [Phase.listed] at hpos
    split at hpos
    · rename_i hu
      rw [hu]
      rfl
    · cases hpos

/-- Every run of atomic lock operations keeps what donations rest on. -/
theorem donationInv_run {v : Nat → Nat} {is : List Input} {s : Kernel}
    (hr : run step (threadStart v) is = some s)
    (hc : Along step AtomicStep (threadStart v) is) :
    AtomicInv s ∧ DonationInv (Unsettled s) (Releasing s) s := by
  refine run_preserves_along
    (P := fun s => AtomicInv s ∧ DonationInv (Unsettled s) (Releasing s) s) ?_
    ⟨atomicInv_threadStart v, donationInv_threadStart v⟩ hc hr
  rintro s i s' ⟨hi, hd⟩ ⟨hu, ha, hset⟩ hs
  exact ⟨hi.step hu ha hs, hd.step hi hset hs⟩

/-- A thread that is not in `lock_release` has at most its own priority, or at most that of a thread
that waits for a lock it holds. -/
theorem donation_given_back {v : Nat → Nat} {is : List Input} {s : Kernel}
    (hr : run step (threadStart v) is = some s)
    (hc : Along step AtomicStep (threadStart v) is) {t : Tid} (ht : ¬ Releasing s t) :
    (s.thread t).priority ≤ (s.thread t).basePriority ∨
      ∃ w l, (s.thread w).waitingLock = some l ∧ (s.lock l).holder = some t ∧
        (s.thread t).priority ≤ (s.thread w).priority := by
  obtain ⟨hi, hd⟩ := donationInv_run hr hc
  have hu : ¬ Unsettled s t := fun hu => ht hu.releasing
  have hbase := hd.base t
  have hle := hd.priority t ht
  rcases hd.donated t hu with hmin | ⟨l, hl, hmax⟩
  · exact Or.inl (by omega)
  · rcases hd.cached l with hmin | ⟨w, hw, hwp⟩
    · exact Or.inl (by omega)
    · by_cases hp : (s.thread t).priority ≤ (s.thread t).basePriority
      · exact Or.inl hp
      · exact Or.inr ⟨w, l, hw, hi.locks.holder_of_mem hl, by omega⟩

/-- The initial thread has the priority of the thread that waits for its lock. -/
theorem donation_given_back_oneWaiter : ∃ s,
    run step (threadStart fun _ => 0) oneWaiter = some s ∧
      (s.thread mainThread).basePriority < (s.thread mainThread).priority ∧
      ((s.thread mainThread).priority ≤ (s.thread mainThread).basePriority ∨
        ∃ w l, (s.thread w).waitingLock = some l ∧ (s.lock l).holder = some mainThread ∧
          (s.thread mainThread).priority ≤ (s.thread w).priority) := by
  obtain ⟨s, hs, hp⟩ := run_reaches step (threadStart fun _ => 0) oneWaiter
    (fun s => decide (¬ Releasing s mainThread ∧
      (s.thread mainThread).basePriority < (s.thread mainThread).priority)) (by decide +kernel)
  obtain ⟨hrel, hlt⟩ := of_decide_eq_true hp
  exact ⟨s, hs, hlt, donation_given_back hs (by decide +kernel) hrel⟩

end Pintos.Threads
