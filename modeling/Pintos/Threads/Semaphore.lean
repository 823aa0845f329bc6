import Mathlib
import Pintos.Threads.Code

/-!
# Semaphores lose no wake-up

While threads wait for a semaphore, its value is at most the number of threads that an up has
taken off its waiters and that have not tested the value again. Ups and downs balance as long as
the value, an `unsigned`, does not overflow, and modulo `2 ^ 32` always. Semaphores are upped by
threads and by interrupt handlers. Source `threads/synch.c:74–142`.
-/

namespace Pintos.Threads

open Base
open scoped List

/-- The two states of a semaphore differ at most in the order of the waiters. -/
structure SameSema (m m' : Semaphore) : Prop where
  value : m'.value = m.value
  ups : m'.ups = m.ups
  downs : m'.downs = m.downs
  waiters : m'.waiters ~ m.waiters

private theorem SameSema.refl (m : Semaphore) : SameSema m m := ⟨rfl, rfl, rfl, .refl _⟩

/-- What a piece of code does to the semaphores: nothing, or one waits for, downs or ups one of
them. The index is the semaphore that was tested. -/
inductive SemaMove (s s' : Kernel) : Option SemaId → Prop
  | same (h : ∀ k, SameSema (s.sema k) (s'.sema k)) : SemaMove s s' none
  | wait (k : SemaId) (hv : (s.sema k).value = 0)
      (hk : ∃ ws, s'.sema k = { s.sema k with waiters := ws } ∧
        ws ~ s.current :: (s.sema k).waiters)
      (h : ∀ j, j ≠ k → SameSema (s.sema j) (s'.sema j)) : SemaMove s s' (some k)
  | down (k : SemaId) (hv : (s.sema k).value ≠ 0)
      (hk : ∃ ws, s'.sema k =
        ⟨(s.sema k).value - 1, ws, (s.sema k).ups, (s.sema k).downs + 1⟩ ∧
          ws ~ (s.sema k).waiters)
      (h : ∀ j, j ≠ k → SameSema (s.sema j) (s'.sema j)) : SemaMove s s' (some k)
  | up (k : SemaId)
      (hk : ∃ ws, s'.sema k =
        ⟨((s.sema k).value + 1) % 2 ^ 32, ws, (s.sema k).ups + 1, (s.sema k).downs⟩ ∧
          ((s.sema k).waiters = [] ∧ ws = [] ∨ ∃ t, (s.sema k).waiters ~ t :: ws))
      (h : ∀ j, j ≠ k → SameSema (s.sema j) (s'.sema j)) : SemaMove s s' none

section Frames

variable (s : Kernel)

private theorem sema_schedule : s.schedule.sema = s.sema := by
  unfold Kernel.schedule
  split <;> rfl

private theorem sema_threadYield : s.threadYield.sema = s.sema := sema_schedule _

private theorem sema_threadBlock (again : Action) : (s.threadBlock again).sema = s.sema :=
  sema_schedule _

private theorem sema_threadExit : s.threadExit.sema = s.sema := sema_schedule _

private theorem sema_recheck (old : Int) : (s.recheck old).sema = s.sema := by
  unfold Kernel.recheck
  split
  · split
    · rfl
    · split
      · exact sema_threadYield s
      · rfl
  · rfl

private theorem sema_threadSetPriority (n : Int) : (s.threadSetPriority n).sema = s.sema := by
  unfold Kernel.threadSetPriority
  dsimp only
  split
  · exact sema_threadYield _
  · exact sema_recheck _ _

private theorem sema_wakeSleepers (s : Kernel) (ts : List Tid) (y : Bool) :
    (s.wakeSleepers ts y).1.sema = s.sema := by
  induction ts generalizing s y with
  | nil => rfl
  | cons t rest ih =>
    rw [Kernel.wakeSleepers]
    split
    · rfl
    · exact (ih _ _).trans rfl

private theorem sema_timerInterrupt : s.timerInterrupt.sema = s.sema := by
  unfold Kernel.timerInterrupt
  dsimp only
  split
  · rw [sema_threadYield, sema_wakeSleepers]
  · rw [sema_wakeSleepers]

end Frames

namespace SemaMove

variable {s s' : Kernel}

private theorem of_eq (h : s'.sema = s.sema) : SemaMove s s' none :=
  same fun _ => h ▸ SameSema.refl _

private theorem other_of_update {k : SemaId} {m : Semaphore}
    (h : s'.sema = Function.update s.sema k m) :
    ∀ j, j ≠ k → SameSema (s.sema j) (s'.sema j) := by
  intro j hj
  rw [h, Function.update_of_ne hj]
  exact SameSema.refl _

private theorem of_wait {k : SemaId} (hv : (s.sema k).value = 0)
    (h : s'.sema = (s.modifySema k fun m =>
      { m with waiters := s.insertOrdered s.current m.waiters }).sema) :
    SemaMove s s' (some k) := by
  refine wait k hv ⟨_, ?_, List.perm_orderedInsert s.Greater s.current _⟩ (other_of_update h)
  rw [h]
  exact Function.update_self ..

private theorem of_down {k : SemaId} (hv : (s.sema k).value ≠ 0)
    (h : s'.sema = (s.modifySema k fun m =>
      { m with value := m.value - 1, downs := m.downs + 1 }).sema) :
    SemaMove s s' (some k) := by
  refine down k hv ⟨_, ?_, .refl _⟩ (other_of_update h)
  rw [h]
  exact Function.update_self ..

private theorem semaDown (s : Kernel) (k : SemaId) : SemaMove s (s.semaDown k) (some k) := by
  unfold Kernel.semaDown
  split
  · rename_i hv
    exact of_wait hv (sema_threadBlock _ _)
  · rename_i hv
    exact of_down hv rfl

private theorem acquireDown (h : s'.sema = s.sema) (hc : s'.current = s.current) (l : LockId) :
    SemaMove s (s'.acquireDown l) (some (.lock l)) := by
  unfold Kernel.acquireDown
  rw [h]
  split
  · rename_i hv
    refine wait (.lock l) hv ?_ ?_
    · refine ⟨s'.insertOrdered s'.current (s.sema (.lock l)).waiters, ?_, ?_⟩
      · rw [sema_threadBlock, Kernel.modifySema, h]
        exact Function.update_self ..
      · exact hc ▸ List.perm_orderedInsert s'.Greater s'.current _
    · exact other_of_update ((sema_threadBlock _ _).trans (by rw [Kernel.modifySema, h]))
  · rename_i hv
    refine down (.lock l) hv ?_ ?_
    · refine ⟨s'.sorted (s.sema (.lock l)).waiters, ?_, List.perm_insertionSort _ _⟩
      rw [← h]
      exact Function.update_self ..
    · refine other_of_update (m := ⟨(s.sema (.lock l)).value - 1, s'.sorted
        (s.sema (.lock l)).waiters, (s.sema (.lock l)).ups, (s.sema (.lock l)).downs + 1⟩) ?_
      rw [← h]
      rfl

private theorem semaUp {s u : Kernel} (s' : Kernel) (h : s'.sema = s.sema) (k : SemaId)
    (hu : u.sema = (s'.semaUp k).sema) : SemaMove s u none := by
  have hperm := List.perm_insertionSort s'.AtLeast (s.sema k).waiters
  unfold Kernel.semaUp Kernel.wakeWaiter Kernel.sorted at hu
  rw [h] at hu
  split at hu
  · rename_i hnil
    rw [hnil] at hperm
    have hw := hperm.symm.eq_nil
    rw [Kernel.modifySema, h] at hu
    refine up k ⟨[], ?_, Or.inl ⟨hw, rfl⟩⟩ (other_of_update hu)
    rw [hu, ← hw]
    exact Function.update_self ..
  · rename_i t rest hcons
    rw [hcons] at hperm
    refine up k ⟨rest, ?_, Or.inr ⟨t, hperm.symm⟩⟩ ?_
    · simp only [hu, Kernel.modifySema, Kernel.threadUnblock, Kernel.modify, h,
        Function.update_self]
    · intro j hj
      have he : u.sema j = s.sema j := by
        simp [hu, Kernel.modifySema, Kernel.threadUnblock, Kernel.modify, h, hj]
      rw [he]
      exact SameSema.refl _

end SemaMove

/-- Every piece of code moves the semaphores in one of these ways; a thread that was blocked in a
down tests its semaphore. -/
theorem exec_semaMove {s s' : Kernel} {a : Action} (h : s.exec a = some s') :
    ∃ d, SemaMove s s' d ∧ ∀ k, waitPlace [a] = some (.waiters k) → d = some k := by
  cases a with
  | semaDown k =>
    cases h
    exact ⟨_, SemaMove.semaDown s k, by simp [waitPlace]⟩
  | semaRetest k =>
    cases h
    refine ⟨_, SemaMove.semaDown s k, ?_⟩
    rintro _ ⟨⟩
    rfl
  | semaTryDown k =>
    cases h
    unfold Kernel.semaTryDown
    split
    · exact ⟨_, SemaMove.of_eq rfl, by simp [waitPlace]⟩
    · rename_i hv
      exact ⟨_, SemaMove.of_down hv rfl, by simp [waitPlace]⟩
  | semaUp k =>
    cases h
    exact ⟨_, SemaMove.semaUp (s.push [.semaYield]) rfl k rfl, by simp [waitPlace]⟩
  | lockAcquire l =>
    simp only [Kernel.exec, Kernel.lockAcquire] at h
    split at h
    · cases h
    · cases h
      exact ⟨_, SemaMove.acquireDown (sema_donate s l) (SameCode.donate s l).current l, by simp [waitPlace]⟩
  | lockRetest l =>
    cases h
    refine ⟨_, SemaMove.acquireDown rfl rfl l, ?_⟩
    rintro _ ⟨⟩
    rfl
  | lockTryAcquire l =>
    simp only [Kernel.exec, Kernel.lockTryAcquire] at h
    split at h
    · cases h
    · split at h
      · cases h
        exact ⟨_, SemaMove.of_eq rfl, by simp [waitPlace]⟩
      · rename_i hv
        cases h
        refine ⟨_, SemaMove.of_down hv ?_, by simp [waitPlace]⟩
        rw [Kernel.semaTryDown, if_neg hv]
        rfl
  | lockRelease l =>
    simp only [Kernel.exec, Kernel.lockRelease] at h
    split at h
    · cases h
      exact ⟨_, SemaMove.of_eq rfl, by simp [waitPlace]⟩
    · cases h
  | releaseSema l =>
    cases h
    rw [Kernel.releaseSema]
    exact ⟨_, SemaMove.semaUp (s.push [.semaYield, .releasePriority]) rfl (.lock l) rfl,
      by simp [waitPlace]⟩
  | semaYield | yield =>
    cases h
    exact ⟨_, SemaMove.of_eq (sema_threadYield s), by simp [waitPlace]⟩
  | releasePriority =>
    cases h
    exact ⟨_, SemaMove.of_eq (sema_threadSetPriority s _), by simp [waitPlace]⟩
  | setPriority n =>
    cases h
    exact ⟨_, SemaMove.of_eq (sema_threadSetPriority s n), by simp [waitPlace]⟩
  | recheck old =>
    cases h
    exact ⟨_, SemaMove.of_eq (sema_recheck s old), by simp [waitPlace]⟩
  | yieldIfHigher t =>
    simp only [Kernel.exec, Kernel.yieldIfHigher, Option.some.injEq] at h
    subst h
    refine ⟨_, SemaMove.of_eq ?_, by simp [waitPlace]⟩
    split
    · exact sema_threadYield s
    · rfl
  | condWait c l =>
    simp only [Kernel.exec, Kernel.condWait] at h
    split at h
    · cases h
      exact ⟨_, SemaMove.of_eq rfl, by simp [waitPlace]⟩
    · cases h
  | condSignal c l =>
    simp only [Kernel.exec, Kernel.condSignal] at h
    split at h
    · split at h
      · cases h
        exact ⟨_, SemaMove.of_eq rfl, by simp [waitPlace]⟩
      · rename_i w rest hsort
        cases h
        let m : Kernel := { s with cond := Function.update s.cond c rest }
        have hm : SemaMove s ((m.push [.semaYield]).semaUp (.cond w.1)) none :=
          SemaMove.semaUp (m.push [.semaYield]) rfl (.cond w.1) rfl
        exact ⟨_, hm, by simp [waitPlace]⟩
    · cases h
  | sleep n =>
    simp only [Kernel.exec, Kernel.timerSleep, Option.some.injEq] at h
    subst h
    refine ⟨_, SemaMove.of_eq ?_, by simp [waitPlace]⟩
    split
    · rfl
    · exact sema_threadBlock _ _
  | block | idle =>
    cases h
    exact ⟨_, SemaMove.of_eq (sema_threadBlock s _), by simp [waitPlace]⟩
  | exit =>
    cases h
    exact ⟨_, SemaMove.of_eq (sema_threadExit s), by simp [waitPlace]⟩
  | unblock t =>
    simp only [Kernel.exec] at h
    split at h
    · cases h
      exact ⟨_, SemaMove.of_eq rfl, by simp [waitPlace]⟩
    · cases h
  | _ =>
    cases h
    exact ⟨_, SemaMove.of_eq rfl, by simp [waitPlace]⟩

/-- The value that `sema_init` gives a semaphore. -/
def initialValue (v : Nat → Nat) : SemaId → Nat
  | .sema n => v n % 2 ^ 32
  | .lock _ => 1
  | .cond _ => 0

/-- The value of a semaphore accounts for its completed ups and downs, exactly as long as it cannot
have overflowed. -/
structure Accounts (initial : Nat) (m : Semaphore) : Prop where
  wraps : (initial + m.ups) % 2 ^ 32 = (m.value + m.downs) % 2 ^ 32
  exact : initial + m.ups < 2 ^ 32 → initial + m.ups = m.value + m.downs

/-- The values of all semaphores account for what was done to them. -/
def Balanced (v : Nat → Nat) (s : Kernel) : Prop := ∀ k, Accounts (initialValue v k) (s.sema k)

private theorem Balanced.semaMove {v : Nat → Nat} {s s' : Kernel} {d : Option SemaId}
    (h : Balanced v s) (hm : SemaMove s s' d) : Balanced v s' := by
  have hsame : ∀ k, SameSema (s.sema k) (s'.sema k) → Accounts (initialValue v k) (s'.sema k) := by
    intro k hk
    refine ⟨?_, ?_⟩
    · rw [hk.ups, hk.value, hk.downs]
      exact (h k).wraps
    · rw [hk.ups, hk.value, hk.downs]
      exact (h k).exact
  cases hm with
  | same hs => exact fun k => hsame k (hs k)
  | wait k hv hk hs =>
    obtain ⟨ws, he, -⟩ := hk
    intro j
    by_cases hj : j = k
    · subst hj
      rw [he]
      exact ⟨(h j).wraps, (h j).exact⟩
    · exact hsame j (hs j hj)
  | down k hv hk hs =>
    obtain ⟨ws, he, -⟩ := hk
    intro j
    by_cases hj : j = k
    · subst hj
      obtain ⟨hwraps, hexact⟩ := h j
      rw [he]
      exact ⟨by dsimp only; omega, by dsimp only; omega⟩
    · exact hsame j (hs j hj)
  | up k hk hs =>
    obtain ⟨ws, he, -⟩ := hk
    intro j
    by_cases hj : j = k
    · subst hj
      obtain ⟨hwraps, hexact⟩ := h j
      rw [he]
      exact ⟨by dsimp only; omega, by dsimp only; omega⟩
    · exact hsame j (hs j hj)

namespace Kernel

/-- The threads that an up has taken off the waiters of a semaphore and that have not tested its
value again: they have still to run the test and are not on the list. -/
def woken (s : Kernel) (k : SemaId) : Finset Tid :=
  (Finset.range s.nextTid).filter fun t =>
    waitPlace (s.thread t).todo = some (.waiters k) ∧ t ∉ (s.sema k).waiters

end Kernel

/-- While threads wait for a semaphore, its value is at most the number of threads on their way to
test it, up to `extra`. -/
def WakeInv (extra : SemaId → Nat) (s : Kernel) : Prop :=
  ∀ k, (s.sema k).waiters ≠ [] → (s.sema k).value ≤ (s.woken k).card + extra k

private theorem QueueInv.mem_woken {r : Option Tid} {s : Kernel} (h : QueueInv r s) {k : SemaId}
    {t : Tid} : t ∈ s.woken k ↔
      waitPlace (s.thread t).todo = some (.waiters k) ∧ t ∉ (s.sema k).waiters := by
  rw [Kernel.woken, Finset.mem_filter, Finset.mem_range, and_iff_right_iff_imp]
  rintro ⟨hw, -⟩
  by_contra hlt
  rw [(h.fresh t (Nat.le_of_not_lt hlt)).2] at hw
  cases hw

private theorem waitPlace_deferred {as : List Action} (h : ∀ a ∈ as, a.deferred = true) :
    waitPlace as = none := by
  cases as with
  | nil => rfl
  | cons a as =>
    have ha := h a List.mem_cons_self
    rw [QueueInv.waitPlace_cons]
    cases a <;> first | rfl | cases ha

private theorem waitPlace_interruptible {s : Kernel} (h : s.interruptible = true) :
    waitPlace s.cur.todo = none := by
  rw [Kernel.interruptible] at h
  cases hc : s.cur.todo with
  | nil => rfl
  | cons a as =>
    rw [hc] at h
    rw [QueueInv.waitPlace_cons]
    cases a <;> first | rfl | cases h

private theorem continues_idle {s : Kernel} (h : s.cur.todo = [.idle]) :
    Continues s (s.pop.threadBlock .idle) [] := by
  have hcur : (s.thread s.current).todo = [.idle] := h
  refine Continues.moved ⟨?_, fun t ht => Or.inl ?_⟩ (Moved.threadBlock s.pop .idle)
  · simp [Kernel.pop, Kernel.push, Kernel.modify, hcur]
  · simp [Kernel.pop, Kernel.push, Kernel.modify, ht]

section Woken

variable {r : Option Tid} {s s' : Kernel} {as : List Action}

/-- A thread on its way to test a semaphore still is when the running thread has run a piece of
code that puts no one on the waiters list. -/
private theorem woken_continues (hq : QueueInv (some s.current) s) (hq' : QueueInv r s')
    (hcur : waitPlace s.cur.todo = none) (hc : Continues s s' as) {k : SemaId}
    (hw : ∀ t, t ∈ (s'.sema k).waiters → t ∈ (s.sema k).waiters) : s.woken k ⊆ s'.woken k := by
  intro t ht
  rw [hq.mem_woken] at ht
  have hne : t ≠ s.current := by
    rintro rfl
    rw [show (s.thread s.current).todo = s.cur.todo from rfl, hcur] at ht
    cases ht.1
  have htodo : (s'.thread t).todo = (s.thread t).todo := by
    refine (hc.other t hne).resolve_right ?_
    rintro ⟨rfl, -⟩
    rw [(hq.fresh s.nextTid le_rfl).2] at ht
    cases ht.1
  rw [hq'.mem_woken, htodo]
  exact ⟨ht.1, fun hm => ht.2 (hw t hm)⟩

private theorem woken_up (hq : QueueInv (some s.current) s) (hq' : QueueInv r s')
    (hcur : waitPlace s.cur.todo = none) (hc : Continues s s' as) {k : SemaId} {t : Tid}
    (hw : (s.sema k).waiters ~ t :: (s'.sema k).waiters) :
    (s.woken k).card + 1 ≤ (s'.woken k).card := by
  have hmem : t ∈ (s.sema k).waiters := hw.mem_iff.mpr List.mem_cons_self
  have hplace : s.place t = some (.waiters k) := (hq.placed.mem_iff (.waiters k) t).mp hmem
  have hb := QueueInv.blocked_of_place hplace (by simp)
  have hwait : waitPlace (s.thread t).todo = some (.waiters k) := by
    rw [Kernel.place, hb] at hplace
    exact hplace
  have hne : t ≠ s.current := by
    rintro rfl
    rw [(hq.running s.current).mpr rfl] at hb
    cases hb
  have htodo : (s'.thread t).todo = (s.thread t).todo := by
    refine (hc.other t hne).resolve_right ?_
    rintro ⟨rfl, -⟩
    rw [(hq.fresh s.nextTid le_rfl).1] at hb
    cases hb
  have hnodup : t ∉ (s'.sema k).waiters :=
    (List.nodup_cons.mp (hw.nodup_iff.mp (hq.placed.nodup (.waiters k)))).1
  have hnew : t ∉ s.woken k := fun hm => (hq.mem_woken.mp hm).2 hmem
  rw [← Finset.card_insert_of_notMem hnew]
  refine Finset.card_le_card (Finset.insert_subset ?_ ?_)
  · rw [hq'.mem_woken, htodo]
    exact ⟨hwait, hnodup⟩
  · exact woken_continues hq hq' hcur hc fun u hu => hw.mem_iff.mpr (List.mem_cons_of_mem t hu)

end Woken

/-- The running thread, taken off the count when it is about to test a semaphore. -/
private def testing (a : Action) (k : SemaId) : Nat :=
  if waitPlace [a] = some (.waiters k) then 1 else 0

namespace WakeInv

variable {s s' : Kernel} {a : Action}

private theorem semaMove {as : List Action} {d : Option SemaId} (h : WakeInv (testing a) s)
    (hq : QueueInv (some s.current) s) (hq' : QueueInv (some s'.current) s')
    (hcur : waitPlace s.cur.todo = none) (hc : Continues s s' as) (hm : SemaMove s s' d)
    (hd : ∀ k, waitPlace [a] = some (.waiters k) → d = some k) : WakeInv 0 s' := by
  have hother : ∀ k, d ≠ some k → testing a k = 0 := by
    intro k hk
    rw [testing, if_neg fun hw => hk (hd k hw)]
  have hsame : ∀ k, d ≠ some k → SameSema (s.sema k) (s'.sema k) →
      (s'.sema k).waiters ≠ [] → (s'.sema k).value ≤ (s'.woken k).card + 0 := by
    intro k hk hs hne
    have hle := h k fun hnil => hne (List.Perm.eq_nil (hnil ▸ hs.waiters))
    have hsub := Finset.card_le_card
      (woken_continues hq hq' hcur hc (k := k) fun t => hs.waiters.mem_iff.mp)
    rw [hother k hk] at hle
    rw [hs.value]
    omega
  cases hm with
  | same hs => exact fun k => hsame k (by simp) (hs k)
  | wait k hv hk hs =>
    obtain ⟨ws, he, -⟩ := hk
    intro j hne
    by_cases hj : j = k
    · subst hj
      rw [he]
      exact hv ▸ Nat.zero_le _
    · exact hsame j (fun hs => hj (Option.some.inj hs).symm) (hs j hj) hne
  | down k hv hk hs =>
    obtain ⟨ws, he, hw⟩ := hk
    intro j hne
    by_cases hj : j = k
    · subst hj
      rw [he] at hne
      have hle := h j fun hnil => hne (List.Perm.eq_nil (hnil ▸ hw))
      have hle' : testing a j ≤ 1 := by
        rw [testing]
        split <;> decide
      have hsub := Finset.card_le_card (woken_continues hq hq' hcur hc (k := j)
        fun t ht => hw.mem_iff.mp (by rwa [he] at ht))
      rw [he]
      dsimp only
      omega
    · exact hsame j (fun hs => hj (Option.some.inj hs).symm) (hs j hj) hne
  | up k hk hs =>
    obtain ⟨ws, he, hw⟩ := hk
    intro j hne
    by_cases hj : j = k
    · subst hj
      rcases hw with ⟨-, rfl⟩ | ⟨t, hw⟩
      · rw [he] at hne
        exact absurd rfl hne
      · have hle := h j fun hnil => by simp [hnil] at hw
        have hup := woken_up hq hq' hcur hc (k := j) (t := t) (by rwa [he])
        rw [hother j (by simp)] at hle
        rw [he]
        dsimp only
        omega
    · exact hsame j (by simp) (hs j hj) hne

private theorem pop {rest : List Action} (h : WakeInv 0 s) (ha : s.cur.todo = a :: rest) :
    WakeInv (testing a) s.pop := by
  intro k hne
  have hle : (s.sema k).value ≤ (s.woken k).card := h k hne
  have hother : ∀ t, t ∈ s.woken k → t ≠ s.current → t ∈ s.pop.woken k := by
    intro t ht htc
    have hthread : s.pop.thread t = s.thread t := by simp [Kernel.pop, Kernel.modify, htc]
    rw [Kernel.woken, Finset.mem_filter] at ht ⊢
    rw [hthread]
    exact ht
  change (s.sema k).value ≤ _
  by_cases hw : waitPlace [a] = some (.waiters k)
  · rw [testing, if_pos hw]
    refine hle.trans (le_trans (Finset.card_le_card ?_) (Finset.card_insert_le s.current _))
    intro t ht
    by_cases htc : t = s.current
    · exact htc ▸ Finset.mem_insert_self ..
    · exact Finset.mem_insert_of_mem (hother t ht htc)
  · rw [testing, if_neg hw]
    refine hle.trans (Finset.card_le_card fun t ht => hother t ht ?_)
    rintro rfl
    rw [Kernel.woken, Finset.mem_filter, show (s.thread s.current).todo = _ from ha,
      QueueInv.waitPlace_cons] at ht
    exact hw ht.2.1

private theorem step {i : Input} (h : WakeInv 0 s) (hi : SystemInv s) (hi' : SystemInv s')
    (hs : step s i = some s') : WakeInv 0 s' := by
  have h0 : ∀ b, waitPlace [b] = none → WakeInv (testing b) s := by
    intro b hb k
    rw [testing, hb]
    exact h k
  cases i with
  | op o =>
    obtain ⟨ho, rfl⟩ := step_op hs
    refine (h0 .yield rfl).semaMove hi.queues hi'.queues ?_
      (Continues.push (SameCode.refl s) o.code) (SemaMove.of_eq rfl) (by simp [waitPlace])
    rw [ho.1]
    rfl
  | run =>
    obtain ⟨a, rest, ha, hs⟩ := step_run hs
    by_cases hidle : s.current = s.idleThread
    · have hcode : s.cur.todo = [.idle] := by
        rw [Kernel.cur, hidle, hi.queues.idleTodo]
      rw [hcode] at ha
      cases ha
      cases hs
      refine (h0 .idle rfl).semaMove hi.queues hi'.queues (hcode ▸ rfl)
        (continues_idle hcode) (SemaMove.of_eq (sema_threadBlock _ _)) (by simp [waitPlace])
    · obtain ⟨m, hm, hmoved⟩ := Kernel.exec_effect hs
      obtain ⟨as, -, hc⟩ :=
        effect_continues (s := s.pop) (Nat.ne_of_lt hi.queues.current_lt) hm
      obtain ⟨d, hd, hda⟩ := exec_semaMove hs
      exact WakeInv.semaMove (s := s.pop) (h.pop ha) (hi.queues.pop hidle) hi'.queues
        (waitPlace_deferred hi.code.pop_deferred) (hc.moved hmoved) hd hda
  | tick =>
    obtain ⟨hint, rfl⟩ := step_tick hs
    exact (h0 .yield rfl).semaMove hi.queues hi'.queues (waitPlace_interruptible hint)
      ((Continues.of_sameCode (SameCode.refl s)).moved (Moved.timerInterrupt s))
      (SemaMove.of_eq (sema_timerInterrupt s)) (by simp [waitPlace])

end WakeInv

/-! ## Calls from interrupt handlers -/

/-- What happens next: a step of threads and timer; an interrupt handler calls `sema_up`, which
makes the thread that it interrupted yield, or `sema_try_down`; or the running thread calls
`sema_up` with interrupts off, `threads/synch.c:137–141`. -/
inductive SemaInput
  | input (i : Input)
  | handlerUp (n : Nat)
  | handlerTryDown (n : Nat)
  | quietUp (n : Nat)

/-- One step of threads, timer and interrupt handlers. -/
def semaStep (s : Kernel) : SemaInput → Option Kernel
  | .input i => step s i
  | .handlerUp n => if s.interruptible then some (s.semaUp (.sema n)).threadYield else none
  | .handlerTryDown n => if s.interruptible then some (s.semaTryDown (.sema n)) else none
  | .quietUp n => if s.cur.todo = [] then some (s.semaUp (.sema n)) else none

/-- The condition on the steps of threads and timer. -/
def SemaInput.UnblocksBlocked (s : Kernel) : SemaInput → Prop
  | .input i => Threads.UnblocksBlocked s i
  | _ => True

instance (s : Kernel) (i : SemaInput) : Decidable (i.UnblocksBlocked s) := by
  cases i <;> unfold SemaInput.UnblocksBlocked <;> infer_instance

/-- A step outside the code of the threads leaves that code alone and moves a semaphore. -/
private structure Outside (s s' : Kernel) : Prop where
  todo : ∀ t, (s'.thread t).todo = (s.thread t).todo
  queues : QueueInv (some s'.current) s'
  move : ∃ d, SemaMove s s' d
  waits : waitPlace s.cur.todo = none

private theorem outside_semaStep {s s' : Kernel} {i : SemaInput} (h : QueueInv (some s.current) s)
    (hi : ∀ j, i ≠ .input j) (hs : semaStep s i = some s') : Outside s s' := by
  have hup : ∀ k t, ((s.semaUp k).thread t).todo = (s.thread t).todo := fun k t =>
    (Kernel.moved_semaUp s k).todo t
  have hq : ∀ k, QueueInv (some (s.semaUp k).current) (s.semaUp k) := by
    intro k
    rw [current_semaUp]
    exact h.semaUp k
  cases i with
  | input j => exact absurd rfl (hi j)
  | handlerUp n =>
    simp only [semaStep, Option.ite_none_right_eq_some, Option.some.injEq] at hs
    obtain ⟨hint, rfl⟩ := hs
    exact ⟨fun t => ((Moved.threadYield _).todo t).trans (hup _ t), (hq _).threadYield,
      ⟨_, SemaMove.semaUp _ rfl _ (sema_threadYield _)⟩, waitPlace_interruptible hint⟩
  | handlerTryDown n =>
    simp only [semaStep, Option.ite_none_right_eq_some, Option.some.injEq] at hs
    obtain ⟨hint, rfl⟩ := hs
    have hsame := SameCode.semaTryDown s (.sema n)
    refine ⟨hsame.todo, hsame.current ▸ h.semaTryDown _, ?_, waitPlace_interruptible hint⟩
    unfold Kernel.semaTryDown
    split
    · exact ⟨_, SemaMove.of_eq rfl⟩
    · rename_i hv
      exact ⟨_, SemaMove.of_down hv rfl⟩
  | quietUp n =>
    simp only [semaStep, Option.ite_none_right_eq_some, Option.some.injEq] at hs
    obtain ⟨hnil, rfl⟩ := hs
    exact ⟨hup _, hq _, ⟨_, SemaMove.semaUp _ rfl _ rfl⟩, hnil ▸ rfl⟩

private theorem Balanced.step {v : Nat → Nat} {s s' : Kernel} {i : Input} (h : Balanced v s)
    (hs : step s i = some s') : Balanced v s' := by
  cases i with
  | op o =>
    obtain ⟨-, rfl⟩ := step_op hs
    exact h
  | run =>
    simp only [Threads.step] at hs
    split at hs
    · cases hs
    · obtain ⟨d, hd, -⟩ := exec_semaMove hs
      exact Balanced.semaMove (s := s.pop) h hd
  | tick =>
    obtain ⟨-, rfl⟩ := step_tick hs
    exact h.semaMove (SemaMove.of_eq (sema_timerInterrupt s))

/-- What holds of threads and semaphores in every run. -/
structure SemaInv (v : Nat → Nat) (s : Kernel) : Prop where
  system : SystemInv s
  wake : WakeInv 0 s
  balanced : Balanced v s

private theorem SemaInv.step {v : Nat → Nat} {s s' : Kernel} {i : SemaInput} (h : SemaInv v s)
    (hc : i.UnblocksBlocked s) (hs : semaStep s i = some s') : SemaInv v s' := by
  by_cases hi : ∃ j, i = .input j
  · obtain ⟨j, rfl⟩ := hi
    have hsystem := h.system.step hc hs
    exact ⟨hsystem, h.wake.step h.system hsystem hs, h.balanced.step hs⟩
  · obtain ⟨htodo, hq, ⟨d, hd⟩, hw⟩ :=
      outside_semaStep h.system.queues (fun j hj => hi ⟨j, hj⟩) hs
    have hwake : WakeInv (testing .yield) s := h.wake
    have hcont : Continues s s' [] := ⟨htodo _, fun t _ => Or.inl (htodo t)⟩
    exact ⟨⟨hq, h.system.code.of_todo htodo⟩,
      hwake.semaMove h.system.queues hq hw hcont hd (by simp [waitPlace]), h.balanced.semaMove hd⟩

private theorem semaInv_threadStart (v : Nat → Nat) : SemaInv v (threadStart v) := by
  refine ⟨systemInv_threadStart v, fun k hne => ?_, fun k => ?_⟩
  · cases k <;> exact absurd rfl hne
  · cases k with
    | sema n => exact ⟨by simp [initialValue, threadStart], by simp [initialValue, threadStart]⟩
    | lock l => exact ⟨rfl, fun _ => rfl⟩
    | cond c => exact ⟨rfl, fun _ => rfl⟩

/-- In every state that threads, timer and interrupt handlers reach, a semaphore with waiters has a
value of at most the number of threads that were woken and have not tested it yet. Its value
accounts for all completed ups and downs, modulo `2 ^ 32` and exactly as long as it cannot have
overflowed. -/
theorem semaphore_wakeups {v : Nat → Nat} {is : List SemaInput} {s : Kernel}
    (hr : run semaStep (threadStart v) is = some s)
    (hu : Along semaStep (fun s i => i.UnblocksBlocked s) (threadStart v) is) (k : SemaId) :
    ((s.sema k).waiters ≠ [] → (s.sema k).value ≤ (s.woken k).card) ∧
      ¬ (0 < (s.sema k).value ∧ (s.sema k).waiters ≠ [] ∧ s.woken k = ∅) ∧
      (initialValue v k + (s.sema k).ups) % 2 ^ 32 =
        ((s.sema k).value + (s.sema k).downs) % 2 ^ 32 ∧
      (initialValue v k + (s.sema k).ups < 2 ^ 32 →
        initialValue v k + (s.sema k).ups = (s.sema k).value + (s.sema k).downs) := by
  obtain ⟨-, hwake, hbalanced⟩ :=
    run_preserves_along (fun _ _ _ h hc hs => SemaInv.step h hc hs) (semaInv_threadStart v) hu hr
  refine ⟨hwake k, ?_, (hbalanced k).wraps, (hbalanced k).exact⟩
  rintro ⟨hpos, hne, hnone⟩
  have hle := hwake k hne
  rw [hnone] at hle
  exact absurd hle (Nat.not_le.mpr hpos)

/-- Threads of priority 33 and 32 wait for a semaphore. -/
def twoWaiters : List Input :=
  .op (.threadCreate 33) :: List.replicate 11 .run ++ [.op (.semaDown 0), .run] ++
    .op (.threadCreate 32) :: List.replicate 11 .run ++ [.op (.semaDown 0), .run]

/-- An up wakes the first of them; before it runs, the initial thread downs the semaphore itself, so
that it has to wait again, and then ups it once more. -/
def barging : List SemaInput :=
  twoWaiters.map .input ++ [.quietUp 0, .input (.op (.semaDown 0)), .input .run,
    .input (.op .threadYield), .input .run, .input .run, .quietUp 0]

/-- A thread waits, the semaphore has the value 1, and another thread is on its way. -/
theorem semaphore_wakeups_barging : ∃ s,
    run semaStep (threadStart fun _ => 0) barging = some s ∧
      (s.sema (.sema 0)).waiters = [4] ∧ (s.sema (.sema 0)).value = 1 ∧ s.woken (.sema 0) = {3} ∧
        (s.sema (.sema 0)).value ≤ (s.woken (.sema 0)).card := by
  obtain ⟨s, hs, hp⟩ := run_reaches semaStep (threadStart fun _ => 0) barging
    (fun s => decide ((s.sema (.sema 0)).waiters = [4] ∧ (s.sema (.sema 0)).value = 1 ∧
      s.woken (.sema 0) = {3})) (by decide +kernel)
  obtain ⟨hw, hv, hwoken⟩ := of_decide_eq_true hp
  have h := semaphore_wakeups hs (by decide +kernel) (.sema 0)
  exact ⟨s, hs, hw, hv, hwoken, h.1 (by simp [hw])⟩

/-- The value of a semaphore that `sema_init` gave the value `2 ^ 32 - 1` is zero after an up. -/
theorem semaphore_overflow : ∃ s,
    run semaStep (threadStart fun _ => 2 ^ 32 - 1) [.handlerUp 0] = some s ∧
      (s.sema (.sema 0)).value = 0 ∧
      initialValue (fun _ => 2 ^ 32 - 1) (.sema 0) + (s.sema (.sema 0)).ups ≠
        (s.sema (.sema 0)).value + (s.sema (.sema 0)).downs := by
  obtain ⟨s, hs, hp⟩ := run_reaches semaStep (threadStart fun _ => 2 ^ 32 - 1) [.handlerUp 0]
    (fun s => decide ((s.sema (.sema 0)).value = 0 ∧
      initialValue (fun _ => 2 ^ 32 - 1) (.sema 0) + (s.sema (.sema 0)).ups ≠
        (s.sema (.sema 0)).value + (s.sema (.sema 0)).downs)) (by decide +kernel)
  exact ⟨s, hs, of_decide_eq_true hp⟩

end Pintos.Threads
