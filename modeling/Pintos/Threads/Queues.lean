import Pintos.Base.Placement
import Pintos.Threads.Effect

/-!
# Thread queues

Every thread is on the queue that its status and the code it is to go on with tell, once, and on
no other: the run queue while ready, a semaphore's waiters while blocked in a down, the sleeping
list while blocked in `timer_sleep`.
Source `threads/thread.c:304–411, 641–718`, `threads/synch.c:74–142`,
`devices/timer.c:94–203`.
-/

namespace Pintos.Threads

open Base
open scoped List

/-- The lists a thread's list elements can be on. -/
inductive Queue
  | ready
  | sleeping
  | waiters (k : SemaId)
  deriving DecidableEq, Repr

/-- The list that a thread which blocked before this code is on. -/
def waitPlace : List Action → Option Queue
  | .semaRetest k :: _ => some (.waiters k)
  | .lockRetest l :: _ => some (.waiters (.lock l))
  | .slept :: _ => some .sleeping
  | _ => none

/-- The code of `thread_create` that makes or starts a thread. -/
def Action.creates : Action → Bool
  | takeTid _ | startThread _ => true
  | _ => false

namespace Kernel

/-- The list that a thread belongs on. -/
def place (s : Kernel) (t : Tid) : Option Queue :=
  match (s.thread t).status with
  | .ready => if t = s.idleThread then none else some .ready
  | .blocked => waitPlace (s.thread t).todo
  | _ => none

/-- The lists themselves. -/
def queue (s : Kernel) : Queue → List Tid
  | .ready => s.readyList
  | .sleeping => s.sleepingList
  | .waiters k => (s.sema k).waiters

/-- A thread that its creator has not started yet. -/
def Newborn (s : Kernel) (creator t : Tid) : Prop :=
  (s.thread t).status = .blocked ∧ (s.thread t).todo = [.kernelThread creator]

end Kernel

/-- The queues are right and `r` is the running thread, if there is one. -/
structure QueueInv (r : Option Tid) (s : Kernel) : Prop where
  placed : Placed s.place s.queue
  running : ∀ t, (s.thread t).status = .running ↔ r = some t
  idleTodo : (s.thread s.idleThread).todo = [.idle]
  idleLive : (s.thread s.idleThread).status ≠ .dying ∧ (s.thread s.idleThread).status ≠ .dead
  born : ∀ u t, .startThread t ∈ (s.thread u).todo → s.Newborn u t
  once : ∀ u, (s.thread u).todo.countP Action.creates ≤ 1
  fresh : ∀ t, s.nextTid ≤ t → (s.thread t).status = .dead ∧ (s.thread t).todo = []
  noFailure : s.failed = false

/-- The two states have the same threads running, ready and blocked, with the same code to run. -/
structure SameCode (s s' : Kernel) : Prop where
  status : ∀ t, (s'.thread t).status = (s.thread t).status
  todo : ∀ t, (s'.thread t).todo = (s.thread t).todo
  current : s'.current = s.current
  idleThread : s'.idleThread = s.idleThread
  nextTid : s'.nextTid = s.nextTid
  failed : s'.failed = s.failed

namespace SameCode

variable {s s' s'' : Kernel}

theorem refl (s : Kernel) : SameCode s s := ⟨fun _ => rfl, fun _ => rfl, rfl, rfl, rfl, rfl⟩

theorem trans (h : SameCode s s') (h' : SameCode s' s'') : SameCode s s'' where
  status t := (h'.status t).trans (h.status t)
  todo t := (h'.todo t).trans (h.todo t)
  current := h'.current.trans h.current
  idleThread := h'.idleThread.trans h.idleThread
  nextTid := h'.nextTid.trans h.nextTid
  failed := h'.failed.trans h.failed

theorem modify (s : Kernel) (t : Tid) (f : Thread → Thread)
    (hf : ∀ th, (f th).status = th.status ∧ (f th).todo = th.todo) :
    SameCode s (s.modify t f) where
  status := Kernel.field_modify Thread.status (hf _).1
  todo := Kernel.field_modify Thread.todo (hf _).2
  current := rfl
  idleThread := rfl
  nextTid := rfl
  failed := rfl

private theorem place (h : SameCode s s') : s'.place = s.place := by
  funext t
  simp only [Kernel.place, h.status, h.todo, h.idleThread]

private theorem raiseThread (s : Kernel) (t : Tid) (p : Int) : SameCode s (s.raiseThread t p) :=
  modify s t _ fun _ => ⟨rfl, rfl⟩

theorem donate (s : Kernel) (l : LockId) : SameCode s (s.donate l) :=
  Kernel.donate_induct (fun _ _ _ h => { h with }) (fun m t _ h => h.trans (raiseThread m t _))
    (modify s s.current _ fun _ => ⟨rfl, rfl⟩)

end SameCode

/-- The two states have the same threads but for one, which may have another status and other
code. -/
structure OneThread (t : Tid) (s s' : Kernel) : Prop where
  status : ∀ u, u ≠ t → (s'.thread u).status = (s.thread u).status
  todo : ∀ u, u ≠ t → (s'.thread u).todo = (s.thread u).todo
  idleThread : s'.idleThread = s.idleThread
  nextTid : s'.nextTid = s.nextTid

namespace OneThread

variable {s e s' : Kernel} {t : Tid}

private theorem modify (s : Kernel) (t : Tid) (f : Thread → Thread) :
    OneThread t s (s.modify t f) where
  status u hu := by simp [Kernel.modify, hu]
  todo u hu := by simp [Kernel.modify, hu]
  idleThread := rfl
  nextTid := rfl

private theorem trans (h : OneThread t s e) (h' : OneThread t e s') : OneThread t s s' where
  status u hu := (h'.status u hu).trans (h.status u hu)
  todo u hu := (h'.todo u hu).trans (h.todo u hu)
  idleThread := h'.idleThread.trans h.idleThread
  nextTid := h'.nextTid.trans h.nextTid

private theorem of_sameCode (h : SameCode s e) (t : Tid) : OneThread t s e :=
  ⟨fun u _ => h.status u, fun u _ => h.todo u, h.idleThread, h.nextTid⟩

private theorem place (h : OneThread t s s') {u : Tid} (hu : u ≠ t) : s'.place u = s.place u := by
  simp only [Kernel.place, h.status u hu, h.todo u hu, h.idleThread]

end OneThread

section Lists

variable (s : Kernel)

theorem current_semaTryDown (k : SemaId) : (s.semaTryDown k).current = s.current := by
  unfold Kernel.semaTryDown
  split <;> rfl

private theorem current_wakeSleepers (s : Kernel) (ts : List Tid) (y : Bool) :
    (s.wakeSleepers ts y).1.current = s.current := by
  induction ts generalizing s y with
  | nil => rfl
  | cons t rest ih =>
    rw [Kernel.wakeSleepers]
    split
    · rfl
    · exact (ih _ _).trans rfl

theorem current_semaUp (k : SemaId) : (s.semaUp k).current = s.current := by
  unfold Kernel.semaUp Kernel.wakeWaiter
  split <;> rfl

private theorem queue_donate (l : LockId) : (s.donate l).queue = s.queue :=
  Kernel.donate_induct (P := fun m => m.queue = s.queue) (fun _ _ _ h => h) (fun _ _ _ h => h) rfl

private theorem queue_modifySema (k : SemaId) {f : Semaphore → Semaphore}
    (hf : (f (s.sema k)).waiters ~ (s.sema k).waiters) (q : Queue) :
    (s.modifySema k f).queue q ~ s.queue q := by
  cases q with
  | ready => exact .refl _
  | sleeping => exact .refl _
  | waiters j =>
    by_cases hj : j = k
    · subst hj
      simpa [Kernel.queue, Kernel.modifySema] using hf
    · simp [Kernel.queue, Kernel.modifySema, hj]

private theorem perm_insertOrdered (t : Tid) (ts : List Tid) :
    s.insertOrdered t ts ~ t :: ts :=
  List.perm_orderedInsert _ t ts

private theorem queue_enqueue (k : SemaId) (q : Queue) :
    (some (Queue.waiters k) = some q ∧ (s.modifySema k fun m =>
      { m with waiters := s.insertOrdered s.current m.waiters }).queue q ~
        s.current :: s.queue q) ∨
    (some (Queue.waiters k) ≠ some q ∧ (s.modifySema k fun m =>
      { m with waiters := s.insertOrdered s.current m.waiters }).queue q ~ s.queue q) := by
  cases q with
  | ready => exact Or.inr ⟨by simp, .refl _⟩
  | sleeping => exact Or.inr ⟨by simp, .refl _⟩
  | waiters j =>
    by_cases hj : j = k
    · subst hj
      refine Or.inl ⟨rfl, ?_⟩
      simpa [Kernel.queue, Kernel.modifySema] using perm_insertOrdered s s.current _
    · refine Or.inr ⟨?_, ?_⟩
      · simpa using Ne.symm hj
      · simp [Kernel.queue, Kernel.modifySema, hj]

private theorem perm_sorted (ts : List Tid) : s.sorted ts ~ ts := List.perm_insertionSort _ ts

end Lists

namespace QueueInv

variable {r : Option Tid} {s s' e : Kernel}

private theorem congr (h : QueueInv r s) (hc : SameCode s s') (hq : ∀ q, s'.queue q ~ s.queue q) :
    QueueInv r s' where
  placed := hc.place ▸ h.placed.perm hq
  running t := by rw [hc.status, h.running]
  idleTodo := by rw [hc.idleThread, hc.todo, h.idleTodo]
  idleLive := by
    rw [hc.idleThread, hc.status]
    exact h.idleLive
  born u t ht := by
    rw [hc.todo] at ht
    rw [Kernel.Newborn, hc.status, hc.todo]
    exact h.born u t ht
  once u := by
    rw [hc.todo]
    exact h.once u
  fresh t ht := by
    rw [hc.nextTid] at ht
    rw [hc.status, hc.todo]
    exact h.fresh t ht
  noFailure := hc.failed.trans h.noFailure

theorem current_lt (h : QueueInv (some s.current) s) : s.current < s.nextTid := by
  by_contra hlt
  have hdead := (h.fresh s.current (Nat.le_of_not_lt hlt)).1
  have hrun := (h.running s.current).mpr rfl
  rw [hdead] at hrun
  cases hrun

private theorem idle_lt (h : QueueInv r s) : s.idleThread < s.nextTid := by
  by_contra hlt
  exact h.idleLive.2 (h.fresh s.idleThread (Nat.le_of_not_lt hlt)).1

/-- A thread that is on a queue, or has been blocked by `thread_block`, has been started. -/
theorem started (h : QueueInv r s) {t : Tid} (ht : ∀ u, (s.thread t).todo ≠ [.kernelThread u])
    (u : Tid) : .startThread t ∉ (s.thread u).todo :=
  fun hm => ht u (h.born u t hm).2

theorem waitPlace_ne_ready (as : List Action) : waitPlace as ≠ some .ready := by
  unfold waitPlace
  split <;> simp

private theorem waitPlace_of_head {as : List Action} (ha : as.head? = some .unblocked) {q : Queue} :
    waitPlace as ≠ some q := by
  cases as with
  | nil => cases ha
  | cons a as =>
    cases ha
    simp [waitPlace]

private theorem head_of_sleeping {as : List Action} (h : waitPlace as = some .sleeping) :
    as.head? = some .slept := by
  unfold waitPlace at h
  split at h
  · cases h
  · cases h
  · rfl
  · cases h

theorem blocked_of_place {t : Tid} {q : Queue} (hp : s.place t = some q) (hq : q ≠ .ready) :
    (s.thread t).status = .blocked := by
  simp only [Kernel.place] at hp
  split at hp
  · split at hp
    · cases hp
    · exact absurd (Option.some.inj hp).symm hq
  · assumption
  · cases hp

private theorem place_idle (h : QueueInv r s) : s.place s.idleThread = none := by
  simp only [Kernel.place, h.idleTodo, waitPlace, if_true]
  split <;> rfl

private theorem ne_kernelThread {t u : Tid} {q : Queue} (hb : (s.thread t).status = .blocked)
    (hp : s.place t = some q) : (s.thread t).todo ≠ [.kernelThread u] := by
  intro hc
  simp [Kernel.place, hb, hc, waitPlace] at hp

/-- A thread that does not wait to be started is started by no code. -/
theorem not_born (h : QueueInv r s) {t : Tid} (ht : (s.thread t).status ≠ .blocked) (u : Tid) :
    .startThread t ∉ (s.thread u).todo :=
  fun hm => ht (h.born u t hm).1

/-- One thread gets another status and other code, and may change its queue. -/
theorem update {r' : Option Tid} {t : Tid} (h : QueueInv r s) (ho : OneThread t s s')
    (hlive : (s.thread t).status ≠ .dead) (hborn : ∀ u, .startThread t ∉ (s.thread u).todo)
    (hplaced : Placed s'.place s'.queue) (hrun : ∀ u, u ≠ t → (r = some u ↔ r' = some u))
    (hself : (s'.thread t).status = .running ↔ r' = some t)
    (hstart : ∀ u, .startThread u ∈ (s'.thread t).todo → .startThread u ∈ (s.thread t).todo)
    (honce : (s'.thread t).todo.countP Action.creates ≤ 1)
    (hidle : t = s.idleThread → (s'.thread t).todo = [.idle] ∧
      (s'.thread t).status ≠ .dying ∧ (s'.thread t).status ≠ .dead)
    (hf : s'.failed = false) : QueueInv r' s' where
  placed := hplaced
  running u := by
    by_cases hu : u = t
    · exact hu ▸ hself
    · rw [ho.status u hu, h.running, hrun u hu]
  idleTodo := by
    rw [ho.idleThread]
    by_cases hi : t = s.idleThread
    · exact hi ▸ (hidle hi).1
    · rw [ho.todo _ (Ne.symm hi), h.idleTodo]
  idleLive := by
    rw [ho.idleThread]
    by_cases hi : t = s.idleThread
    · exact hi ▸ (hidle hi).2
    · rw [ho.status _ (Ne.symm hi)]
      exact h.idleLive
  born u v hv := by
    have hmem : .startThread v ∈ (s.thread u).todo := by
      by_cases hu : u = t
      · subst hu
        exact hstart v hv
      · rwa [ho.todo u hu] at hv
    have hne : v ≠ t := by
      rintro rfl
      exact hborn u hmem
    rw [Kernel.Newborn, ho.status v hne, ho.todo v hne]
    exact h.born u v hmem
  once u := by
    by_cases hu : u = t
    · exact hu ▸ honce
    · rw [ho.todo u hu]
      exact h.once u
  fresh u hu := by
    rw [ho.nextTid] at hu
    have hne : u ≠ t := by
      rintro rfl
      exact hlive (h.fresh u hu).1
    rw [ho.status u hne, ho.todo u hne]
    exact h.fresh u hu
  noFailure := hf

/-- One thread gets another status and keeps its code. -/
theorem restatus {r' : Option Tid} {t : Tid} (h : QueueInv r s) (ho : OneThread t s s')
    (htodo : (s'.thread t).todo = (s.thread t).todo) (hlive : (s.thread t).status ≠ .dead)
    (hborn : ∀ u, .startThread t ∉ (s.thread u).todo) (hplaced : Placed s'.place s'.queue)
    (hrun : ∀ u, u ≠ t → (r = some u ↔ r' = some u))
    (hself : (s'.thread t).status = .running ↔ r' = some t)
    (hidle : t = s.idleThread →
      (s'.thread t).status ≠ .dying ∧ (s'.thread t).status ≠ .dead)
    (hf : s'.failed = false) : QueueInv r' s' := by
  refine h.update ho hlive hborn hplaced hrun hself ?_ ?_ ?_ hf
  · exact fun u hu => htodo ▸ hu
  · exact htodo ▸ h.once t
  · exact fun hi => ⟨htodo.trans (hi ▸ h.idleTodo), hidle hi⟩

/-- The running thread stops running: it is put on a queue, or on none, with its new status. -/
theorem off (h : QueueInv (some s.current) s) (ho : OneThread s.current s s')
    (hrun : (s'.thread s.current).status ≠ .running)
    (hstart : ∀ t, .startThread t ∈ (s'.thread s.current).todo →
      .startThread t ∈ (s.thread s.current).todo)
    (honce : (s'.thread s.current).todo.countP Action.creates ≤ 1)
    (hidle : s.current = s.idleThread → (s'.thread s.current).todo = [.idle] ∧
      (s'.thread s.current).status ≠ .dying ∧ (s'.thread s.current).status ≠ .dead)
    (hf : s'.failed = s.failed)
    (hq : ∀ q, (s'.place s.current = some q ∧ s'.queue q ~ s.current :: s.queue q) ∨
      (s'.place s.current ≠ some q ∧ s'.queue q ~ s.queue q)) : QueueInv none s' := by
  have hcur := (h.running s.current).mpr rfl
  refine h.update ho (by simp [hcur]) (h.not_born (by simp [hcur])) ?_ ?_ ?_ hstart honce hidle
    (hf.trans h.noFailure)
  · exact h.placed.join s.current (by simp [Kernel.place, hcur]) (fun _ => ho.place) hq
  · exact fun u hu => by simp [Ne.symm hu]
  · simp [hrun]

/-- The processor is given to a thread that is ready, or to the idle thread. -/
private theorem switchTo (h : QueueInv none s) (next : Tid) (rest : List Tid)
    (hnext : (s.readyList ~ next :: rest) ∨
      (next = s.idleThread ∧ s.readyList = [] ∧ rest = [])) :
    QueueInv (some next) ({ s with readyList := rest }.switchTo next) := by
  have hcases : (s.place next = some .ready ∧ s.readyList ~ next :: rest) ∨
      (next = s.idleThread ∧ s.place next = none ∧ rest ~ s.readyList) := by
    rcases hnext with hp | ⟨rfl, hnil, rfl⟩
    · exact Or.inl ⟨(h.placed.mem_iff .ready next).mp (hp.mem_iff.mpr List.mem_cons_self), hp⟩
    · exact Or.inr ⟨rfl, h.place_idle, by rw [hnil]⟩
  have hlive : (s.thread next).status ≠ .dead := by
    rcases hcases with ⟨hp, -⟩ | ⟨rfl, -⟩
    · intro hd
      simp [Kernel.place, hd] at hp
    · exact h.idleLive.2
  have hborn : ∀ u, .startThread next ∉ (s.thread u).todo := by
    intro u hu
    obtain ⟨hb, hcode⟩ := h.born u next hu
    rcases hcases with ⟨hp, -⟩ | ⟨rfl, -⟩
    · exact ne_kernelThread hb hp hcode
    · rw [h.idleTodo] at hcode
      cases hcode
  let s' : Kernel := { s with readyList := rest }.switchTo next
  have ho : OneThread next s s' :=
    { OneThread.modify s next fun th => { th with status := .running } with }
  have hself : (s'.thread next).status = .running := by
    simp [s', Kernel.switchTo, Kernel.modify]
  change QueueInv (some next) s'
  refine h.restatus ho ?_ hlive hborn ?_ ?_ ?_ ?_ ?_
  · simp [s', Kernel.switchTo, Kernel.modify]
  · refine h.placed.leave next (by simp [Kernel.place, hself]) (fun _ => ho.place) fun q => ?_
    rcases hcases with ⟨hp, hperm⟩ | ⟨-, hp, hperm⟩
    · cases q with
      | ready => exact Or.inl ⟨hp, hperm⟩
      | sleeping => exact Or.inr ⟨by simp [hp], .refl _⟩
      | waiters k => exact Or.inr ⟨by simp [hp], .refl _⟩
    · refine Or.inr ⟨by simp [hp], ?_⟩
      cases q with
      | ready => exact hperm
      | sleeping => exact .refl _
      | waiters k => exact .refl _
  · exact fun u hu => by simp [Ne.symm hu]
  · simp [hself]
  · simp [hself]
  · have hcur : (s.thread s.current).status ≠ .running := by simp [h.running]
    simp [s', Kernel.switchTo, Kernel.cur, h.noFailure, hcur, hlive]

private theorem schedule (h : QueueInv none s) : QueueInv (some s.schedule.current) s.schedule := by
  have hperm := perm_sorted s s.readyList
  unfold Kernel.schedule
  split
  · rename_i hnil
    rw [hnil] at hperm
    exact h.switchTo s.idleThread s.readyList
      (Or.inr ⟨rfl, hperm.symm.eq_nil, hperm.symm.eq_nil⟩)
  · rename_i next rest hcons
    rw [hcons] at hperm
    exact h.switchTo next rest (Or.inl hperm.symm)

/-- A thread that is neither ready nor idle is not given the processor. -/
theorem schedule_status (h : QueueInv none s) {t : Tid} (ht : (s.thread t).status ≠ .ready)
    (hi : t ≠ s.idleThread) : (s.schedule.thread t).status = (s.thread t).status := by
  have hperm := perm_sorted s s.readyList
  unfold Kernel.schedule
  split
  · simp [Kernel.switchTo, Kernel.modify, hi]
  · rename_i next rest hcons
    rw [hcons] at hperm
    have hp := (h.placed.mem_iff .ready next).mp (hperm.mem_iff.mp List.mem_cons_self)
    have hne : t ≠ next := by
      rintro rfl
      simp only [Kernel.place] at hp
      split at hp
      · contradiction
      · exact waitPlace_ne_ready _ hp
      · cases hp
    simp [Kernel.switchTo, Kernel.modify, hne]

private theorem bury (h : QueueInv r s) {t : Tid} (ht : (s.thread t).status = .dying) :
    QueueInv r (s.modify t fun th => { th with status := .dead }) := by
  have ho := OneThread.modify s t fun th => { th with status := .dead }
  have hself : ((s.modify t fun th => { th with status := .dead }).thread t).status = .dead := by
    simp [Kernel.modify]
  refine h.restatus ho ?_ (by simp [ht]) (h.not_born (by simp [ht])) ?_ (fun _ _ => Iff.rfl) ?_ ?_
    h.noFailure
  · simp [Kernel.modify]
  · have hp : (s.modify t fun th => { th with status := .dead }).place = s.place := by
      funext u
      by_cases hu : u = t
      · subst hu
        simp [Kernel.place, hself, ht]
      · exact ho.place hu
    rw [hp]
    exact h.placed
  · rw [hself, ← h.running, ht]
    simp
  · rintro rfl
    exact absurd ht h.idleLive.1

/-- A blocked thread leaves the queue it waits on and becomes ready. -/
theorem unblock (h : QueueInv r s) (hc : SameCode s e) {t : Tid}
    (hb : (s.thread t).status = .blocked) (hi : t ≠ s.idleThread)
    (hs : ∀ u, .startThread t ∉ (s.thread u).todo)
    (hq : ∀ q, (s.place t = some q ∧ s.queue q ~ t :: e.queue q) ∨
      (s.place t ≠ some q ∧ e.queue q ~ s.queue q)) : QueueInv r (e.threadUnblock t) := by
  let s' := e.threadUnblock t
  have ho : OneThread t s s' := (OneThread.of_sameCode hc t).trans
    { OneThread.modify e t fun th => { th with status := .ready } with }
  have hself : (s'.thread t).status = .ready := by
    simp [s', Kernel.threadUnblock, Kernel.modify]
  change QueueInv r s'
  refine h.restatus ho ?_ (by simp [hb]) hs ?_ (fun _ _ => Iff.rfl) ?_ ?_ ?_
  · rw [← hc.todo t]
    simp [s', Kernel.threadUnblock, Kernel.modify]
  · have hleft : Placed (Function.update s.place t none) e.queue :=
      h.placed.leave t (by simp) (fun u hu => by simp [hu]) hq
    refine hleft.join t (by simp) ?_ ?_
    · intro u hu
      rw [ho.place hu, Function.update_of_ne hu]
    · have hp : s'.place t = some .ready := by simp [Kernel.place, hself, ho.idleThread, hi]
      intro q
      cases q with
      | ready => exact Or.inl ⟨hp, perm_insertOrdered e t e.readyList⟩
      | sleeping => exact Or.inr ⟨by simp [hp], .refl _⟩
      | waiters k => exact Or.inr ⟨by simp [hp], .refl _⟩
  · rw [hself, ← h.running, hb]
    simp
  · exact fun hidle => absurd hidle hi
  · have hbe : (e.thread t).status = .blocked := (hc.status t).trans hb
    simp [s', Kernel.threadUnblock, hc.failed, h.noFailure, hbe]

/-- A thread on a queue of blocked threads is taken off it and becomes ready. -/
theorem wake (h : QueueInv r s) (hc : SameCode s e) {t : Tid} {q : Queue}
    (hp : s.place t = some q) (hr : q ≠ .ready)
    (hq : ∀ j, (q = j ∧ s.queue j ~ t :: e.queue j) ∨ (q ≠ j ∧ e.queue j ~ s.queue j)) :
    QueueInv r (e.threadUnblock t) := by
  have hb := blocked_of_place hp hr
  refine h.unblock hc hb ?_ (h.started fun u => ne_kernelThread hb hp) ?_
  · rintro rfl
    rw [h.place_idle] at hp
    cases hp
  · intro j
    simpa [hp] using hq j

theorem waitPlace_cons (again : Action) (rest : List Action) :
    waitPlace (again :: rest) = waitPlace [again] := by
  cases again <;> rfl

private theorem block (h : QueueInv (some s.current) s) (hc : SameCode s e)
    (hi : s.current ≠ s.idleThread) {again : Action} (ha : again.creates = false)
    (hq : ∀ q, (waitPlace [again] = some q ∧ e.queue q ~ s.current :: s.queue q) ∨
      (waitPlace [again] ≠ some q ∧ e.queue q ~ s.queue q)) :
    QueueInv (some (e.threadBlock again).current) (e.threadBlock again) := by
  refine schedule ?_
  have hcur : e.current = s.current := hc.current
  have htodo : (((e.push [again]).modify e.current fun th =>
      { th with status := .blocked }).thread s.current).todo =
      again :: (s.thread s.current).todo := by
    simp [Kernel.push, Kernel.modify, hcur, hc.todo]
  have hstatus : (((e.push [again]).modify e.current fun th =>
      { th with status := .blocked }).thread s.current).status = .blocked := by
    simp [Kernel.push, Kernel.modify, hcur]
  have ho : OneThread s.current s ((e.push [again]).modify e.current fun th =>
      { th with status := .blocked }) :=
    (OneThread.of_sameCode hc _).trans
      (hcur ▸ (OneThread.modify e e.current _).trans (OneThread.modify _ e.current _))
  refine h.off ho ?_ ?_ ?_ ?_ hc.failed ?_
  · rw [hstatus]
    simp
  · intro t ht
    rw [htodo, List.mem_cons] at ht
    rcases ht with rfl | ht
    · cases ha
    · exact ht
  · rw [htodo, List.countP_cons_of_neg (by simp [ha])]
    exact h.once s.current
  · exact fun hidle => absurd hidle hi
  · intro q
    have hp : ((e.push [again]).modify e.current fun th =>
        { th with status := .blocked }).place s.current = waitPlace [again] := by
      simp only [Kernel.place, hstatus, htodo, waitPlace_cons again]
    rw [hp]
    exact hq q

theorem threadYield (h : QueueInv (some s.current) s) :
    QueueInv (some s.threadYield.current) s.threadYield := by
  refine schedule ?_
  refine h.off { OneThread.modify s s.current fun th => { th with status := .ready } with }
    ?_ ?_ ?_ ?_ rfl ?_
  · simp [Kernel.modify]
  · intro t ht
    simpa [Kernel.modify] using ht
  · simpa [Kernel.modify] using h.once s.current
  · intro hidle
    simp [Kernel.modify, hidle, h.idleTodo]
  · intro q
    by_cases hi : s.current = s.idleThread
    · refine Or.inr ⟨by simp [Kernel.place, Kernel.modify, hi], ?_⟩
      cases q with
      | ready => simp [Kernel.queue, hi]
      | sleeping => exact .refl _
      | waiters k => exact .refl _
    · cases q with
      | ready =>
        refine Or.inl ⟨by simp [Kernel.place, Kernel.modify, hi], ?_⟩
        simpa [Kernel.queue, Kernel.modify, hi] using
          perm_insertOrdered s s.current s.readyList
      | sleeping => exact Or.inr ⟨by simp [Kernel.place, Kernel.modify, hi], .refl _⟩
      | waiters k => exact Or.inr ⟨by simp [Kernel.place, Kernel.modify, hi], .refl _⟩

private theorem threadExit (h : QueueInv (some s.current) s) (hi : s.current ≠ s.idleThread) :
    QueueInv (some s.threadExit.current) s.threadExit := by
  let m : Kernel := s.modify s.current fun th => { th with status := .dying }
  have hoff : QueueInv none m := by
    refine h.off (OneThread.modify s s.current _) ?_ ?_ ?_ ?_ rfl ?_
    · simp [m, Kernel.modify]
    · intro t ht
      simpa [m, Kernel.modify] using ht
    · simpa [m, Kernel.modify] using h.once s.current
    · exact fun hidle => absurd hidle hi
    · exact fun q => Or.inr ⟨by simp [m, Kernel.place, Kernel.modify], .refl _⟩
  have hdying : (m.thread s.current).status = .dying := by simp [m, Kernel.modify]
  have hstill : (m.schedule.thread s.current).status = .dying :=
    (hoff.schedule_status (by simp [hdying]) hi).trans hdying
  exact hoff.schedule.bury hstill

/-- The running thread gets other code, which starts no other thread. -/
private theorem recode (h : QueueInv (some s.current) s) (hi : s.current ≠ s.idleThread)
    (f : List Action → List Action)
    (hstart : ∀ t, .startThread t ∈ f s.cur.todo → .startThread t ∈ s.cur.todo)
    (honce : (f s.cur.todo).countP Action.creates ≤ 1) :
    QueueInv (some s.current) (s.modify s.current fun th => { th with todo := f th.todo }) := by
  have hcur := (h.running s.current).mpr rfl
  have ho := OneThread.modify s s.current fun th => { th with todo := f th.todo }
  have htodo : ((s.modify s.current fun th => { th with todo := f th.todo }).thread
      s.current).todo = f s.cur.todo := by
    simp [Kernel.modify, Kernel.cur]
  have hst : ((s.modify s.current fun th => { th with todo := f th.todo }).thread
      s.current).status = .running := by
    simp [Kernel.modify, hcur]
  refine h.update ho (by simp [hcur]) (h.not_born (by simp [hcur])) ?_ (fun _ _ => Iff.rfl) ?_ ?_
    ?_ (fun hidle => absurd hidle hi) h.noFailure
  · have hp : (s.modify s.current fun th => { th with todo := f th.todo }).place = s.place := by
      funext t
      by_cases ht : t = s.current
      · subst ht
        simp [Kernel.place, hst, hcur]
      · exact ho.place ht
    rw [hp]
    exact h.placed
  · simp [hst]
  · rw [htodo]
    exact hstart
  · rw [htodo]
    exact honce

/-- Code that starts no thread may be put before the running thread's. -/
private theorem pushOnce (h : QueueInv (some s.current) s) (hi : s.current ≠ s.idleThread)
    (as : List Action) (has : ∀ t, .startThread t ∉ as)
    (honce : (as ++ s.cur.todo).countP Action.creates ≤ 1) :
    QueueInv (some s.current) (s.push as) := by
  refine h.recode hi (as ++ ·) (fun t ht => ?_) honce
  exact (List.mem_append.mp ht).resolve_left (has t)

theorem pop (h : QueueInv (some s.current) s) (hi : s.current ≠ s.idleThread) :
    QueueInv (some s.current) s.pop := by
  have hsub := List.tail_sublist s.cur.todo
  exact h.recode hi List.tail (fun _ ht => hsub.subset ht) (hsub.countP_le.trans (h.once s.current))

private theorem push (h : QueueInv (some s.current) s) (hi : s.current ≠ s.idleThread)
    (as : List Action) (has : as.countP Action.creates = 0) :
    QueueInv (some s.current) (s.push as) := by
  refine h.pushOnce hi as ?_ ?_
  · exact fun t hm => List.countP_eq_zero.mp has _ hm rfl
  · rw [List.countP_append, has, Nat.zero_add]
    exact h.once s.current

private theorem congrPush (h : QueueInv (some s.current) s) (hi : s.current ≠ s.idleThread)
    (as : List Action) (has : as.countP Action.creates = 0) (hc : SameCode s e)
    (hq : ∀ q, e.queue q ~ s.queue q) : QueueInv (some (e.push as).current) (e.push as) := by
  refine QueueInv.push (hc.current ▸ h.congr hc hq) ?_ as has
  rw [hc.current, hc.idleThread]
  exact hi

private theorem wakeWaiter (h : QueueInv r s) (k : SemaId) : QueueInv r (s.wakeWaiter k) := by
  have hperm := perm_sorted s (s.sema k).waiters
  unfold Kernel.wakeWaiter
  split
  · exact h
  · rename_i t rest hcons
    rw [hcons] at hperm
    have hp : s.place t = some (.waiters k) :=
      (h.placed.mem_iff (.waiters k) t).mp (hperm.mem_iff.mp List.mem_cons_self)
    refine h.wake (e := s.modifySema k fun m => { m with waiters := rest })
      { SameCode.refl s with } hp (by simp) ?_
    intro q
    by_cases hq : q = .waiters k
    · subst hq
      refine Or.inl ⟨rfl, ?_⟩
      simpa [Kernel.queue, Kernel.modifySema] using hperm.symm
    · refine Or.inr ⟨Ne.symm hq, ?_⟩
      cases q with
      | ready => exact .refl _
      | sleeping => exact .refl _
      | waiters j =>
        have hj : j ≠ k := fun hj => hq (hj ▸ rfl)
        simp [Kernel.queue, Kernel.modifySema, hj]

private theorem wakeSleepers (h : QueueInv r s) (ts : List Tid) (hts : s.sleepingList = ts)
    (y : Bool) :
    QueueInv r (s.wakeSleepers ts y).1 := by
  induction ts generalizing s y with
  | nil => exact h
  | cons t rest ih =>
    rw [Kernel.wakeSleepers]
    split
    · exact h
    · refine ih ?_ rfl _
      have hp : s.place t = some .sleeping :=
        (h.placed.mem_iff .sleeping t).mp (by simp [Kernel.queue, hts])
      refine h.wake (e := { s with sleepingList := rest }) { SameCode.refl s with } hp (by simp) ?_
      intro q
      cases q with
      | ready => exact Or.inr ⟨by simp, .refl _⟩
      | sleeping => exact Or.inl ⟨rfl, by simp [Kernel.queue, hts]⟩
      | waiters k => exact Or.inr ⟨by simp, .refl _⟩

/-- The running thread makes a thread that it has still to start. -/
theorem takeTid (h : QueueInv (some s.current) s) (hi : s.current ≠ s.idleThread)
    (hone : s.cur.todo.countP Action.creates = 0) (p : Int) :
    QueueInv (some s.current) (s.takeTid p) := by
  have hlt := h.current_lt
  have hcn : s.current ≠ s.nextTid := Nat.ne_of_lt hlt
  have hdead := (h.fresh s.nextTid le_rfl).1
  have hnew : (s.takeTid p).thread s.nextTid =
      initThread .blocked p [.kernelThread s.current] := by
    simp [Kernel.takeTid, Kernel.push, Kernel.modify, Ne.symm hcn]
  have hcur : (s.takeTid p).thread s.current =
      { s.cur with
        todo := [.lockRelease tidLock, .startThread s.nextTid] ++ s.cur.todo } := by
    simp [Kernel.takeTid, Kernel.push, Kernel.modify, hcn, Kernel.cur]
  have hother : ∀ t, t ≠ s.current → t ≠ s.nextTid → (s.takeTid p).thread t = s.thread t := by
    intro t hc hn
    simp [Kernel.takeTid, Kernel.push, Kernel.modify, hc, hn]
  have hrun := (h.running s.current).mpr rfl
  have hst : ∀ t, t ≠ s.nextTid → ((s.takeTid p).thread t).status = (s.thread t).status := by
    intro t hn
    by_cases hc : t = s.current
    · subst hc
      rw [hcur]
      rfl
    · rw [hother t hc hn]
  have hidle : s.idleThread ≠ s.nextTid := Nat.ne_of_lt h.idle_lt
  exact {
    placed := by
      have hp : (s.takeTid p).place = s.place := by
        funext t
        by_cases hn : t = s.nextTid
        · subst hn
          simp [Kernel.place, hnew, initThread, hdead, waitPlace]
        · by_cases hc : t = s.current
          · subst hc
            simp [Kernel.place, hst _ hn, hrun]
          · simp only [Kernel.place, hother t hc hn]
            rfl
      rw [hp]
      exact h.placed
    running := by
      intro t
      by_cases hn : t = s.nextTid
      · subst hn
        rw [hnew, ← h.running, hdead]
        simp [initThread]
      · rw [hst t hn, h.running]
    idleTodo := by
      change ((s.takeTid p).thread s.idleThread).todo = _
      rw [hother _ (Ne.symm hi) hidle, h.idleTodo]
    idleLive := by
      change ((s.takeTid p).thread s.idleThread).status ≠ _ ∧
        ((s.takeTid p).thread s.idleThread).status ≠ _
      rw [hst _ hidle]
      exact h.idleLive
    born := by
      intro u t ht
      by_cases hu : u = s.current
      · subst hu
        rw [hcur] at ht
        simp only [List.cons_append, List.nil_append, List.mem_cons, reduceCtorEq,
          Action.startThread.injEq, false_or] at ht
        rcases ht with rfl | ht
        · rw [Kernel.Newborn, hnew]
          exact ⟨rfl, rfl⟩
        · exact absurd rfl (List.countP_eq_zero.mp hone _ ht)
      · by_cases hn : u = s.nextTid
        · subst hn
          rw [hnew] at ht
          simp [initThread] at ht
        · rw [hother u hu hn] at ht
          have hb := h.born u t ht
          have hc : t ≠ s.current := by
            rintro rfl
            rw [hb.1] at hrun
            cases hrun
          have htn : t ≠ s.nextTid := by
            rintro rfl
            rw [hb.1] at hdead
            cases hdead
          rw [Kernel.Newborn, hother t hc htn]
          exact hb
    once := by
      intro u
      by_cases hu : u = s.current
      · subst hu
        rw [hcur]
        change List.countP Action.creates
          ([.lockRelease tidLock, .startThread s.nextTid] ++ s.cur.todo) ≤ 1
        rw [List.countP_append, hone]
        exact le_rfl
      · by_cases hn : u = s.nextTid
        · subst hn
          rw [hnew]
          exact Nat.zero_le 1
        · rw [hother u hu hn]
          exact h.once u
    fresh := by
      intro t ht
      have hn : s.nextTid < t := ht
      rw [hother t (Nat.ne_of_gt (hlt.trans hn)) (Nat.ne_of_gt hn)]
      exact h.fresh t hn.le
    noFailure := h.noFailure }

private theorem semaDown (h : QueueInv (some s.current) s) (hi : s.current ≠ s.idleThread)
    (k : SemaId) :
    QueueInv (some (s.semaDown k).current) (s.semaDown k) := by
  unfold Kernel.semaDown
  split
  · refine h.block ?_ hi rfl (queue_enqueue s k)
    exact { SameCode.refl s with }
  · exact h.congr { SameCode.refl s with } (queue_modifySema s k (.refl _))

theorem semaTryDown (h : QueueInv r s) (k : SemaId) : QueueInv r (s.semaTryDown k) := by
  unfold Kernel.semaTryDown
  split
  · exact h
  · exact h.congr { SameCode.refl s with } (queue_modifySema s k (.refl _))

private theorem startThread (h : QueueInv (some s.current) s) (hi : s.current ≠ s.idleThread)
    {t : Tid} (hb : s.Newborn s.current t) (hs : ∀ u, .startThread t ∉ (s.thread u).todo) :
    QueueInv (some s.current) (s.startThread t) := by
  have hne : t ≠ s.current := by
    rintro rfl
    have hrun := (h.running s.current).mpr rfl
    rw [hb.1] at hrun
    cases hrun
  have hsame : (s.push [.yieldIfHigher t]).thread t = s.thread t := by
    simp [Kernel.push, Kernel.modify, hne]
  refine (h.push hi [.yieldIfHigher t] rfl).unblock (SameCode.refl _) ?_ ?_ ?_ ?_
  · rw [hsame]
    exact hb.1
  · intro hidle
    have hcode := hb.2
    rw [show t = s.idleThread from hidle, h.idleTodo] at hcode
    cases hcode
  · intro u hu
    by_cases huc : u = s.current
    · subst huc
      simp only [Kernel.push, Kernel.modify, Function.update_self, List.cons_append,
        List.nil_append, List.mem_cons, reduceCtorEq, false_or] at hu
      exact hs _ hu
    · simp only [Kernel.push, Kernel.modify, Function.update_of_ne huc] at hu
      exact hs u hu
  · refine fun q => Or.inr ⟨?_, .refl _⟩
    rw [Kernel.place, hsame, hb.1, hb.2]
    simp [waitPlace]

theorem semaUp (h : QueueInv r s) (k : SemaId) : QueueInv r (s.semaUp k) :=
  (h.wakeWaiter k).congr { SameCode.refl _ with } (queue_modifySema _ k (.refl _))

private theorem takeLock (h : QueueInv r s) (l : LockId) : QueueInv r (s.takeLock l) := by
  refine h.congr ?_ ?_
  · unfold Kernel.takeLock
    refine SameCode.trans ?_ (SameCode.modify _ s.current _ fun _ => ⟨rfl, rfl⟩)
    exact { SameCode.refl s with }
  · exact queue_modifySema s (.lock l) (f := fun m => { m with
      value := m.value - 1, downs := m.downs + 1, waiters := s.sorted m.waiters })
      (perm_sorted s _)

private theorem acquireDown (h : QueueInv (some s.current) s) (hi : s.current ≠ s.idleThread)
    (l : LockId) : QueueInv (some (s.acquireDown l).current) (s.acquireDown l) := by
  unfold Kernel.acquireDown
  split
  · refine h.block ?_ hi rfl (queue_enqueue s (.lock l))
    exact { SameCode.refl s with }
  · exact h.takeLock l

private theorem recheck (h : QueueInv (some s.current) s) (old : Int) :
    QueueInv (some (s.recheck old).current) (s.recheck old) := by
  unfold Kernel.recheck
  split
  · split
    · exact h
    · split
      · exact h.threadYield
      · exact h
  · exact h

private theorem threadSetPriority (h : QueueInv (some s.current) s) (hi : s.current ≠ s.idleThread)
    (n : Int) :
    QueueInv (some (s.threadSetPriority n).current) (s.threadSetPriority n) := by
  have hp : QueueInv (some s.current) (s.modify s.current fun th =>
      { th with basePriority := n, priority := Kernel.newPriority th n }) :=
    h.congr (SameCode.modify s s.current _ fun _ => ⟨rfl, rfl⟩) fun _ => .refl _
  unfold Kernel.threadSetPriority
  dsimp only
  split
  · exact QueueInv.threadYield (QueueInv.push (s := s.modify s.current _) hp hi [_] rfl)
  · exact QueueInv.recheck hp _

private theorem timerSleep (h : QueueInv (some s.current) s) (hi : s.current ≠ s.idleThread)
    (n : Int) :
    QueueInv (some (s.timerSleep n).current) (s.timerSleep n) := by
  unfold Kernel.timerSleep
  split
  · exact h
  · refine h.block ?_ hi rfl ?_
    · refine SameCode.trans (SameCode.modify s s.current
        (fun th => { th with wakeupTick := s.ticks + n }) fun _ => ⟨rfl, rfl⟩) ?_
      exact { SameCode.refl _ with }
    · intro q
      cases q with
      | ready => exact Or.inr ⟨by simp [waitPlace], .refl _⟩
      | sleeping => exact Or.inl ⟨rfl, List.perm_orderedInsert _ _ _⟩
      | waiters j => exact Or.inr ⟨by simp [waitPlace], .refl _⟩

end QueueInv

/-- What the pieces of code that start, make or wake a thread rely on. -/
def Admissible (s : Kernel) : Action → Prop
  | .startThread t => s.Newborn s.current t ∧ ∀ u, .startThread t ∉ (s.thread u).todo
  | .takeTid _ => s.cur.todo.countP Action.creates = 0
  | .unblock t => (s.thread t).todo.head? = some .unblocked
  | _ => True

private theorem QueueInv.exec {s s' : Kernel} {a : Action} (h : QueueInv (some s.current) s)
    (hi : s.current ≠ s.idleThread) (ha : Admissible s a) (he : s.exec a = some s') :
    QueueInv (some s'.current) s' := by
  cases a with
  | semaDown k | semaRetest k =>
    cases he
    exact h.semaDown hi k
  | semaTryDown k =>
    cases he
    rw [current_semaTryDown]
    exact h.semaTryDown k
  | semaUp k =>
    cases he
    rw [current_semaUp]
    exact (h.push hi _ rfl).semaUp k
  | semaYield | yield =>
    cases he
    exact h.threadYield
  | lockAcquire l =>
    simp only [Kernel.exec, Kernel.lockAcquire] at he
    split at he
    · cases he
    · cases he
      have hc := SameCode.donate s l
      have hd : QueueInv (some (s.donate l).current) (s.donate l) :=
        hc.current ▸ h.congr hc fun q => queue_donate s l ▸ .refl _
      refine hd.acquireDown ?_ l
      rw [hc.current, hc.idleThread]
      exact hi
  | lockRetest l =>
    cases he
    exact h.acquireDown hi l
  | lockTryAcquire l =>
    simp only [Kernel.exec, Kernel.lockTryAcquire] at he
    split at he
    · cases he
    · split at he
      · cases he
        exact h
      · rename_i hv
        cases he
        rw [Kernel.semaTryDown, if_neg hv]
        refine h.congrPush hi [.tryHolder l] rfl ?_ (queue_modifySema s _ (.refl _))
        exact { SameCode.refl s with }
  | tryHolder l =>
    cases he
    refine h.congrPush hi [.tryInsert l] rfl ?_ ?_
    · exact { SameCode.refl s with }
    · exact fun _ => .refl _
  | tryInsert l =>
    cases he
    refine h.congr ?_ fun _ => .refl _
    refine SameCode.trans ?_ (SameCode.modify _ s.current _ fun _ => ⟨rfl, rfl⟩)
    exact { SameCode.refl s with }
  | lockRelease l =>
    simp only [Kernel.exec, Kernel.lockRelease] at he
    split at he
    · cases he
      refine h.congrPush hi [.releaseDonated l] rfl ?_ ?_
      · refine SameCode.trans ?_ (SameCode.modify _ s.current _ fun _ => ⟨rfl, rfl⟩)
        exact { SameCode.refl s with }
      · exact fun _ => .refl _
    · cases he
  | releaseDonated l =>
    cases he
    refine h.congrPush hi [.releaseHolder l] rfl ?_ ?_
    · exact SameCode.modify _ s.current _ fun _ => ⟨rfl, rfl⟩
    · exact fun _ => .refl _
  | releaseHolder l =>
    cases he
    refine h.congrPush hi [.releaseSema l] rfl ?_ ?_
    · exact { SameCode.refl s with }
    · exact fun _ => .refl _
  | releaseSema l =>
    cases he
    rw [Kernel.releaseSema, current_semaUp]
    exact (h.push hi _ rfl).semaUp _
  | releasePriority =>
    cases he
    exact h.threadSetPriority hi _
  | setPriority n =>
    cases he
    exact h.threadSetPriority hi n
  | recheck old =>
    cases he
    exact h.recheck old
  | takeTid p =>
    cases he
    exact h.takeTid hi ha p
  | startThread t =>
    cases he
    exact h.startThread hi ha.1 ha.2
  | yieldIfHigher t =>
    simp only [Kernel.exec, Kernel.yieldIfHigher, Option.some.injEq] at he
    subst he
    split
    · exact h.threadYield
    · exact h
  | condWait c l =>
    simp only [Kernel.exec, Kernel.condWait] at he
    split at he
    · cases he
      refine h.congrPush hi [.lockRelease l, .semaDown (.cond s.nextWaiter), .lockAcquire l] rfl
        ?_ ?_
      · exact { SameCode.refl s with }
      · exact fun _ => .refl _
    · cases he
  | condSignal c l =>
    simp only [Kernel.exec, Kernel.condSignal] at he
    split at he
    · split at he
      · cases he
        exact h
      · cases he
        rw [current_semaUp]
        refine QueueInv.semaUp (h.congrPush hi [.semaYield] rfl ?_ ?_) _
        · exact { SameCode.refl s with }
        · exact fun _ => .refl _
    · cases he
  | sleep n =>
    cases he
    exact h.timerSleep hi n
  | block | idle =>
    cases he
    exact h.block (SameCode.refl s) hi rfl fun _ => Or.inr ⟨by simp [waitPlace], .refl _⟩
  | unblock t =>
    simp only [Kernel.exec] at he
    split at he
    · rename_i hb
      cases he
      refine h.unblock (SameCode.refl s) hb ?_ ?_ ?_
      · rintro rfl
        rw [Admissible, h.idleTodo] at ha
        cases ha
      · refine h.started fun u hu => ?_
        rw [Admissible, hu] at ha
        cases ha
      · refine fun q => Or.inr ⟨?_, .refl _⟩
        rw [Kernel.place, hb]
        exact waitPlace_of_head ha
    · cases he
  | exit =>
    cases he
    exact h.threadExit hi
  | kernelThread u =>
    cases he
    exact h
  | slept | unblocked =>
    cases he
    exact h

private theorem QueueInv.timerInterrupt {s : Kernel} (h : QueueInv (some s.current) s) :
    QueueInv (some s.timerInterrupt.current) s.timerInterrupt := by
  let e : Kernel := { s with ticks := s.ticks + 1, threadTicks := s.threadTicks + 1 }
  have he : QueueInv (some s.current) e := h.congr { SameCode.refl s with } fun _ => .refl _
  let r := e.wakeSleepers e.sleepingList (decide (TIME_SLICE ≤ e.threadTicks))
  have hc : r.1.current = s.current := current_wakeSleepers e _ _
  have hw : QueueInv (some r.1.current) r.1 := hc ▸ he.wakeSleepers e.sleepingList rfl _
  unfold Kernel.timerInterrupt
  dsimp only
  split
  · exact hw.threadYield
  · exact hw

private theorem QueueInv.idle {s : Kernel} (h : QueueInv (some s.current) s)
    (hi : s.current = s.idleThread) :
    QueueInv (some (s.pop.threadBlock .idle).current) (s.pop.threadBlock .idle) := by
  refine QueueInv.schedule ?_
  have hidle : (s.thread s.current).todo = [.idle] := hi ▸ h.idleTodo
  let m : Kernel := (s.pop.push [.idle]).modify s.pop.current fun th =>
    { th with status := .blocked }
  have hself : m.thread s.current =
      { s.thread s.current with status := .blocked, todo := [.idle] } := by
    simp [m, Kernel.pop, Kernel.push, Kernel.modify, hidle]
  have ho : OneThread s.current s m := ((OneThread.modify s s.current _).trans
    (OneThread.modify s.pop s.current _)).trans (OneThread.modify _ s.current _)
  change QueueInv none m
  refine h.off ho ?_ ?_ ?_ ?_ rfl ?_
  · rw [hself]
    simp
  · intro t ht
    rw [hself] at ht
    simp at ht
  · rw [hself]
    exact Nat.zero_le 1
  · rw [hself]
    exact fun _ => ⟨rfl, by simp, by simp⟩
  · refine fun q => Or.inr ⟨?_, .refl _⟩
    rw [Kernel.place, hself]
    simp [waitPlace]

/-- The thread that the running thread is about to unblock directly. -/
def Kernel.unblocks (s : Kernel) : Option Tid :=
  match s.cur.todo.head? with
  | some (.unblock t) => some t
  | _ => none

/-- The running thread calls `thread_unblock` itself only on a thread that called `thread_block`
itself. -/
def UnblocksBlocked (s : Kernel) (i : Input) : Prop :=
  i = .run → ∀ t ∈ s.unblocks, (s.thread t).todo.head? = some .unblocked

instance (s : Kernel) (i : Input) : Decidable (UnblocksBlocked s i) := by
  unfold UnblocksBlocked
  infer_instance

private theorem QueueInv.admissible {s : Kernel} (h : QueueInv (some s.current) s) {a : Action}
    {rest : List Action} (ha : s.cur.todo = a :: rest) (hu : UnblocksBlocked s .run) :
    Admissible s.pop a := by
  have hrest : s.pop.cur.todo = rest := by
    have hcur : (s.thread s.current).todo = a :: rest := ha
    simp [Kernel.cur, Kernel.pop, Kernel.modify, hcur]
  have hother : ∀ t, t ≠ s.current → s.pop.thread t = s.thread t := by
    intro t ht
    simp [Kernel.pop, Kernel.modify, ht]
  have hne : ∀ t, (s.thread t).status = .blocked → t ≠ s.current := by
    rintro t hb rfl
    rw [(h.running s.current).mpr rfl] at hb
    cases hb
  have honce : a.creates = true → rest.countP Action.creates = 0 := by
    intro hc
    have hle := h.once s.current
    rw [show (s.thread s.current).todo = a :: rest from ha, List.countP_cons_of_pos hc] at hle
    exact Nat.le_zero.mp (Nat.le_of_succ_le_succ hle)
  cases a with
  | startThread t =>
    have hb : s.Newborn s.current t :=
      h.born s.current t (show _ ∈ s.cur.todo from ha ▸ List.mem_cons_self)
    refine ⟨?_, ?_⟩
    · rw [Kernel.Newborn, hother t (hne t hb.1)]
      exact hb
    · intro u hm
      by_cases huc : u = s.current
      · subst huc
        change _ ∈ s.pop.cur.todo at hm
        rw [hrest] at hm
        exact List.countP_eq_zero.mp (honce rfl) _ hm rfl
      · -- the new thread knows its creator, so nobody else can be about to start it
        rw [hother u huc] at hm
        have hcode := (h.born u t hm).2
        rw [hb.2] at hcode
        cases hcode
        exact huc rfl
  | takeTid p =>
    rw [Admissible, hrest]
    exact honce rfl
  | unblock t =>
    have hhead := hu rfl t (by simp [Kernel.unblocks, ha])
    by_cases htc : t = s.current
    · subst htc
      rw [show (s.thread s.current).todo = _ from ha] at hhead
      cases hhead
    · rw [Admissible, hother t htc]
      exact hhead
  | _ => exact trivial

theorem QueueInv.step {s s' : Kernel} {i : Input} (h : QueueInv (some s.current) s)
    (hu : UnblocksBlocked s i) (hs : step s i = some s') : QueueInv (some s'.current) s' := by
  cases i with
  | op o =>
    obtain ⟨ho, rfl⟩ := step_op hs
    refine h.pushOnce ?_ o.code ?_ ?_
    · intro hi
      have hidle := h.idleTodo
      rw [← hi, show (s.thread s.current).todo = [] from ho.1] at hidle
      cases hidle
    · intro t
      cases o <;> simp [Op.code]
    · rw [ho.1]
      cases o <;> simp [Op.code, Action.creates]
  | run =>
    obtain ⟨a, rest, ha, hs⟩ := step_run hs
    by_cases hi : s.current = s.idleThread
    · have hidle : s.cur.todo = [.idle] := by
        rw [Kernel.cur, hi, h.idleTodo]
      rw [hidle] at ha
      cases ha
      cases hs
      exact h.idle hi
    · exact QueueInv.exec (s := s.pop) (h.pop hi) hi (h.admissible ha hu) hs
  | tick =>
    obtain ⟨-, rfl⟩ := step_tick hs
    exact h.timerInterrupt

theorem queueInv_threadStart (v : Nat → Nat) : QueueInv (some mainThread) (threadStart v) where
  placed := by
    refine ⟨fun q t => ?_, fun q => ?_⟩
    · have hq : (threadStart v).queue q = [] := by
        rcases q with _ | _ | (_ | _ | _) <;> rfl
      have hp : (threadStart v).place t = none := by
        by_cases h1 : t = mainThread
        · subst h1
          rfl
        by_cases h2 : t = idleTid
        · subst h2
          rfl
        simp [Kernel.place, threadStart, h1, h2, initThread]
      simp [hq, hp]
    · rcases q with _ | _ | (_ | _ | _) <;> exact List.nodup_nil
  running t := by
    simp only [threadStart]
    split_ifs with h1 h2
    · simp [initThread, h1]
    · simp [initThread, h2, mainThread, idleTid]
    · simp [initThread, Ne.symm h1]
  idleTodo := rfl
  idleLive := ⟨by rintro ⟨⟩, by rintro ⟨⟩⟩
  born u t ht := by
    simp only [threadStart] at ht
    split_ifs at ht <;> simp [initThread] at ht
  once u := by
    simp only [threadStart]
    split_ifs <;> exact Nat.zero_le 1
  fresh t ht := by
    have ht : 3 ≤ t := ht
    have h1 : t ≠ mainThread := by
      rintro rfl
      exact absurd ht (by decide)
    have h2 : t ≠ idleTid := by
      rintro rfl
      exact absurd ht (by decide)
    simp [threadStart, h1, h2, initThread]
  noFailure := rfl

private theorem queueInv_run {v : Nat → Nat} {is : List Input} {s : Kernel}
    (hr : run step (threadStart v) is = some s)
    (hu : Along step UnblocksBlocked (threadStart v) is) : QueueInv (some s.current) s :=
  run_preserves_along (P := fun s => QueueInv (some s.current) s)
    (fun _ _ _ h hc hs => h.step hc hs) (queueInv_threadStart v) hu hr

namespace Kernel

/-- The list elements of threads are where the status of the threads says, and no assertion about
a status has failed. -/
structure QueuesRight (s : Kernel) : Prop where
  running : ∀ t, (s.thread t).status = .running ↔ t = s.current
  offLists : ∀ q, s.current ∉ s.queue q
  ready : ∀ t, (s.thread t).status = .ready → t ≠ s.idleThread → s.readyList.count t = 1
  blocked : ∀ t, (s.thread t).status = .blocked → t ∉ s.readyList
  oneSemaphore : ∀ j k t, t ∈ (s.sema j).waiters → t ∈ (s.sema k).waiters →
    j = k ∧ (s.sema j).waiters.count t = 1
  sleeping : ∀ t, t ∈ s.sleepingList → (s.thread t).status = .blocked ∧
    (s.thread t).todo.head? = some .slept ∧ s.sleepingList.count t = 1
  noFailure : s.failed = false

end Kernel

theorem QueueInv.right {s : Kernel} (h : QueueInv (some s.current) s) : s.QueuesRight where
  running t := (h.running t).trans ⟨fun ht => (Option.some.inj ht).symm, fun ht => ht ▸ rfl⟩
  offLists := h.placed.notMem (by simp [Kernel.place, (h.running s.current).mpr rfl])
  ready t ht hi := h.placed.count_eq_one (k := .ready) (by simp [Kernel.place, ht, hi])
  blocked t ht hm := by
    have hp := (h.placed.mem_iff .ready t).mp hm
    rw [Kernel.place, ht] at hp
    exact QueueInv.waitPlace_ne_ready _ hp
  oneSemaphore j k t hj hk := by
    have hjk := h.placed.unique (j := .waiters j) (k := .waiters k) hj hk
    exact ⟨Queue.waiters.inj hjk, List.count_eq_one_of_mem (h.placed.nodup (.waiters j)) hj⟩
  sleeping t ht := by
    have hp := (h.placed.mem_iff .sleeping t).mp ht
    have hb := QueueInv.blocked_of_place hp (by simp)
    refine ⟨hb, ?_, List.count_eq_one_of_mem (h.placed.nodup .sleeping) ht⟩
    rw [Kernel.place, hb] at hp
    exact QueueInv.head_of_sleeping hp
  noFailure := h.noFailure

/-- Whatever the threads and the timer do, the queues hold the threads they should, provided
`thread_unblock` is called directly only on threads that called `thread_block` directly. -/
theorem queues_right {v : Nat → Nat} {is : List Input} {s : Kernel}
    (hr : run step (threadStart v) is = some s)
    (hu : Along step UnblocksBlocked (threadStart v) is) : s.QueuesRight :=
  (queueInv_run hr hu).right

/-- A thread of higher priority blocks itself; its creator unblocks it directly and yields. -/
theorem queues_right_unblocked : ∃ s,
    run step (threadStart fun _ => 0) (.op (.threadCreate 40) :: List.replicate 11 .run ++
      [.op .threadBlock, .run, .op (.threadUnblock 3), .run, .op .threadYield, .run]) = some s ∧
      s.current = 3 ∧ s.QueuesRight := by
  obtain ⟨s, hs, hp⟩ := run_reaches step (threadStart fun _ => 0) (.op (.threadCreate 40) ::
      List.replicate 11 .run ++
      [.op .threadBlock, .run, .op (.threadUnblock 3), .run, .op .threadYield, .run])
    (fun s => s.current == 3) (by decide +kernel)
  exact ⟨s, hs, beq_iff_eq.mp hp, queues_right hs (by decide +kernel)⟩

/-- A thread of higher priority blocks in a down; its creator unblocks it directly and yields. -/
def unblockWaiter : List Input :=
  .op (.threadCreate 40) :: List.replicate 11 .run ++
    [.op (.semaDown 0), .run, .op (.threadUnblock 3), .run, .op .threadYield, .run]

/-- A thread that is unblocked directly while it waits for a semaphore runs while its list element
is on the waiters list. -/
theorem unblocked_waiter_keeps_element : ∃ s,
    run step (threadStart fun _ => 0) unblockWaiter = some s ∧ ¬ s.QueuesRight := by
  obtain ⟨s, hs, hp⟩ := run_reaches step (threadStart fun _ => 0) unblockWaiter
    (fun s => decide (s.current ∈ s.queue (.waiters (.sema 0)))) (by decide +kernel)
  exact ⟨s, hs, fun hq => hq.offLists _ (of_decide_eq_true hp)⟩

end Pintos.Threads
