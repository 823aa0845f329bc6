import Pintos.Threads.Queues

/-!
# The code still to be run

What each piece of code leaves for the running thread to go on with, and the shape that the code
of every thread has: only its first piece can be in the middle of an operation.
-/

namespace Pintos.Threads

open Base

/-- The code that a piece of code puts before the rest. -/
def Action.Next : Action → List Action → Prop
  | semaDown k, as | semaRetest k, as => as = [] ∨ as = [.semaRetest k]
  | semaUp _, as => as = [.semaYield]
  | lockAcquire l, as | lockRetest l, as => as = [] ∨ as = [.lockRetest l]
  | lockTryAcquire l, as => as = [] ∨ as = [.tryHolder l]
  | tryHolder l, as => as = [.tryInsert l]
  | lockRelease l, as => as = [.releaseDonated l]
  | releaseDonated l, as => as = [.releaseHolder l]
  | releaseHolder l, as => as = [.releaseSema l]
  | releaseSema _, as => as = [.semaYield, .releasePriority]
  | releasePriority, as | setPriority _, as => as = [] ∨ ∃ old, as = [.recheck old]
  | takeTid _, as => ∃ t, as = [.lockRelease tidLock, .startThread t]
  | startThread t, as => as = [.yieldIfHigher t]
  | condWait _ l, as => ∃ w, as = [.lockRelease l, .semaDown (.cond w), .lockAcquire l]
  | condSignal _ _, as => as = [] ∨ as = [.semaYield]
  | sleep _, as => as = [] ∨ as = [.slept]
  | block, as => as = [.unblocked]
  | idle, as => as = [.idle]
  | _, as => as = []

/-- The code that stands behind other code. -/
def Action.deferred : Action → Bool
  | semaDown (.cond _) | lockAcquire _ | startThread _ | releasePriority => true
  | takeTid n => decide (PriorityInRange n)
  | _ => false

/-- The semaphores that are downed and upped by name are not those of locks, and the priorities of
new threads are in range. -/
def Action.proper : Action → Bool
  | semaDown (.lock _) | semaRetest (.lock _) | semaTryDown (.lock _) | semaUp (.lock _) => false
  | takeTid n => decide (PriorityInRange n)
  | _ => true

private theorem Action.proper_of_deferred {a : Action} (h : a.deferred = true) :
    a.proper = true := by
  cases a with
  | semaDown k => cases k <;> first | rfl | cases h
  | takeTid n => exact h
  | _ => first | rfl | cases h

/-- The running thread has run a piece of code: it goes on with `as`, the others with what they
had, and a thread that was made with its beginning. -/
structure Continues (s m : Kernel) (as : List Action) : Prop where
  current : (m.thread s.current).todo = as ++ (s.thread s.current).todo
  other : ∀ t, t ≠ s.current → (m.thread t).todo = (s.thread t).todo ∨
    (t = s.nextTid ∧ (m.thread t).todo = [.kernelThread s.current])

namespace Continues

variable {s m : Kernel}

theorem of_sameCode (h : SameCode s m) : Continues s m [] where
  current := by rw [h.todo, List.nil_append]
  other t _ := Or.inl (h.todo t)

theorem push (h : SameCode s m) (as : List Action) : Continues s (m.push as) as where
  current := by
    simp [Kernel.push, Kernel.modify, h.current, h.todo]
  other t ht := by
    refine Or.inl ?_
    simp [Kernel.push, Kernel.modify, h.current, ht, h.todo]

theorem moved {m' : Kernel} {as : List Action} (h : Continues s m as) (hm : Moved m m') :
    Continues s m' as where
  current := (hm.todo _).trans h.current
  other t ht := by
    rw [hm.todo]
    exact h.other t ht

end Continues

theorem SameCode.takeLock (s : Kernel) (l : LockId) : SameCode s (s.takeLock l) := by
  unfold Kernel.takeLock
  refine SameCode.trans ?_ (SameCode.modify _ s.current _ fun _ => ⟨rfl, rfl⟩)
  exact { SameCode.refl s with }

theorem SameCode.semaTryDown (s : Kernel) (k : SemaId) : SameCode s (s.semaTryDown k) := by
  unfold Kernel.semaTryDown
  split
  · exact SameCode.refl s
  · exact { SameCode.refl s with }

theorem sema_donate (s : Kernel) (l : LockId) : (s.donate l).sema = s.sema :=
  Kernel.donate_induct (P := fun m => m.sema = s.sema) (fun _ _ _ h => h) (fun _ _ _ h => h) rfl

private theorem continues_acquireEffect {s e : Kernel} (h : SameCode s e) (l : LockId) :
    ∃ as, (as = [] ∨ as = [.lockRetest l]) ∧ Continues s (e.acquireEffect l) as := by
  unfold Kernel.acquireEffect
  split
  · exact ⟨_, Or.inr rfl, Continues.push h _⟩
  · exact ⟨_, Or.inl rfl, Continues.of_sameCode (h.trans (SameCode.takeLock e l))⟩

private theorem continues_semaDownEffect (s : Kernel) (k : SemaId) :
    ∃ as, (as = [] ∨ as = [.semaRetest k]) ∧ Continues s (s.semaDownEffect k) as := by
  unfold Kernel.semaDownEffect
  split
  · exact ⟨_, Or.inr rfl, Continues.push (SameCode.refl s) _⟩
  · exact ⟨_, Or.inl rfl, Continues.of_sameCode { SameCode.refl s with }⟩

private theorem continues_setPriorityEffect (s : Kernel) (n : Int) :
    ∃ as, (as = [] ∨ ∃ old, as = [.recheck old]) ∧ Continues s (s.setPriorityEffect n) as := by
  have hp : SameCode s (s.modify s.current fun th =>
      { th with basePriority := n, priority := Kernel.newPriority th n }) :=
    SameCode.modify s s.current _ fun _ => ⟨rfl, rfl⟩
  unfold Kernel.setPriorityEffect
  dsimp only
  split
  · exact ⟨_, Or.inr ⟨_, rfl⟩, Continues.push hp _⟩
  · exact ⟨_, Or.inl rfl, Continues.of_sameCode hp⟩

private theorem continues_takeTid (s : Kernel) (hn : s.current ≠ s.nextTid) (p : Int) :
    Continues s (s.takeTid p) [.lockRelease tidLock, .startThread s.nextTid] where
  current := by simp [Kernel.takeTid, Kernel.push, Kernel.modify, hn]
  other t ht := by
    by_cases htn : t = s.nextTid
    · subst htn
      exact Or.inr ⟨rfl, by simp [Kernel.takeTid, Kernel.push, Kernel.modify, ht, initThread]⟩
    · exact Or.inl (by simp [Kernel.takeTid, Kernel.push, Kernel.modify, ht, htn])

theorem effect_continues {s m : Kernel} {a : Action} (hn : s.current ≠ s.nextTid)
    (h : s.effect a = some m) : ∃ as, a.Next as ∧ Continues s m as := by
  have hrefl : Continues s s [] := Continues.of_sameCode (SameCode.refl s)
  cases a with
  | semaDown k | semaRetest k =>
    cases h
    exact continues_semaDownEffect s k
  | semaTryDown k =>
    cases h
    exact ⟨_, rfl, Continues.of_sameCode (SameCode.semaTryDown s k)⟩
  | semaUp k =>
    cases h
    exact ⟨_, rfl, { Continues.push (SameCode.refl s) _ with }⟩
  | lockAcquire l =>
    simp only [Kernel.effect] at h
    split at h
    · cases h
    · cases h
      exact continues_acquireEffect (SameCode.donate s l) l
  | lockRetest l =>
    cases h
    exact continues_acquireEffect (SameCode.refl s) l
  | lockTryAcquire l =>
    simp only [Kernel.effect, Kernel.lockTryAcquire] at h
    split at h
    · cases h
    · split at h
      · cases h
        exact ⟨_, Or.inl rfl, hrefl⟩
      · cases h
        exact ⟨_, Or.inr rfl, Continues.push (SameCode.semaTryDown s _) _⟩
  | tryHolder l | releaseHolder l | releaseSema l =>
    cases h
    exact ⟨_, rfl, { Continues.push (SameCode.refl s) _ with }⟩
  | tryInsert l =>
    cases h
    refine ⟨_, rfl, Continues.of_sameCode ?_⟩
    refine SameCode.trans ?_ (SameCode.modify _ s.current _ fun _ => ⟨rfl, rfl⟩)
    exact { SameCode.refl s with }
  | lockRelease l =>
    simp only [Kernel.effect, Kernel.lockRelease] at h
    split at h
    · cases h
      refine ⟨_, rfl, Continues.push ?_ _⟩
      refine SameCode.trans ?_ (SameCode.modify _ s.current _ fun _ => ⟨rfl, rfl⟩)
      exact { SameCode.refl s with }
    · cases h
  | releaseDonated l =>
    cases h
    refine ⟨_, rfl, Continues.push ?_ _⟩
    exact SameCode.modify s s.current _ fun _ => ⟨rfl, rfl⟩
  | releasePriority =>
    cases h
    exact continues_setPriorityEffect s _
  | setPriority n =>
    cases h
    exact continues_setPriorityEffect s n
  | takeTid p =>
    cases h
    exact ⟨_, ⟨_, rfl⟩, continues_takeTid s hn p⟩
  | startThread t =>
    cases h
    exact ⟨_, rfl, Continues.push (SameCode.refl s) _⟩
  | condWait c l =>
    simp only [Kernel.effect, Kernel.condWait] at h
    split at h
    · cases h
      exact ⟨_, ⟨_, rfl⟩, { Continues.push (SameCode.refl s) _ with }⟩
    · cases h
  | condSignal c l =>
    simp only [Kernel.effect] at h
    split at h
    · split at h
      · cases h
        exact ⟨_, Or.inl rfl, hrefl⟩
      · cases h
        exact ⟨_, Or.inr rfl, { Continues.push (SameCode.refl s) _ with }⟩
    · cases h
  | sleep n =>
    simp only [Kernel.effect] at h
    split at h
    · cases h
      exact ⟨_, Or.inl rfl, hrefl⟩
    · cases h
      refine ⟨_, Or.inr rfl, Continues.push ?_ _⟩
      exact SameCode.modify s s.current _ fun _ => ⟨rfl, rfl⟩
  | block | idle =>
    cases h
    exact ⟨_, rfl, Continues.push (SameCode.refl s) _⟩
  | unblock t =>
    simp only [Kernel.effect] at h
    split at h
    · cases h
      exact ⟨_, rfl, hrefl⟩
    · cases h
  | _ =>
    cases h
    exact ⟨_, rfl, hrefl⟩

/-- Behind the first piece of a thread's code stand only pieces that begin something. -/
structure CodeInv (s : Kernel) : Prop where
  head : ∀ t, ∀ a ∈ (s.thread t).todo, a.proper = true
  tail : ∀ t, ∀ a ∈ (s.thread t).todo.tail, a.deferred = true

private theorem Action.Next.shape {a : Action} {as : List Action} (h : a.Next as)
    (ha : a.proper = true) :
    (∀ b ∈ as, b.proper = true) ∧ ∀ b ∈ as.tail, b.deferred = true := by
  cases a with
  | semaDown k | semaRetest k => cases k <;> rcases h with rfl | rfl <;> simp_all [Action.proper]
  | _ => grind [Action.Next, Action.proper, Action.deferred]

namespace CodeInv

variable {s s' m : Kernel} {a : Action}

theorem of_todo (h : CodeInv s) (ht : ∀ t, (s'.thread t).todo = (s.thread t).todo) :
    CodeInv s' where
  head t := by
    rw [ht]
    exact h.head t
  tail t := by
    rw [ht]
    exact h.tail t

private theorem moved (h : CodeInv s) (hm : Moved s s') : CodeInv s' := h.of_todo hm.todo

/-- Once its first piece has been taken off, a thread's code begins something. -/
theorem pop_deferred (h : CodeInv s) : ∀ a ∈ s.pop.cur.todo, a.deferred = true := by
  have hp : s.pop.cur.todo = (s.thread s.current).todo.tail := by
    simp [Kernel.cur, Kernel.pop, Kernel.modify]
  rw [hp]
  exact h.tail s.current

private theorem pop (h : CodeInv s) : CodeInv s.pop where
  head t b hb := by
    by_cases ht : t = s.current
    · subst ht
      exact Action.proper_of_deferred (h.pop_deferred b hb)
    · simp only [Kernel.pop, Kernel.modify, Function.update_of_ne ht] at hb
      exact h.head t b hb
  tail t b hb := by
    by_cases ht : t = s.current
    · subst ht
      exact h.pop_deferred b (List.mem_of_mem_tail hb)
    · simp only [Kernel.pop, Kernel.modify, Function.update_of_ne ht] at hb
      exact h.tail t b hb

private theorem continues {as : List Action} (h : CodeInv s)
    (hd : ∀ a ∈ s.cur.todo, a.deferred = true) (hp : ∀ a ∈ as, a.proper = true)
    (ht : ∀ a ∈ as.tail, a.deferred = true) (hc : Continues s m as) : CodeInv m where
  head t b hb := by
    by_cases htc : t = s.current
    · subst htc
      rw [hc.current, List.mem_append] at hb
      exact hb.elim (hp b) fun hm => Action.proper_of_deferred (hd b hm)
    · rcases hc.other t htc with he | ⟨_, he⟩
      · exact h.head t b (he ▸ hb)
      · rw [he, List.mem_singleton] at hb
        exact hb ▸ rfl
  tail t b hb := by
    by_cases htc : t = s.current
    · subst htc
      rw [hc.current] at hb
      cases as with
      | nil => exact hd b (List.mem_of_mem_tail hb)
      | cons c as =>
        rw [List.cons_append, List.tail_cons, List.mem_append] at hb
        exact hb.elim (ht b) (hd b)
    · rcases hc.other t htc with he | ⟨_, he⟩
      · exact h.tail t b (he ▸ hb)
      · rw [he] at hb
        cases hb

private theorem step {i : Input} (h : CodeInv s) (hn : s.current ≠ s.nextTid)
    (hs : step s i = some s') : CodeInv s' := by
  cases i with
  | op o =>
    obtain ⟨ho, rfl⟩ := step_op hs
    have hc : Continues s (s.push o.code) o.code := Continues.push (SameCode.refl s) _
    refine h.continues ?_ ?_ ?_ hc
    · rw [ho.1]
      simp
    · have hrange := ho.2
      cases o <;> simp_all [Op.code, Op.InRange, Action.proper]
    · have hrange := ho.2
      cases o <;> simp_all [Op.code, Op.InRange, Action.deferred]
  | run =>
    obtain ⟨a, rest, ha, hs⟩ := step_run hs
    obtain ⟨m, hm, hmoved⟩ := Kernel.exec_effect hs
    obtain ⟨as, has, hc⟩ := effect_continues (s := s.pop) hn hm
    have hproper : a.proper = true :=
      h.head s.current a (show a ∈ s.cur.todo from ha ▸ List.mem_cons_self)
    obtain ⟨hp, ht⟩ := has.shape hproper
    exact (h.pop.continues h.pop_deferred hp ht hc).moved hmoved
  | tick =>
    obtain ⟨-, rfl⟩ := step_tick hs
    exact h.moved (Moved.timerInterrupt s)

end CodeInv

private theorem codeInv_threadStart (v : Nat → Nat) : CodeInv (threadStart v) := by
  refine ⟨fun t a ha => ?_, fun t a ha => ?_⟩
  all_goals
    simp only [threadStart] at ha
    split_ifs at ha <;> simp_all [initThread, Action.proper]

/-- The queues are right and so is the code of every thread. -/
structure SystemInv (s : Kernel) : Prop where
  queues : QueueInv (some s.current) s
  code : CodeInv s

theorem SystemInv.step {s s' : Kernel} {i : Input} (h : SystemInv s) (hu : UnblocksBlocked s i)
    (hs : step s i = some s') : SystemInv s' :=
  ⟨h.queues.step hu hs, h.code.step (Nat.ne_of_lt h.queues.current_lt) hs⟩

theorem systemInv_threadStart (v : Nat → Nat) : SystemInv (threadStart v) :=
  ⟨queueInv_threadStart v, codeInv_threadStart v⟩

/-- The running thread of `s` ran the piece of code `a`, with the effect that led to `m`, and goes
on with `as`. -/
structure Ran (s : Kernel) (a : Action) (as : List Action) (m : Kernel) : Prop where
  head : s.cur.todo.head? = some a
  proper : a.proper = true
  next : a.Next as
  deferred : ∀ b ∈ s.pop.cur.todo, b.deferred = true
  fresh : (s.thread s.nextTid).todo = []
  ne : s.current ≠ s.nextTid
  effect : s.pop.effect a = some m
  continues : Continues s.pop m as

theorem SystemInv.ran {s s' : Kernel} (h : SystemInv s) (hs : Threads.step s .run = some s') :
    ∃ a as m, Ran s a as m ∧ Moved m s' ∧ s.pop.exec a = some s' := by
  obtain ⟨a, rest, ha, hs⟩ := step_run hs
  have hne : s.current ≠ s.nextTid := Nat.ne_of_lt h.queues.current_lt
  obtain ⟨m, hm, hmoved⟩ := Kernel.exec_effect hs
  obtain ⟨as, has, hc⟩ := effect_continues (s := s.pop) hne hm
  refine ⟨a, as, m, ?_, hmoved, hs⟩
  exact {
    head := by
      rw [ha]
      rfl
    proper := h.code.head s.current a (show a ∈ s.cur.todo from ha ▸ List.mem_cons_self)
    next := has
    deferred := h.code.pop_deferred
    fresh := (h.queues.fresh s.nextTid le_rfl).2
    ne := hne
    effect := hm
    continues := hc }

/-- What beginning an operation, running a piece of code and moving threads between the queues
preserve, every step preserves. -/
theorem SystemInv.step_preserves {P : Kernel → Prop} {s s' : Kernel} {i : Input} (hi : SystemInv s)
    (h : P s) (hbegin : ∀ o : Op, s.cur.todo = [] → P (s.push o.code))
    (hran : ∀ {a as m}, i = .run → Ran s a as m → P m)
    (hmoved : ∀ {m m' : Kernel}, P m → Moved m m' → P m') (hs : Threads.step s i = some s') :
    P s' := by
  cases i with
  | op o =>
    obtain ⟨ho, rfl⟩ := step_op hs
    exact hbegin o ho.1
  | run =>
    obtain ⟨a, as, m, hr, hm, -⟩ := hi.ran hs
    exact hmoved (hran rfl hr) hm
  | tick =>
    obtain ⟨-, rfl⟩ := step_tick hs
    exact hmoved h (Moved.timerInterrupt s)

namespace Ran

variable {s m : Kernel} {a : Action} {as : List Action}

theorem todo_current (h : Ran s a as m) :
    ∃ rest, (s.thread s.current).todo = a :: rest ∧
      (m.thread s.current).todo = as ++ rest ∧ ∀ b ∈ rest, b.deferred = true := by
  have hhead : (s.thread s.current).todo.head? = some a := h.head
  have hpop : s.pop.cur.todo = (s.thread s.current).todo.tail := by
    simp [Kernel.cur, Kernel.pop, Kernel.modify]
  have hd := h.deferred
  have hc := h.continues.current
  cases ht : (s.thread s.current).todo with
  | nil =>
    rw [ht] at hhead
    cases hhead
  | cons b rest =>
    rw [ht] at hhead hpop
    cases hhead
    rw [List.tail_cons] at hpop
    rw [hpop] at hd
    refine ⟨rest, rfl, ?_, hd⟩
    rw [show s.pop.current = s.current from rfl] at hc
    rw [hc]
    exact congrArg (as ++ ·) hpop

/-- The first piece of another thread's code is what it was, or the beginning of a new thread. -/
theorem head_other (h : Ran s a as m) {t : Tid} (ht : t ≠ s.current) :
    (m.thread t).todo = (s.thread t).todo ∨
      t = s.nextTid ∧ (s.thread t).todo = [] ∧ (m.thread t).todo = [.kernelThread s.current] := by
  have hpop : s.pop.thread t = s.thread t := by simp [Kernel.pop, Kernel.modify, ht]
  rcases h.continues.other t ht with he | ⟨rfl, he⟩
  · exact Or.inl (he.trans (congrArg Thread.todo hpop))
  · exact Or.inr ⟨rfl, h.fresh, he⟩

end Ran

end Pintos.Threads
