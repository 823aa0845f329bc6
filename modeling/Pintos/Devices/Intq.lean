import Pintos.Base.RingBuffer
import Pintos.Base.Run

/-!
# Interrupt queues

An interrupt queue is shared by threads and interrupt handlers. Its functions run with interrupts
off, so others run only where a thread in one of them gives up the processor: in `lock_acquire`, in
`thread_block`, and in the yield at the end of `lock_release`. A failed assertion stops the system.
Source `devices/intq.c`, `devices/intq.h:21–36`.
-/

namespace Pintos.Devices.Intq

open Pintos.Base

abbrev Tid := Nat

/-- Queue buffer size, `devices/intq.h:22`. -/
def INTQ_BUFSIZE : Nat := 64

/-- What the two waiting threads of a queue wait for. -/
inductive Condition
  | notEmpty
  | notFull
  deriving DecidableEq

inductive Call
  | getc
  | putc (byte : UInt8)
  deriving DecidableEq

/-- The condition that a call waits for. -/
def Call.needs : Call → Condition
  | getc => .notEmpty
  | putc _ => .notFull

/-- The condition that a call signals. -/
def Call.makes : Call → Condition
  | getc => .notFull
  | putc _ => .notEmpty

/-- Where a thread is: outside, before the test of the loop, in `lock_acquire`, blocked in `wait`,
or unblocked and before `lock_release`. -/
inductive Place
  | idle
  | testing (c : Call)
  | locking (c : Call)
  | asleep (c : Call)
  | woken (c : Call)
  deriving DecidableEq

/-- A `struct intq`, and the places of the threads. -/
structure State where
  ring : Ring UInt8 INTQ_BUFSIZE
  lock : Option Tid
  waiter : Condition → Option Tid
  place : Tid → Place
  failed : Bool

/-- `intq_init`, `devices/intq.c:10–16`; the buffer may have any bytes. -/
def intqInit (buf : Nat → UInt8) : State where
  ring := .init buf
  lock := none
  waiter _ := none
  place _ := .idle
  failed := false

/-- The negations of `intq_empty` and `intq_full`, `devices/intq.c:18–32`. -/
def met (r : Ring UInt8 INTQ_BUFSIZE) : Condition → Bool
  | .notEmpty => !r.isEmpty
  | .notFull => !r.isFull

namespace State

def fail (s : State) : State := { s with failed := true }

def goto (s : State) (t : Tid) (p : Place) : State :=
  { s with place := Function.update s.place t p }

@[grind =] theorem place_goto (s : State) (t u : Tid) (p : Place) :
    (s.goto t p).place u = if u = t then p else s.place u :=
  Function.update_apply ..

/-- `wait`, `devices/intq.c:85–97`. -/
def wait (s : State) (t : Tid) (c : Call) : State :=
  if met s.ring c.needs then s.fail
  else { s with waiter := Function.update s.waiter c.needs (some t) }.goto t (.asleep c)

/-- `signal`, `devices/intq.c:103–114`; `thread_unblock` asserts that the thread is blocked. -/
def signal (s : State) (k : Condition) : State :=
  if met s.ring k then
    match s.waiter k with
    | none => s
    | some t =>
      match s.place t with
      | .asleep c => { s with waiter := Function.update s.waiter k none }.goto t (.woken c)
      | _ => s.fail
  else s.fail

/-- The byte moves, `devices/intq.c:50–51, 72–73`. -/
def move (s : State) : Call → State
  | .getc => { s with ring := s.ring.get }
  | .putc b => { s with ring := s.ring.put b }

/-- `intq_getc` and `intq_putc` behind the loop. -/
def transfer (s : State) (c : Call) : State := (s.move c).signal c.makes

/-- The body of the loop from where the thread gets the lock to where it sleeps. -/
def enter (s : State) (t : Tid) (c : Call) : State := { s with lock := some t }.wait t c

/-- The body of the loop; a thread that finds the lock taken sleeps in `lock_acquire`. -/
def lockAcquire (s : State) (t : Tid) (c : Call) : State :=
  match s.lock with
  | none => s.enter t c
  | some h => if h = t then s.fail else s.goto t (.locking c)

/-- A thread in a call goes on; none if it cannot. -/
def runThread (s : State) (t : Tid) : Option State :=
  match s.place t with
  | .idle | .asleep _ => none
  | .testing c =>
    if met s.ring c.needs then some ((s.transfer c).goto t .idle) else some (s.lockAcquire t c)
  | .locking c =>
    match s.lock with
    | none => some (s.enter t c)
    | some _ => none
  | .woken c =>
    if s.lock = some t then some ({ s with lock := none }.goto t (.testing c)) else some s.fail

end State

inductive Input
  | call (t : Tid) (c : Call)
  | run (t : Tid)
  | interrupt (c : Call)

/-- A thread enters a call or goes on in it, or a handler makes a call, in which it cannot wait. -/
def step (s : State) (i : Input) : Option State :=
  if s.failed then none
  else match i with
    | .call t c => if s.place t = .idle then some (s.goto t (.testing c)) else none
    | .run t => s.runThread t
    | .interrupt c => some (if met s.ring c.needs then s.transfer c else s.fail)

variable {s m : State} {t : Tid} {c : Call} {i : Input} {is : List Input} {buf : Nat → UInt8}

/-! ## The bytes -/

/-- The bytes put are those returned and then those in the buffer. -/
def Fifo (s : State) : Prop := s.ring.InOrder

private theorem Fifo.enter (h : Fifo s) (t : Tid) (c : Call) : Fifo (s.enter t c) := by
  unfold State.enter State.wait
  split <;> exact h

private theorem Fifo.signal (h : Fifo s) (k : Condition) : Fifo (s.signal k) := by
  unfold State.signal
  split
  · split
    · exact h
    · split <;> exact h
  · exact h

/-- A call whose condition holds moves its byte, and the condition that it signals holds then. -/
private theorem Fifo.move (h : Fifo s) (hm : met s.ring c.needs = true) :
    Fifo (s.move c) ∧ met (s.move c).ring c.makes = true := by
  cases c with
  | getc =>
    obtain ⟨hc, hf⟩ := h.get (by simpa [met, Call.needs] using hm)
    exact ⟨hc, congrArg not hf⟩
  | putc b =>
    obtain ⟨hc, he⟩ := h.put (by simpa [met, Call.needs] using hm) b
    exact ⟨hc, congrArg not he⟩

/-! ## Waiting -/

/-- Whether a thread there has the lock of the queue. -/
def Place.locks : Place → Bool
  | asleep _ | woken _ => true
  | _ => false

/-- The condition of which a thread there is the waiter. -/
def Place.awaits : Place → Option Condition
  | asleep c => some c.needs
  | _ => none

private theorem Place.locks_of_awaits {p : Place} {k : Condition} (h : p.awaits = some k) :
    p.locks = true := by
  cases p <;> first | rfl | cases h

/-- At most the thread `t` has the lock, the lock and the waiters are what its place says, and it
does not sleep for a condition that holds. -/
structure Inv (s : State) (t : Tid) : Prop where
  others : ∀ u, u ≠ t → (s.place u).locks = false
  lock : s.lock = if (s.place t).locks then some t else none
  waiter : ∀ k, s.waiter k = if (s.place t).awaits = some k then some t else none
  unmet : ∀ k, (s.place t).awaits = some k → met s.ring k = false

namespace Inv

variable {u : Tid}

/-- Moving to a place where a thread has the same changes nothing. -/
private theorem goto (h : Inv s t) {p p' : Place} (hu : s.place u = p) (hl : p'.locks = p.locks)
    (ha : p'.awaits = p.awaits) : Inv (s.goto u p') t where
  others := by grind [Inv]
  lock := by grind [Inv, State.goto]
  waiter := by grind [Inv, State.goto]
  unmet := by grind [Inv, State.goto]

private theorem release (h : Inv s t) (hp : s.place u = .woken c) :
    s.lock = some u ∧ Inv ({ s with lock := none }.goto u (.testing c)) u := by
  have hut : u = t := by grind [Inv, Place.locks]
  refine ⟨by grind [Inv, Place.locks], ?_, ?_, ?_, ?_⟩
  · grind [Inv]
  · grind [Place.locks, State.goto]
  · grind [Inv, Place.awaits, State.goto]
  · grind [Place.awaits]

private theorem enter (h : Inv s t) (hfree : s.lock = none) (hm : met s.ring c.needs = false) :
    Inv (s.enter u c) u ∧ (s.enter u c).failed = s.failed := by
  have hl : ∀ v, (s.place v).locks = false := by grind [Inv]
  have hw : ∀ k, s.waiter k = none := by grind [Inv, Place.locks_of_awaits]
  rw [State.enter, State.wait, if_neg (ne_true_of_eq_false hm)]
  refine ⟨⟨?_, ?_, fun k => ?_, ?_⟩, rfl⟩
  · grind
  · grind [State.goto, Place.locks]
  · by_cases hk : k = c.needs
    · simp [State.goto, Place.awaits, hk]
    · simp [State.goto, Place.awaits, hk, Ne.symm hk, hw]
  · grind [Place.awaits, State.goto]

/-- A call whose condition holds fails no assertion and wakes the thread that sleeps. -/
private theorem transfer (h : Inv s t) (hf : Fifo s) (hm : met s.ring c.needs = true) :
    Inv (s.transfer c) t ∧ (s.transfer c).failed = s.failed ∧
      ∀ v, (s.place v).awaits = none → (s.transfer c).place v = s.place v := by
  obtain ⟨hplace, hwaiter⟩ : (s.move c).place = s.place ∧ (s.move c).waiter = s.waiter := by
    cases c <;> exact ⟨rfl, rfl⟩
  rw [State.transfer, State.signal, if_pos (hf.move hm).2, hwaiter, h.waiter]
  cases hp : s.place t with
  | asleep d =>
    -- the condition that the call needs holds, so it is the other one that `t` waits for
    have hd : d.needs = c.makes := by
      have hun := h.unmet d.needs (by rw [hp]; rfl)
      cases c <;> cases d <;> first | rfl | exact absurd hm (ne_true_of_eq_false hun)
    simp only [Place.awaits, hd, if_true, hplace, hp]
    refine ⟨⟨?_, ?_, fun k => ?_, ?_⟩, by cases c <;> rfl, ?_⟩
    · grind [Inv]
    · have hlock : (s.move c).lock = s.lock := by cases c <;> rfl
      grind [Inv, Place.locks, State.goto]
    · have hk := h.waiter k
      by_cases hc : k = c.makes
      · simp [State.goto, Place.awaits, hc]
      · simp_all [State.goto, Place.awaits, Ne.symm hc]
    · grind [Place.awaits]
    · grind [Place.awaits]
  | _ =>
    simp only [Place.awaits, reduceCtorEq, if_false]
    cases c <;> exact ⟨⟨h.others, h.lock, h.waiter, by grind [State.move, Place.awaits]⟩, rfl,
      fun _ _ => rfl⟩

end Inv

/-- A handler calls only where it need not wait, and a thread that had to wait for the lock gets it
only while its condition does not hold. -/
def Proper (s : State) : Input → Prop
  | .interrupt c => met s.ring c.needs = true
  | .run t => ∀ c, s.place t = .locking c → met s.ring c.needs = false
  | .call _ _ => True

/-- The bytes are in order, and as long as no assertion has failed so are the waiting threads. -/
structure Good (s : State) : Prop where
  fifo : Fifo s
  inv : s.failed = false → ∃ t, Inv s t

private theorem good_of_inv (hf : Fifo m) (hi : Inv m t) (hok : m.failed = false)
    (hp : Proper s i) : Good m ∧ (m.failed = true ↔ ¬ Proper s i) :=
  ⟨⟨hf, fun _ => ⟨t, hi⟩⟩, by simp [hok, hp]⟩

private theorem good_of_fail (hf : Fifo m) (hfail : m.failed = true) (hp : ¬ Proper s i) :
    Good m ∧ (m.failed = true ↔ ¬ Proper s i) :=
  ⟨⟨hf, fun hok => absurd hfail (ne_true_of_eq_false hok)⟩, by simp [hfail, hp]⟩

private theorem Good.runThread (hf : Fifo s) (h : Inv s t) (hok : s.failed = false) {u : Tid}
    (hs : s.runThread u = some m) : Good m ∧ (m.failed = true ↔ ¬ Proper s (.run u)) := by
  unfold State.runThread at hs
  split at hs
  · cases hs
  · cases hs
  · next c hu =>
    have hp : Proper s (.run u) := by simp [Proper, hu]
    split at hs
    · next hm =>
      cases hs
      obtain ⟨hi, hfail, hsame⟩ := h.transfer hf hm
      have hplace := (hsame u (by rw [hu]; rfl)).trans hu
      exact good_of_inv ((hf.move hm).1.signal _) (hi.goto hplace rfl rfl) (hfail.trans hok) hp
    · next hm =>
      cases hs
      unfold State.lockAcquire
      split
      · next hfree =>
        obtain ⟨hi, hfail⟩ := h.enter hfree (Bool.eq_false_of_not_eq_true hm)
        exact good_of_inv (hf.enter u c) hi (hfail.trans hok) hp
      · next v hv =>
        have hvu : v ≠ u := by grind [Inv, Place.locks]
        rw [if_neg hvu]
        exact good_of_inv hf (h.goto hu rfl rfl) hok hp
  · next c hu =>
    split at hs
    · next hfree =>
      cases hs
      cases hm : met s.ring c.needs with
      | false =>
        obtain ⟨hi, hfail⟩ := h.enter hfree hm
        exact good_of_inv (hf.enter u c) hi (hfail.trans hok) (by simp [Proper, hu, hm])
      | true =>
        exact good_of_fail (hf.enter u c) (congrArg State.failed (if_pos hm))
          (by simp [Proper, hu, hm])
    · cases hs
  · next c hu =>
    obtain ⟨hlock, hi⟩ := h.release hu
    rw [if_pos hlock] at hs
    cases hs
    exact good_of_inv hf hi hok (by simp [Proper, hu])

private theorem Good.step (h : Good s) (hs : step s i = some m) :
    Good m ∧ (m.failed = true ↔ ¬ Proper s i) := by
  unfold Intq.step at hs
  split at hs
  · cases hs
  · next hok =>
    rw [Bool.not_eq_true] at hok
    obtain ⟨t, hi⟩ := h.inv hok
    cases i with
    | call u c =>
      simp only [Option.ite_none_right_eq_some, Option.some.injEq] at hs
      obtain ⟨hu, rfl⟩ := hs
      exact good_of_inv h.fifo (hi.goto hu rfl rfl) hok trivial
    | run u => exact Good.runThread h.fifo hi hok hs
    | interrupt c =>
      cases hs
      split
      · next hm =>
        obtain ⟨hi, hfail, -⟩ := hi.transfer h.fifo hm
        exact good_of_inv ((h.fifo.move hm).1.signal _) hi (hfail.trans hok) hm
      · next hm => exact good_of_fail h.fifo rfl hm

private theorem good_init (buf : Nat → UInt8) : Good (intqInit buf) :=
  ⟨Ring.inOrder_init buf (by decide), fun _ => ⟨0, fun _ _ => rfl, rfl, fun _ => rfl, nofun⟩⟩

/-- A thread that sleeps is the waiter of its condition, and the condition does not hold. -/
private theorem Good.asleep (h : Good s) (hok : s.failed = false) (hp : s.place t = .asleep c) :
    met s.ring c.needs = false ∧ s.waiter c.needs = some t := by
  obtain ⟨u, hi⟩ := h.inv hok
  have htu : t = u := by
    by_contra hne
    have hno := hi.others t hne
    rw [hp] at hno
    cases hno
  subst htu
  have ha : (s.place t).awaits = some c.needs := by rw [hp]; rfl
  exact ⟨hi.unmet _ ha, (hi.waiter _).trans (if_pos ha)⟩

private theorem good_run (hr : run step (intqInit buf) is = some s) : Good s :=
  run_preserves (fun _ _ _ h hs => (Good.step h hs).1) (good_init buf) hr

private theorem failed_iff (hr : run step (intqInit buf) is = some s) :
    s.failed = true ↔ ¬ Along step Proper (intqInit buf) is := by
  constructor
  · intro hfail hc
    have hok : Good s ∧ s.failed = false :=
      run_preserves_along (P := fun s => Good s ∧ s.failed = false)
        (fun _ _ _ h hp hs => ⟨(h.1.step hs).1, by simpa [hp] using (h.1.step hs).2⟩)
        ⟨good_init buf, rfl⟩ hc hr
    exact Bool.false_ne_true (hok.2.symm.trans hfail)
  · intro hc
    refine run_reaches_of_not_along (P := Good) (Q := fun s => s.failed = true)
      (fun _ _ _ h hs => (h.step hs).1) (fun _ _ _ h hp hs => (h.step hs).2.mpr hp)
      (fun s i m _ hfail hs => ?_) (good_init buf) hc hr
    simp [step, hfail] at hs

/-- In every interleaving of threads and handlers, the bytes returned are a prefix of the bytes
put, and what follows is in the buffer, in order. Until an assertion fails, a thread that sleeps is
the waiter of its condition, and the condition does not hold: no wake-up is lost. -/
theorem intq_fifo (hr : run step (intqInit buf) is = some s) :
    s.ring.InOrder ∧
      (s.failed = false → ∀ t c, s.place t = .asleep c →
        met s.ring c.needs = false ∧ s.waiter c.needs = some t) := by
  exact ⟨(good_run hr).fifo, fun hok t c hp => (good_run hr).asleep hok hp⟩

/-- A reader of an empty queue sleeps. -/
theorem intq_fifo_reader :
    ∃ s, run step (intqInit fun _ => 0) [.call 1 .getc, .run 1] = some s ∧ s.ring.InOrder ∧
      met s.ring .notEmpty = false ∧ s.waiter .notEmpty = some 1 := by
  have h := @intq_fifo _ [.call 1 .getc, .run 1] (fun _ => 0) rfl
  exact ⟨_, rfl, h.1, h.2 rfl 1 .getc rfl⟩

/-- The assertions of the queue, of its lock and of `thread_unblock` fail exactly where a handler
would have to wait, or a thread gets the lock of the queue when it need not wait any more. -/
theorem intq_fails_iff (hr : run step (intqInit buf) is = some s) :
    s.failed = true ↔ ¬ Along step Proper (intqInit buf) is :=
  failed_iff hr

/-- Two bytes arrive while a reader sleeps and a second one waits for the lock. The first reader
takes one of them, and the second gets the lock with a byte still there. -/
theorem intq_fails_iff_two_readers :
    let is : List Input := [.call 1 .getc, .run 1, .call 2 .getc, .run 2, .interrupt (.putc 7),
      .interrupt (.putc 8), .run 1, .run 1, .run 2]
    ∃ s, run step (intqInit fun _ => 0) is = some s ∧ s.failed = true ∧
      ¬ Along step Proper (intqInit fun _ => 0) is := by
  intro is
  exact ⟨_, rfl, rfl, (@intq_fails_iff _ is (fun _ => 0) rfl).mp rfl⟩

/-- A thread that had to wait for the lock gets it only while its condition does not hold. -/
def WaitsAgain (s : State) : Input → Prop
  | .run t => ∀ c, s.place t = .locking c → met s.ring c.needs = false
  | _ => True

/-- Threads only read, and handlers put bytes only while the queue is not full. -/
def ReadersOnly (s : State) : Input → Prop
  | .call _ c => c = .getc
  | .run _ => True
  | .interrupt c => c ≠ .getc ∧ s.ring.isFull = false

instance (s : State) (i : Input) : Decidable (ReadersOnly s i) := by
  cases i <;> unfold ReadersOnly <;> infer_instance

/-- Any number of readers and a handler that puts bytes. The bytes returned are a prefix of those
put, and an assertion fails exactly if a reader that waited for the lock gets it when there are
bytes. As long as none has failed, no reader sleeps while there are bytes. -/
theorem readers_safe_iff (ho : Along step ReadersOnly (intqInit buf) is)
    (hr : run step (intqInit buf) is = some s) :
    s.ring.InOrder ∧ (s.failed = false ↔ Along step WaitsAgain (intqInit buf) is) ∧
      (s.failed = false → ∀ t, s.place t = .asleep .getc → s.ring.isEmpty = true) := by
  refine ⟨(good_run hr).fifo, ?_, fun hok t hp => ?_⟩
  · rw [← Bool.not_eq_true, failed_iff hr, not_not]
    refine along_congr (fun s i hi => ?_) ho
    cases i with
    | call t c => exact Iff.rfl
    | run t => exact Iff.rfl
    | interrupt c =>
      cases c with
      | getc => exact absurd rfl hi.1
      | putc b => exact iff_of_true (congrArg not hi.2) trivial
  · simpa [met, Call.needs] using ((good_run hr).asleep hok hp).1

/-- With one byte for the two readers the second one sleeps again. -/
theorem readers_safe_iff_one_byte :
    let is : List Input := [.call 1 .getc, .run 1, .call 2 .getc, .run 2, .interrupt (.putc 7),
      .run 1, .run 1, .run 2]
    ∃ s, run step (intqInit fun _ => 0) is = some s ∧ s.failed = false ∧
      s.place 2 = .asleep .getc ∧ s.ring.isEmpty = true ∧
      Along step WaitsAgain (intqInit fun _ => 0) is := by
  intro is
  have ho : Along step ReadersOnly (intqInit fun _ => 0) is := by decide +kernel
  obtain ⟨-, hiff, hasleep⟩ := @readers_safe_iff _ is (fun _ => 0) ho rfl
  exact ⟨_, rfl, rfl, rfl, hasleep rfl 2 rfl, hiff.mp rfl⟩

/-- Two readers, and a handler that puts two bytes into the empty queue: the assertion of `wait`
fails. -/
theorem two_readers_fail :
    let is : List Input := [.call 1 .getc, .run 1, .call 2 .getc, .run 2, .interrupt (.putc 7),
      .interrupt (.putc 8), .run 1, .run 1, .run 2]
    Along step ReadersOnly (intqInit fun _ => 0) is ∧
      ∃ s, run step (intqInit fun _ => 0) is = some s ∧ s.failed = true := by
  intro is
  exact ⟨by decide +kernel, _, rfl, rfl⟩

end Pintos.Devices.Intq
