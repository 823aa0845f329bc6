import Pintos.Threads.Donation

/-!
# Effective priority

When the priority of a thread is the greater of its own and what it has been donated, and the
release of a lock after which it is not.
Source `threads/thread.c:430–456`, `threads/synch.c:262–275, 320–337`.
-/

namespace Pintos.Threads

open Base

/-- What is known from below of a thread's priority: `unsettled` before it computes its donation
anew, `releasing` until it sets its priority. -/
structure CoversDonation (unsettled releasing : Prop) (s : Kernel) (t : Tid) : Prop where
  base : (s.thread t).basePriority ≤ (s.thread t).priority
  settled : ¬ releasing → (s.thread t).donatedPriority ≤ (s.thread t).priority
  released : releasing → ¬ unsettled → (s.thread t).priority = (s.thread t).basePriority →
    (s.thread t).donatedPriority ≤ (s.thread t).basePriority
  removed : unsettled → (s.thread t).priority = (s.thread t).basePriority →
    ∀ l ∈ (s.thread t).locks, (s.lock l).maxPriority ≤ (s.thread t).basePriority

namespace CoversDonation

variable {u r r' : Prop} {s m : Kernel} {t : Tid}

private theorem same (h : CoversDonation u r s t) (hd : SamePriorities s m) :
    CoversDonation u r m t where
  base := by
    rw [hd.basePriority, hd.priority]
    exact h.base
  settled hr := by
    rw [hd.donatedPriority, hd.priority]
    exact h.settled hr
  released := by
    rw [hd.donatedPriority, hd.priority, hd.basePriority]
    exact h.released
  removed := by
    simp only [hd.priority, hd.basePriority, hd.locks, hd.maxPriority]
    exact h.removed

/-- A thread with the greater of the two priorities may begin to release a lock. -/
theorem begin (h : CoversDonation False r s t) (hr : r → r') : CoversDonation False r' s t where
  base := h.base
  settled hn := h.settled fun hr' => hn (hr hr')
  released _ _ he := by
    by_cases hrr : r
    · exact h.released hrr id he
    · exact he ▸ h.settled hrr
  removed := by simp

private theorem of_eq (h : CoversDonation False r s t)
    (hp : (m.thread t).priority = (s.thread t).priority)
    (hb : (m.thread t).basePriority = (s.thread t).basePriority)
    (hd : (m.thread t).donatedPriority = (s.thread t).donatedPriority) :
    CoversDonation False r m t where
  base := by
    rw [hb, hp]
    exact h.base
  settled hr := by
    rw [hd, hp]
    exact h.settled hr
  released := by
    rw [hd, hp, hb]
    exact h.released
  removed := by simp

private theorem raiseThread (h : CoversDonation False r s t) (w : Tid) (p : Int) :
    CoversDonation False r (s.raiseThread w p) t := by
  by_cases hw : t = w
  · subst hw
    have hb := h.base
    refine ⟨?_, fun hr => ?_, fun hr hu => ?_, by simp⟩
    · simp only [Kernel.raiseThread, Kernel.modify, Function.update_self]
      omega
    · have hd := h.settled hr
      simp only [Kernel.raiseThread, Kernel.modify, Function.update_self]
      omega
    · simp only [Kernel.raiseThread, Kernel.modify, Function.update_self]
      intro he
      have hd := h.released hr hu (by omega)
      omega
  · refine h.of_eq ?_ ?_ ?_ <;> simp [Kernel.raiseThread, Kernel.modify, hw]

private theorem donate (h : CoversDonation False r s t) (l : LockId) :
    CoversDonation False r (s.donate l) t := by
  refine Kernel.donate_induct (P := fun m => CoversDonation False r m t)
    (fun _ _ _ h => h.of_eq rfl rfl rfl) (fun _ _ _ h => h.raiseThread _ _) ?_
  by_cases ht : t = s.current
  · subst ht
    refine h.of_eq ?_ ?_ ?_ <;> simp [Kernel.modify]
  · refine h.of_eq ?_ ?_ ?_ <;> simp [Kernel.modify, ht]

private theorem acquireEffect (h : CoversDonation False r s t) (l : LockId) :
    CoversDonation False r (s.acquireEffect l) t := by
  unfold Kernel.acquireEffect
  split
  · exact h.same (SameData.push s _).toSamePriorities
  · by_cases ht : t = s.current
    · subst ht
      refine h.of_eq ?_ ?_ ?_ <;>
        simp [Kernel.takeLock, Kernel.modify, Kernel.modifyLock, Kernel.modifySema]
    · refine h.of_eq ?_ ?_ ?_ <;>
        simp [Kernel.takeLock, Kernel.modify, Kernel.modifyLock, Kernel.modifySema, ht]

/-- `thread_set_priority` leaves the greater of the two priorities, unless the priority was the new
one already and the donation had grown past it. -/
theorem setPriorityEffect (s : Kernel) (n : Int)
    (hlt : s.cur.priority < n → s.cur.donatedPriority ≤ n)
    (heq : s.cur.priority = n → s.cur.donatedPriority ≤ n) :
    CoversDonation False r (s.setPriorityEffect n) s.current := by
  have hm : CoversDonation False False (s.modify s.current fun th =>
      { th with basePriority := n, priority := Kernel.newPriority th n }) s.current := by
    rw [Kernel.cur] at hlt heq
    refine ⟨?_, fun _ => ?_, by simp, by simp⟩
    all_goals
      simp only [Kernel.modify, Function.update_self, Kernel.newPriority]
      split_ifs <;> omega
  unfold Kernel.setPriorityEffect
  dsimp only
  split
  · exact (hm.same (SameData.push _ _).toSamePriorities).begin (by simp)
  · exact hm.begin (by simp)

end CoversDonation

/-- The lock that the running thread is about to release. -/
def Kernel.releases (s : Kernel) : Option LockId :=
  match s.cur.todo.head? with
  | some (.lockRelease l) => some l
  | _ => none

/-- A thread that releases a lock while it has no more than its own priority holds no other lock
that caches a greater one. -/
def ReleaseCovered (s : Kernel) (i : Input) : Prop :=
  i = .run → ∀ l ∈ s.releases, s.cur.priority = s.cur.basePriority →
    ∀ j ∈ s.cur.locks, j ≠ l → (s.lock j).maxPriority ≤ s.cur.basePriority

instance (s : Kernel) (i : Input) : Decidable (ReleaseCovered s i) := by
  unfold ReleaseCovered
  infer_instance

/-- Every thread's priority covers its donation, as far as it is settled. -/
def EffectiveInv (s : Kernel) : Prop :=
  ∀ t, CoversDonation (Unsettled s t) (Releasing s t) s t

namespace EffectiveInv

variable {s s' m : Kernel} {a : Action} {as : List Action}

private theorem current_settled (h : EffectiveInv s) (hr : Ran s a as m)
    (ha : ∀ l, a ≠ .releaseDonated l) :
    CoversDonation False (Releasing s s.current) s.pop s.current := by
  have hu : ¬ Unsettled s s.current := by
    intro hu
    obtain ⟨l, rfl⟩ := hr.unsettled_before.mp hu
    exact ha l rfl
  have hc := (h s.current).same (SameData.pop s).toSamePriorities
  rwa [eq_false hu] at hc

private theorem not_unsettled (hr : Ran s a as m) (ha : ∀ l, a ≠ .lockRelease l) :
    ¬ Unsettled m s.current := by
  rintro ⟨l, hl⟩
  obtain ⟨rest, -, hm, hd⟩ := hr.todo_current
  have hn := hr.next
  rw [hm] at hl
  cases as with
  | nil =>
    have hdef := hd _ (List.mem_of_mem_head? hl)
    cases hdef
  | cons b as =>
    cases hl
    cases a <;> grind [Action.Next]

/-- A piece of code that leaves the priorities of the running thread to what it may have. -/
private theorem of_current (hr : Ran s a as m) (hi : AtomicInv s)
    (hother : ∀ t, t ≠ s.current → CoversDonation False (Releasing s t) m t)
    (hcur : CoversDonation (Unsettled m s.current) (Releasing m s.current) m s.current) :
    EffectiveInv m := by
  intro t
  by_cases ht : t = s.current
  · subst ht
    exact hcur
  · have hu : ¬ Unsettled m t := by
      rw [hr.unsettled_other ht]
      rintro ⟨l, hl⟩
      have hs := hi.alone t ht
      rw [Kernel.stageOf, hl] at hs
      cases hs
    rw [eq_false hu, propext (hr.releasing_other ht)]
    exact hother t ht

private theorem setPriority {n : Int}
    (hr : Ran s a as (s.pop.setPriorityEffect n)) (hi : AtomicInv s)
    (hpop : ∀ t, t ≠ s.current → CoversDonation False (Releasing s t) s.pop t)
    (hlt : s.pop.cur.priority < n → s.pop.cur.donatedPriority ≤ n)
    (heq : s.pop.cur.priority = n → s.pop.cur.donatedPriority ≤ n)
    (ha : ∀ l, a ≠ .lockRelease l) : EffectiveInv (s.pop.setPriorityEffect n) := by
  have hother : ∀ t, t ≠ s.current → (s.pop.setPriorityEffect n).thread t = s.pop.thread t := by
    intro t ht
    have htp : t ≠ s.pop.current := ht
    unfold Kernel.setPriorityEffect
    dsimp only
    split <;> simp [Kernel.push, Kernel.modify, htp]
  refine of_current hr hi (fun t ht => (hpop t ht).of_eq ?_ ?_ ?_) ?_
  · rw [hother t ht]
  · rw [hother t ht]
  · rw [hother t ht]
  · rw [eq_false (not_unsettled hr ha)]
    exact CoversDonation.setPriorityEffect s.pop n hlt heq

private theorem ran (h : EffectiveInv s) (hi : AtomicInv s)
    (hd : DonationInv (Unsettled s) (Releasing s) s) (hc : ReleaseCovered s .run)
    (hr : Ran s a as m) : EffectiveInv m := by
  have hpop : ∀ t, t ≠ s.current → CoversDonation False (Releasing s t) s.pop t := by
    intro t ht
    have hu : ¬ Unsettled s t := by
      rintro ⟨l, hl⟩
      have hs := hi.alone t ht
      rw [Kernel.stageOf, hl] at hs
      cases hs
    have hs := (h t).same (SameData.pop s).toSamePriorities
    rwa [eq_false hu] at hs
  -- every piece of code but four treats the running thread like the others
  have hplain : (∀ l, a ≠ .releaseDonated l) → (∀ l, a ≠ .lockRelease l) →
      a ≠ .releasePriority →
      (∀ t, CoversDonation False (Releasing s t) s.pop t →
        CoversDonation False (Releasing s t) m t) → EffectiveInv m := by
    intro h1 h2 h3 hstep
    refine of_current hr hi (fun t ht => hstep t (hpop t ht)) ?_
    rw [eq_false (not_unsettled hr h2)]
    exact (hstep _ (h.current_settled hr h1)).begin fun hrel => hr.releasing_after hrel h3
  have he := hr.effect
  have hn := hr.next
  by_cases hdon : a.donates = false
  · refine hplain ?_ ?_ ?_ fun t ht => ht.same (effect_sameData he hdon).toSamePriorities
    · rintro l rfl
      cases hdon
    · rintro l rfl
      cases hdon
    · rintro rfl
      cases hdon
  · cases a with
    | lockAcquire l =>
      simp only [Kernel.effect] at he
      split at he
      · cases he
      · cases he
        exact hplain (by simp) (by simp) (by simp) fun t ht => (ht.donate l).acquireEffect l
    | lockRetest l =>
      cases he
      exact hplain (by simp) (by simp) (by simp) fun t ht => ht.acquireEffect l
    | tryHolder l | releaseHolder l =>
      cases he
      exact hplain (by simp) (by simp) (by simp) fun t ht =>
        (ht.same (SamePriorities.modifyLock s.pop l _ rfl)).same
          (SameData.push _ _).toSamePriorities
    | tryInsert l =>
      cases he
      refine hplain (by simp) (by simp) (by simp) fun t ht => ?_
      by_cases htc : t = s.current
      · subst htc
        refine ht.of_eq ?_ ?_ ?_ <;>
          simp [Kernel.tryInsert, Kernel.modify, Kernel.modifyLock, Kernel.pop]
      · refine ht.of_eq ?_ ?_ ?_ <;>
          simp [Kernel.tryInsert, Kernel.modify, Kernel.modifyLock, Kernel.pop, htc]
    | lockRelease l =>
      have hcond := hc rfl l (by simp [Kernel.releases, hr.head])
      have hcur := h.current_settled hr (by simp)
      obtain ⟨c, hcu⟩ := hi.locks.custody l
      simp only [Kernel.effect, Kernel.lockRelease] at he
      split at he
      · rename_i hh
        cases he
        obtain rfl := hn
        obtain rfl := hcu.held_of_holder hr rfl hh
        have hcount := hcu.listed s.current
        have hhead : Unsettled _ s.current := ⟨l, hr.head_after⟩
        refine of_current hr hi (fun t ht => (hpop t ht).of_eq ?_ ?_ ?_) ?_
        · simp [Kernel.push, Kernel.modify, Kernel.modifyLock, Kernel.pop, ht]
        · simp [Kernel.push, Kernel.modify, Kernel.modifyLock, Kernel.pop, ht]
        · simp [Kernel.push, Kernel.modify, Kernel.modifyLock, Kernel.pop, ht]
        · refine ⟨?_, fun hn => absurd hhead.releasing hn, fun _ hn => absurd hhead hn, ?_⟩
          · simpa [Kernel.push, Kernel.modify, Kernel.modifyLock, Kernel.pop] using hcur.base
          · intro _ hpb j hj
            have hpb' : s.cur.priority = s.cur.basePriority := by
              simpa [Kernel.push, Kernel.modify, Kernel.modifyLock, Kernel.pop, Kernel.cur]
                using hpb
            have hj' : j ∈ s.cur.locks.erase l := by
              simpa [Kernel.push, Kernel.modify, Kernel.modifyLock, Kernel.pop, Kernel.cur]
                using hj
            have hne : j ≠ l := by
              rintro rfl
              have hpos := List.count_pos_iff.mpr hj'
              rw [List.count_erase_self, show s.cur.locks.count j = _ from hcount] at hpos
              simp [Phase.listed] at hpos
            have hle := hcond hpb' j (List.mem_of_mem_erase hj') hne
            simpa [Kernel.push, Kernel.modify, Kernel.modifyLock, Kernel.pop, Kernel.cur, hne]
              using hle
      · cases he
    | releaseDonated l =>
      cases he
      obtain rfl := hn
      have hcur := h s.current
      have hu : Unsettled s s.current := ⟨l, hr.head⟩
      have hrel := releasing_of_head hr.head_after
      refine of_current hr hi (fun t ht => (hpop t ht).of_eq ?_ ?_ ?_) ?_
      · simp [Kernel.releaseDonated, Kernel.push, Kernel.modify, Kernel.pop, ht]
      · simp [Kernel.releaseDonated, Kernel.push, Kernel.modify, Kernel.pop, ht]
      · simp [Kernel.releaseDonated, Kernel.push, Kernel.modify, Kernel.pop, ht]
      · refine ⟨?_, fun hn => absurd hrel hn, fun _ _ hpb => ?_,
          fun hm => absurd hm (not_unsettled hr (by simp))⟩
        · simpa [Kernel.releaseDonated, Kernel.push, Kernel.modify, Kernel.pop] using hcur.base
        · have hpb' : (s.thread s.current).priority = (s.thread s.current).basePriority := by
            simpa [Kernel.releaseDonated, Kernel.push, Kernel.modify, Kernel.pop] using hpb
          have hfront : s.pop.frontPriority s.cur.locks ≤ (s.thread s.current).basePriority := by
            rcases frontPriority_eq s.pop s.cur.locks with ⟨-, hf⟩ | ⟨j, hj, hf⟩
            · exact hf ▸ hd.base s.current
            · exact hf ▸ hcur.removed hu hpb' j hj
          simpa [Kernel.releaseDonated, Kernel.push, Kernel.modify, Kernel.pop, Kernel.cur]
            using hfront
    | releasePriority =>
      cases he
      have hcur := h.current_settled hr (by simp)
      have hrel : Releasing s s.current := by
        obtain ⟨rest, hs, -, -⟩ := hr.todo_current
        rw [Releasing, hs]
        rfl
      refine setPriority hr hi hpop ?_ ?_ (by simp)
      · intro hlt
        exact absurd hcur.base (not_le.mpr hlt)
      · exact hcur.released hrel id
    | setPriority n =>
      cases he
      have hcur := h.current_settled hr (by simp)
      have hrel : ¬ Releasing s s.current := by
        obtain ⟨rest, hs, -, -⟩ := hr.todo_current
        rw [Releasing, hs]
        simp [releasingCode]
      have hle := hcur.settled hrel
      refine setPriority hr hi hpop ?_ ?_ (by simp)
      · exact fun hlt => hle.trans hlt.le
      · exact fun heq => heq ▸ hle
    | takeTid p =>
      cases he
      have hrange : PriorityInRange p := of_decide_eq_true hr.proper
      refine hplain (by simp) (by simp) (by simp) fun t ht => ?_
      by_cases htn : t = s.nextTid
      · subst htn
        have hself : (s.pop.takeTid p).thread s.nextTid =
            initThread .blocked p [.kernelThread s.current] := by
          have hne := hr.ne
          simp [Kernel.takeTid, Kernel.push, Kernel.modify, Kernel.pop, Ne.symm hne]
        refine ⟨?_, fun _ => ?_, fun _ _ _ => ?_, by simp⟩
        · rw [hself]
          exact le_rfl
        · rw [hself]
          exact hrange.1
        · rw [hself]
          exact hrange.1
      · by_cases htc : t = s.current
        · subst htc
          refine ht.of_eq ?_ ?_ ?_ <;>
            simp [Kernel.takeTid, Kernel.push, Kernel.modify, Kernel.pop, htn]
        · refine ht.of_eq ?_ ?_ ?_ <;>
            simp [Kernel.takeTid, Kernel.push, Kernel.modify, Kernel.pop, htn, htc]
    | _ => exact absurd rfl hdon

private theorem begin (h : EffectiveInv s) (hnil : s.cur.todo = []) (o : Op) :
    EffectiveInv (s.push o.code) := by
  intro t
  have hcur : (s.thread s.current).todo = [] := hnil
  have hs := (h t).same (SameData.push s o.code).toSamePriorities
  by_cases htc : t = s.current
  · subst htc
    have hu : ¬ Unsettled s s.current := by simp [Unsettled, hcur]
    have hu' : ¬ Unsettled (s.push o.code) s.current := by
      simp only [Unsettled, Kernel.push, Kernel.modify, Function.update_self, hcur]
      cases o <;> rintro ⟨l, ⟨⟩⟩
    rw [eq_false hu] at hs
    rw [eq_false hu']
    exact hs.begin fun hr => by simp [Releasing, hcur, releasingCode] at hr
  · have htodo : ((s.push o.code).thread t).todo = (s.thread t).todo := by
      simp [Kernel.push, Kernel.modify, htc]
    rw [Unsettled, Releasing, htodo]
    exact hs

private theorem moved (h : EffectiveInv s) (hm : Moved s s') : EffectiveInv s' := by
  intro t
  rw [Unsettled, Releasing, hm.todo]
  exact (h t).same (SameData.moved hm).toSamePriorities

private theorem step {i : Input} (h : EffectiveInv s) (hi : AtomicInv s)
    (hd : DonationInv (Unsettled s) (Releasing s) s) (hc : ReleaseCovered s i)
    (hs : step s i = some s') : EffectiveInv s' := by
  refine hi.system.step_preserves h (fun o hnil => h.begin hnil o) (fun hrun hr => ?_)
    (fun h hm => ?_) hs
  · subst hrun
    exact h.ran hi hd hc hr
  · exact h.moved hm

end EffectiveInv

private theorem effectiveInv_threadStart (v : Nat → Nat) : EffectiveInv (threadStart v) := by
  intro t
  have hu : ¬ Unsettled (threadStart v) t := by
    simp only [Unsettled, threadStart]
    split_ifs <;> rintro ⟨l, ⟨⟩⟩
  rw [eq_false hu]
  refine CoversDonation.begin (r := False) ⟨?_, fun _ => ?_, by simp, by simp⟩ (by simp)
  all_goals
    simp only [threadStart]
    split_ifs <;> decide

/-- While lock operations are atomic and no thread without donation releases a lock when another of
its locks caches a greater priority, the priority of every thread that is not in `lock_release` is
the greater of its own and what it has been donated. -/
theorem effective_priority_of_release_covered {v : Nat → Nat} {is : List Input} {s : Kernel}
    (hr : run step (threadStart v) is = some s)
    (hc : Along step (fun s i => AtomicStep s i ∧ ReleaseCovered s i) (threadStart v) is)
    {t : Tid} (ht : ¬ Releasing s t) :
    (s.thread t).priority = max (s.thread t).basePriority (s.thread t).donatedPriority := by
  have hinv : AtomicInv s ∧ DonationInv (Unsettled s) (Releasing s) s ∧ EffectiveInv s := by
    refine run_preserves_along (P := fun s => AtomicInv s ∧
      DonationInv (Unsettled s) (Releasing s) s ∧ EffectiveInv s) ?_
      ⟨atomicInv_threadStart v, donationInv_threadStart v, effectiveInv_threadStart v⟩ hc hr
    rintro s i s' ⟨hi, hd, he⟩ ⟨⟨hu, ha, hset⟩, hcov⟩ hs
    exact ⟨hi.step hu ha hs, hd.step hi hset hs, he.step hi hd hcov hs⟩
  obtain ⟨-, hd, he⟩ := hinv
  exact le_antisymm (hd.priority t ht) (max_le (he t).base ((he t).settled ht))

/-- The thread that waited runs, with its own priority. -/
theorem effective_priority_of_release_covered_handOver : ∃ s,
    run step (threadStart fun _ => 0) handOver = some s ∧
      (s.lock 1).holder = some 3 ∧ s.current = 3 ∧ (s.thread 3).priority =
        max (s.thread 3).basePriority (s.thread 3).donatedPriority := by
  obtain ⟨s, hs, hp⟩ := run_reaches step (threadStart fun _ => 0) handOver
    (fun s => decide ((s.lock 1).holder = some 3 ∧ s.current = 3 ∧ ¬ Releasing s 3))
    (by decide +kernel)
  obtain ⟨hh, hc, hrel⟩ := of_decide_eq_true hp
  exact ⟨s, hs, hh, hc, effective_priority_of_release_covered hs (by decide +kernel) hrel⟩

/-- Threads of priority 32 and 33 wait for a lock; the second gets it and lowers its priority. -/
def leftBehind : List Input :=
  [.op (.lockAcquire 1), .run, .op (.threadCreate 32)] ++ List.replicate 11 .run ++
    [.op (.lockAcquire 1), .run, .op (.threadCreate 33)] ++ List.replicate 11 .run ++
    [.op (.lockAcquire 1), .run, .op (.lockRelease 1)] ++ List.replicate 6 .run ++
    [.op (.threadSetPriority 30), .run, .run]

/-- The new holder then acquires and releases another lock. -/
def releaseOther : List Input :=
  leftBehind ++ [.op (.threadSetPriority 0), .run, .op (.lockAcquire 2), .run,
    .op (.lockRelease 2)] ++ List.replicate 6 .run

/-- A thread that returned from `lock_release` has less than it has been donated. -/
theorem effective_priority_below_donation : ∃ s,
    run step (threadStart fun _ => 0) releaseOther = some s ∧ (s.thread 4).todo = [] ∧
      (s.thread 4).priority ≠ max (s.thread 4).basePriority (s.thread 4).donatedPriority := by
  obtain ⟨s, hs, hp⟩ := run_reaches step (threadStart fun _ => 0) releaseOther
    (fun s => decide ((s.thread 4).todo = [] ∧ (s.thread 4).priority ≠
      max (s.thread 4).basePriority (s.thread 4).donatedPriority)) (by decide +kernel)
  exact ⟨s, hs, of_decide_eq_true hp⟩

end Pintos.Threads
