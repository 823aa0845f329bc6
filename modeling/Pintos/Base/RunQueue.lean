import Mathlib.Data.List.Nodup
import Mathlib.Data.List.Sort
import Pintos.Base.Run

/-!
# Run queues with priorities

A queue from which an element of the greatest priority is dispatched. An element is enqueued
behind those of at least its priority, the queue is sorted by a stable sort before each dispatch,
and the priority of a queued element may be raised in between, which leaves the queue unsorted for
a while. Elements of equal priority, as long as it is not raised, are dispatched in the order in
which they were enqueued.
-/

namespace Pintos.Base.RunQueue

universe u v

variable {α : Type u} {ι : Type v}

/-- What happens to an element of the queue. -/
inductive Event (α : Type u) (ι : Type v)
  | enqueued (a : α) (priority : ι)
  | dispatched (a : α)
  | raised (a : α) (priority : ι)
  deriving DecidableEq, Repr

/-- An element is raised only after it has been dispatched. -/
def Unraised (a : α) (es : List (Event α ι)) : Prop :=
  ∀ before after p, es = before ++ .raised a p :: after → .dispatched a ∈ before

theorem Unraised.of_notMem {a : α} {es : List (Event α ι)} (h : ∀ p, .raised a p ∉ es) :
    Unraised a es := by
  rintro before after p rfl
  exact absurd (List.mem_append_right before List.mem_cons_self) (h p)

private theorem Unraised.head_ne {a : α} {e : Event α ι} {es : List (Event α ι)}
    (h : Unraised a (e :: es)) (p : ι) :
    e ≠ .raised a p := by
  rintro rfl
  exact absurd (h [] es p rfl) List.not_mem_nil

private theorem Unraised.of_append {a : α} {es fs : List (Event α ι)} (h : Unraised a (es ++ fs))
    (hes : .dispatched a ∉ es) : Unraised a fs := by
  intro before after p hfs
  have hmem := h (es ++ before) after p (by rw [hfs, List.append_assoc])
  exact (List.mem_append.mp hmem).resolve_left hes

/-- What comes after an element in a list comes after its only occurrence. -/
theorem mem_of_pair_sublist {a b : α} {front rest : List α} (ha : a ∉ front)
    (h : [a, b].Sublist (front ++ a :: rest)) : b ∈ rest := by
  induction front with
  | nil =>
    cases h with
    | cons _ h => exact h.subset (by simp)
    | cons_cons _ h => exact h.subset (by simp)
  | cons c front ih =>
    rw [List.mem_cons, not_or] at ha
    cases h with
    | cons _ h => exact ih ha.2 h
    | cons_cons _ h => exact absurd rfl ha.1

section Order

variable [LinearOrder ι]

/-- The queue with an element enqueued behind those of at least its priority. -/
def enqueue (queue : List (α × ι)) (e : α × ι) : List (α × ι) :=
  queue.orderedInsert (fun x y => y.2 < x.2) e

/-- The queue, stably sorted by priority. -/
def sort (queue : List (α × ι)) : List (α × ι) := queue.insertionSort fun x y => y.2 ≤ x.2

/-- The element is queued, behind elements of at least its priority only, and ahead of `later`. -/
def Ahead (x : α × ι) (later : List (α × ι)) (queue : List (α × ι)) : Prop :=
  ∃ front rest, queue = front ++ x :: rest ∧ (∀ y ∈ front, x.2 ≤ y.2) ∧ ∀ y ∈ later, y ∈ rest

variable {x z : α × ι} {later queue : List (α × ι)}

private theorem fst_enqueue (queue : List (α × ι)) (e : α × ι) :
    ((enqueue queue e).map Prod.fst).Perm (e.1 :: queue.map Prod.fst) :=
  (List.perm_orderedInsert _ e queue).map Prod.fst

private theorem fst_sort (queue : List (α × ι)) :
    ((sort queue).map Prod.fst).Perm (queue.map Prod.fst) :=
  (List.perm_insertionSort _ queue).map Prod.fst

/-- An element is enqueued behind elements of at least its priority only. -/
theorem ahead_enqueue_self (queue : List (α × ι)) (x : α × ι) : Ahead x [] (enqueue queue x) := by
  refine ⟨_, _, List.orderedInsert_eq_take_drop _ x queue, ?_, by simp⟩
  intro y hy
  have hall := @List.all_takeWhile _ (fun b => decide ¬ b.2 < x.2) queue
  rw [List.all_eq_true] at hall
  simpa using hall y hy

/-- What is enqueued with no more than the element's priority comes behind it. -/
theorem Ahead.enqueue_le (h : Ahead x later queue) (hz : z.2 ≤ x.2) :
    Ahead x (z :: later) (enqueue queue z) := by
  obtain ⟨front, rest, rfl, hfront, hlater⟩ := h
  refine ⟨front, RunQueue.enqueue rest z, ?_, hfront, ?_⟩
  · induction front with
    | nil => simp [RunQueue.enqueue, not_lt.mpr hz]
    | cons w front ih =>
      have hw : ¬ w.2 < z.2 := not_lt.mpr (hz.trans (hfront w List.mem_cons_self))
      have hrest := ih fun y hy => hfront y (List.mem_cons_of_mem w hy)
      rw [RunQueue.enqueue] at hrest ⊢
      rw [List.cons_append, List.orderedInsert_cons, if_neg hw, hrest, List.cons_append]
  · intro y hy
    rw [RunQueue.enqueue, List.mem_orderedInsert]
    exact (List.mem_cons.mp hy).imp id (hlater y)

/-- What is enqueued with a greater priority changes nothing for the element. -/
theorem Ahead.enqueue_lt (h : Ahead x later queue) (hz : x.2 < z.2) :
    Ahead x later (enqueue queue z) := by
  obtain ⟨front, rest, rfl, hfront, hlater⟩ := h
  induction front with
  | nil => exact ⟨[z], rest, by simp [RunQueue.enqueue, hz], by simpa using hz.le, hlater⟩
  | cons w front ih =>
    by_cases hw : w.2 < z.2
    · refine ⟨z :: w :: front, rest, by simp [RunQueue.enqueue, hw], ?_, hlater⟩
      intro y hy
      rcases List.mem_cons.mp hy with rfl | hy
      · exact hz.le
      · exact hfront y hy
    · obtain ⟨front', rest', heq, hfront', hlater'⟩ :=
        ih fun y hy => hfront y (List.mem_cons_of_mem w hy)
      refine ⟨w :: front', rest', ?_, ?_, hlater'⟩
      · rw [RunQueue.enqueue] at heq ⊢
        rw [List.cons_append, List.orderedInsert_cons, if_neg hw, heq, List.cons_append]
      · intro y hy
        rcases List.mem_cons.mp hy with rfl | hy
        · exact hfront y List.mem_cons_self
        · exact hfront' y hy

private theorem Ahead.enqueue (h : Ahead x later queue) (z : α × ι) :
    Ahead x later (enqueue queue z) := by
  rcases le_or_gt z.2 x.2 with hz | hz
  · obtain ⟨front, rest, heq, hfront, hlater⟩ := h.enqueue_le hz
    exact ⟨front, rest, heq, hfront, fun y hy => hlater y (List.mem_cons_of_mem z hy)⟩
  · exact h.enqueue_lt hz

/-- Sorting leaves the element ahead of elements with no more than its priority. -/
theorem Ahead.sort (hq : queue.Nodup) (h : Ahead x later queue)
    (hle : ∀ y ∈ later, y.2 ≤ x.2) : Ahead x later (sort queue) := by
  obtain ⟨front, rest, hqueue, -, hrest⟩ := h
  have hnodup : (RunQueue.sort queue).Nodup := (List.perm_insertionSort _ queue).nodup_iff.mpr hq
  have hsorted : (RunQueue.sort queue).Pairwise fun x y => y.2 ≤ x.2 :=
    List.pairwise_insertionSort _ queue
  have hmem : x ∈ RunQueue.sort queue := by
    rw [RunQueue.sort, List.mem_insertionSort, hqueue]
    exact List.mem_append_right front List.mem_cons_self
  obtain ⟨front', rest', heq⟩ := List.append_of_mem hmem
  rw [heq] at hsorted hnodup
  refine ⟨front', rest', heq, ?_, ?_⟩
  · intro y hy
    exact (List.pairwise_append.mp hsorted).2.2 y hy x List.mem_cons_self
  · intro y hy
    have hpair : [x, y].Sublist queue := by
      rw [hqueue]
      exact ((List.singleton_sublist.mpr (hrest y hy)).cons_cons x).trans
        (List.sublist_append_right front _)
    have hpair' : [x, y].Sublist (front' ++ x :: rest') := by
      rw [← heq]
      exact List.pair_sublist_insertionSort (hle y hy) hpair
    have hx : x ∉ front' := fun hx =>
      (List.nodup_append.mp hnodup).2.2 x hx x List.mem_cons_self rfl
    exact mem_of_pair_sublist hx hpair'

private theorem Ahead.fst_ne (hq : (queue.map Prod.fst).Nodup) (h : Ahead x later queue)
    {y : α × ι} (hy : y ∈ later) : y.1 ≠ x.1 := by
  obtain ⟨front, rest, rfl, -, hrest⟩ := h
  rw [List.map_append, List.map_cons] at hq
  have hx : x.1 ∉ rest.map Prod.fst := (List.nodup_cons.mp (List.nodup_append.mp hq).2.1).1
  intro hyx
  exact hx (hyx ▸ List.mem_map_of_mem (hrest y hy))

end Order

variable [DecidableEq α]

/-- The queue with the priority of an element changed. -/
def raise (queue : List (α × ι)) (a : α) (priority : ι) : List (α × ι) :=
  queue.map fun x => if x.1 = a then (a, priority) else x

private theorem fst_raise (queue : List (α × ι)) (a : α) (p : ι) :
    (raise queue a p).map Prod.fst = queue.map Prod.fst := by
  rw [raise, List.map_map]
  apply List.map_congr_left
  intro x _
  by_cases hx : x.1 = a
  · simp [hx]
  · simp [hx]

variable [LinearOrder ι]

/-- The queue after an event; `none` if the event cannot happen to it. -/
def apply (queue : List (α × ι)) : Event α ι → Option (List (α × ι))
  | .enqueued a p => if a ∈ queue.map Prod.fst then none else some (enqueue queue (a, p))
  | .dispatched a =>
    match sort queue with
    | [] => none
    | x :: rest => if x.1 = a then some rest else none
  | .raised a p => if ∀ x ∈ queue, x.1 = a → x.2 < p then some (raise queue a p) else none

variable {x y : α × ι} {later queue queue' : List (α × ι)} {e : Event α ι}

private theorem apply_enqueued {a : α} {p : ι} (h : apply queue (.enqueued a p) = some queue') :
    a ∉ queue.map Prod.fst ∧ queue' = enqueue queue (a, p) := by
  rw [apply] at h
  split at h
  · cases h
  · next ha => exact ⟨ha, (Option.some.inj h).symm⟩

private theorem apply_dispatched {a : α} (h : apply queue (.dispatched a) = some queue') :
    ∃ p, sort queue = (a, p) :: queue' := by
  rw [apply] at h
  split at h
  · cases h
  · next x rest hsort =>
    split at h
    · next ha =>
      refine ⟨x.2, ?_⟩
      rw [hsort, ← ha, Option.some.inj h]
    · cases h

private theorem apply_raised {a : α} {p : ι} (h : apply queue (.raised a p) = some queue') :
    (∀ x ∈ queue, x.1 = a → x.2 < p) ∧ queue' = raise queue a p := by
  rw [apply] at h
  split at h
  · next ha => exact ⟨ha, (Option.some.inj h).symm⟩
  · cases h

private theorem nodup_apply (hq : (queue.map Prod.fst).Nodup) (h : apply queue e = some queue') :
    (queue'.map Prod.fst).Nodup := by
  cases e with
  | enqueued a p =>
    obtain ⟨ha, rfl⟩ := apply_enqueued h
    rw [(fst_enqueue queue (a, p)).nodup_iff]
    exact List.nodup_cons.mpr ⟨ha, hq⟩
  | dispatched a =>
    obtain ⟨p, hsort⟩ := apply_dispatched h
    have hs := (fst_sort queue).nodup_iff.mpr hq
    rw [hsort] at hs
    exact (List.nodup_cons.mp hs).2
  | raised a p =>
    rw [(apply_raised h).2, fst_raise]
    exact hq

private theorem Ahead.raise (h : Ahead x later queue) {a : α} {p : ι} (hx : x.1 ≠ a)
    (hlater : ∀ y ∈ later, y.1 ≠ a) (hp : ∀ y ∈ queue, y.1 = a → y.2 < p) :
    Ahead x later (raise queue a p) := by
  obtain ⟨front, rest, rfl, hfront, hrest⟩ := h
  refine ⟨RunQueue.raise front a p, RunQueue.raise rest a p, ?_, ?_, ?_⟩
  · simp [RunQueue.raise, hx]
  · intro y hy
    obtain ⟨w, hw, rfl⟩ := List.mem_map.mp hy
    split
    · next ha => exact (hfront w hw).trans (hp w (List.mem_append_left _ hw) ha).le
    · exact hfront w hw
  · intro y hy
    exact List.mem_map.mpr ⟨y, hrest y hy, if_neg (hlater y hy)⟩

/-- While neither the element nor a later one is raised, and until the element is dispatched, it
stays ahead of the later ones, and none of them is dispatched. -/
theorem Ahead.apply (hq : (queue.map Prod.fst).Nodup) (hle : ∀ y ∈ later, y.2 ≤ x.2)
    (h : Ahead x later queue) (hstep : apply queue e = some queue')
    (hraise : ∀ y ∈ x :: later, ∀ p, e ≠ .raised y.1 p) (hx : e ≠ .dispatched x.1) :
    Ahead x later queue' ∧ ∀ y ∈ later, e ≠ .dispatched y.1 := by
  cases e with
  | enqueued a p =>
    obtain ⟨-, rfl⟩ := apply_enqueued hstep
    exact ⟨h.enqueue (a, p), fun _ _ he => by cases he⟩
  | raised a p =>
    obtain ⟨hp, rfl⟩ := apply_raised hstep
    have hne : ∀ y ∈ x :: later, y.1 ≠ a := by
      intro y hy ha
      exact hraise y hy p (by rw [ha])
    have hafter := h.raise (hne x List.mem_cons_self)
      (fun y hy => hne y (List.mem_cons_of_mem x hy)) hp
    exact ⟨hafter, fun _ _ he => by cases he⟩
  | dispatched a =>
    obtain ⟨p, hsort⟩ := apply_dispatched hstep
    have hnodup := (fst_sort queue).nodup_iff.mpr hq
    obtain ⟨front, rest, heq, hfront, hrest⟩ := h.sort hq.of_map hle
    rw [hsort] at heq hnodup
    have ha : a ∉ queue'.map Prod.fst := (List.nodup_cons.mp hnodup).1
    cases front with
    | nil =>
      -- the element itself would be dispatched
      rw [List.nil_append, List.cons.injEq] at heq
      exact absurd (congrArg Event.dispatched (congrArg Prod.fst heq.1)) hx
    | cons w front =>
      rw [List.cons_append, List.cons.injEq] at heq
      refine ⟨⟨front, rest, heq.2, fun y hy => hfront y (List.mem_cons_of_mem w hy), hrest⟩, ?_⟩
      intro y hy he
      apply ha
      rw [Event.dispatched.inj he, heq.2]
      exact List.mem_map_of_mem (List.mem_append_right front (List.mem_cons_of_mem x (hrest y hy)))

/-- An element that is ahead of another of the same priority is dispatched first. -/
theorem Ahead.dispatched {a b : α} {p : ι} {es : List (Event α ι)}
    (hq : (queue.map Prod.fst).Nodup) (h : Ahead (a, p) [(b, p)] queue)
    (hrun : run RunQueue.apply queue (es ++ [.dispatched b]) = some queue')
    (ha : Unraised a es) (hb : Unraised b es) : .dispatched a ∈ es := by
  have hle : ∀ y ∈ [(b, p)], y.2 ≤ (a, p).2 := by simp
  induction es generalizing queue with
  | nil =>
    -- the other element cannot come first
    obtain ⟨m, hm, -⟩ := run_cons_some hrun
    have hba : b ≠ a := fun hba => h.fst_ne hq List.mem_cons_self hba
    have hno := (h.apply hq hle hm (by simp) (by simpa using hba)).2
    exact absurd rfl (hno (b, p) List.mem_cons_self)
  | cons e es ih =>
    obtain ⟨m, hm, hrest⟩ := run_cons_some hrun
    by_cases hea : e = .dispatched a
    · rw [hea]
      exact List.mem_cons_self
    · have hraise : ∀ y ∈ [(a, p), (b, p)], ∀ q, e ≠ .raised y.1 q := by
        intro y hy q
        rcases List.mem_pair.mp hy with rfl | rfl
        · exact ha.head_ne q
        · exact hb.head_ne q
      obtain ⟨hahead, hno⟩ := h.apply hq hle hm hraise hea
      have heb : e ≠ .dispatched b := hno (b, p) List.mem_cons_self
      have ha' := @Unraised.of_append _ _ a [e] es ha (by simpa using Ne.symm hea)
      have hb' := @Unraised.of_append _ _ b [e] es hb (by simpa using Ne.symm heb)
      exact List.mem_cons_of_mem e (ih (nodup_apply hq hm) hahead hrest ha' hb')

/-- Until it is dispatched, an element that is not raised stays behind elements of at least its
priority. -/
theorem Ahead.run {es : List (Event α ι)} (hq : (queue.map Prod.fst).Nodup)
    (h : Ahead x [] queue) (hrun : Base.run RunQueue.apply queue es = some queue')
    (hraise : Unraised x.1 es) (hx : .dispatched x.1 ∉ es) :
    Ahead x [] queue' ∧ (queue'.map Prod.fst).Nodup := by
  induction es generalizing queue with
  | nil =>
    cases hrun
    exact ⟨h, hq⟩
  | cons e es ih =>
    obtain ⟨m, hm, hrest⟩ := run_cons_some hrun
    rw [List.mem_cons, not_or] at hx
    have hne : ∀ y ∈ [x], ∀ p, e ≠ .raised y.1 p := by
      intro y hy p
      rw [List.mem_singleton.mp hy]
      exact hraise.head_ne p
    have hahead := (h.apply hq (by simp) hm hne (Ne.symm hx.1)).1
    have htail := @Unraised.of_append _ _ x.1 [e] es hraise (by simpa using hx.1)
    exact ih (nodup_apply hq hm) hahead hrest htail hx.2

/-- Elements of equal priority are dispatched in the order in which they were enqueued. -/
theorem dispatched_in_order {a b : α} {p : ι} {before between after : List (Event α ι)}
    (hq : (queue.map Prod.fst).Nodup)
    (hrun : run apply queue
      (before ++ .enqueued a p :: between ++ .enqueued b p :: after ++ [.dispatched b]) =
        some queue')
    (ha : .dispatched a ∉ between) (hra : Unraised a (between ++ after))
    (hrb : Unraised b after) : .dispatched a ∈ after := by
  obtain ⟨q1, h1, h⟩ := run_append_some (by simpa using hrun)
  obtain ⟨q2, h2, h⟩ := run_cons_some h
  obtain ⟨q3, h3, h⟩ := run_append_some h
  obtain ⟨q4, h4, h⟩ := run_cons_some h
  have hq1 : (q1.map Prod.fst).Nodup := run_preserves (fun _ _ _ => nodup_apply) hq h1
  have hfirst : Ahead (a, p) [] q2 := by
    rw [(apply_enqueued h2).2]
    exact ahead_enqueue_self q1 (a, p)
  have hbetween : Unraised a between := by
    intro l l' r hl
    exact hra l (l' ++ after) r (by rw [hl, List.append_assoc, List.cons_append])
  obtain ⟨hwait, hq3⟩ := hfirst.run (nodup_apply hq1 h2) h3 hbetween ha
  have hboth : Ahead (a, p) [(b, p)] q4 := by
    rw [(apply_enqueued h4).2]
    exact hwait.enqueue_le (le_refl p)
  exact hboth.dispatched (nodup_apply hq3 h4) h (hra.of_append ha) hrb

end Pintos.Base.RunQueue
