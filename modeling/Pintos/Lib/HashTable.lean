import Mathlib.Algebra.Group.Nat.Defs
import Mathlib.Algebra.Ring.Int.Defs
import Mathlib.Data.List.Perm.Basic
import Mathlib.Data.Set.Card
import Pintos.Base.Buckets
import Pintos.Base.KeyedSet

/-!
# Hash tables

A table of buckets with chained elements, whose number of buckets follows the number of elements.
Elements are pointers: `list_remove` takes the element itself out of the bucket that it is in. The
allocation of buckets in `rehash` may fail.
Source `lib/kernel/hash.c`.
-/

namespace Pintos.Lib.HashTable

open Pintos.Base

/-- `struct hash`, without its functions. -/
structure Hash (α : Type) where
  elemCnt : Nat
  bucketCnt : Nat
  buckets : Nat → List α

section Model

variable {α : Type} [DecidableEq α] (hash : α → UInt32) (less : α → α → Bool)

/-- `hash_init` with successful allocation, `lib/kernel/hash.c:24–43`. -/
def hashInit : Hash α := ⟨0, 4, fun _ => []⟩

/-- `find_bucket`, `lib/kernel/hash.c:305–310`: the index of the bucket. -/
def findBucket (h : Hash α) (e : α) : Nat := (hash e).toNat &&& (h.bucketCnt - 1)

/-- `find_elem`, `lib/kernel/hash.c:314–326`. -/
def findElem (bucket : List α) (e : α) : Option α :=
  bucket.find? fun hi => !less hi e && !less e hi

/-- `turn_off_least_1bit`, `lib/kernel/hash.c:329–333`. -/
def turnOffLeast1bit (x : Nat) : Nat := x &&& (x - 1)

/-- `is_power_of_2`, `lib/kernel/hash.c:336–340`. -/
def isPowerOf2 (x : Nat) : Bool := x != 0 && turnOffLeast1bit x == 0

/-- `while (!is_power_of_2 (new_bucket_cnt)) …`, `lib/kernel/hash.c:371–372`. -/
def reduceLoop : Nat → Nat → Option Nat
  | 0, _ => none
  | rounds + 1, n => if isPowerOf2 n then some n else reduceLoop rounds (turnOffLeast1bit n)

/-- `list_push_front` to a bucket. -/
def pushFront (h : Hash α) (bucket : Nat) (e : α) : Hash α :=
  { h with buckets := Function.update h.buckets bucket (e :: h.buckets bucket) }

/-- The loops that move the elements of the old buckets, `lib/kernel/hash.c:394–410`. -/
def moveElements (h : Hash α) (oldBuckets : Nat → List α) (oldBucketCnt : Nat) : Hash α :=
  (List.range oldBucketCnt).foldl
    (fun h i => (oldBuckets i).foldl (fun h e => pushFront h (findBucket hash h e) e) h) h

/-- `rehash`, `lib/kernel/hash.c:351–413`; `alloc` says whether `malloc` succeeds. The loop that
looks for a power of two makes the number smaller in each round. -/
def rehash (alloc : Bool) (h : Hash α) : Option (Hash α) :=
  let newBucketCnt := h.elemCnt / 2
  let newBucketCnt := if newBucketCnt < 4 then 4 else newBucketCnt
  (reduceLoop newBucketCnt newBucketCnt).map fun newBucketCnt =>
    if newBucketCnt = h.bucketCnt then h
    else if alloc then
      moveElements hash ⟨h.elemCnt, newBucketCnt, fun _ => []⟩ h.buckets h.bucketCnt
    else h

/-- `insert_elem`, `lib/kernel/hash.c:416–421`. -/
def insertElem (h : Hash α) (bucket : Nat) (e : α) : Hash α :=
  pushFront { h with elemCnt := h.elemCnt + 1 } bucket e

/-- `remove_elem`, `lib/kernel/hash.c:424–429`. -/
def removeElem (h : Hash α) (e : α) : Hash α :=
  { h with elemCnt := h.elemCnt - 1, buckets := fun i => (h.buckets i).erase e }

/-- `hash_insert`, `lib/kernel/hash.c:98–110`. -/
def hashInsert (alloc : Bool) (h : Hash α) (new : α) : Option (Hash α × Option α) :=
  let bucket := findBucket hash h new
  let old := findElem less (h.buckets bucket) new
  let h := if old = none then insertElem h bucket new else h
  (rehash hash alloc h).map fun h => (h, old)

/-- `hash_replace`, `lib/kernel/hash.c:114–127`. -/
def hashReplace (alloc : Bool) (h : Hash α) (new : α) : Option (Hash α × Option α) :=
  let bucket := findBucket hash h new
  let old := findElem less (h.buckets bucket) new
  let h := match old with
    | some old => removeElem h old
    | none => h
  (rehash hash alloc (insertElem h bucket new)).map fun h => (h, old)

/-- `hash_find`, `lib/kernel/hash.c:131–135`. -/
def hashFind (h : Hash α) (e : α) : Option α := findElem less (h.buckets (findBucket hash h e)) e

/-- `hash_delete`, `lib/kernel/hash.c:144–154`. -/
def hashDelete (alloc : Bool) (h : Hash α) (e : α) : Option (Hash α × Option α) :=
  match findElem less (h.buckets (findBucket hash h e)) e with
  | some found => (rehash hash alloc (removeElem h found)).map fun h => (h, some found)
  | none => some (h, none)

/-- A call of one of the four functions. -/
inductive Op (α : Type)
  | insert (e : α)
  | replace (e : α)
  | find (e : α)
  | delete (e : α)

/-- The table and the result after a call. -/
def perform (h : Hash α) : Op α × Bool → Option (Hash α × Option α)
  | (.insert e, alloc) => hashInsert hash less alloc h e
  | (.replace e, alloc) => hashReplace hash less alloc h e
  | (.find e, _) => some (h, hashFind hash less h e)
  | (.delete e, alloc) => hashDelete hash less alloc h e

/-- The table and the results after a sequence of calls. -/
def performAll : Hash α → List (Op α × Bool) → Option (Hash α × List (Option α))
  | h, [] => some (h, [])
  | h, c :: cs => (perform hash less h c).bind fun r =>
    (performAll r.1 cs).map fun t => (t.1, r.2 :: t.2)

end Model

/-! ## Iteration -/

section Iteration

variable {α : Type}

/-- `struct hash_iterator`: the bucket, and the position in its list, 0 for the head of the list
and the length plus 1 for its tail. -/
structure Iterator where
  bucket : Nat
  elem : Nat

/-- `hash_first`, `lib/kernel/hash.c:199–208`. -/
def hashFirst : Iterator := ⟨0, 0⟩

/-- The loop of `hash_next`, `lib/kernel/hash.c:224–232`: none is the null pointer. -/
def nextLoop (h : Hash α) : Nat → Iterator → Option (Option Iterator)
  | 0, _ => none
  | rounds + 1, i =>
    if i.elem = (h.buckets i.bucket).length + 1 then
      if h.bucketCnt ≤ i.bucket + 1 then some none
      else nextLoop h rounds ⟨i.bucket + 1, 1⟩
    else some (some i)

/-- `hash_next`, `lib/kernel/hash.c:218–235`. -/
def hashNext (h : Hash α) (rounds : Nat) (i : Iterator) : Option (Option Iterator) :=
  nextLoop h rounds ⟨i.bucket, i.elem + 1⟩

/-- `hash_cur`, `lib/kernel/hash.c:240–244`. -/
def hashCur (h : Hash α) (i : Iterator) : Option α := (h.buckets i.bucket)[i.elem - 1]?

/-- `while (hash_next (&i)) … hash_cur (&i) …`: the elements that are visited. -/
def visitLoop (h : Hash α) : Nat → Iterator → Option (List α)
  | 0, _ => none
  | rounds + 1, i => (hashNext h h.bucketCnt i).bind fun
    | none => some []
    | some i => (hashCur h i).bind fun e => (visitLoop h rounds i).map (e :: ·)

end Iteration

/-! ## Numbers of buckets -/

section PowerOfTwo

variable {n k : Nat}

private theorem turnOffLeast1bit_lt (h : 0 < n) : turnOffLeast1bit n < n := by
  have hle : n &&& (n - 1) ≤ n - 1 := Nat.and_le_right
  unfold turnOffLeast1bit
  omega

private theorem two_pow_le_turnOffLeast1bit (hlt : 2 ^ k < n) (hlt' : n < 2 ^ (k + 1)) :
    2 ^ k ≤ turnOffLeast1bit n := by
  apply Nat.ge_two_pow_of_testBit
  rw [turnOffLeast1bit, Nat.testBit_and, Bool.and_eq_true]
  exact ⟨Nat.testBit_of_two_pow_le_and_two_pow_add_one_gt (by omega) hlt',
    Nat.testBit_of_two_pow_le_and_two_pow_add_one_gt (by omega) (by omega)⟩

private theorem isPowerOf2_two_pow (k : Nat) : isPowerOf2 (2 ^ k) = true := by
  have hpos : 0 < 2 ^ k := Nat.two_pow_pos k
  rw [isPowerOf2, turnOffLeast1bit, Nat.and_two_pow_sub_one_eq_mod, Nat.mod_self]
  simp

private theorem isPowerOf2_eq_false (hlt : 2 ^ k < n) (hlt' : n < 2 ^ (k + 1)) :
    isPowerOf2 n = false := by
  have hle := two_pow_le_turnOffLeast1bit hlt hlt'
  have hpos : 0 < 2 ^ k := Nat.two_pow_pos k
  have hne : turnOffLeast1bit n ≠ 0 := by omega
  rw [isPowerOf2, beq_false_of_ne hne, Bool.and_false]

private theorem reduceLoop_eq {rounds : Nat} (hle : 2 ^ k ≤ n) (hlt : n < 2 ^ (k + 1))
    (hrounds : n ≤ rounds) : reduceLoop rounds n = some (2 ^ k) := by
  have hpos : 0 < 2 ^ k := Nat.two_pow_pos k
  induction rounds generalizing n with
  | zero => omega
  | succ rounds ih =>
    rw [reduceLoop]
    rcases Nat.eq_or_lt_of_le hle with rfl | hgt
    · rw [if_pos (isPowerOf2_two_pow k)]
    · have hless := turnOffLeast1bit_lt (n := n) (by omega)
      rw [isPowerOf2_eq_false hgt hlt, if_neg Bool.false_ne_true]
      exact ih (two_pow_le_turnOffLeast1bit hgt hlt) (by omega) (by omega)

end PowerOfTwo

/-! ## Tables -/

section Table

variable {α : Type} [DecidableEq α] {hash : α → UInt32} {less : α → α → Bool} {h : Hash α}

/-- The elements of the table. -/
def contents (h : Hash α) : List α := bucketContents h.buckets h.bucketCnt

/-- The number of buckets is a power of two, at least four, and each element is in its bucket. -/
structure Placed (hash : α → UInt32) (h : Hash α) : Prop where
  power : ∃ k, h.bucketCnt = 2 ^ k
  four_le : 4 ≤ h.bucketCnt
  bucket : ∀ i < h.bucketCnt, ∀ e ∈ h.buckets i, findBucket hash h e = i

omit [DecidableEq α] in
private theorem Placed.findBucket_lt (hp : Placed hash h) (e : α) :
    findBucket hash h e < h.bucketCnt := by
  obtain ⟨k, hk⟩ := hp.power
  rw [findBucket, hk, Nat.and_two_pow_sub_one_eq_mod]
  exact Nat.mod_lt _ (Nat.two_pow_pos k)

omit [DecidableEq α] in
private theorem Placed.mem_contents (hp : Placed hash h) {e : α} :
    e ∈ contents h ↔ e ∈ h.buckets (findBucket hash h e) := by
  rw [contents, mem_bucketContents]
  constructor
  · rintro ⟨i, hi, he⟩
    rw [hp.bucket i hi e he]
    exact he
  · intro he
    exact ⟨_, hp.findBucket_lt e, he⟩

omit [DecidableEq α] in
private theorem Placed.pushFront (hp : Placed hash h) (e : α) :
    Placed hash (pushFront h (findBucket hash h e) e) where
  power := hp.power
  four_le := hp.four_le
  bucket := by
    intro i hi x hx
    change x ∈ Function.update h.buckets _ _ i at hx
    by_cases hib : i = findBucket hash h e
    · rw [hib, Function.update_self] at hx
      rcases List.mem_cons.mp hx with rfl | hx
      · exact hib.symm
      · exact hp.bucket i hi x (hib ▸ hx)
    · rw [Function.update_of_ne hib] at hx
      exact hp.bucket i hi x hx

omit [DecidableEq α] in
private theorem Placed.contents_pushFront (hp : Placed hash h) (e : α) :
    (contents (HashTable.pushFront h (findBucket hash h e) e)).Perm (e :: contents h) :=
  bucketContents_update_cons (hp.findBucket_lt e) e

private theorem Placed.removeElem (hp : Placed hash h) (e : α) : Placed hash (removeElem h e) where
  power := hp.power
  four_le := hp.four_le
  bucket := fun i hi x hx => hp.bucket i hi x (List.mem_of_mem_erase hx)

omit [DecidableEq α] in
private theorem Placed.foldl_pushFront (hp : Placed hash h) {es : List α} {h' : Hash α}
    (hes : es.foldl (fun h e => HashTable.pushFront h (findBucket hash h e) e) h = h') :
    Placed hash h' ∧ (contents h').Perm (es ++ contents h) ∧ h'.elemCnt = h.elemCnt := by
  induction es generalizing h with
  | nil =>
    obtain rfl : h = h' := hes
    exact ⟨hp, List.Perm.refl _, rfl⟩
  | cons e es ih =>
    obtain ⟨hplaced, hperm, hcnt⟩ := ih (hp.pushFront e) hes
    refine ⟨hplaced, hperm.trans ?_, hcnt⟩
    exact ((hp.contents_pushFront e).append_left es).trans List.perm_middle

omit [DecidableEq α] in
/-- `rehash` keeps the elements and their number, whether it gets new buckets or not. -/
theorem Placed.rehash (hp : Placed hash h) (alloc : Bool) :
    ∃ h', HashTable.rehash hash alloc h = some h' ∧ Placed hash h' ∧
      (contents h').Perm (contents h) ∧ h'.elemCnt = h.elemCnt := by
  unfold HashTable.rehash
  dsimp only
  generalize hn : (if h.elemCnt / 2 < 4 then 4 else h.elemCnt / 2) = n
  have hfour : 4 ≤ n := by
    rw [← hn]
    split <;> omega
  obtain ⟨k, hk, hk'⟩ : ∃ k, 2 ^ k ≤ n ∧ n < 2 ^ (k + 1) :=
    ⟨n.log2, Nat.log2_self_le (by omega), Nat.lt_log2_self⟩
  rw [reduceLoop_eq hk hk' (Nat.le_refl n), Option.map_some]
  have hfour' : 4 ≤ 2 ^ k := by
    have htwo : 2 ≤ k := by
      by_contra hlt
      have hle : 2 ^ (k + 1) ≤ 2 ^ 2 := Nat.pow_le_pow_right (by decide) (by omega)
      omega
    have hle : 2 ^ 2 ≤ 2 ^ k := Nat.pow_le_pow_right (by decide) htwo
    omega
  refine ⟨_, rfl, ?_⟩
  split
  · exact ⟨hp, List.Perm.refl _, rfl⟩
  · split
    · have hempty : Placed hash (⟨h.elemCnt, 2 ^ k, fun _ => []⟩ : Hash α) :=
        ⟨⟨k, rfl⟩, hfour', fun _ _ _ he => absurd he List.not_mem_nil⟩
      have hmove : (contents h).foldl (fun h e => HashTable.pushFront h (findBucket hash h e) e)
          ⟨h.elemCnt, 2 ^ k, fun _ => []⟩ =
          moveElements hash ⟨h.elemCnt, 2 ^ k, fun _ => []⟩ h.buckets h.bucketCnt :=
        List.foldl_flatMap
      have hnil : contents (⟨h.elemCnt, 2 ^ k, fun _ => []⟩ : Hash α) = [] := bucketContents_nil _
      obtain ⟨hplaced, hperm, hcnt⟩ := hempty.foldl_pushFront hmove
      rw [hnil, List.append_nil] at hperm
      exact ⟨hplaced, hperm, hcnt⟩
    · exact ⟨hp, List.Perm.refl _, rfl⟩

end Table

/-! ## The table as a set -/

/-- `less` is a strict weak order. -/
structure StrictWeakOrder {α : Type} (less : α → α → Bool) : Prop where
  irrefl : ∀ a, less a a = false
  trans : ∀ a b c, less a b = true → less b c = true → less a c = true
  incomparable : ∀ a b c, less a b = false → less b a = false → less b c = false →
    less c b = false → less a c = false ∧ less c a = false

/-- Neither element is less than the other one. -/
def Equivalent {α : Type} (less : α → α → Bool) (a b : α) : Prop :=
  less a b = false ∧ less b a = false

/-- The classes of equivalent elements. -/
def StrictWeakOrder.setoid {α : Type} {less : α → α → Bool} (hless : StrictWeakOrder less) :
    Setoid α where
  r := Equivalent less
  iseqv :=
    { refl := fun a => ⟨hless.irrefl a, hless.irrefl a⟩
      symm := fun h => ⟨h.2, h.1⟩
      trans := fun h h' => hless.incomparable _ _ _ h.1 h.2 h'.1 h'.2 }

/-- The element of a call. -/
def Op.elem {α : Type} : Op α → α
  | .insert e => e
  | .replace e => e
  | .find e => e
  | .delete e => e

/-- What a call does to a set. -/
noncomputable def Op.apply {α : Type} {r : Setoid α} (S : KeyedSet r) : Op α → KeyedSet r
  | .insert e => S.add e
  | .replace e => S.replace e
  | .find _ => S
  | .delete e => S.delete e

/-- The set and the results after a sequence of calls. Every call returns the element of the set
that is equivalent to its argument. -/
noncomputable def applyAll {α : Type} {r : Setoid α} :
    KeyedSet r → List (Op α) → KeyedSet r × List (Option α)
  | S, [] => (S, [])
  | S, op :: ops => ((applyAll (op.apply S) ops).1,
      S.lookup op.elem :: (applyAll (op.apply S) ops).2)

section Refinement

variable {α : Type} [DecidableEq α] {hash : α → UInt32} {less : α → α → Bool}
  {hless : StrictWeakOrder less} {h : Hash α} {S : KeyedSet hless.setoid}

/-- The table holds the elements of the set, each once. -/
structure Refines (hash : α → UInt32) (h : Hash α) (S : KeyedSet hless.setoid) : Prop where
  placed : Placed hash h
  count : h.elemCnt = (contents h).length
  nodup : (contents h).Nodup
  mem_iff : ∀ e, e ∈ contents h ↔ e ∈ S.carrier

omit [DecidableEq α] in
private theorem refines_init : Refines hash hashInit (KeyedSet.empty hless.setoid) where
  placed := ⟨⟨2, rfl⟩, Nat.le_refl 4, fun _ _ _ he => absurd he List.not_mem_nil⟩
  count := rfl
  nodup := List.nodup_nil
  mem_iff := fun _ => ⟨fun he => absurd he List.not_mem_nil, fun he => he.elim⟩

omit [DecidableEq α] in
private theorem Refines.hashFind_eq (hr : Refines hash h S)
    (hhash : ∀ a b, Equivalent less a b → hash a = hash b) (e : α) :
    findElem less (h.buckets (findBucket hash h e)) e = S.lookup e := by
  have hmatch : ∀ x, (!less x e && !less e x) = true ↔ Equivalent less x e := by
    intro x
    simp [Equivalent]
  have hbucket : ∀ x, Equivalent less x e →
      (x ∈ h.buckets (findBucket hash h e) ↔ x ∈ S.carrier) := by
    intro x hx
    have heq : findBucket hash h e = findBucket hash h x := by
      rw [findBucket, findBucket, hhash x e hx]
    rw [heq, ← hr.placed.mem_contents, hr.mem_iff]
  unfold findElem
  cases hfind : (h.buckets (findBucket hash h e)).find? fun x => !less x e && !less e x with
  | some x =>
    have hpred := List.find?_some hfind
    have hx : Equivalent less x e := (hmatch x).mp hpred
    exact (KeyedSet.lookup_eq_some_iff.mpr
      ⟨(hbucket x hx).mp (List.mem_of_find?_eq_some hfind), hx⟩).symm
  | none =>
    refine (KeyedSet.lookup_eq_none_iff.mpr fun x hxS hx => ?_).symm
    exact List.find?_eq_none.mp hfind x ((hbucket x hx).mpr hxS) ((hmatch x).mpr hx)

omit [DecidableEq α] in
private theorem Refines.of_perm {h' : Hash α} (hr : Refines hash h S) (hp : Placed hash h')
    (hperm : (contents h').Perm (contents h)) (hcnt : h'.elemCnt = h.elemCnt) :
    Refines hash h' S where
  placed := hp
  count := by rw [hcnt, hr.count, hperm.length_eq]
  nodup := hperm.nodup_iff.mpr hr.nodup
  mem_iff := fun e => hperm.mem_iff.trans (hr.mem_iff e)

omit [DecidableEq α] in
private theorem Refines.rehash (hr : Refines hash h S) (alloc : Bool) :
    ∃ h', HashTable.rehash hash alloc h = some h' ∧ Refines hash h' S := by
  obtain ⟨h', hh', hp, hperm, hcnt⟩ := hr.placed.rehash alloc
  exact ⟨h', hh', hr.of_perm hp hperm hcnt⟩

omit [DecidableEq α] in
private theorem Refines.insertElem (hr : Refines hash h S) {e : α} (hnone : S.lookup e = none) :
    Refines hash (insertElem h (findBucket hash h e) e) (S.replace e) := by
  have hp : Placed hash (⟨h.elemCnt + 1, h.bucketCnt, h.buckets⟩ : Hash α) :=
    ⟨hr.placed.power, hr.placed.four_le, hr.placed.bucket⟩
  have hperm : (contents (HashTable.insertElem h (findBucket hash h e) e)).Perm
      (e :: contents h) := hp.contents_pushFront e
  have hnot : ∀ x ∈ contents h, ¬ Equivalent less x e := fun x hx =>
    KeyedSet.lookup_eq_none_iff.mp hnone x ((hr.mem_iff x).mp hx)
  refine ⟨hp.pushFront e, ?_, ?_, fun x => ?_⟩
  · rw [hperm.length_eq, List.length_cons, ← hr.count]
    rfl
  · refine hperm.nodup_iff.mpr (List.nodup_cons.mpr ⟨fun he => ?_, hr.nodup⟩)
    exact hnot e he (hless.setoid.refl e)
  · rw [hperm.mem_iff, List.mem_cons, KeyedSet.mem_replace, hr.mem_iff]
    refine or_congr_right ⟨fun hx => ⟨hx, ?_⟩, fun hx => hx.1⟩
    exact hnot x ((hr.mem_iff x).mpr hx)

private theorem Refines.removeElem (hr : Refines hash h S) {e old : α}
    (hold : S.lookup e = some old) :
    Refines hash (removeElem h old) (S.delete e) := by
  have hcontents : contents (HashTable.removeElem h old) = (contents h).erase old :=
    bucketContents_erase hr.nodup old
  have hmem : old ∈ contents h := (hr.mem_iff old).mpr (KeyedSet.lookup_eq_some_iff.mp hold).1
  refine ⟨hr.placed.removeElem old, ?_, ?_, fun x => ?_⟩
  · rw [hcontents, List.length_erase_of_mem hmem, ← hr.count]
    rfl
  · rw [hcontents]
    exact hr.nodup.erase old
  · rw [hcontents, hr.nodup.mem_erase_iff, KeyedSet.mem_delete_of_lookup hold, hr.mem_iff,
      and_comm]

omit [DecidableEq α] in
private theorem Refines.congr {T : KeyedSet hless.setoid} (hr : Refines hash h S)
    (hST : ∀ x, x ∈ S.carrier ↔ x ∈ T.carrier) : Refines hash h T :=
  ⟨hr.placed, hr.count, hr.nodup, fun e => (hr.mem_iff e).trans (hST e)⟩

/-- A call does to the table what it does to the set, and returns the same. -/
theorem Refines.perform (hr : Refines hash h S)
    (hhash : ∀ a b, Equivalent less a b → hash a = hash b) (op : Op α) (alloc : Bool) :
    ∃ h', HashTable.perform hash less h (op, alloc) = some (h', S.lookup op.elem) ∧
      Refines hash h' (op.apply S) := by
  cases op with
  | insert e =>
    simp only [HashTable.perform, hashInsert, hr.hashFind_eq hhash e, Op.elem, Op.apply,
      KeyedSet.add]
    cases hlookup : S.lookup e with
    | none =>
      obtain ⟨h', hh', hr'⟩ := (hr.insertElem hlookup).rehash alloc
      refine ⟨h', ?_, hr'⟩
      rw [if_pos rfl, hh']
      rfl
    | some old =>
      obtain ⟨h', hh', hr'⟩ := hr.rehash alloc
      refine ⟨h', ?_, hr'⟩
      rw [if_neg (Option.some_ne_none old), hh']
      rfl
  | replace e =>
    simp only [HashTable.perform, hashReplace, hr.hashFind_eq hhash e, Op.elem, Op.apply]
    cases hlookup : S.lookup e with
    | none =>
      obtain ⟨h', hh', hr'⟩ := (hr.insertElem hlookup).rehash alloc
      refine ⟨h', ?_, hr'⟩
      rw [hh']
      rfl
    | some old =>
      -- the element goes into the bucket of the one that has been removed
      have hdeleted : (S.delete e).lookup e = none :=
        KeyedSet.lookup_eq_none_iff.mpr fun x hx => hx.2
      have hreplaced := (hr.removeElem hlookup).insertElem hdeleted
      have hsame : Refines hash (HashTable.insertElem (HashTable.removeElem h old)
          (findBucket hash h e) e) (S.replace e) :=
        hreplaced.congr fun x => or_congr_right ⟨fun hx => hx.1, fun hx => ⟨hx, hx.2⟩⟩
      obtain ⟨h', hh', hr'⟩ := hsame.rehash alloc
      refine ⟨h', ?_, hr'⟩
      dsimp only
      rw [hh']
      rfl
  | find e =>
    refine ⟨h, ?_, hr⟩
    simp only [HashTable.perform, hashFind, hr.hashFind_eq hhash e, Op.elem]
  | delete e =>
    simp only [HashTable.perform, hashDelete, hr.hashFind_eq hhash e, Op.elem, Op.apply]
    cases hlookup : S.lookup e with
    | none =>
      refine ⟨h, rfl, hr.congr fun x => ?_⟩
      rw [KeyedSet.delete_of_lookup_none hlookup]
    | some old =>
      obtain ⟨h', hh', hr'⟩ := (hr.removeElem hlookup).rehash alloc
      refine ⟨h', ?_, hr'⟩
      dsimp only
      rw [hh']
      rfl

private theorem Refines.performAll (hr : Refines hash h S)
    (hhash : ∀ a b, Equivalent less a b → hash a = hash b) (cs : List (Op α × Bool)) :
    ∃ h', HashTable.performAll hash less h cs = some (h', (applyAll S (cs.map Prod.fst)).2) ∧
      Refines hash h' (applyAll S (cs.map Prod.fst)).1 := by
  induction cs generalizing h S with
  | nil => exact ⟨h, rfl, hr⟩
  | cons c cs ih =>
    obtain ⟨h1, hh1, hr1⟩ := hr.perform hhash c.1 c.2
    obtain ⟨h', hh', hr'⟩ := ih hr1
    refine ⟨h', ?_, hr'⟩
    rw [HashTable.performAll, hh1, Option.bind_some, hh']
    rfl

private theorem Refines.ncard_eq (hr : Refines hash h S) : h.elemCnt = S.carrier.ncard := by
  have hset : S.carrier = ((contents h).toFinset : Set α) := by
    ext e
    rw [List.coe_toFinset, Set.mem_ofPred_eq, hr.mem_iff]
  rw [hset, Set.ncard_coe_finset, List.toFinset_card_of_nodup hr.nodup, hr.count]

end Refinement

/-! ## What an iteration visits -/

section Visits

variable {α : Type} {h : Hash α} {i : Iterator} {rounds : Nat}

/-- The elements of the buckets after one. -/
def bucketsAfter (h : Hash α) (bucket : Nat) : List α :=
  (List.range' (bucket + 1) (h.bucketCnt - (bucket + 1))).flatMap h.buckets

/-- The elements after the one that the iterator is at. -/
def remaining (h : Hash α) (i : Iterator) : List α :=
  (h.buckets i.bucket).drop i.elem ++ bucketsAfter h i.bucket

/-- The iterator is at an element or at the head of a list. -/
structure InTable (h : Hash α) (i : Iterator) : Prop where
  bucket_lt : i.bucket < h.bucketCnt
  elem_le : i.elem ≤ (h.buckets i.bucket).length

private theorem bucketsAfter_of_lt {bucket : Nat} (hlt : bucket + 1 < h.bucketCnt) :
    bucketsAfter h bucket = h.buckets (bucket + 1) ++ bucketsAfter h (bucket + 1) := by
  obtain ⟨n, hn⟩ : ∃ n, h.bucketCnt - (bucket + 1) = n + 1 := ⟨h.bucketCnt - (bucket + 2), by omega⟩
  have hn' : h.bucketCnt - (bucket + 1 + 1) = n := by omega
  rw [bucketsAfter, bucketsAfter, hn, hn', List.range'_succ, List.flatMap_cons]

private theorem bucketsAfter_of_ge {bucket : Nat} (hge : h.bucketCnt ≤ bucket + 1) :
    bucketsAfter h bucket = [] := by
  have hzero : h.bucketCnt - (bucket + 1) = 0 := by omega
  rw [bucketsAfter, hzero]
  rfl

private theorem hashNext_spec (hi : InTable h i) (hrounds : h.bucketCnt ≤ i.bucket + rounds) :
    (remaining h i = [] ∧ hashNext h rounds i = some none) ∨
    ∃ j e, hashNext h rounds i = some (some j) ∧ hashCur h j = some e ∧ InTable h j ∧
      remaining h i = e :: remaining h j := by
  have hbucket := hi.bucket_lt
  have helem := hi.elem_le
  unfold hashNext
  induction rounds generalizing i with
  | zero => omega
  | succ rounds ih =>
    rw [nextLoop]
    dsimp only
    rcases Nat.eq_or_lt_of_le helem with heq | hlt
    · have hdrop : (h.buckets i.bucket).drop i.elem = [] := by rw [heq, List.drop_length]
      rw [if_pos (by rw [heq]), remaining, hdrop, List.nil_append]
      rcases Nat.lt_or_ge (i.bucket + 1) h.bucketCnt with hmore | hlast
      · rw [if_neg (by omega), bucketsAfter_of_lt hmore]
        exact @ih ⟨i.bucket + 1, 0⟩ ⟨hmore, Nat.zero_le _⟩ (by simp only; omega) hmore
          (Nat.zero_le _)
      · rw [if_pos hlast, bucketsAfter_of_ge hlast]
        exact Or.inl ⟨rfl, rfl⟩
    · refine Or.inr ⟨⟨i.bucket, i.elem + 1⟩, (h.buckets i.bucket)[i.elem], ?_, ?_,
        ⟨hbucket, hlt⟩, ?_⟩
      · rw [if_neg (by omega)]
      · exact List.getElem?_eq_getElem hlt
      · rw [remaining, List.drop_eq_getElem_cons hlt, List.cons_append]
        rfl

private theorem visitLoop_eq (hi : InTable h i) (hrounds : (remaining h i).length < rounds) :
    visitLoop h rounds i = some (remaining h i) := by
  induction rounds generalizing i with
  | zero => exact absurd hrounds (Nat.not_lt_zero _)
  | succ rounds ih =>
    rw [visitLoop]
    rcases hashNext_spec hi (Nat.le_add_left _ _) with
      ⟨hnil, hnext⟩ | ⟨j, e, hnext, hcur, hj, hrest⟩
    · rw [hnext, hnil]
      rfl
    · rw [hrest, List.length_cons] at hrounds
      rw [hnext, Option.bind_some]
      dsimp only
      rw [hcur, Option.bind_some, ih hj (by omega), hrest]
      rfl

private theorem remaining_first (hpos : 0 < h.bucketCnt) : remaining h hashFirst = contents h := by
  obtain ⟨n, hn⟩ : ∃ n, h.bucketCnt = n + 1 := ⟨h.bucketCnt - 1, by omega⟩
  rw [remaining, bucketsAfter, contents, bucketContents, List.range_eq_range', hn,
    List.range'_succ, List.flatMap_cons]
  rfl

/-- An iteration from `hash_first` visits the elements of the table. -/
theorem visitLoop_first (hpos : 0 < h.bucketCnt) (hrounds : (contents h).length < rounds) :
    visitLoop h rounds hashFirst = some (contents h) := by
  rw [← remaining_first hpos] at hrounds ⊢
  exact visitLoop_eq ⟨hpos, Nat.zero_le _⟩ hrounds

end Visits

/-- Every sequence of calls from `hash_init`, with any failures of allocation, returns what it
returns on a set with one element per class, and leaves a table of that set: its elements are
counted, the number of buckets is a power of two and at least four, each element is in its bucket,
and an iteration visits each element once. -/
theorem hash_refines_set {α : Type} [DecidableEq α] (hash : α → UInt32) (less : α → α → Bool)
    (hless : StrictWeakOrder less) (hhash : ∀ a b, Equivalent less a b → hash a = hash b)
    (calls : List (Op α × Bool)) :
    ∃ h, performAll hash less hashInit calls =
        some (h, (applyAll (KeyedSet.empty hless.setoid) (calls.map Prod.fst)).2) ∧
      (∀ e, (∃ i < h.bucketCnt, e ∈ h.buckets i) ↔
        e ∈ (applyAll (KeyedSet.empty hless.setoid) (calls.map Prod.fst)).1.carrier) ∧
      h.elemCnt =
        (applyAll (KeyedSet.empty hless.setoid) (calls.map Prod.fst)).1.carrier.ncard ∧
      (∃ k, h.bucketCnt = 2 ^ k) ∧ 4 ≤ h.bucketCnt ∧
      (∀ i < h.bucketCnt, ∀ e ∈ h.buckets i, (hash e).toNat &&& (h.bucketCnt - 1) = i) ∧
      ∃ visited, (∀ rounds > h.elemCnt, visitLoop h rounds hashFirst = some visited) ∧
        visited.Nodup ∧ ∀ e, e ∈ visited ↔
          e ∈ (applyAll (KeyedSet.empty hless.setoid) (calls.map Prod.fst)).1.carrier := by
  obtain ⟨h, hh, hr⟩ := (@refines_init α hash less hless).performAll hhash calls
  refine ⟨h, hh, fun e => ?_, hr.ncard_eq, hr.placed.power, hr.placed.four_le, hr.placed.bucket,
    contents h, fun rounds hrounds => ?_, hr.nodup, hr.mem_iff⟩
  · rw [← hr.mem_iff, contents, mem_bucketContents]
  · have hfour := hr.placed.four_le
    exact visitLoop_first (by omega) (hr.count ▸ hrounds)

/-- Numbers with their tens as keys. -/
def tensHash (n : Nat) : UInt32 := UInt32.ofNat (n / 10)

/-- The order of the tens. -/
def tensLess (m n : Nat) : Bool := m / 10 < n / 10

private theorem strictWeakOrder_tensLess : StrictWeakOrder tensLess where
  irrefl := fun a => by simp [tensLess]
  trans := fun a b c => by
    simp only [tensLess, decide_eq_true_eq]
    omega
  incomparable := fun a b c => by
    simp only [tensLess, decide_eq_false_iff_not]
    omega

private theorem tensHash_eq (a b : Nat) (h : Equivalent tensLess a b) :
    tensHash a = tensHash b := by
  simp only [Equivalent, tensLess, decide_eq_false_iff_not] at h
  have heq : a / 10 = b / 10 := by omega
  rw [tensHash, tensHash, heq]

/-- A second element of a class is refused, replaced and deleted. -/
def tensCalls : List (Op Nat × Bool) :=
  [(.insert 11, true), (.insert 12, true), (.replace 13, false), (.find 14, true),
    (.delete 15, true), (.find 13, true)]

theorem hash_refines_set_tens :
    (performAll tensHash tensLess hashInit tensCalls).map Prod.snd =
        some [none, some 11, some 11, some 13, some 13, none] ∧
      ∃ h, performAll tensHash tensLess hashInit tensCalls =
          some (h, (applyAll (KeyedSet.empty strictWeakOrder_tensLess.setoid)
            (tensCalls.map Prod.fst)).2) ∧
        4 ≤ h.bucketCnt := by
  obtain ⟨h, hh, -, -, -, hfour, -⟩ :=
    hash_refines_set tensHash tensLess strictWeakOrder_tensLess tensHash_eq tensCalls
  exact ⟨by decide, h, hh, hfour⟩

end Pintos.Lib.HashTable
