import Pintos.Userprog.CommandLine
import Pintos.Userprog.Exception

/-!
# The arguments on the initial stack

The second half of `setup_stack`: the strings, the array of pointers to them and the header are
pushed below `PHYS_BASE`. Addresses are natural numbers; none of the pushes gets near address 0.
A store below the stack page faults in the kernel, and `page_fault` then either maps a page there
or ends the process inside `load`.
Source `userprog/process.c:681–715`, `userprog/exception.c:156–210`.
-/

namespace Pintos.Userprog

open Pintos.Base Pintos.Lib Pintos.Threads

/-- The end of the initial stack page, `PHYS_BASE`. -/
def STACK_TOP : Nat := PHYS_BASE.toNat

/-- The start of the initial stack page. -/
def STACK_BASE : Nat := STACK_TOP - PGSIZE

/-- User memory, `*esp`, and the ranges stored to, as start and length. -/
structure StackImage where
  mem : Bytes
  esp : Nat
  stores : List (Nat × Nat)

namespace StackImage

/-- `n` bytes are pushed. -/
def push (n : Nat) (bytes : Bytes) (img : StackImage) : StackImage where
  mem := memcpy img.mem (img.esp - n) n bytes
  esp := img.esp - n
  stores := (img.esp - n, n) :: img.stores

/-- A 32-bit word is pushed. -/
def pushWord (w : Nat) (img : StackImage) : StackImage := img.push 4 (leByte w)

/-- `*esp & ~0x3`, `userprog/process.c:696`. -/
def align (img : StackImage) : StackImage := { img with esp := img.esp / 4 * 4 }

end StackImage

/-- The loop over the strings, from the last to the first, with the addresses they get,
`userprog/process.c:688–693`. -/
def pushStrings (kmem : Bytes) : (args : List Nat) → StackImage →
    Option (List Nat × StackImage)
  | [], img => some ([], img)
  | arg :: args, img => do
    let (ptrs, img) ← pushStrings kmem args img
    let len ← strlen kmem PGSIZE arg
    let img := img.push (len + 1) fun j => kmem (arg + j)
    some (img.esp :: ptrs, img)

/-- The loop over the pointers, from the last to the first, `userprog/process.c:699–702`. -/
def pushPointers : (ptrs : List Nat) → StackImage → StackImage
  | [], img => img
  | ptr :: ptrs, img => (pushPointers ptrs img).pushWord ptr

/-- `setup_stack` from the first argument on, with `argv` and its strings in kernel memory,
`userprog/process.c:681–715`. -/
def pushArguments (kmem : Bytes) (argv : List (Option Nat)) (page : Bytes) :
    Option StackImage := do
  let args := (argv.takeWhile Option.isSome).reduceOption
  let (ptrs, img) ← pushStrings kmem args ⟨page, STACK_TOP, []⟩
  let img := pushPointers (ptrs ++ [0]) img.align
  let img := img.pushWord img.esp
  let img := img.pushWord args.length
  some (img.pushWord 0)

/-- How `setup_stack` ends: it returns to `load`, or the process exits at a store that faults,
while `load` holds `filesys_lock`. -/
inductive SetupOutcome
  | returned (ok : Bool)
  | exited
deriving DecidableEq

/-- The end of `setup_stack`, given the addresses below the stack page at which `page_fault`
lets a store go on. -/
def setupOutcome (resumes : Nat → Bool) (img : StackImage) : SetupOutcome :=
  if img.stores.all fun st => decide (STACK_BASE ≤ st.1) || resumes st.1 then .returned true
  else .exited

/-- The word at an address. -/
def wordAt (mem : Bytes) (a : Nat) : Nat := leWord fun j => mem (a + j)

/-- The bytes all strings take. -/
def stringBytes (strs : List (List UInt8)) : Nat := (strs.map fun s => s.length + 1).sum

/-- The bytes the whole area takes: the strings rounded up to words, the array and the header. -/
def footprint (strs : List (List UInt8)) : Nat :=
  (stringBytes strs + 3) / 4 * 4 + 4 * (strs.length + 1) + 12

/-! ### What a sequence of pushes does -/

/-- From `img` to `img'` only the `n` bytes below the stack pointer have been stored to. -/
structure Pushed (n : Nat) (img img' : StackImage) : Prop where
  esp : img'.esp + n = img.esp
  kept : ∀ b, img.esp ≤ b → img'.mem b = img.mem b
  stores : ∀ st ∈ img'.stores, st ∈ img.stores ∨ img'.esp ≤ st.1 ∧ st.1 + st.2 ≤ img.esp

namespace Pushed

variable {n m : Nat} {img img' img'' : StackImage}

private theorem refl (img : StackImage) : Pushed 0 img img :=
  ⟨rfl, fun _ _ => rfl, fun _ h => Or.inl h⟩

private theorem trans (h : Pushed n img img') (h' : Pushed m img' img'') :
    Pushed (n + m) img img'' where
  esp := by
    have h1 := h.esp
    have h2 := h'.esp
    omega
  kept b hb := by
    have h1 := h.esp
    rw [h'.kept b (by omega), h.kept b hb]
  stores st hst := by
    have h1 := h.esp
    have h2 := h'.esp
    rcases h'.stores st hst with hold | hnew
    · rcases h.stores st hold with hold | hnew
      · exact Or.inl hold
      · exact Or.inr ⟨by omega, hnew.2⟩
    · exact Or.inr ⟨hnew.1, by omega⟩

private theorem push (hn : n ≤ img.esp) (bytes : Bytes) : Pushed n img (img.push n bytes) where
  esp := Nat.sub_add_cancel hn
  kept b hb := by
    simp only [StackImage.push]
    rw [memcpy_of_ge (by omega)]
  stores st hst := by
    rcases List.mem_cons.mp hst with rfl | hold
    · exact Or.inr ⟨Nat.le_refl _, Nat.le_of_eq (Nat.sub_add_cancel hn)⟩
    · exact Or.inl hold

private theorem align (img : StackImage) : Pushed (img.esp % 4) img img.align where
  esp := by
    simp only [StackImage.align]
    omega
  kept _ _ := rfl
  stores _ h := Or.inl h

private theorem wordAt_eq (h : Pushed n img img') {a : Nat} (ha : img.esp ≤ a) :
    wordAt img'.mem a = wordAt img.mem a := by
  apply leWord_congr
  intro i _
  exact h.kept _ (by omega)

end Pushed

private theorem wordAt_pushWord {img : StackImage} {w : Nat} (hw : w < 2 ^ 32) :
    wordAt (img.pushWord w).mem (img.pushWord w).esp = w := by
  have hbytes : wordAt (img.pushWord w).mem (img.pushWord w).esp = leWord (leByte w) := by
    apply leWord_congr
    intro i hi
    simp only [StackImage.pushWord, StackImage.push]
    rw [memcpy_of_mem (Nat.le_add_right _ _) (by omega), Nat.add_sub_cancel_left]
  rw [hbytes, leWord_leByte hw]

/-! ### The strings -/

/-- The strings lie one after the other from `lo` to `hi`, each at its pointer. -/
inductive Laid (mem : Bytes) (hi : Nat) : (lo : Nat) → List Nat → List (List UInt8) → Prop
  | nil : Laid mem hi hi [] []
  | cons {lo : Nat} {s : List UInt8} {ptrs : List Nat} {strs : List (List UInt8)} :
      StrAt mem lo s → Laid mem hi (lo + (s.length + 1)) ptrs strs →
        Laid mem hi lo (lo :: ptrs) (s :: strs)

namespace Laid

variable {mem mem' : Bytes} {hi lo : Nat} {ptrs : List Nat} {strs : List (List UInt8)}

private theorem le (h : Laid mem hi lo ptrs strs) : lo ≤ hi := by
  induction h with
  | nil => exact Nat.le_refl _
  | cons _ _ ih => omega

private theorem length_eq (h : Laid mem hi lo ptrs strs) : ptrs.length = strs.length := by
  induction h with
  | nil => rfl
  | cons _ _ ih => rw [List.length_cons, List.length_cons, ih]

private theorem congr (h : Laid mem hi lo ptrs strs) (heq : ∀ b, lo ≤ b → mem' b = mem b) :
    Laid mem' hi lo ptrs strs := by
  induction h with
  | nil => exact .nil
  | cons hs _ ih =>
    exact .cons (hs.congr fun j _ => heq _ (Nat.le_add_right _ _)) (ih fun b hb => heq b (by omega))

private theorem get (h : Laid mem hi lo ptrs strs) {i : Nat} (hp : i < ptrs.length)
    (hs : i < strs.length) :
    StrAt mem ptrs[i] strs[i] ∧ lo ≤ ptrs[i] ∧ ptrs[i] + strs[i].length + 1 ≤ hi := by
  induction h generalizing i with
  | nil => cases hp
  | cons hstr hrest ih =>
    have hle := hrest.le
    cases i with
    | zero => exact ⟨hstr, Nat.le_refl _, hle⟩
    | succ i =>
      have hi := ih (Nat.lt_of_succ_lt_succ hp) (Nat.lt_of_succ_lt_succ hs)
      simp only [List.getElem_cons_succ]
      exact ⟨hi.1, by omega, hi.2.2⟩

private theorem apart (h : Laid mem hi lo ptrs strs) {i j : Nat} (hij : i < j)
    (hp : j < ptrs.length) (hs : j < strs.length) :
    ptrs[i] + strs[i].length + 1 ≤ ptrs[j] := by
  induction h generalizing i j with
  | nil => cases hp
  | cons hstr hrest ih =>
    obtain ⟨j, rfl⟩ := Nat.exists_eq_add_one.mpr (Nat.zero_lt_of_lt hij)
    have hp' := Nat.lt_of_succ_lt_succ hp
    have hs' := Nat.lt_of_succ_lt_succ hs
    cases i with
    | zero => exact (hrest.get hp' hs').2.1
    | succ i => exact ih (Nat.lt_of_succ_lt_succ hij) hp' hs'

private theorem mem_lt (h : Laid mem hi lo ptrs strs) {q : Nat} (hq : q ∈ ptrs) : q < hi := by
  obtain ⟨i, hi, rfl⟩ := List.getElem_of_mem hq
  have hget := h.get hi (h.length_eq ▸ hi)
  omega

end Laid

private theorem pushStrings_spec {kmem : Bytes} {args : List Nat} {strs : List (List UInt8)}
    {img : StackImage} (hargs : List.Forall₂ (StrAt kmem) args strs)
    (hlen : ∀ s ∈ strs, s.length < PGSIZE) (hesp : stringBytes strs ≤ img.esp) :
    ∃ ptrs img', pushStrings kmem args img = some (ptrs, img') ∧
      Pushed (stringBytes strs) img img' ∧ Laid img'.mem img.esp img'.esp ptrs strs := by
  induction hargs with
  | nil => exact ⟨[], img, rfl, .refl img, .nil⟩
  | @cons arg s args strs harg _ ih =>
    have hsum : stringBytes (s :: strs) = stringBytes strs + (s.length + 1) := by
      simp only [stringBytes, List.map_cons, List.sum_cons]
      omega
    rw [hsum] at hesp ⊢
    obtain ⟨ptrs, img1, heq, hpushed, hlaid⟩ :=
      ih (fun t ht => hlen t (List.mem_cons_of_mem s ht)) (by omega)
    have hstrlen := harg.strlen_eq (hlen s List.mem_cons_self)
    have hroom : s.length + 1 ≤ img1.esp := by
      have := hpushed.esp
      omega
    have hpush : Pushed (s.length + 1) img1 (img1.push (s.length + 1) fun j => kmem (arg + j)) :=
      .push hroom _
    refine ⟨(img1.esp - (s.length + 1)) :: ptrs, img1.push (s.length + 1) fun j => kmem (arg + j),
      ?_, hpushed.trans hpush, .cons ?_ ?_⟩
    · simp only [pushStrings, heq, hstrlen, Option.bind_eq_bind, Option.bind_some]
      rfl
    · apply harg.congr
      intro j hj
      simp only [StackImage.push]
      rw [memcpy_of_mem (Nat.le_add_right _ _) (by omega), Nat.add_sub_cancel_left]
    · rw [hpush.esp]
      exact hlaid.congr hpush.kept

/-! ### The array and the header -/

private theorem Pushed.pushWord {img : StackImage} (hesp : 4 ≤ img.esp) (w : Nat) :
    Pushed 4 img (img.pushWord w) := .push hesp _

private theorem pushPointers_spec {ptrs : List Nat} {img : StackImage} (hw : ∀ w ∈ ptrs, w < 2 ^ 32)
    (hesp : 4 * ptrs.length ≤ img.esp) :
    Pushed (4 * ptrs.length) img (pushPointers ptrs img) ∧
      ∀ i (hi : i < ptrs.length),
        wordAt (pushPointers ptrs img).mem ((pushPointers ptrs img).esp + 4 * i) = ptrs[i] := by
  induction ptrs with
  | nil => exact ⟨.refl img, fun i hi => absurd hi (Nat.not_lt_zero i)⟩
  | cons w ptrs ih =>
    rw [List.length_cons] at hesp
    obtain ⟨hpushed, hwords⟩ := ih (fun v hv => hw v (List.mem_cons_of_mem w hv)) (by omega)
    have hpush : Pushed 4 (pushPointers ptrs img) (pushPointers (w :: ptrs) img) := by
      apply Pushed.pushWord
      have := hpushed.esp
      omega
    refine ⟨hpushed.trans hpush, fun i hi => ?_⟩
    cases i with
    | zero => exact wordAt_pushWord (hw w List.mem_cons_self)
    | succ i =>
      have hesp' := hpush.esp
      have haddr : (pushPointers (w :: ptrs) img).esp + 4 * (i + 1) =
          (pushPointers ptrs img).esp + 4 * i := by omega
      rw [haddr, hpush.wordAt_eq (Nat.le_add_right _ _)]
      exact hwords i (Nat.lt_of_succ_lt_succ hi)

/-- The argument area as a new program finds it: return address, `argc` and `argv` at the stack
pointer, the array above them and the strings above the array. -/
structure ArgumentArea (img : StackImage) (strs : List (List UInt8)) (argv : Nat) : Prop where
  aligned : img.esp % 4 = 0
  word0 : wordAt img.mem img.esp = 0
  word1 : wordAt img.mem (img.esp + 4) = strs.length
  word2 : wordAt img.mem (img.esp + 8) = argv
  header : img.esp + 12 ≤ argv
  strings : ∀ i (hi : i < strs.length), StrAt img.mem (wordAt img.mem (argv + 4 * i)) strs[i]
  null : wordAt img.mem (argv + 4 * strs.length) = 0
  /-- The array lies below `PHYS_BASE`, also where no string lies above it. -/
  below : argv + 4 * (strs.length + 1) ≤ STACK_TOP
  /-- The strings lie above the array and below `PHYS_BASE`. -/
  array : ∀ i (hi : i < strs.length),
    argv + 4 * (strs.length + 1) ≤ wordAt img.mem (argv + 4 * i) ∧
      wordAt img.mem (argv + 4 * i) + strs[i].length + 1 ≤ STACK_TOP
  /-- No two strings overlap. -/
  apart : ∀ i j (hij : i < j) (hj : j < strs.length),
    wordAt img.mem (argv + 4 * i) + strs[i].length + 1 ≤ wordAt img.mem (argv + 4 * j)

/-- The header: the address of the array, the number of arguments and the return address. -/
theorem pushHeader_spec {img : StackImage} {n : Nat} (hesp : 12 ≤ img.esp)
    (hmax : img.esp < 2 ^ 32) (hn : n < 2 ^ 32) :
    let img' := ((img.pushWord img.esp).pushWord n).pushWord 0
    Pushed 12 img img' ∧ wordAt img'.mem img'.esp = 0 ∧ wordAt img'.mem (img'.esp + 4) = n ∧
      wordAt img'.mem (img'.esp + 8) = img.esp := by
  have h1 : Pushed 4 img (img.pushWord img.esp) := .pushWord (by omega) _
  have e1 := h1.esp
  have h2 : Pushed 4 (img.pushWord img.esp) ((img.pushWord img.esp).pushWord n) :=
    .pushWord (by omega) _
  have e2 := h2.esp
  have h3 : Pushed 4 ((img.pushWord img.esp).pushWord n)
      (((img.pushWord img.esp).pushWord n).pushWord 0) := .pushWord (by omega) _
  have e3 := h3.esp
  refine ⟨(h1.trans h2).trans h3, wordAt_pushWord (by omega), ?_, ?_⟩
  · rw [e3, h3.wordAt_eq (Nat.le_refl _)]
    exact wordAt_pushWord hn
  · have haddr : (((img.pushWord img.esp).pushWord n).pushWord 0).esp + 8 =
        (img.pushWord img.esp).esp := by omega
    rw [haddr, h3.wordAt_eq (by omega), h2.wordAt_eq (Nat.le_refl _)]
    exact wordAt_pushWord hmax

private theorem argumentArea_of_laid {img : StackImage} {strs : List (List UInt8)} {ptrs : List Nat}
    {lo argv : Nat} (hlaid : Laid img.mem STACK_TOP lo ptrs strs)
    (hlo : argv + 4 * (strs.length + 1) ≤ lo) (htop : lo ≤ STACK_TOP)
    (harray : ∀ i (hi : i < (ptrs ++ [0]).length),
      wordAt img.mem (argv + 4 * i) = (ptrs ++ [0])[i])
    (haligned : img.esp % 4 = 0) (hzero : wordAt img.mem img.esp = 0)
    (hargc : wordAt img.mem (img.esp + 4) = strs.length)
    (hargv : wordAt img.mem (img.esp + 8) = argv) (hheader : img.esp + 12 ≤ argv) :
    ArgumentArea img strs argv := by
  have hcount := hlaid.length_eq
  have hptr : ∀ i (hi : i < strs.length), wordAt img.mem (argv + 4 * i) = ptrs[i] := by
    intro i hi
    rw [harray i (by rw [List.length_append]; omega), List.getElem_append_left]
  refine ⟨haligned, hzero, hargc, hargv, hheader, fun i hi => ?_, ?_, hlo.trans htop,
    fun i hi => ?_, fun i j hij hj => ?_⟩
  · rw [hptr i hi]
    exact (hlaid.get _ hi).1
  · rw [harray _ (by rw [List.length_append, List.length_singleton]; omega)]
    simp [← hcount]
  · rw [hptr i hi]
    have hget := hlaid.get (hcount ▸ hi) hi
    exact ⟨by omega, hget.2.2⟩
  · rw [hptr i (Nat.lt_trans hij hj), hptr j hj]
    exact hlaid.apart hij _ hj

private theorem reduceOption_takeWhile (args : List Nat) :
    ((args.map some ++ [none]).takeWhile Option.isSome).reduceOption = args := by
  induction args with
  | nil => rfl
  | cons arg args ih => exact congrArg (arg :: ·) ih

private theorem pushArguments_spec {kmem : Bytes} {args : List Nat} {strs : List (List UInt8)}
    (page : Bytes) (hargs : List.Forall₂ (StrAt kmem) args strs)
    (hlen : ∀ s ∈ strs, s.length < PGSIZE) (hesp : footprint strs ≤ STACK_TOP) :
    ∃ img, pushArguments kmem (args.map some ++ [none]) page = some img ∧
      Pushed (footprint strs) ⟨page, STACK_TOP, []⟩ img ∧ (img.esp, 4) ∈ img.stores ∧
      ArgumentArea img strs (img.esp + 12) := by
  have htop : STACK_TOP = 3221225472 := rfl
  unfold footprint at hesp ⊢
  obtain ⟨ptrs, img1, heq, hstrings, hlaid⟩ :=
    @pushStrings_spec _ _ _ ⟨page, STACK_TOP, []⟩ hargs hlen
      (show stringBytes strs ≤ STACK_TOP by omega)
  have hargc : args.length = strs.length := hargs.length_eq
  have hcount := hlaid.length_eq
  have e1 : img1.esp + stringBytes strs = STACK_TOP := hstrings.esp
  have halign := Pushed.align img1
  have e2 := halign.esp
  have hptrs : ∀ w ∈ ptrs ++ [0], w < 2 ^ 32 := by
    intro w hw
    rcases List.mem_append.mp hw with hw | hw
    · have := hlaid.mem_lt hw
      simp only at this
      omega
    · rw [List.mem_singleton.mp hw]
      omega
  have hroom : 4 * (ptrs ++ [0]).length ≤ img1.align.esp := by
    rw [List.length_append, List.length_singleton]
    omega
  obtain ⟨hpointers, harray⟩ := pushPointers_spec hptrs hroom
  rw [List.length_append, List.length_singleton, hcount] at hpointers
  have e3 := hpointers.esp
  obtain ⟨hheader, hzero, hone, htwo⟩ :=
    @pushHeader_spec (pushPointers (ptrs ++ [0]) img1.align) args.length (by omega) (by omega)
      (by omega)
  have e4 := hheader.esp
  have hpushed := ((hstrings.trans halign).trans hpointers).trans hheader
  have habove := (halign.trans hpointers).trans hheader
  have hsize : stringBytes strs + img1.esp % 4 + 4 * (strs.length + 1) + 12 =
      (stringBytes strs + 3) / 4 * 4 + 4 * (strs.length + 1) + 12 := by omega
  rw [hsize] at hpushed
  refine ⟨(((pushPointers (ptrs ++ [0]) img1.align).pushWord
    (pushPointers (ptrs ++ [0]) img1.align).esp).pushWord args.length).pushWord 0,
    ?_, hpushed, List.mem_cons_self, ?_⟩
  · simp only [pushArguments, reduceOption_takeWhile, heq, Option.bind_eq_bind, Option.bind_some]
  · rw [e4]
    apply argumentArea_of_laid (hlaid.congr habove.kept) (by omega) (by omega) ?_ (by omega) hzero
      (hone.trans hargc) htwo (Nat.le_of_eq e4)
    intro i hi
    rw [hheader.wordAt_eq (Nat.le_add_right _ _)]
    exact harray i hi

private theorem length_lt_of_mem {strs : List (List UInt8)} {s : List UInt8} (h : s ∈ strs) :
    s.length < stringBytes strs :=
  List.single_le_sum (fun _ _ => Nat.zero_le _) _ (List.mem_map_of_mem h)

/-- Arguments that fit in the page can be read back: the stack image is well formed and lies in
the page. -/
theorem arguments_decode (kmem page : Bytes) {args : List Nat} {strs : List (List UInt8)}
    (hargs : List.Forall₂ (StrAt kmem) args strs) (hfit : footprint strs ≤ PGSIZE) :
    ∃ img argv, pushArguments kmem (args.map some ++ [none]) page = some img ∧
      STACK_BASE ≤ img.esp ∧ ArgumentArea img strs argv := by
  have htop : STACK_TOP = 3221225472 := rfl
  have hpage : PGSIZE = 4096 := rfl
  have hlen : ∀ s ∈ strs, s.length < PGSIZE := by
    intro s hs
    have := length_lt_of_mem hs
    unfold footprint at hfit
    omega
  obtain ⟨img, heq, hpushed, -, harea⟩ := pushArguments_spec page hargs hlen (by omega)
  have hesp : img.esp + footprint strs = STACK_TOP := hpushed.esp
  refine ⟨img, img.esp + 12, heq, ?_, harea⟩
  unfold STACK_BASE
  omega

/-- The arguments of `ls -l`, with zeros in the rest of kernel memory. -/
theorem arguments_decode_two :
    ∃ img argv, pushArguments (fun j => [108, 115, 0, 45, 108].getD j 0) [some 0, some 3, none]
        (fun _ => 0) = some img ∧
      STACK_BASE ≤ img.esp ∧ ArgumentArea img [[108, 115], [45, 108]] argv := by
  have hfirst : StrAt (fun j => [108, 115, 0, 45, 108].getD j 0) 0 [108, 115] :=
    ⟨rfl, by decide, rfl, by decide, rfl⟩
  have hsecond : StrAt (fun j => [108, 115, 0, 45, 108].getD j 0) 3 [45, 108] :=
    ⟨rfl, by decide, rfl, by decide, rfl⟩
  exact arguments_decode _ _ (.cons hfirst (.cons hsecond .nil)) (by decide)

/-! ### Arguments that do not fit -/

/-- Every store of `setup_stack` is in the stack page, or `setup_stack` returns false, whatever
`page_fault` does about a store below the page. -/
def ArgumentsContained (args : Arguments) : Prop :=
  ∀ (resumes : Nat → Bool) (page : Bytes), ∃ img,
    pushArguments args.copy args.argv page = some img ∧
      ((∀ st ∈ img.stores, STACK_BASE ≤ st.1 ∧ st.1 + st.2 ≤ STACK_TOP) ∨
        setupOutcome resumes img = .returned false)

private theorem setupOutcome_ne_false (resumes : Nat → Bool) (img : StackImage) :
    setupOutcome resumes img ≠ .returned false := by
  unfold setupOutcome
  split <;> simp

open Pintos.Vm in
private theorem stringBytes_copiedWords_le (cmdLine : CString) :
    stringBytes (copiedWords cmdLine) ≤ PGSIZE := by
  have hsum := @sum_words_le _ SPACE.contains (cmdLine.bytes.take (PGSIZE - 1))
  have htake : (cmdLine.bytes.take (PGSIZE - 1)).length ≤ PGSIZE - 1 := by
    rw [List.length_take]
    exact Nat.min_le_left _ _
  have hpage : PGSIZE = 4096 := rfl
  unfold stringBytes copiedWords
  omega

section created

variable {a : ExecAllocs} {page : Bytes} {cmdLine : CString} {args : Arguments}
  (h : processExecute a page cmdLine = some (.created args))
include h

private theorem pushArguments_created (stack : Bytes) :
    ∃ img, pushArguments args.copy args.argv stack = some img ∧
      Pushed (footprint (copiedWords cmdLine)) ⟨stack, STACK_TOP, []⟩ img ∧
      (img.esp, 4) ∈ img.stores := by
  have htop : STACK_TOP = 3221225472 := rfl
  have hpage : PGSIZE = 4096 := rfl
  have hslots : ARGV_SLOTS = 1024 := rfl
  obtain ⟨hle, tokens, hargv, htokens⟩ := words_of_created h
  have hstrings := stringBytes_copiedWords_le cmdLine
  have hlen : ∀ s ∈ copiedWords cmdLine, s.length < PGSIZE :=
    fun s hs => Nat.lt_of_lt_of_le (length_lt_of_mem hs) hstrings
  have hroom : footprint (copiedWords cmdLine) ≤ STACK_TOP := by
    unfold footprint
    omega
  obtain ⟨img, heq, hpushed, hlast, -⟩ := pushArguments_spec stack htokens hlen hroom
  rw [← hargv] at heq
  exact ⟨img, heq, hpushed, hlast⟩

private theorem footprint_le_of_contained (hc : ArgumentsContained args) :
    footprint (copiedWords cmdLine) ≤ PGSIZE := by
  obtain ⟨img, heq, hstores⟩ := hc (fun _ => false) (fun _ => 0)
  obtain ⟨img', heq', hpushed, hlast⟩ := pushArguments_created h fun _ => 0
  cases heq.symm.trans heq'
  have hesp : img.esp + footprint (copiedWords cmdLine) = STACK_TOP := hpushed.esp
  have htop : STACK_TOP = 3221225472 := rfl
  have hpage : PGSIZE = 4096 := rfl
  rcases hstores with hin | hfalse
  · have hbase := (hin _ hlast).1
    unfold STACK_BASE at hbase
    omega
  · exact absurd hfalse (setupOutcome_ne_false _ _)

private theorem contained_of_footprint_le (hfit : footprint (copiedWords cmdLine) ≤ PGSIZE) :
    ArgumentsContained args := by
  intro resumes stack
  obtain ⟨img, heq, hpushed, -⟩ := pushArguments_created h stack
  have hesp : img.esp + footprint (copiedWords cmdLine) = STACK_TOP := hpushed.esp
  refine ⟨img, heq, Or.inl fun st hst => ?_⟩
  rcases hpushed.stores st hst with hold | hnew
  · cases hold
  · unfold STACK_BASE
    exact ⟨by omega, hnew.2⟩

end created

/-- The arguments of a new process stay in the stack page exactly when the words of the command
line, their pointers and the header fit. -/
theorem arguments_contained_iff {a : ExecAllocs} {page : Bytes} {cmdLine : CString}
    {args : Arguments} (h : processExecute a page cmdLine = some (.created args)) :
    ArgumentsContained args ↔ footprint (copiedWords cmdLine) ≤ PGSIZE :=
  ⟨footprint_le_of_contained h, contained_of_footprint_le h⟩

/-- All allocations succeed. -/
private def allocsOk : ExecAllocs := ⟨true, true, true, true⟩

/-- The command line `grep -i ab  c`. -/
def grepLine : CString :=
  ⟨[103, 114, 101, 112, 32, 45, 105, 32, 97, 98, 32, 32, 99], by decide⟩

/-- A program with three arguments stays in its page. -/
theorem arguments_contained_grep :
    ∃ args, processExecute allocsOk (fun _ => 0) grepLine = some (.created args) ∧
      (copiedWords grepLine).length = 4 ∧ ArgumentsContained args := by
  obtain ⟨tokens, copy, h, -⟩ := @processExecute_created allocsOk (fun _ => 0) grepLine rfl
    (by decide) (by decide)
  exact ⟨_, h, by decide, (arguments_contained_iff h).mpr (by decide)⟩

/-- The command line `a a … a` of 700 words, 1399 bytes long. -/
def manyWords : CString :=
  ⟨(List.replicate 699 [97, 32]).flatten ++ [97], by decide +kernel⟩

/-- 700 words of one letter need 4216 bytes: the pointers run out of the page. -/
theorem manyWords_overflow :
    ∃ args, processExecute allocsOk (fun _ => 0) manyWords = some (.created args) ∧
      ¬ ArgumentsContained args := by
  obtain ⟨tokens, copy, h, -⟩ := @processExecute_created allocsOk (fun _ => 0) manyWords rfl
    (by decide +kernel) (by decide +kernel)
  refine ⟨_, h, fun hc => ?_⟩
  have hfit := footprint_le_of_contained h hc
  have hsize : footprint (copiedWords manyWords) = 4216 := by decide +kernel
  rw [hsize] at hfit
  exact absurd hfit (by decide)

end Pintos.Userprog
