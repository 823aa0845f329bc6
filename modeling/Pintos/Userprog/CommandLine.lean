import Pintos.Lib.CString
import Pintos.Threads.Vaddr

/-!
# Splitting the command line

`process_execute` up to the creation of the thread: the line is copied into one page, cut at
its spaces, and the pointers to the pieces are stored in another page.
Source `userprog/process.c:85–130`, `threads/thread.c:596–621`.
-/

namespace Pintos.Userprog

open Pintos.Base Pintos.Lib Pintos.Threads

/-- The pointers that fit in the page of `argv`, `PGSIZE / sizeof (char *)`. -/
def ARGV_SLOTS : Nat := PGSIZE / 4

/-- The delimiters of `process_execute`. -/
def SPACE : List UInt8 := [0x20]

/-- Which allocations succeed: the page of `argv`, the page of the copy, the child's record and
the page of its thread. -/
structure ExecAllocs where
  argvPage : Bool
  copyPage : Bool
  childProc : Bool
  threadPage : Bool

/-- `argv`, by index as far as it has been written, and the page its strings lie in. -/
structure Arguments where
  argv : List (Option Nat)
  copy : Bytes

/-- The loop over the tokens ends at the last one, or when `argv` is full. -/
inductive SplitResult
  | full
  | split (argv : List Nat) (copy : Bytes)

/-- What `process_execute` has done before it waits for the child. -/
inductive ExecResult
  | tidError
  | created (args : Arguments)

/-- The loop over the tokens from position `s`, `userprog/process.c:101–111`. A page holds less
than `PGSIZE` bytes of text. -/
def splitLoop : (left s : Nat) → (copy : Bytes) → (argv : List Nat) → Option SplitResult
  | 0, _, _, _ => none
  | left + 1, s, copy, argv =>
    match strtokR SPACE PGSIZE s copy with
    | none => none
    | some (none, _, copy) => some (.split argv copy)
    | some (some token, save, copy) =>
      if ARGV_SLOTS ≤ argv.length then some .full else splitLoop left save copy (argv ++ [token])

/-- `thread_create` as far as its name matters: whether there is a thread, and the assertion
of `init_thread`, `threads/thread.c:603`. -/
def threadCreate (page : Bool) (name : Option Nat) : Option Bool :=
  if page then if name.isSome then some true else none else some false

/-- `process_execute` up to the new thread; `page` is what the page of the copy held before,
`userprog/process.c:85–130`. -/
def processExecute (a : ExecAllocs) (page : Bytes) (cmdLine : CString) : Option ExecResult :=
  if a.argvPage && a.copyPage then
    match splitLoop (ARGV_SLOTS + 2) 0 (strlcpy page cmdLine PGSIZE) [] with
    | none => none
    | some .full => some .tidError
    | some (.split tokens copy) =>
      let argv := tokens.map some ++ [none]
      if a.childProc then
        (threadCreate a.threadPage argv.head?.join).map fun created =>
          if created then .created ⟨argv, copy⟩ else .tidError
      else some .tidError
  else some .tidError

/-- The tokens found so far lie before position `s`. -/
def TokensBefore (copy : Bytes) (s : Nat) (argv : List Nat) (found : List (List UInt8)) : Prop :=
  List.Forall₂ (fun p w => StrAt copy p w ∧ p + w.length ≤ s) argv found

private theorem TokensBefore.cut {copy copy' : Bytes} {s token save : Nat} {argv : List Nat}
    {found : List (List UInt8)} {l word rest : List UInt8} (h : TokensBefore copy s argv found)
    (hcut : TokenCut SPACE copy s l token save copy' word rest) :
    TokensBefore copy' save (argv ++ [token]) (found ++ [word]) := by
  have hstart := hcut.start
  have hapart := hcut.apart
  apply List.rel_append
  · apply h.imp
    intro p w hw
    refine ⟨hw.1.congr fun j hj => hcut.kept _ ?_, ?_⟩ <;> omega
  · exact .cons ⟨hcut.strWord, hcut.apart⟩ .nil

/-- The loop finds every word, unless they are more than the page has slots. -/
theorem splitLoop_spec {left s : Nat} {copy : Bytes} {argv : List Nat}
    {found : List (List UInt8)} {l : List UInt8} (hl : StrAt copy s l) (hlen : l.length < PGSIZE)
    (hfound : TokensBefore copy s argv found) (hle : argv.length ≤ ARGV_SLOTS)
    (hleft : ARGV_SLOTS + 1 < left + argv.length) :
    if ARGV_SLOTS < (found ++ words SPACE.contains l).length then
      splitLoop left s copy argv = some .full
    else ∃ tokens copy', splitLoop left s copy argv = some (.split tokens copy') ∧
      List.Forall₂ (StrAt copy') tokens (found ++ words SPACE.contains l) := by
  induction left generalizing s copy argv found l with
  | zero => omega
  | succ left ih =>
    have hsame : argv.length = found.length := hfound.length_eq
    rcases @strtokR_spec SPACE _ _ _ _ hl hlen with
      ⟨hnil, save, heq⟩ | ⟨token, save, copy', word, rest, heq, hcut⟩
    · rw [hnil, List.append_nil, if_neg (by omega)]
      simp only [splitLoop, heq]
      exact ⟨argv, copy, rfl, hfound.imp fun _ _ h => h.1⟩
    · rw [hcut.words_eq]
      simp only [splitLoop, heq]
      by_cases hfull : ARGV_SLOTS ≤ argv.length
      · rw [if_pos (by rw [List.length_append, List.length_cons]; omega), if_pos hfull]
      · rw [if_neg hfull, ← List.singleton_append, ← List.append_assoc]
        apply ih hcut.strRest (Nat.lt_trans hcut.shorter hlen) (hfound.cut hcut)
        · rw [List.length_append, List.length_singleton]
          omega
        · rw [List.length_append, List.length_singleton]
          omega

/-- The words of the part of the line that fits in the page of the copy. -/
def copiedWords (cmdLine : CString) : List (List UInt8) :=
  words SPACE.contains (cmdLine.bytes.take (PGSIZE - 1))

private theorem splitLoop_strlcpy (page : Bytes) (cmdLine : CString) :
    if ARGV_SLOTS < (copiedWords cmdLine).length then
      splitLoop (ARGV_SLOTS + 2) 0 (strlcpy page cmdLine PGSIZE) [] = some .full
    else ∃ tokens copy, splitLoop (ARGV_SLOTS + 2) 0 (strlcpy page cmdLine PGSIZE) [] =
        some (.split tokens copy) ∧ List.Forall₂ (StrAt copy) tokens (copiedWords cmdLine) := by
  have hcopy := strAt_strlcpy page cmdLine (PGSIZE - 1)
  apply @splitLoop_spec _ _ _ _ [] _ hcopy
  · rw [List.length_take]
    exact Nat.lt_of_le_of_lt (Nat.min_le_left _ _) (by decide)
  · exact .nil
  · exact Nat.zero_le _
  · exact Nat.lt_succ_self _

/-- `argv` is the command line cut at its spaces: it names every word in order and nothing
else, at least one, ends with a null pointer, and lies in its page. -/
structure SplitExact (cmdLine : CString) (args : Arguments) : Prop where
  tokens : ∃ tokens : List Nat, args.argv = tokens.map some ++ [none] ∧ 1 ≤ tokens.length ∧
    List.Forall₂ (StrAt args.copy) tokens (words SPACE.contains cmdLine.bytes)
  inPage : args.argv.length ≤ ARGV_SLOTS

/-- `process_execute` gives the thread an exact `argv`, or gives up before there is a thread. -/
def SplitsExactly (a : ExecAllocs) (page : Bytes) (cmdLine : CString) : Prop :=
  ∃ r, processExecute a page cmdLine = some r ∧ ∀ args, r = .created args →
    SplitExact cmdLine args

/-- All four allocations succeed. -/
def ExecAllocs.all (a : ExecAllocs) : Bool :=
  a.argvPage && a.copyPage && a.childProc && a.threadPage

private theorem contains_space (c : UInt8) : SPACE.contains c = true ↔ c = 0x20 := by
  simp [SPACE]

private theorem processExecute_of_not_all {a : ExecAllocs} (ha : a.all = false) (page : Bytes)
    (cmdLine : CString) : processExecute a page cmdLine = some .tidError := by
  have hloop := splitLoop_strlcpy page cmdLine
  obtain ⟨argvPage, copyPage, childProc, threadPage⟩ := a
  unfold processExecute
  split at hloop
  · rw [hloop]
    simp
  · obtain ⟨tokens, copy, heq, -⟩ := hloop
    rw [heq]
    cases argvPage <;> cases copyPage <;> cases childProc <;> cases threadPage <;>
      first | rfl | cases ha

section allocated

variable {a : ExecAllocs} {page : Bytes} {cmdLine : CString} (ha : a.all = true)
include ha

private theorem processExecute_full (hfull : ARGV_SLOTS < (copiedWords cmdLine).length) :
    processExecute a page cmdLine = some .tidError := by
  have hloop := splitLoop_strlcpy page cmdLine
  rw [if_pos hfull] at hloop
  simp only [ExecAllocs.all, Bool.and_eq_true] at ha
  simp [processExecute, hloop, ha]

private theorem processExecute_no_word (hnil : copiedWords cmdLine = []) :
    processExecute a page cmdLine = none := by
  have hloop := splitLoop_strlcpy page cmdLine
  rw [hnil, if_neg (by simp)] at hloop
  obtain ⟨tokens, copy, heq, htokens⟩ := hloop
  have htnil : tokens = [] := List.forall₂_nil_right_iff.mp htokens
  subst htnil
  simp only [ExecAllocs.all, Bool.and_eq_true] at ha
  simp [processExecute, heq, ha, threadCreate]

theorem processExecute_created (hle : (copiedWords cmdLine).length ≤ ARGV_SLOTS)
    (hne : copiedWords cmdLine ≠ []) :
    ∃ tokens copy, processExecute a page cmdLine =
        some (.created ⟨tokens.map some ++ [none], copy⟩) ∧
      List.Forall₂ (StrAt copy) tokens (copiedWords cmdLine) := by
  have hloop := splitLoop_strlcpy page cmdLine
  rw [if_neg (by omega)] at hloop
  obtain ⟨tokens, copy, heq, htokens⟩ := hloop
  refine ⟨tokens, copy, ?_, htokens⟩
  simp only [ExecAllocs.all, Bool.and_eq_true] at ha
  cases tokens with
  | nil => exact absurd (List.forall₂_nil_left_iff.mp htokens) hne
  | cons token tokens => simp [processExecute, heq, ha, threadCreate]

end allocated

theorem words_of_created {a : ExecAllocs} {page : Bytes} {cmdLine : CString} {args : Arguments}
    (h : processExecute a page cmdLine = some (.created args)) :
    (copiedWords cmdLine).length ≤ ARGV_SLOTS ∧ ∃ tokens, args.argv = tokens.map some ++ [none] ∧
      List.Forall₂ (StrAt args.copy) tokens (copiedWords cmdLine) := by
  cases ha : a.all with
  | false =>
    rw [processExecute_of_not_all ha] at h
    cases h
  | true =>
    rcases Nat.lt_or_ge ARGV_SLOTS (copiedWords cmdLine).length with hfull | hle
    · rw [processExecute_full ha hfull] at h
      cases h
    by_cases hnil : copiedWords cmdLine = []
    · rw [processExecute_no_word ha hnil] at h
      cases h
    · obtain ⟨tokens, copy, heq, htokens⟩ := @processExecute_created _ page _ ha hle hnil
      rw [heq] at h
      cases h
      exact ⟨hle, tokens, rfl, htokens⟩

private theorem map_some_append_none_inj {xs ys : List Nat}
    (h : xs.map some ++ [none] = ys.map some ++ [none]) : xs = ys :=
  List.map_injective_iff.mpr (Option.some_injective _) (List.append_cancel_right h)

/-- The copy holds all words of the line exactly when only spaces are cut off. -/
theorem copiedWords_eq_iff (cmdLine : CString) :
    copiedWords cmdLine = words SPACE.contains cmdLine.bytes ↔
      ∀ c ∈ cmdLine.bytes.drop (PGSIZE - 1), c = 0x20 := by
  have h := @words_append_eq_iff _ SPACE.contains (cmdLine.bytes.take (PGSIZE - 1))
    (cmdLine.bytes.drop (PGSIZE - 1))
  rw [List.take_append_drop] at h
  simp only [contains_space] at h
  exact eq_comm.trans h

/-- The splitting is exact when the line has a word, only spaces lie beyond the first
`PGSIZE - 1` bytes, and the words are not exactly as many as `argv` has slots: then the
terminator is stored past the page. Without a thread there is nothing to check. -/
theorem splitsExactly_iff (a : ExecAllocs) (page : Bytes) (cmdLine : CString) :
    SplitsExactly a page cmdLine ↔
      a.all = false ∨ ARGV_SLOTS < (copiedWords cmdLine).length ∨
        (∃ c ∈ cmdLine.bytes, c ≠ 0x20) ∧
        (∀ c ∈ cmdLine.bytes.drop (PGSIZE - 1), c = 0x20) ∧
        (words SPACE.contains cmdLine.bytes).length ≠ ARGV_SLOTS := by
  have hword : (∃ c ∈ cmdLine.bytes, c ≠ 0x20) ↔ words SPACE.contains cmdLine.bytes ≠ [] := by
    simp only [Ne, words_eq_nil_iff, contains_space, not_forall, exists_prop]
  rw [← copiedWords_eq_iff, hword]
  cases ha : a.all with
  | false =>
    simp only [true_or, iff_true]
    exact ⟨_, processExecute_of_not_all ha page cmdLine, fun args h => by cases h⟩
  | true =>
    simp only [Bool.true_eq_false, false_or]
    rcases Nat.lt_or_ge ARGV_SLOTS (copiedWords cmdLine).length with hfull | hle
    · simp only [hfull, true_or, iff_true]
      exact ⟨_, processExecute_full ha hfull, fun args h => by cases h⟩
    simp only [Nat.not_lt.mpr hle, false_or]
    by_cases hnil : copiedWords cmdLine = []
    · constructor
      · rintro ⟨r, hr, -⟩
        rw [processExecute_no_word ha hnil] at hr
        cases hr
      · rintro ⟨hne, heq, -⟩
        exact absurd (heq.symm.trans hnil) hne
    obtain ⟨tokens, copy, heq, htokens⟩ := @processExecute_created _ page _ ha hle hnil
    have hlen : tokens.length = (copiedWords cmdLine).length := htokens.length_eq
    constructor
    · rintro ⟨r, hr, hexact⟩
      rw [heq] at hr
      cases hr
      obtain ⟨⟨tokens', hargv, hone, hwords⟩, hpage⟩ := hexact _ rfl
      cases map_some_append_none_inj hargv
      have hsame := forall₂_strAt_unique htokens hwords
      rw [List.length_append, List.length_map, List.length_singleton] at hpage
      refine ⟨hsame ▸ hnil, hsame, ?_⟩
      rw [← hsame]
      omega
    · rintro ⟨hne, hsame, hcount⟩
      rw [← hsame] at hcount
      refine ⟨_, heq, ?_⟩
      rintro args ⟨⟩
      have hpos : 0 < (copiedWords cmdLine).length := List.length_pos_iff.mpr hnil
      refine ⟨⟨tokens, rfl, by omega, hsame ▸ htokens⟩, ?_⟩
      simp only [List.length_append, List.length_map, List.length_singleton]
      omega

/-- A command line of spaces only brings the kernel down: the thread gets no name. -/
theorem blank_line_asserts :
    ¬ SplitsExactly ⟨true, true, true, true⟩ (fun _ => 0) ⟨[0x20, 0x20], by decide⟩ := by
  rintro ⟨r, hr, -⟩
  rw [processExecute_no_word rfl (by decide)] at hr
  cases hr

end Pintos.Userprog
