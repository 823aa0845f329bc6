import Mathlib.Algebra.Group.Nat.Defs
import Mathlib.Data.BitVec
import Mathlib.Logic.Function.Basic

/-!
# `memmove`

Two loops that copy in opposite directions, chosen so that no byte is overwritten before it has
been copied. The loops move the pointers they are given, and the forward loop leaves its own behind
the last byte. A failed assertion gives none.
Source `lib/string.c:21–46`.
-/

namespace Pintos.Lib.Memmove

/-- A pointer; arithmetic on it wraps around the address space. -/
abbrev Ptr := BitVec 32

/-- A byte for each address. -/
abbrev Memory := Ptr → UInt8

/-- `while (size-- > 0) *dst++ = *src++;`, with the value of `dst` at the end. -/
def copyForward (m : Memory) (dst src : Ptr) : Nat → Memory × Ptr
  | 0 => (m, dst)
  | size + 1 => copyForward (Function.update m dst (m src)) (dst + 1#32) (src + 1#32) size

/-- `while (size-- > 0) *--dst = *--src;`, with the value of `dst` at the end. -/
def copyBackward (m : Memory) (dst src : Ptr) : Nat → Memory × Ptr
  | 0 => (m, dst)
  | size + 1 =>
    copyBackward (Function.update m (dst - 1#32) (m (src - 1#32))) (dst - 1#32) (src - 1#32) size

/-- `memmove`, `lib/string.c:23–46`: the memory it leaves and the pointer it returns. -/
def memmove (m : Memory) (dst src : Ptr) (size : Nat) : Option (Memory × Ptr) := do
  guard (dst ≠ 0#32 ∨ size = 0)
  guard (src ≠ 0#32 ∨ size = 0)
  if dst < src then return copyForward m dst src size
  else return copyBackward m (dst + BitVec.ofNat 32 size) (src + BitVec.ofNat 32 size) size

/-- `m'` is `m` with the bytes from `src` on written from `dst` on, all at once. -/
def Copied (m m' : Memory) (dst src : Ptr) (size : Nat) : Prop :=
  ∀ p, m' p = if (p - dst).toNat < size then m (src + (p - dst)) else m p

/-- What `memmove` promises: the bytes at `dst` are those that were at `src`, no other byte
changes, and `dst` is returned. -/
def Moves (m : Memory) (dst src : Ptr) (size : Nat) (r : Option (Memory × Ptr)) : Prop :=
  ∃ m', r = some (m', dst) ∧
    (∀ i < size, m' (dst + BitVec.ofNat 32 i) = m (src + BitVec.ofNat 32 i)) ∧
    ∀ p, (∀ i < size, p ≠ dst + BitVec.ofNat 32 i) → m' p = m p

variable {m m' : Memory} {dst src : Ptr} {size : Nat}

/-- Each byte is read before the loop comes to write it, since `src` is ahead of `dst`. -/
theorem copied_copyForward (hlt : dst < src) (hsrc : src.toNat + size ≤ 2 ^ 32) :
    Copied m (copyForward m dst src size).1 dst src size ∧
      (copyForward m dst src size).2 = dst + BitVec.ofNat 32 size := by
  induction size generalizing m dst src with
  | zero => exact ⟨fun p => rfl, by simp [copyForward]⟩
  | succ n ih =>
    cases n with
    | zero =>
      refine ⟨fun p => ?_, rfl⟩
      by_cases hp : p = dst
      · subst hp
        simp [copyForward]
      · have hoff : ¬ (p - dst).toNat < 1 := by bv_omega
        rw [if_neg hoff]
        exact Function.update_of_ne hp _ _
    | succ n =>
      have hlt' : dst + 1#32 < src + 1#32 := by bv_omega
      have hsrc' : (src + 1#32).toNat + (n + 1) ≤ 2 ^ 32 := by bv_omega
      obtain ⟨hcopied, hend⟩ := @ih (Function.update m dst (m src)) _ _ hlt' hsrc'
      rw [copyForward]
      refine ⟨fun p => ?_, ?_⟩
      · rw [hcopied p]
        by_cases hp : p = dst
        · subst hp
          have hfar : ¬ (p - (p + 1#32)).toNat < n + 1 := by bv_omega
          have hnear : (p - p).toNat < n + 1 + 1 := by bv_omega
          have hself : src + (p - p) = src := by bv_omega
          rw [if_neg hfar, if_pos hnear, hself, Function.update_self]
        · have hiff : (p - (dst + 1#32)).toNat < n + 1 ↔ (p - dst).toNat < n + 1 + 1 := by bv_omega
          have hread : (p - dst).toNat < n + 1 + 1 → src + (p - dst) ≠ dst := by bv_omega
          have hsame : src + 1#32 + (p - (dst + 1#32)) = src + (p - dst) := by bv_omega
          rw [if_congr hiff rfl rfl, hsame, Function.update_of_ne hp]
          split
          · next hin => rw [Function.update_of_ne (hread hin)]
          · rfl
      · rw [hend]
        bv_omega

/-- Going down, too, each byte is read before the loop comes to write it. -/
theorem copied_copyBackward (hle : src ≤ dst) (hdst : dst.toNat + size ≤ 2 ^ 32) :
    Copied m (copyBackward m (dst + BitVec.ofNat 32 size) (src + BitVec.ofNat 32 size) size).1
        dst src size ∧
      (copyBackward m (dst + BitVec.ofNat 32 size) (src + BitVec.ofNat 32 size) size).2 = dst := by
  induction size generalizing m with
  | zero => exact ⟨fun p => rfl, by simp [copyBackward]⟩
  | succ n ih =>
    have hd : dst + BitVec.ofNat 32 (n + 1) - 1#32 = dst + BitVec.ofNat 32 n := by bv_omega
    have hs : src + BitVec.ofNat 32 (n + 1) - 1#32 = src + BitVec.ofNat 32 n := by bv_omega
    rw [copyBackward, hd, hs]
    obtain ⟨hcopied, hend⟩ := @ih (Function.update m (dst + BitVec.ofNat 32 n)
      (m (src + BitVec.ofNat 32 n))) (by omega)
    refine ⟨fun p => ?_, hend⟩
    rw [hcopied p]
    by_cases hp : p = dst + BitVec.ofNat 32 n
    · have hoff : (p - dst).toNat = n := by bv_omega
      have hsame : src + (p - dst) = src + BitVec.ofNat 32 n := by bv_omega
      rw [if_neg (by omega), if_pos (by omega), hsame, hp, Function.update_self]
    · have hiff : (p - dst).toNat < n ↔ (p - dst).toNat < n + 1 := by bv_omega
      have hread : (p - dst).toNat < n + 1 → src + (p - dst) ≠ dst + BitVec.ofNat 32 n := by
        bv_omega
      rw [if_congr hiff rfl rfl, Function.update_of_ne hp]
      split
      · next hin => rw [Function.update_of_ne (hread hin)]
      · rfl

private theorem Copied.moves (h : Copied m m' dst src size) (hsize : size < 2 ^ 32) :
    Moves m dst src size (some (m', dst)) := by
  refine ⟨m', rfl, fun i hi => ?_, fun p hp => ?_⟩
  · have hoff : dst + BitVec.ofNat 32 i - dst = BitVec.ofNat 32 i := by bv_omega
    have hin : (BitVec.ofNat 32 i).toNat < size := by bv_omega
    rw [h, hoff, if_pos hin]
  · have hout : ¬ (p - dst).toNat < size := by
      intro hin
      apply hp _ hin
      bv_omega
    rw [h, if_neg hout]

/-- `memmove` copies as if through a temporary, but it returns `dst` only if its backward loop has
run or there was nothing to copy. -/
theorem memmove_right_iff (m : Memory) (dst src : Ptr) (size : Nat)
    (hdst : dst.toNat + size ≤ 2 ^ 32) (hsrc : src.toNat + size ≤ 2 ^ 32) :
    Moves m dst src size (memmove m dst src size) ↔ size = 0 ∨ src ≠ 0#32 ∧ src ≤ dst := by
  by_cases hsize : size = 0
  · subst hsize
    have hmove : memmove m dst src 0 = some (m, dst) := by
      simp [memmove, copyForward, copyBackward, guard]
    rw [hmove]
    exact iff_of_true ⟨m, rfl, fun i hi => absurd hi (Nat.not_lt_zero i), fun p _ => rfl⟩ (.inl rfl)
  · rw [or_iff_right hsize]
    by_cases hnull : dst ≠ 0#32 ∧ src ≠ 0#32
    · have hlt32 : size < 2 ^ 32 := by bv_omega
      have hmove : memmove m dst src size = if dst < src then some (copyForward m dst src size)
          else some (copyBackward m (dst + BitVec.ofNat 32 size) (src + BitVec.ofNat 32 size)
            size) := by
        simp [memmove, hnull, guard]
      rw [hmove]
      by_cases hlt : dst < src
      · -- the forward loop has moved `dst`
        rw [if_pos hlt]
        refine iff_of_false ?_ fun hcon => absurd hcon.2 (by bv_omega)
        rintro ⟨m', heq, -⟩
        have hend := (@copied_copyForward m _ _ _ hlt hsrc).2
        rw [Option.some.inj heq] at hend
        bv_omega
      · rw [if_neg hlt]
        have hle : src ≤ dst := by bv_omega
        obtain ⟨hcopied, hend⟩ := @copied_copyBackward m _ _ _ hle hdst
        refine iff_of_true ?_ ⟨hnull.2, hle⟩
        have hmoves := hcopied.moves hlt32
        rwa [show (some (_, dst) : Option (Memory × Ptr)) = some (copyBackward m
          (dst + BitVec.ofNat 32 size) (src + BitVec.ofNat 32 size) size) from
          congrArg some (Prod.ext rfl hend.symm)] at hmoves
    · have hmove : memmove m dst src size = none := by
        by_cases hd : dst = 0#32
        · simp [memmove, hd, hsize, guard]
        · have hs : src = 0#32 := by simpa [hd] using hnull
          simp [memmove, hd, hs, hsize, guard]
      rw [hmove]
      refine iff_of_false ?_ fun hcon => hnull ⟨?_, hcon.1⟩
      · rintro ⟨m', heq, -⟩
        cases heq
      · bv_omega

/-- Two overlapping bytes are moved up by one. -/
theorem memmove_right_iff_up :
    Moves (fun p => if p = 4096#32 then 1 else 0) 4097#32 4096#32 2
      (memmove (fun p => if p = 4096#32 then 1 else 0) 4097#32 4096#32 2) :=
  (memmove_right_iff _ 4097#32 4096#32 2 (by decide) (by decide)).mpr (.inr (by decide))

/-- One byte is moved down by one: the pointer returned is that behind it. -/
theorem memmove_returns_end :
    (memmove (fun _ => 0) 4096#32 4097#32 1).map Prod.snd = some 4097#32 ∧
      ¬ Moves (fun _ => 0) 4096#32 4097#32 1 (memmove (fun _ => 0) 4096#32 4097#32 1) := by
  refine ⟨rfl, ?_⟩
  rintro ⟨m', heq, -⟩
  have hsnd : some 4097#32 = some 4096#32 := congrArg (Option.map Prod.snd) heq
  exact absurd hsnd (by decide)

end Pintos.Lib.Memmove
