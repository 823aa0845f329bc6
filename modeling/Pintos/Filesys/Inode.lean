import Mathlib.Logic.Function.Basic
import Mathlib.Order.Defs.LinearOrder

/-!
# Inode transfers

The bytes `inode_read_at` and `inode_write_at` move. Both loops cut a transfer at sector
boundaries and stop early when the bounce buffer a partial sector needs cannot be
allocated; an inode's contiguous data sectors are seen here as one byte function.
Source `filesys/inode.c:197–345`.
-/

namespace Pintos.Filesys

/-- Bytes in a disk sector, `devices/block.h`. -/
def BLOCK_SECTOR_SIZE : Nat := 512

/-- The part of an inode the transfers use: its length, its data and the counts that
`inode_deny_write` checks, `filesys/inode.c:28–38`. -/
structure Inode where
  length : Nat
  data : Nat → UInt8
  openCnt : Nat
  denyWriteCnt : Nat

/-- The bytes one transfer loop moves, `filesys/inode.c:207–246` and `:268–314`. `bounce`
says whether the bounce buffer can be allocated; it is asked for only by a partial sector.
Each round that goes on moves at least one byte, so `size` rounds suffice as fuel. -/
def transferCount (length : Nat) (bounce : Bool) : (fuel size offset : Nat) → Nat
  | 0, _, _ => 0
  | fuel + 1, size, offset =>
    let sectorOfs := offset % BLOCK_SECTOR_SIZE
    let minLeft := min (length - offset) (BLOCK_SECTOR_SIZE - sectorOfs)
    let chunkSize := min size minLeft
    if chunkSize = 0 then 0
    else if (sectorOfs == 0 && chunkSize == BLOCK_SECTOR_SIZE) || bounce then
      chunkSize + transferCount length bounce fuel (size - chunkSize) (offset + chunkSize)
    else 0

/-- The transfer loop itself over a buffer that has to be accessed byte by byte:
`move offset done cnt` moves `cnt` bytes between the inode at `offset` and the buffer at `done`,
and answers `false` if that ends the process. The result is the number of bytes moved. -/
def transferLoop {σ : Type*} (length : Nat) (bounce : Bool)
    (move : (offset done cnt : Nat) → σ → Option (Bool × σ)) :
    (fuel size offset done : Nat) → σ → Option (Option Nat × σ)
  | 0, _, _, done, s => some (some done, s)
  | fuel + 1, size, offset, done, s =>
    let sectorOfs := offset % BLOCK_SECTOR_SIZE
    let minLeft := min (length - offset) (BLOCK_SECTOR_SIZE - sectorOfs)
    let chunkSize := min size minLeft
    if chunkSize = 0 then some (some done, s)
    else if (sectorOfs == 0 && chunkSize == BLOCK_SECTOR_SIZE) || bounce then
      (move offset done chunkSize s).bind fun r =>
        if r.1 then
          transferLoop length bounce move fuel (size - chunkSize) (offset + chunkSize)
            (done + chunkSize) r.2
        else some (none, r.2)
    else some (some done, s)

/-- The number of bytes `inode_read_at` returns, `filesys/inode.c:200–250`; they are the
inode's bytes from `offset` on. -/
def inodeReadAt (inode : Inode) (bounce : Bool) (size offset : Nat) : Nat :=
  transferCount inode.length bounce size size offset

/-- The number of bytes `inode_write_at` returns, and the inode it leaves,
`filesys/inode.c:257–318`. -/
def inodeWriteAt (inode : Inode) (bounce : Bool) (buffer : Nat → UInt8) (size offset : Nat) :
    Nat × Inode :=
  if inode.denyWriteCnt ≠ 0 then (0, inode)
  else
    let n := transferCount inode.length bounce size size offset
    (n, { inode with
      data := fun k => if offset ≤ k ∧ k < offset + n then buffer (k - offset) else inode.data k })

/-- A transfer moves at most the bytes asked for and at most the bytes left in the inode. -/
theorem transferCount_le (length : Nat) (bounce : Bool) (fuel size offset : Nat) :
    transferCount length bounce fuel size offset ≤ min size (length - offset) := by
  induction fuel generalizing size offset with
  | zero => exact Nat.zero_le _
  | succ fuel ih =>
    simp only [transferCount]
    split
    · exact Nat.zero_le _
    · split
      · have := ih (size - min size (min (length - offset) (BLOCK_SECTOR_SIZE -
          offset % BLOCK_SECTOR_SIZE))) (offset + min size (min (length - offset)
          (BLOCK_SECTOR_SIZE - offset % BLOCK_SECTOR_SIZE)))
        omega
      · exact Nat.zero_le _

/-- With a bounce buffer the transfer stops only at the end of the request or of the inode. -/
theorem transferCount_bounce (length : Nat) (fuel size offset : Nat) (h : size ≤ fuel) :
    transferCount length true fuel size offset = min size (length - offset) := by
  induction fuel generalizing size offset with
  | zero => simp only [transferCount]; omega
  | succ fuel ih =>
    have hlt : offset % BLOCK_SECTOR_SIZE < BLOCK_SECTOR_SIZE := Nat.mod_lt _ (by decide)
    simp only [transferCount, Bool.or_true, if_true]
    split
    · omega
    · next hc =>
      rw [ih _ _ (by omega)]
      omega

section TransferLoop

variable {σ : Type*} {length : Nat} {bounce : Bool}
  {move : (offset done cnt : Nat) → σ → Option (Bool × σ)} {fuel size offset k : Nat} {s t : σ}

private theorem transferLoop_rule_from {I : Nat → σ → Prop} {K : σ → Prop} {r : Option Nat}
    (hok : ∀ k cnt s t, k + cnt ≤ min size (length - offset) → I k s →
      move (offset + k) k cnt s = some (true, t) → I (k + cnt) t)
    (hend : ∀ k cnt s t, k + cnt ≤ min size (length - offset) → I k s →
      move (offset + k) k cnt s = some (false, t) → K t)
    (hs : I k s) (hk : k ≤ size)
    (h : transferLoop length bounce move fuel (size - k) (offset + k) k s = some (r, t)) :
    (r = none ∧ K t) ∨ ∃ n, r = some n ∧ I n t ∧
      n = k + transferCount length bounce fuel (size - k) (offset + k) := by
  induction fuel generalizing k s with
  | zero =>
    cases h
    exact .inr ⟨k, rfl, hs, rfl⟩
  | succ fuel ih =>
    simp only [transferLoop] at h
    simp only [transferCount]
    generalize hcnt : min (size - k) (min (length - (offset + k))
      (BLOCK_SECTOR_SIZE - (offset + k) % BLOCK_SECTOR_SIZE)) = cnt at h ⊢
    split at h
    · next hz =>
      cases h
      exact .inr ⟨k, rfl, hs, by rw [if_pos hz]; rfl⟩
    · next hz =>
      rw [if_neg hz]
      split at h
      · next hc =>
        obtain ⟨⟨ok, m⟩, hmove, h⟩ := Option.bind_eq_some_iff.mp h
        rw [if_pos hc, ← Nat.add_assoc, Nat.sub_sub, Nat.add_assoc offset]
        cases ok with
        | false =>
          cases h
          exact .inl ⟨rfl, hend k cnt s m (by omega) hs hmove⟩
        | true =>
          refine ih (hok k cnt s m (by omega) hs hmove) (by omega) ?_
          rwa [← Nat.sub_sub, ← Nat.add_assoc]
      · next hc =>
        cases h
        exact .inr ⟨k, rfl, hs, by rw [if_neg hc]; rfl⟩

/-- A transfer loop carries an invariant that counts the bytes moved; unless the process ends,
it moves `transferCount` bytes. -/
theorem transferLoop_rule {I : Nat → σ → Prop} {K : σ → Prop} {r : Option Nat}
    (hok : ∀ k cnt s t, k + cnt ≤ min size (length - offset) → I k s →
      move (offset + k) k cnt s = some (true, t) → I (k + cnt) t)
    (hend : ∀ k cnt s t, k + cnt ≤ min size (length - offset) → I k s →
      move (offset + k) k cnt s = some (false, t) → K t)
    (hs : I 0 s) (h : transferLoop length bounce move fuel size offset 0 s = some (r, t)) :
    (r = none ∧ K t) ∨
      ∃ n, r = some n ∧ I n t ∧ n = transferCount length bounce fuel size offset := by
  have hrule := transferLoop_rule_from hok hend hs (Nat.zero_le size) h
  rwa [Nat.zero_add] at hrule

private theorem transferLoop_some_from {P : σ → Prop}
    (hmove : ∀ k cnt s, k + cnt ≤ min size (length - offset) → P s →
      ∃ t, move (offset + k) k cnt s = some (true, t) ∧ P t)
    (hs : P s) (hk : k ≤ size) :
    ∃ t, transferLoop length bounce move fuel (size - k) (offset + k) k s =
      some (some (k + transferCount length bounce fuel (size - k) (offset + k)), t) ∧ P t := by
  induction fuel generalizing k s with
  | zero => exact ⟨s, rfl, hs⟩
  | succ fuel ih =>
    simp only [transferLoop, transferCount]
    generalize hcnt : min (size - k) (min (length - (offset + k))
      (BLOCK_SECTOR_SIZE - (offset + k) % BLOCK_SECTOR_SIZE)) = cnt
    split
    · exact ⟨s, rfl, hs⟩
    · split
      · obtain ⟨m, hm, hP⟩ := hmove k cnt s (by omega) hs
        rw [hm, Option.bind_some, if_pos rfl, Nat.sub_sub, Nat.add_assoc offset, ← Nat.add_assoc k]
        exact ih hP (by omega)
      · exact ⟨s, rfl, hs⟩

/-- A transfer none of whose moves ends the process ends with `transferCount` bytes moved. -/
theorem transferLoop_some {P : σ → Prop}
    (hmove : ∀ k cnt s, k + cnt ≤ min size (length - offset) → P s →
      ∃ t, move (offset + k) k cnt s = some (true, t) ∧ P t)
    (hs : P s) :
    ∃ t, transferLoop length bounce move fuel size offset 0 s =
      some (some (transferCount length bounce fuel size offset), t) ∧ P t := by
  have hsome : ∃ t, transferLoop length bounce move fuel (size - 0) (offset + 0) 0 s =
      some (some (0 + transferCount length bounce fuel (size - 0) (offset + 0)), t) ∧ P t :=
    transferLoop_some_from hmove hs (Nat.zero_le size)
  rwa [Nat.zero_add] at hsome

private theorem transferLoop_eq_from {state : Nat → σ}
    (hmove : ∀ k cnt, 0 < cnt → k + cnt ≤ min size (length - offset) →
      cnt ≤ BLOCK_SECTOR_SIZE - (offset + k) % BLOCK_SECTOR_SIZE →
      move (offset + k) k cnt (state k) = some (true, state (k + cnt)))
    (hk : k ≤ size) :
    transferLoop length bounce move fuel (size - k) (offset + k) k (state k) =
      some (some (k + transferCount length bounce fuel (size - k) (offset + k)),
        state (k + transferCount length bounce fuel (size - k) (offset + k))) := by
  induction fuel generalizing k with
  | zero => rfl
  | succ fuel ih =>
    simp only [transferLoop, transferCount]
    generalize hcnt : min (size - k) (min (length - (offset + k))
      (BLOCK_SECTOR_SIZE - (offset + k) % BLOCK_SECTOR_SIZE)) = cnt
    split
    · rfl
    · split
      · rw [hmove k cnt (by omega) (by omega) (by omega), Option.bind_some, if_pos rfl, Nat.sub_sub,
          Nat.add_assoc offset, ← Nat.add_assoc k]
        exact ih (by omega)
      · rfl

/-- A transfer whose moves all succeed and lead through the states `state k`, indexed by the
bytes moved, ends in the state of its `transferCount`. -/
theorem transferLoop_eq {state : Nat → σ}
    (hmove : ∀ k cnt, 0 < cnt → k + cnt ≤ min size (length - offset) →
      cnt ≤ BLOCK_SECTOR_SIZE - (offset + k) % BLOCK_SECTOR_SIZE →
      move (offset + k) k cnt (state k) = some (true, state (k + cnt))) :
    transferLoop length bounce move fuel size offset 0 (state 0) =
      some (some (transferCount length bounce fuel size offset),
        state (transferCount length bounce fuel size offset)) := by
  have heq : transferLoop length bounce move fuel (size - 0) (offset + 0) 0 (state 0) =
      some (some (0 + transferCount length bounce fuel (size - 0) (offset + 0)),
        state (0 + transferCount length bounce fuel (size - 0) (offset + 0))) :=
    transferLoop_eq_from hmove (Nat.zero_le size)
  rwa [Nat.zero_add] at heq

end TransferLoop

end Pintos.Filesys
