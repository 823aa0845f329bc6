import Mathlib.Data.List.GetD
import Pintos.Base.Run
import Pintos.Lib.Ustar

/-!
# Archives on the scratch device

`fsutil_append` writes a file to the archive on the scratch device, `fsutil_extract` reads the
archive back. The position of each is kept from call to call; a call that ends in a kernel panic has
no result. Files are opened and read without failure.
Source `filesys/fsutil.c:72–223`.
-/

namespace Pintos.Filesys.Fsutil

open Pintos.Base Pintos.Lib Pintos.Lib.Ustar

/-- The scratch device and the position of `fsutil_append` on it. -/
structure State where
  size : Nat
  device : Nat → Bytes
  sector : Nat

/-- A call of `fsutil_append`: the file, and what is in memory from the allocated buffer on. The
names of files have at most `NAME_MAX` characters, their lengths fit in an `off_t`. -/
structure Call where
  fileName : CString
  contents : List UInt8
  memory : Bytes
  name_le : fileName.bytes.length ≤ 14
  length_le : contents.length ≤ 2 ^ 31 - 1

/-- `block_write`, which panics past the end of the device. -/
def blockWrite (s : State) (sector : Nat) (buffer : Bytes) : Option State :=
  if sector < s.size then some { s with device := Function.update s.device sector buffer }
  else none

/-- `block_write (dst, sector++, buffer)`. -/
def writeNext (s : State) (buffer : Bytes) : Option State :=
  (blockWrite s s.sector buffer).map fun t => { t with sector := t.sector + 1 }

/-- The buffer after `file_read` of the next chunk, with zeros behind it,
`filesys/fsutil.c:205–207`. -/
def fillBuffer (buffer : Bytes) (rest : List UInt8) (chunkSize : Nat) : Bytes :=
  memcpy (memcpy buffer 0 chunkSize fun j => rest.getD j 0) chunkSize (512 - chunkSize) fun _ => 0

/-- The copy loop, `filesys/fsutil.c:199–211`: the buffer and the device after it. -/
def copyLoop : Nat → List UInt8 → Bytes → State → Option (Bytes × State)
  | 0, _, _, _ => none
  | fuel + 1, rest, buffer, s =>
    if rest.length = 0 then some (buffer, s)
    else
      let chunkSize := if 512 < rest.length then 512 else rest.length
      if s.size ≤ s.sector then none
      else
        let buffer := fillBuffer buffer rest chunkSize
        (writeNext s buffer).bind fun s => copyLoop fuel (rest.drop chunkSize) buffer s

/-- The end marker, `filesys/fsutil.c:213–218`. Its second sector is written in the place of the
first one, and from the address after that of the buffer. -/
def writeMarker (s : State) (buffer : Bytes) : Option State :=
  let buffer := memcpy buffer 0 512 fun _ => 0
  (blockWrite s s.sector buffer).bind fun s => blockWrite s s.sector fun j => buffer (1 + j)

/-- `fsutil_append`, `filesys/fsutil.c:166–223`. -/
def fsutilAppend (s : State) (c : Call) : Option State :=
  (ustarMakeHeader c.fileName .regular c.contents.length c.memory).bind fun buffer =>
    (writeNext s buffer).bind fun s =>
      (copyLoop (c.contents.length + 1) c.contents buffer s).bind fun r => writeMarker r.2 r.1

/-- The copy loop of `fsutil_extract`, `filesys/fsutil.c:125–137`: the bytes written to the file,
and the position after it. -/
def extractData (size : Nat) (device : Nat → Bytes) : Nat → Nat → Nat → Option (List UInt8 × Nat)
  | 0, _, _ => none
  | fuel + 1, sector, remaining =>
    if remaining = 0 then some ([], sector)
    else if sector < size then
      let chunkSize := if 512 < remaining then 512 else remaining
      (extractData size device fuel (sector + 1) (remaining - chunkSize)).map fun r =>
        ((List.range chunkSize).map (device sector) ++ r.1, r.2)
    else none

/-- What `fsutil_extract` does with a header, `filesys/fsutil.c:102–140`; `next` reads on from a
position. -/
def extractEntry (size : Nat) (device : Nat → Bytes) (fuel sector : Nat)
    (next : Nat → Option (List (List UInt8 × List UInt8))) :
    Except String (Option Entry) → Option (List (List UInt8 × List UInt8))
  | .error _ => none
  | .ok none => some []
  | .ok (some e) =>
    match e.type with
    | .directory => next (sector + 1)
    | .regular =>
      (extractData size device fuel (sector + 1) e.size).bind fun r =>
        (next r.2).map ((e.fileName, r.1) :: ·)

/-- The loop of `fsutil_extract`, `filesys/fsutil.c:94–141`: the files that it puts into the file
system, where it can create and write them. -/
def extractLoop (size : Nat) (device : Nat → Bytes) :
    Nat → Nat → Option (List (List UInt8 × List UInt8))
  | 0, _ => none
  | fuel + 1, sector =>
    if sector < size then
      extractEntry size device fuel sector (extractLoop size device fuel)
        (ustarParseHeader (device sector))
    else none

/-! ## What the device should hold -/

/-- The number of sectors that a file of `n` bytes takes. -/
def dataSectors (n : Nat) : Nat := (n + 511) / 512

/-- The sector is entirely zero. -/
def ZeroSector (b : Bytes) : Prop := ∀ j < 512, b j = 0

/-- The bytes of the file stand in the sectors from `start` on, padded with zeros. -/
def HoldsData (device : Nat → Bytes) (start : Nat) (contents : List UInt8) : Prop :=
  ∀ k < dataSectors contents.length, ∀ j < 512,
    device (start + k) j = contents.getD (512 * k + j) 0

/-- The sectors of the file, with its header. -/
def Call.sectors (c : Call) : Nat := 1 + dataSectors c.contents.length

/-- The sector after the files that are stored from `start` on. -/
def archiveEnd (start : Nat) (calls : List Call) : Nat := start + (calls.map Call.sectors).sum

/-- The files are stored from `start` on, each with a valid header. -/
def Stored (device : Nat → Bytes) : Nat → List Call → Prop
  | _, [] => True
  | start, c :: cs =>
    ustarParseHeader (device start) =
        .ok (some ⟨stripAntisocialPrefixes c.fileName.bytes, .regular, c.contents.length⟩) ∧
      HoldsData device (start + 1) c.contents ∧ Stored device (start + c.sectors) cs

/-- The device holds the files from sector 0 on, and two zero sectors after them; the extraction
loop yields exactly the names and contents of the files, and stops there. -/
structure WellFormed (size : Nat) (device : Nat → Bytes) (calls : List Call) : Prop where
  stored : Stored device 0 calls
  marker : ZeroSector (device (archiveEnd 0 calls))
  marker' : ZeroSector (device (archiveEnd 0 calls + 1))
  extracted : ∃ fuel, extractLoop size device fuel 0 =
    some (calls.map fun c => (c.fileName.bytes, c.contents))

/-! ## One call -/

private theorem writeNext_eq {s : State} {buffer : Bytes} (h : s.sector < s.size) :
    writeNext s buffer =
      some ⟨s.size, Function.update s.device s.sector buffer, s.sector + 1⟩ := by
  unfold writeNext blockWrite
  rw [if_pos h]
  rfl

/-- What the copy loop does: the file is written from the position on, nothing else changes. -/
structure Copied (contents : List UInt8) (buffer buffer' : Bytes) (s t : State) : Prop where
  size : t.size = s.size
  sector : t.sector = s.sector + dataSectors contents.length
  data : HoldsData t.device s.sector contents
  before : ∀ i < s.sector, t.device i = s.device i
  after : ∀ i, t.sector ≤ i → t.device i = s.device i
  buffer : ∀ i, 512 ≤ i → buffer' i = buffer i

private theorem dataSectors_pos {n : Nat} (h : n ≠ 0) :
    dataSectors n = dataSectors (n - if 512 < n then 512 else n) + 1 := by
  unfold dataSectors
  split <;> omega

/-- The chunk that is read, and the zeros behind it, are the next sector of the file. -/
theorem fillBuffer_of_lt {buffer : Bytes} {rest : List UInt8} {chunk j : Nat}
    (hrest : chunk < 512 → chunk = rest.length) (hj : j < 512) :
    fillBuffer buffer rest chunk j = rest.getD j 0 := by
  unfold fillBuffer
  rcases Nat.lt_or_ge j chunk with hlt | hge
  · rw [memcpy_of_lt hlt, memcpy_of_mem (Nat.zero_le j) (by omega), Nat.sub_zero]
  · have hlength := hrest (by omega)
    rw [memcpy_of_mem hge (by omega), List.getD_eq_default _ _ (by omega)]

private theorem fillBuffer_of_ge {buffer : Bytes} {rest : List UInt8} {chunk i : Nat}
    (hle : chunk ≤ 512) (hi : 512 ≤ i) : fillBuffer buffer rest chunk i = buffer i := by
  unfold fillBuffer
  rw [memcpy_of_ge (by omega), memcpy_of_ge (by omega)]

private theorem copyLoop_spec {fuel : Nat} {rest : List UInt8} {buffer : Bytes} {s : State}
    (hfuel : rest.length < fuel) (hfits : s.sector + dataSectors rest.length ≤ s.size) :
    ∃ buffer' t,
      copyLoop fuel rest buffer s = some (buffer', t) ∧ Copied rest buffer buffer' s t := by
  induction fuel generalizing rest buffer s with
  | zero => exact absurd hfuel (Nat.not_lt_zero _)
  | succ fuel ih =>
    rw [copyLoop]
    by_cases hzero : rest.length = 0
    · refine ⟨buffer, s, if_pos hzero, rfl, ?_, ?_, fun _ _ => rfl, fun _ _ => rfl, fun _ _ => rfl⟩
      · rw [hzero]
        rfl
      · intro k hk
        rw [hzero] at hk
        exact absurd hk (Nat.not_lt_zero k)
    have hsectors := dataSectors_pos hzero
    rw [if_neg hzero]
    dsimp only
    generalize hchunk : (if 512 < rest.length then 512 else rest.length) = chunk at hsectors ⊢
    have hle : chunk ≤ 512 := by rw [← hchunk]; split <;> omega
    have hpos : 0 < chunk := by rw [← hchunk]; split <;> omega
    have hrest : chunk < 512 → chunk = rest.length := by
      rw [← hchunk]
      split <;> omega
    rw [if_neg (by omega), writeNext_eq (by omega), Option.bind_some]
    have hdrop : (rest.drop chunk).length = rest.length - chunk := List.length_drop
    obtain ⟨buffer', t, hcopy, hc⟩ := @ih (rest.drop chunk) (fillBuffer buffer rest chunk)
      ⟨s.size, Function.update s.device s.sector (fillBuffer buffer rest chunk), s.sector + 1⟩
      (by omega) (by rw [hdrop]; simp only; omega)
    have hsector := hc.sector
    rw [hdrop] at hsector
    simp only at hsector
    refine ⟨buffer', t, hcopy, hc.size, by omega, ?_, ?_, ?_, ?_⟩
    · -- the first sector has been filled from the buffer, the others by the rest of the loop
      intro k hk j hj
      cases k with
      | zero =>
        rw [Nat.add_zero, hc.before s.sector (Nat.lt_succ_self _), Nat.mul_zero, Nat.zero_add,
          ← fillBuffer_of_lt hrest hj]
        exact congrFun (Function.update_self s.sector _ _) j
      | succ k =>
        have hdata := hc.data k (by rw [hdrop]; omega) j hj
        have hfull : chunk = 512 := by
          by_contra hne
          have hlength := hrest (by omega)
          rw [hsectors, ← hlength, Nat.sub_self] at hk
          exact absurd hk (by simp [dataSectors])
        rw [List.getD_eq_getElem?_getD, List.getElem?_drop, ← List.getD_eq_getElem?_getD] at hdata
        have hidx : chunk + (512 * k + j) = 512 * (k + 1) + j := by omega
        have hsec : s.sector + (k + 1) = s.sector + 1 + k := by omega
        rw [hsec, hdata, hidx]
    · intro i hi
      rw [hc.before i (Nat.lt_succ_of_lt hi)]
      exact Function.update_of_ne (by omega) _ _
    · intro i hi
      rw [hc.after i hi]
      exact Function.update_of_ne (by omega) _ _
    · intro i hi
      rw [hc.buffer i hi, fillBuffer_of_ge hle hi]

private theorem writeMarker_eq {s : State} {buffer : Bytes} (h : s.sector < s.size) :
    writeMarker s buffer = some { s with
      device := Function.update s.device s.sector fun j =>
        memcpy buffer 0 512 (fun _ => 0) (1 + j) } := by
  unfold writeMarker blockWrite
  dsimp only
  rw [if_pos h, Option.bind_some, if_pos h, Function.update_idem]

/-- What `fsutil_append` does. -/
structure Appended (c : Call) (s t : State) : Prop where
  size : t.size = s.size
  sector : t.sector = s.sector + c.sectors
  header : ustarParseHeader (t.device s.sector) =
    .ok (some ⟨stripAntisocialPrefixes c.fileName.bytes, .regular, c.contents.length⟩)
  data : HoldsData t.device (s.sector + 1) c.contents
  before : ∀ i < s.sector, t.device i = s.device i
  after : ∀ i, t.sector < i → t.device i = s.device i
  -- the end marker is one sector, and its last byte is whatever stands behind the buffer
  marker : ∀ j < 511, t.device t.sector j = 0
  markerLast : t.device t.sector 511 = c.memory 512

private theorem length_strip_le (s : List UInt8) :
    (stripAntisocialPrefixes s).length ≤ max 1 s.length := by
  unfold stripAntisocialPrefixes
  split
  · exact Nat.le_max_left 1 _
  · exact Nat.le_trans (stripLoop_suffix _ _).length_le (Nat.le_max_right 1 _)

private theorem fsutilAppend_spec (c : Call) {s : State} (hfits : s.sector + c.sectors < s.size) :
    ∃ t, fsutilAppend s c = some t ∧ Appended c s t := by
  have hname : (stripName c.fileName).bytes.length ≤ 99 := by
    have hle := length_strip_le c.fileName.bytes
    have hle' := c.name_le
    change (stripAntisocialPrefixes c.fileName.bytes).length ≤ 99
    omega
  unfold Call.sectors at hfits
  unfold fsutilAppend
  rw [ustarMakeHeader_eq, if_neg (Nat.not_lt.mpr hname), Option.bind_some,
    writeNext_eq (by omega), Option.bind_some]
  have hparse := @parse_composed_strip c.fileName .regular c.contents.length c.memory hname
    c.length_le
  rw [if_pos rfl] at hparse
  have hbehind := @composed_of_ge (stripName c.fileName) .regular c.contents.length c.memory 512
    (Nat.le_refl _)
  generalize composed (stripName c.fileName) .regular c.contents.length c.memory = h
    at hparse hbehind ⊢
  obtain ⟨buffer, t, hcopy, hc⟩ := @copyLoop_spec (c.contents.length + 1) c.contents h
    ⟨s.size, Function.update s.device s.sector h, s.sector + 1⟩ (Nat.lt_succ_self _)
    (by simp only; omega)
  have hsector : t.sector = s.sector + 1 + dataSectors c.contents.length := hc.sector
  have hsize : t.size = s.size := hc.size
  rw [hcopy, Option.bind_some]
  dsimp only
  rw [writeMarker_eq (by omega)]
  have hother : ∀ i, i ≠ t.sector → Function.update t.device t.sector
      (fun j => memcpy buffer 0 512 (fun _ => 0) (1 + j)) i = t.device i :=
    fun i hi => Function.update_of_ne hi _ _
  refine ⟨_, rfl, hsize, by simp only [Call.sectors]; omega, ?_, ?_, ?_, ?_, ?_, ?_⟩
  · change ustarParseHeader (Function.update t.device t.sector _ s.sector) = _
    rw [hother _ (by omega), hc.before _ (Nat.lt_succ_self _)]
    change ustarParseHeader (Function.update s.device s.sector h s.sector) = _
    rw [Function.update_self]
    exact hparse
  · intro k hk j hj
    change Function.update t.device t.sector _ (s.sector + 1 + k) j = _
    rw [hother _ (by omega)]
    exact hc.data k hk j hj
  · intro i hi
    change Function.update t.device t.sector _ i = _
    rw [hother _ (by omega), hc.before i (Nat.lt_succ_of_lt hi)]
    exact Function.update_of_ne (by omega) _ _
  · intro i hi
    have hi' : t.sector < i := hi
    change Function.update t.device t.sector _ i = _
    rw [hother _ (by omega), hc.after i (by omega)]
    exact Function.update_of_ne (by omega) _ _
  · intro j hj
    change Function.update t.device t.sector _ t.sector j = _
    rw [Function.update_self, memcpy_of_mem (Nat.zero_le _) (by omega)]
  · change Function.update t.device t.sector _ t.sector 511 = _
    rw [Function.update_self, memcpy_of_ge (by decide), hc.buffer _ (by decide), hbehind]

/-! ## A sequence of calls -/

private theorem archiveEnd_cons (start : Nat) (c : Call) (cs : List Call) :
    archiveEnd start (c :: cs) = archiveEnd (start + c.sectors) cs := by
  unfold archiveEnd
  rw [List.map_cons, List.sum_cons, Nat.add_assoc]

private theorem le_archiveEnd (start : Nat) (cs : List Call) : start ≤ archiveEnd start cs :=
  Nat.le_add_right start _

/-- What the calls do. -/
structure AppendedAll (cs : List Call) (s t : State) : Prop where
  size : t.size = s.size
  sector : t.sector = archiveEnd s.sector cs
  stored : Stored t.device s.sector cs
  before : ∀ i < s.sector, t.device i = s.device i
  after : ∀ i, t.sector < i → t.device i = s.device i
  unchanged : cs = [] → t.device = s.device
  marker : ∀ c, cs.getLast? = some c →
    (∀ j < 511, t.device t.sector j = 0) ∧ t.device t.sector 511 = c.memory 512

/-- The first call, then the others: they write behind what it has written, over its end marker. -/
theorem Appended.appendedAll_cons {c : Call} {cs : List Call} {s m t : State}
    (h : Appended c s m) (hs : AppendedAll cs m t) : AppendedAll (c :: cs) s t where
  size := hs.size.trans h.size
  sector := by rw [hs.sector, h.sector, archiveEnd_cons]
  stored := by
    have hsector := h.sector
    have hc : c.sectors = 1 + dataSectors c.contents.length := rfl
    refine ⟨?_, ?_, ?_⟩
    · rw [hs.before _ (by omega)]
      exact h.header
    · intro k hk j hj
      rw [hs.before _ (by omega)]
      exact h.data k hk j hj
    · rw [← hsector]
      exact hs.stored
  before := fun i hi => by
    have hsector := h.sector
    rw [hs.before i (by omega), h.before i hi]
  after := fun i hi => by
    have hle : m.sector ≤ t.sector := hs.sector ▸ le_archiveEnd m.sector cs
    rw [hs.after i hi, h.after i (by omega)]
  unchanged := fun hnil => absurd hnil (List.cons_ne_nil c cs)
  marker := fun d hd => by
    cases cs with
    | nil =>
      obtain rfl : c = d := Option.some.inj hd
      have hsector : t.sector = m.sector := hs.sector
      rw [hs.unchanged rfl, hsector]
      exact ⟨h.marker, h.markerLast⟩
    | cons e cs =>
      rw [List.getLast?_cons_cons] at hd
      exact hs.marker d hd

private theorem run_fsutilAppend_spec {cs : List Call} {s : State}
    (hfits : archiveEnd s.sector cs < s.size) :
    ∃ t, run fsutilAppend s cs = some t ∧ AppendedAll cs s t := by
  induction cs generalizing s with
  | nil =>
    exact ⟨s, rfl, rfl, rfl, trivial, fun _ _ => rfl, fun _ _ => rfl, fun _ => rfl,
      fun c hc => absurd hc (by simp)⟩
  | cons c cs ih =>
    rw [archiveEnd_cons] at hfits
    have hle := le_archiveEnd (s.sector + c.sectors) cs
    obtain ⟨m, hm, hc⟩ := @fsutilAppend_spec c s (by omega)
    obtain ⟨t, ht, hcs⟩ := @ih m (by rw [hc.sector, hc.size]; exact hfits)
    refine ⟨t, ?_, hc.appendedAll_cons hcs⟩
    rw [run_cons, hm]
    exact ht

/-! ## Extraction -/

private theorem extractData_eq {size fuel start : Nat} {device : Nat → Bytes}
    {contents : List UInt8} (h : HoldsData device start contents) (hfuel : contents.length < fuel)
    (hfits : start + dataSectors contents.length ≤ size) :
    extractData size device fuel start contents.length =
      some (contents, start + dataSectors contents.length) := by
  induction fuel generalizing start contents with
  | zero => exact absurd hfuel (Nat.not_lt_zero _)
  | succ fuel ih =>
    rw [extractData]
    by_cases hzero : contents.length = 0
    · rw [if_pos hzero, hzero, List.eq_nil_of_length_eq_zero hzero]
      rfl
    have hsectors := dataSectors_pos hzero
    rw [if_neg hzero, if_pos (by omega)]
    dsimp only
    generalize hchunk : (if 512 < contents.length then 512 else contents.length) = chunk
      at hsectors ⊢
    have hle : chunk ≤ 512 := by rw [← hchunk]; split <;> omega
    have hpos : 0 < chunk := by rw [← hchunk]; split <;> omega
    have hlength : chunk ≤ contents.length := by rw [← hchunk]; split <;> omega
    have hdrop : (contents.drop chunk).length = contents.length - chunk := List.length_drop
    have hfirst : (List.range chunk).map (device start) = contents.take chunk := by
      refine List.ext_getElem (by simp [hlength]) fun j hj hj' => ?_
      have hlt : j < chunk := by simpa using hj
      rw [List.getElem_map, List.getElem_range, List.getElem_take]
      have hdata := h 0 (by omega) j (by omega)
      rw [Nat.add_zero, Nat.mul_zero, Nat.zero_add, List.getD_eq_getElem _ _ (by omega)] at hdata
      exact hdata
    have hrest : HoldsData device (start + 1) (contents.drop chunk) := by
      intro k hk j hj
      rw [hdrop] at hk
      have hfull : chunk = 512 := by
        by_contra hne
        have hall : chunk = contents.length := by
          rw [← hchunk] at hne ⊢
          split at hne
          · exact absurd rfl hne
          · rw [if_neg ‹_›]
        rw [hall, Nat.sub_self] at hk
        exact absurd hk (by simp [dataSectors])
      have hdata := h (k + 1) (by omega) j hj
      have hidx : chunk + (512 * k + j) = 512 * (k + 1) + j := by omega
      have hsec : start + (k + 1) = start + 1 + k := by omega
      rw [List.getD_eq_getElem?_getD, List.getElem?_drop, ← List.getD_eq_getElem?_getD, hidx,
        ← hsec]
      exact hdata
    have hnext := ih hrest (by omega) (by rw [hdrop]; omega)
    rw [hdrop] at hnext
    rw [hnext, Option.map_some, hfirst, List.take_append_drop, hsectors]
    congr 2
    omega

private theorem parse_zeroSector {b : Bytes} (h : ZeroSector b) :
    ustarParseHeader b = .ok none := by
  unfold ustarParseHeader
  refine if_pos (List.all_eq_true.mpr fun i hi => ?_)
  rw [h i (List.mem_range.mp hi)]
  rfl

/-- The stored files are extracted under their stripped names, up to the end marker. -/
theorem extractLoop_eq {size fuel start : Nat} {device : Nat → Bytes} {cs : List Call}
    (h : Stored device start cs) (hmarker : ZeroSector (device (archiveEnd start cs)))
    (hfits : archiveEnd start cs < size)
    (hfuel : cs.length + (cs.map fun c => c.contents.length).sum < fuel) :
    extractLoop size device fuel start = some (cs.map fun c =>
      (stripAntisocialPrefixes c.fileName.bytes, c.contents)) := by
  induction cs generalizing start fuel with
  | nil =>
    cases fuel with
    | zero => exact absurd hfuel (Nat.not_lt_zero _)
    | succ fuel =>
      have hparse : ustarParseHeader (device start) = .ok none := parse_zeroSector hmarker
      have hlt : start < size := hfits
      rw [extractLoop, if_pos hlt, hparse]
      rfl
  | cons c cs ih =>
    rw [archiveEnd_cons] at hmarker hfits
    rw [List.map_cons, List.sum_cons, List.length_cons] at hfuel
    have hle := le_archiveEnd (start + c.sectors) cs
    have hc : start + 1 + dataSectors c.contents.length = start + c.sectors := by
      rw [Call.sectors]
      omega
    cases fuel with
    | zero => exact absurd hfuel (Nat.not_lt_zero _)
    | succ fuel =>
      rw [extractLoop, if_pos (by omega), h.1, extractEntry]
      dsimp only
      rw [extractData_eq h.2.1 (by omega) (by omega), Option.bind_some]
      dsimp only
      rw [hc, ih h.2.2 hmarker hfits (by omega)]
      rfl

private theorem extractData_succ {size fuel sector remaining : Nat} {device : Nat → Bytes}
    {r : List UInt8 × Nat} (h : extractData size device fuel sector remaining = some r) :
    extractData size device (fuel + 1) sector remaining = some r := by
  induction fuel generalizing sector remaining r with
  | zero => cases h
  | succ fuel ih =>
    rw [extractData] at h ⊢
    split at h
    · next hzero => exact (if_pos hzero).trans h
    · next hzero =>
      rw [if_neg hzero]
      split at h
      · next hlt =>
        rw [if_pos hlt]
        obtain ⟨r', hr', hr⟩ := Option.map_eq_some_iff.mp h
        exact Option.map_eq_some_iff.mpr ⟨r', ih hr', hr⟩
      · cases h

private theorem extractEntry_succ {size fuel sector : Nat} {device : Nat → Bytes}
    {next next' : Nat → Option (List (List UInt8 × List UInt8))}
    {parsed : Except String (Option Entry)} {files : List (List UInt8 × List UInt8)}
    (hnext : ∀ i r, next i = some r → next' i = some r)
    (h : extractEntry size device fuel sector next parsed = some files) :
    extractEntry size device (fuel + 1) sector next' parsed = some files := by
  unfold extractEntry at h ⊢
  split at h
  · cases h
  · exact h
  · split at h
    · exact hnext _ _ h
    · obtain ⟨r, hr, h⟩ := Option.bind_eq_some_iff.mp h
      obtain ⟨rest, hrest, h⟩ := Option.map_eq_some_iff.mp h
      rw [extractData_succ hr, Option.bind_some, hnext _ _ hrest]
      exact congrArg some h

private theorem extractLoop_succ {size fuel sector : Nat} {device : Nat → Bytes}
    {files : List (List UInt8 × List UInt8)}
    (h : extractLoop size device fuel sector = some files) :
    extractLoop size device (fuel + 1) sector = some files := by
  induction fuel generalizing sector files with
  | zero => cases h
  | succ fuel ih =>
    rw [extractLoop] at h ⊢
    split at h
    · next hlt =>
      rw [if_pos hlt]
      exact extractEntry_succ (fun _ _ => ih) h
    · cases h

private theorem extractLoop_mono {size fuel sector : Nat} {device : Nat → Bytes}
    {files : List (List UInt8 × List UInt8)} (n : Nat)
    (h : extractLoop size device fuel sector = some files) :
    extractLoop size device (fuel + n) sector = some files := by
  induction n with
  | zero => exact h
  | succ n ih => exact extractLoop_succ ih

private theorem extractLoop_unique {size fuel fuel' sector : Nat} {device : Nat → Bytes}
    {files files' : List (List UInt8 × List UInt8)}
    (h : extractLoop size device fuel sector = some files)
    (h' : extractLoop size device fuel' sector = some files') : files = files' := by
  have h1 := extractLoop_mono fuel' h
  have h2 := extractLoop_mono fuel h'
  rw [Nat.add_comm, h2] at h1
  exact (Option.some.inj h1).symm

/-! ## When the archive is well formed -/

/-- The condition on the end of the archive before the calls: the byte of memory after the buffer of
the last call is zero (without a call, the first sector of the device), and so is the sector after
the end sector. -/
def EndClear (device : Nat → Bytes) (cs : List Call) : Prop :=
  (∀ c, cs.getLast? = some c → c.memory 512 = 0) ∧ (cs = [] → ZeroSector (device 0)) ∧
    ZeroSector (device (archiveEnd 0 cs + 1))

private theorem AppendedAll.endClear_iff {cs : List Call} {s t : State} (h : AppendedAll cs s t)
    (hzero : s.sector = 0) :
    EndClear s.device cs ↔ ZeroSector (t.device (archiveEnd 0 cs)) ∧
      ZeroSector (t.device (archiveEnd 0 cs + 1)) := by
  have hsector : t.sector = archiveEnd 0 cs := hzero ▸ h.sector
  have hafter := h.after (archiveEnd 0 cs + 1) (by omega)
  unfold EndClear
  rw [hafter, ← and_assoc]
  refine and_congr_left fun _ => ?_
  rw [← hsector]
  cases hlast : cs.getLast? with
  | none =>
    have hnil : cs = [] := List.getLast?_eq_none_iff.mp hlast
    have hsector : t.sector = 0 := by rw [hsector, hnil]; rfl
    rw [hsector, h.unchanged hnil]
    exact ⟨fun hc => hc.2 hnil, fun hz => ⟨fun c hc => absurd hc (by simp), fun _ => hz⟩⟩
  | some c =>
    obtain ⟨hfirst, hbyte⟩ := h.marker c hlast
    refine ⟨fun hc j hj => ?_, fun hz => ⟨fun d hd => ?_, fun hnil => ?_⟩⟩
    · rcases Nat.lt_or_ge j 511 with hlt | hge
      · exact hfirst j hlt
      · obtain rfl : j = 511 := by omega
        exact hbyte.trans (hc.1 c rfl)
    · obtain rfl : c = d := Option.some.inj hd
      exact hbyte.symm.trans (hz 511 (by decide))
    · rw [hnil] at hlast
      cases hlast

/-- From any device and any memory, appended files that fit with two sectors to spare make a
well-formed archive exactly when no name is changed in its header, and zeros stand where the calls
do not write the end marker. -/
theorem fsutilAppend_wellFormed_iff (size : Nat) (device : Nat → Bytes) (calls : List Call)
    (hfits : archiveEnd 0 calls + 2 ≤ size) :
    ∃ t, run fsutilAppend ⟨size, device, 0⟩ calls = some t ∧
      (WellFormed size t.device calls ↔
        (∀ c ∈ calls, stripAntisocialPrefixes c.fileName.bytes = c.fileName.bytes) ∧
          EndClear device calls) := by
  obtain ⟨t, ht, h⟩ := @run_fsutilAppend_spec calls ⟨size, device, 0⟩
    (Nat.lt_of_lt_of_le (Nat.lt_add_of_pos_right Nat.two_pos) hfits)
  have hclear := h.endClear_iff rfl
  have hend : archiveEnd 0 calls < size := by omega
  refine ⟨t, ht, fun hwf => ⟨?_, hclear.mpr ⟨hwf.marker, hwf.marker'⟩⟩, fun hcond => ?_⟩
  · obtain ⟨fuel, hfuel⟩ := hwf.extracted
    have hnames := extractLoop_unique hfuel
      (extractLoop_eq h.stored hwf.marker hend (Nat.lt_succ_self _))
    rw [List.map_inj_left] at hnames
    intro c hc
    exact (congrArg Prod.fst (hnames c hc)).symm
  · obtain ⟨hmarker, hmarker'⟩ := hclear.mp hcond.2
    refine ⟨h.stored, hmarker, hmarker', _,
      (extractLoop_eq h.stored hmarker hend (Nat.lt_succ_self _)).trans ?_⟩
    congr 1
    refine List.map_congr_left fun c hc => ?_
    rw [hcond.1 c hc]

private theorem noNul_a : (0 : UInt8) ∉ [97] := by decide

/-- The file `a`, with the bytes of the memory at the call. -/
def fileA (contents : List UInt8) (h : contents.length ≤ 2 ^ 31 - 1) (byte : UInt8) : Call :=
  ⟨⟨[97], noNul_a⟩, contents, fun _ => byte, by decide, h⟩

/-- On a cleared device, with cleared memory, the archive is as it should be. -/
theorem fsutilAppend_wellFormed_cleared :
    ∃ t, run fsutilAppend ⟨4, fun _ _ => 0, 0⟩ [fileA [5] (by decide) 0] = some t ∧
      WellFormed 4 t.device [fileA [5] (by decide) 0] := by
  obtain ⟨t, ht, hiff⟩ := fsutilAppend_wellFormed_iff 4 (fun _ _ => 0) [fileA [5] (by decide) 0]
    (by decide)
  refine ⟨t, ht, hiff.mpr ⟨fun c hc => ?_, fun c hc => ?_, fun hnil => ?_, fun _ _ => rfl⟩⟩
  · obtain rfl := List.mem_singleton.mp hc
    decide
  · obtain rfl := Option.some.inj hc
    rfl
  · cases hnil

/-- The last byte of the end sector is the one after the buffer, `0xcc` after a `free`; and the
sector after it keeps what was on the device. -/
theorem fsutilAppend_not_wellFormed :
    (∃ t, run fsutilAppend ⟨4, fun _ _ => 0, 0⟩ [fileA [5] (by decide) 0xcc] = some t ∧
      t.device 2 511 = 0xcc ∧ ¬ WellFormed 4 t.device [fileA [5] (by decide) 0xcc]) ∧
    ∃ t, run fsutilAppend ⟨4, fun _ _ => 0xff, 0⟩ [fileA [5] (by decide) 0] = some t ∧
      t.device 3 0 = 0xff ∧ ¬ WellFormed 4 t.device [fileA [5] (by decide) 0] := by
  constructor
  · obtain ⟨t, ht, h⟩ := @run_fsutilAppend_spec [fileA [5] (by decide) 0xcc]
      ⟨4, fun _ _ => 0, 0⟩ (by decide)
    have hbyte : t.device 2 511 = 0xcc := by
      have hlast := (h.marker _ rfl).2
      rw [h.sector] at hlast
      exact hlast
    refine ⟨t, ht, hbyte, fun hwf => ?_⟩
    have hzero : t.device 2 511 = 0 := hwf.marker 511 (by decide)
    exact absurd (hbyte.symm.trans hzero) (by decide)
  · obtain ⟨t, ht, h⟩ := @run_fsutilAppend_spec [fileA [5] (by decide) 0]
      ⟨4, fun _ _ => 0xff, 0⟩ (by decide)
    have hbyte : t.device 3 0 = 0xff := congrFun (h.after 3 (by rw [h.sector]; decide)) 0
    refine ⟨t, ht, hbyte, fun hwf => ?_⟩
    have hzero : t.device 3 0 = 0 := hwf.marker' 0 (by decide)
    exact absurd (hbyte.symm.trans hzero) (by decide)

end Pintos.Filesys.Fsutil
