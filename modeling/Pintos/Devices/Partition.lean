import Mathlib.Algebra.Group.Nat.Defs
import Mathlib.Algebra.Ring.Int.Defs
import Mathlib.Data.List.Perm.Subperm
import Mathlib.Logic.Relation
import Mathlib.Tactic.Tauto
import Pintos.Base.Run
import Pintos.Lib.Bytes

/-!
# Scanning a disk for partitions

`partition_scan` follows the extended partition tables of a block device. The recursion is given a
bound on its depth; none is the answer of one that exceeds it.
Source `devices/partition.c:26–186`.
-/

namespace Pintos.Devices.Partition

open Pintos.Base Pintos.Lib

/-- A partition table entry; the geometry fields are not used, `devices/partition.c:55–64`. -/
structure Entry where
  type : UInt8
  offset : Nat
  size : Nat
  deriving DecidableEq, Repr

/-- A partition table sector, `devices/partition.c:67–73`. -/
structure Table where
  partitions : List Entry
  signature : Nat
  deriving DecidableEq, Repr

def Entry.ofBytes (b : Bytes) : Entry where
  type := b 4
  offset := leWord fun j => b (8 + j)
  size := leWord fun j => b (12 + j)

def Table.ofBytes (b : Bytes) : Table where
  partitions := (List.range 4).map fun i => Entry.ofBytes fun j => b (446 + 16 * i + j)
  signature := (b 510).toNat + 256 * (b 511).toNat

/-- Entries that the scan ignores, `devices/partition.c:110`. -/
def Entry.IsEmpty (e : Entry) : Prop := e.size = 0 ∨ e.type = 0

/-- The types of extended partitions, `devices/partition.c:114–117`. -/
def Entry.IsExtended (e : Entry) : Prop :=
  e.type = 0x05 ∨ e.type = 0x0f ∨ e.type = 0x85 ∨ e.type = 0xc5

instance (e : Entry) : Decidable e.IsEmpty := instDecidableOr

instance (e : Entry) : Decidable e.IsExtended := instDecidableOr

/-- A block device: its size, which is a `block_sector_t`, and its sectors. -/
structure Block where
  size : Nat
  size_lt : size < 2 ^ 32
  sector : Nat → Bytes

/-- What the kernel uses a partition for. -/
inductive BlockType
  | kernel | filesys | scratch | swap | foreign
  deriving DecidableEq, Repr

/-- A registered partition; its number makes its name. -/
structure Registered where
  partNr : Nat
  type : BlockType
  partType : UInt8
  start : Nat
  size : Nat
  deriving DecidableEq, Repr

/-- What the scan prints. -/
inductive Report
  | tablePastEnd (sector : Nat)
  | invalidSignature
  | invalidExtended (sector : Nat)
  | extended (sector : Nat)
  | startsPastEnd (partNr start : Nat)
  | endPastEnd (partNr last size : Nat)
  | noPartitions
  deriving DecidableEq, Repr

/-- The text that is printed for the device of the given name. -/
def Report.text (name : String) : Report → String
  | .tablePastEnd sector =>
    name ++ ": Partition table at sector " ++ toString sector ++ " past end of device.\n"
  | .invalidSignature => name ++ ": Invalid partition table signature\n"
  | .invalidExtended sector =>
    name ++ ": Invalid extended partition table in sector " ++ toString sector ++ "\n"
  | .extended sector => name ++ ": Extended partition in sector " ++ toString sector ++ "\n"
  | .startsPastEnd partNr start =>
    name ++ toString partNr ++ ": Partition starts past end of device (sector " ++
      toString start ++ ")\n"
  | .endPastEnd partNr last size =>
    name ++ toString partNr ++ ": Partition end (" ++ toString last ++
      ") past end of device (" ++ toString size ++ ")\n"
  | .noPartitions => name ++ ": Device contains no partitions\n"

/-- The progress of a scan. -/
structure Scan where
  partNr : Nat
  registered : List Registered
  reports : List Report
  deriving DecidableEq, Repr

def Scan.print (s : Scan) (r : Report) : Scan := { s with reports := s.reports ++ [r] }

/-- The type by which a partition is registered, `devices/partition.c:166–170`. -/
def blockType (partType : UInt8) : BlockType :=
  if partType = 0x20 then .kernel
  else if partType = 0x21 then .filesys
  else if partType = 0x22 then .scratch
  else if partType = 0x23 then .swap
  else .foreign

/-- `found_partition`, `devices/partition.c:153–186`. -/
def foundPartition (block : Block) (partType : UInt8) (start size partNr : Nat) (s : Scan) : Scan :=
  if block.size ≤ start then s.print (.startsPastEnd partNr start)
  else if (start + size) % 2 ^ 32 < start ∨ block.size < (start + size) % 2 ^ 32 then
    s.print (.endPastEnd partNr ((start + size) % 2 ^ 32) block.size)
  else
    { s with registered := s.registered ++ [⟨partNr, blockType partType, partType, start, size⟩] }

/-- One entry of the table, `devices/partition.c:108–143`. -/
def readEntry (readTable : Nat → Nat → Scan → Option Scan) (block : Block)
    (sector primaryExtendedSector : Nat) (s : Scan) (e : Entry) : Option Scan :=
  if e.IsEmpty then some s
  else if e.IsExtended then
    let s := s.print (.extended sector)
    if sector = 0 then readTable e.offset e.offset s
    else readTable ((e.offset + primaryExtendedSector) % 2 ^ 32) primaryExtendedSector s
  else
    let s := { s with partNr := s.partNr + 1 }
    some (foundPartition block e.type ((e.offset + sector) % 2 ^ 32) e.size s.partNr s)

/-- `read_partition_table`, `devices/partition.c:49–146`. Whatever the sector, the table is read
from sector 0. -/
def readPartitionTable (block : Block) : Nat → Nat → Nat → Scan → Option Scan
  | 0, _, _, _ => none
  | depth + 1, sector, primaryExtendedSector, s =>
    if block.size ≤ sector then some (s.print (.tablePastEnd sector))
    else
      let pt := Table.ofBytes (block.sector 0)
      if pt.signature ≠ 0xaa55 then
        if primaryExtendedSector = 0 then some (s.print .invalidSignature)
        else some (s.print (.invalidExtended sector))
      else
        run (readEntry (readPartitionTable block depth) block sector primaryExtendedSector) s
          pt.partitions

/-- `partition_scan`, `devices/partition.c:26–33`. -/
def partitionScan (depth : Nat) (block : Block) : Option Scan :=
  (readPartitionTable block depth 0 0 ⟨0, [], []⟩).map fun s =>
    if s.partNr = 0 then s.print .noPartitions else s

/-! ## The partitions of a disk -/

/-- The table stored in a sector. -/
def Block.table (block : Block) (sector : Nat) : Table := Table.ofBytes (block.sector sector)

/-- A sector of the device holds a validly signed table. -/
def Block.HasTable (block : Block) (sector : Nat) : Prop :=
  sector < block.size ∧ (block.table sector).signature = 0xaa55

/-- A place in the chain of tables: a sector, and the sector of the extended partition that the
table in sector 0 points to. -/
abbrev Place := Nat × Nat

/-- An extended entry of the table at the first place leads to the second, inside the device. -/
def Block.Leads (block : Block) (a b : Place) : Prop :=
  block.HasTable a.1 ∧ b.1 < block.size ∧
    ∃ e ∈ (block.table a.1).partitions, ¬ e.IsEmpty ∧ e.IsExtended ∧
      b = if a.1 = 0 then (e.offset, e.offset) else (e.offset + a.2, a.2)

/-- The places of the chain of tables. -/
def Block.InChain (block : Block) (a : Place) : Prop := Relation.ReflTransGen block.Leads (0, 0) a

/-- No place of the chain is reached from itself. -/
def Block.Acyclic (block : Block) : Prop :=
  ∀ a, block.InChain a → ¬ Relation.TransGen block.Leads a a

/-- The partitions by type, start and size: the ordinary entries of the tables of the chain that lie
wholly inside the device. -/
def Block.IsPartition (block : Block) (x : UInt8 × Nat × Nat) : Prop :=
  ∃ a, block.InChain a ∧ block.HasTable a.1 ∧
    ∃ e ∈ (block.table a.1).partitions, ¬ e.IsEmpty ∧ ¬ e.IsExtended ∧
      x = (e.type, e.offset + a.1, e.size) ∧ e.offset + a.1 + e.size ≤ block.size

/-- The type, the start and the size of a registered partition. -/
def Registered.extent (r : Registered) : UInt8 × Nat × Nat := (r.partType, r.start, r.size)

/-- The scan ends, and registers exactly the partitions of the disk. -/
def Block.Faithful (block : Block) : Prop :=
  ∃ depth s, partitionScan depth block = some s ∧
    ∀ x, x ∈ s.registered.map Registered.extent ↔ block.IsPartition x

variable {block : Block} {depth sector primaryExtendedSector : Nat} {s t : Scan}

/-! ## What the scan registers -/

@[simp] theorem registered_print (s : Scan) (r : Report) :
    (s.print r).registered = s.registered := rfl

private theorem registered_foundPartition {partType : UInt8} {start size partNr : Nat} :
    (foundPartition block partType start size partNr s).registered = s.registered ∨
      (foundPartition block partType start size partNr s).registered =
        s.registered ++ [⟨partNr, blockType partType, partType, start, size⟩] := by
  unfold foundPartition
  split
  · exact .inl rfl
  split
  · exact .inl rfl
  · exact .inr rfl

/-- Every registered partition is of a type that occurs in the table of sector 0. -/
def TypesFromSectorZero (block : Block) (s : Scan) : Prop :=
  ∀ r ∈ s.registered, ∃ e ∈ (block.table 0).partitions, e.type = r.partType

private theorem typesFromSectorZero_read (hs : TypesFromSectorZero block s)
    (h : readPartitionTable block depth sector primaryExtendedSector s = some t) :
    TypesFromSectorZero block t := by
  induction depth generalizing sector primaryExtendedSector s t with
  | zero => cases h
  | succ depth ih =>
    have hentry : ∀ s e t, TypesFromSectorZero block s → e ∈ (block.table 0).partitions →
        readEntry (readPartitionTable block depth) block sector primaryExtendedSector s e = some t →
        TypesFromSectorZero block t := by
      intro s e t hs he h
      unfold readEntry at h
      split at h
      · cases h
        exact hs
      split at h
      · split at h
        · exact @ih _ _ (s.print _) t hs h
        · exact @ih _ _ (s.print _) t hs h
      · cases h
        intro r hr
        rcases registered_foundPartition with hreg | hreg
        · rw [hreg] at hr
          exact hs r hr
        · rw [hreg, List.mem_append, List.mem_singleton] at hr
          rcases hr with hr | rfl
          · exact hs r hr
          · exact ⟨e, he, rfl⟩
    unfold readPartitionTable at h
    dsimp only at h
    split at h
    · cases h
      exact hs
    split at h
    · split at h
      · cases h
        exact hs
      · cases h
        exact hs
    · exact run_preserves_along hentry hs (along_of_forall _ s fun _ he => he) h

/-- What an entry of the table in sector 0 that is no extended partition inside the device adds. -/
def Entry.extents (block : Block) (e : Entry) : List (UInt8 × Nat × Nat) :=
  if ¬ e.IsEmpty ∧ ¬ e.IsExtended ∧ e.offset + e.size ≤ block.size then
    [(e.type, e.offset, e.size)]
  else []

private theorem extents_foundPartition {partType : UInt8} {start size partNr : Nat}
    (hstart : start < 2 ^ 32) (hsize : size < 2 ^ 32) (hpos : size ≠ 0) :
    (foundPartition block partType start size partNr s).registered.map Registered.extent =
      s.registered.map Registered.extent ++
        if start + size ≤ block.size then [(partType, start, size)] else [] := by
  have hblock := block.size_lt
  unfold foundPartition
  split
  · rw [if_neg (by omega), List.append_nil]
    rfl
  split
  · rw [if_neg (by omega), List.append_nil]
    rfl
  · rw [if_pos (by omega), List.map_append]
    rfl

/-- An entry of the table in sector 0, unless it is an extended partition inside the device. -/
theorem readEntry_sectorZero {e : Entry} (hoffset : e.offset < 2 ^ 32) (hsize : e.size < 2 ^ 32)
    (hext : ¬ e.IsEmpty → e.IsExtended → block.size ≤ e.offset) :
    ∃ t, readEntry (readPartitionTable block (depth + 1)) block 0 0 s e = some t ∧
      t.registered.map Registered.extent =
        s.registered.map Registered.extent ++ e.extents block := by
  unfold readEntry Entry.extents
  by_cases hempty : e.IsEmpty
  · refine ⟨s, if_pos hempty, ?_⟩
    rw [if_neg (fun h => h.1 hempty), List.append_nil]
  rw [if_neg hempty]
  by_cases hextended : e.IsExtended
  · rw [if_pos hextended]
    refine ⟨_, if_pos (hext hempty hextended), ?_⟩
    rw [if_neg (fun h => h.2.1 hextended), List.append_nil]
    rfl
  · rw [if_neg hextended]
    refine ⟨_, rfl, ?_⟩
    have hpos : e.size ≠ 0 := fun h => hempty (.inl h)
    have hstart : (e.offset + 0) % 2 ^ 32 = e.offset := Nat.mod_eq_of_lt hoffset
    rw [hstart, extents_foundPartition hoffset hsize hpos]
    simp only [hempty, hextended, not_false_eq_true, true_and]

private theorem run_sectorZero {l : List Entry}
    (hl : ∀ e ∈ l, e.offset < 2 ^ 32 ∧ e.size < 2 ^ 32 ∧
      (¬ e.IsEmpty → e.IsExtended → block.size ≤ e.offset)) :
    ∃ t, run (readEntry (readPartitionTable block (depth + 1)) block 0 0) s l = some t ∧
      t.registered.map Registered.extent =
        s.registered.map Registered.extent ++ l.flatMap (Entry.extents block) := by
  induction l generalizing s with
  | nil => exact ⟨s, rfl, by simp⟩
  | cons e l ih =>
    obtain ⟨hoffset, hsize, hext⟩ := hl e List.mem_cons_self
    obtain ⟨m, hm, hmreg⟩ := @readEntry_sectorZero block depth s e hoffset hsize hext
    obtain ⟨t, ht, htreg⟩ := @ih m fun e' he' => hl e' (List.mem_cons_of_mem e he')
    refine ⟨t, ?_, ?_⟩
    · rw [run_cons, hm]
      exact ht
    · rw [htreg, hmreg, List.flatMap_cons, List.append_assoc]

private theorem lt_of_mem_partitions {b : Bytes} {e : Entry}
    (he : e ∈ (Table.ofBytes b).partitions) :
    e.offset < 2 ^ 32 ∧ e.size < 2 ^ 32 := by
  obtain ⟨i, -, rfl⟩ := List.mem_map.mp he
  constructor
  · exact leWord_lt fun j => b (446 + 16 * i + (8 + j))
  · exact leWord_lt fun j => b (446 + 16 * i + (12 + j))

/-! ## Disks without extended partitions -/

/-- No entry of a signed table in sector 0 is an extended partition inside the device. -/
def NoExtended (size : Nat) (sectorZero : Bytes) : Prop :=
  0 < size → (Table.ofBytes sectorZero).signature = 0xaa55 →
    ∀ e ∈ (Table.ofBytes sectorZero).partitions, ¬ e.IsEmpty → e.IsExtended → size ≤ e.offset

private theorem Block.InChain.eq_zero (hno : NoExtended block.size (block.sector 0)) {a : Place}
    (ha : block.InChain a) : a = (0, 0) := by
  induction ha with
  | refl => rfl
  | tail hchain hleads ih =>
    subst ih
    obtain ⟨htable, hlt, e, he, hempty, hext, rfl⟩ := hleads
    have := hno (Nat.zero_lt_of_lt htable.1) htable.2 e he hempty hext
    exact absurd hlt (Nat.not_lt.mpr this)

private theorem mem_extents_iff {e : Entry} {x : UInt8 × Nat × Nat} :
    x ∈ e.extents block ↔ ¬ e.IsEmpty ∧ ¬ e.IsExtended ∧ x = (e.type, e.offset, e.size) ∧
      e.offset + e.size ≤ block.size := by
  unfold Entry.extents
  split
  · next h =>
    rw [List.mem_singleton]
    tauto
  · next h =>
    simp only [List.not_mem_nil, false_iff]
    tauto

private theorem isPartition_iff (hno : NoExtended block.size (block.sector 0))
    (x : UInt8 × Nat × Nat) :
    block.IsPartition x ↔
      block.HasTable 0 ∧ x ∈ (block.table 0).partitions.flatMap (Entry.extents block) := by
  simp only [List.mem_flatMap, mem_extents_iff]
  constructor
  · rintro ⟨a, ha, htable, e, he, h⟩
    obtain rfl := ha.eq_zero hno
    exact ⟨htable, e, he, h⟩
  · rintro ⟨htable, e, he, h⟩
    exact ⟨(0, 0), .refl, htable, e, he, h⟩

private theorem registered_scan (s : Scan) :
    (if s.partNr = 0 then s.print .noPartitions else s).registered = s.registered := by
  split
  · rfl
  · rfl

private theorem faithful_of_noExtended (hno : NoExtended block.size (block.sector 0)) :
    block.Faithful := by
  have hfaithful : ∃ t, readPartitionTable block 2 0 0 ⟨0, [], []⟩ = some t ∧
      ∀ x, x ∈ t.registered.map Registered.extent ↔ block.IsPartition x := by
    simp only [isPartition_iff hno]
    unfold readPartitionTable
    by_cases hsize : block.size ≤ 0
    · refine ⟨_, if_pos hsize, fun x => ?_⟩
      have hnone : ¬ block.HasTable 0 := fun h => Nat.not_lt.mpr hsize h.1
      simp [hnone]
    rw [if_neg hsize]
    by_cases hsign : (block.table 0).signature = 0xaa55
    · obtain ⟨t, ht, hreg⟩ := @run_sectorZero block 0 ⟨0, [], []⟩ (block.table 0).partitions
        fun e he => ⟨(lt_of_mem_partitions he).1, (lt_of_mem_partitions he).2,
          hno (Nat.not_le.mp hsize) hsign e he⟩
      refine ⟨t, ?_, fun x => ?_⟩
      · exact (if_neg (fun h => h hsign)).trans ht
      · have htable : block.HasTable 0 := ⟨Nat.not_le.mp hsize, hsign⟩
        rw [hreg]
        simp [htable]
    · refine ⟨_, if_pos hsign, fun x => ?_⟩
      have hnone : ¬ block.HasTable 0 := fun h => hsign h.2
      simp [hnone]
  obtain ⟨t, ht, hreg⟩ := hfaithful
  refine ⟨2, _, by rw [partitionScan, ht, Option.map_some], fun x => ?_⟩
  rw [registered_scan]
  exact hreg x

/-! ## Disks with extended partitions -/

/-- A sector with one partition of one sector, at its own place. -/
def tableOf (type : UInt8) : Bytes := fun j =>
  if j = 450 then type else if j = 458 then 1 else if j = 510 then 0x55 else if j = 511 then 0xaa
  else 0

private theorem ofBytes_tableOf (type : UInt8) :
    Table.ofBytes (tableOf type) =
      ⟨[⟨type, 0, 1⟩, ⟨0, 0, 0⟩, ⟨0, 0, 0⟩, ⟨0, 0, 0⟩], 0xaa55⟩ := by
  simp [Table.ofBytes, Entry.ofBytes, tableOf, leWord, List.range_succ]

private theorem ofBytes_zero : Table.ofBytes (fun _ => 0) =
    ⟨[⟨0, 0, 0⟩, ⟨0, 0, 0⟩, ⟨0, 0, 0⟩, ⟨0, 0, 0⟩], 0⟩ := rfl

/-- The disk with the given sector 0 and one more table, in sector `o`. -/
def withTable (size : Nat) (hsize : size < 2 ^ 32) (sectorZero : Bytes) (o : Nat) (type : UInt8) :
    Block where
  size := size
  size_lt := hsize
  sector k := if k = 0 then sectorZero else if k = o then tableOf type else fun _ => 0

private theorem exists_fresh_type (b : Bytes) : ∃ type ∈ [(1 : UInt8), 2, 3, 4, 6],
    ∀ e ∈ (Table.ofBytes b).partitions, e.type ≠ type := by
  by_contra hcon
  have hsub : [(1 : UInt8), 2, 3, 4, 6] ⊆ (Table.ofBytes b).partitions.map Entry.type := by
    intro type htype
    by_contra hnot
    exact hcon ⟨type, htype, fun e he heq => hnot (List.mem_map.mpr ⟨e, he, heq⟩)⟩
  have hle := (List.subperm_of_subset (by decide) hsub).length_le
  have hfour : (Table.ofBytes b).partitions.length = 4 := by simp [Table.ofBytes]
  rw [List.length_map, hfour] at hle
  exact absurd hle (by decide)

private theorem ordinary_types : ∀ type ∈ [(1 : UInt8), 2, 3, 4, 6],
    type ≠ 0 ∧ ¬ (type = 0x05 ∨ type = 0x0f ∨ type = 0x85 ∨ type = 0xc5) := by
  intro type htype
  simp only [List.mem_cons, List.not_mem_nil, or_false] at htype
  rcases htype with rfl | rfl | rfl | rfl | rfl <;> decide

section

variable {size o : Nat} {hsize : size < 2 ^ 32} {sectorZero : Bytes} {type : UInt8}

private theorem leads_withTable (htype : type ∈ [(1 : UInt8), 2, 3, 4, 6]) {a b : Place}
    (h : (withTable size hsize sectorZero o type).Leads a b) : a.1 = 0 := by
  by_contra hne
  obtain ⟨⟨-, hsign⟩, -, e, he, hempty, hext, -⟩ := h
  unfold Block.table withTable at hsign he
  simp only [hne, if_false] at hsign he
  split at he
  · rw [ofBytes_tableOf] at he
    simp only [List.mem_cons, List.not_mem_nil, or_false, or_self] at he
    rcases he with rfl | rfl
    · exact (ordinary_types type htype).2 hext
    · exact hempty (.inr rfl)
  · next ho =>
    rw [if_neg ho, ofBytes_zero] at hsign
    cases hsign

private theorem acyclic_withTable (htype : type ∈ [(1 : UInt8), 2, 3, 4, 6])
    (hself : ∀ e ∈ (Table.ofBytes sectorZero).partitions, ¬ e.IsEmpty → e.IsExtended →
      e.offset ≠ 0) : (withTable size hsize sectorZero o type).Acyclic := by
  -- an extended entry leads away from sector 0, and only sector 0 has any
  have hto : ∀ a b, (withTable size hsize sectorZero o type).Leads a b → b.1 ≠ 0 := by
    intro a b h
    have ha := leads_withTable htype h
    obtain ⟨-, -, e, he, hempty, hext, rfl⟩ := h
    rw [ha] at he ⊢
    exact hself e he hempty hext
  intro a _ hcycle
  obtain ⟨b, hab, -⟩ := Relation.TransGen.head'_iff.mp hcycle
  obtain ⟨c, -, hca⟩ := Relation.TransGen.tail'_iff.mp hcycle
  exact hto c a hca (leads_withTable htype hab)

private theorem isPartition_withTable (htype : type ∈ [(1 : UInt8), 2, 3, 4, 6])
    (hsign : (Table.ofBytes sectorZero).signature = 0xaa55) {e : Entry}
    (he : e ∈ (Table.ofBytes sectorZero).partitions) (hempty : ¬ e.IsEmpty) (hext : e.IsExtended)
    (hlt : e.offset < size) (hself : e.offset ≠ 0) :
    (withTable size hsize sectorZero e.offset type).IsPartition (type, e.offset, 1) := by
  have htable : (withTable size hsize sectorZero e.offset type).table e.offset =
      ⟨[⟨type, 0, 1⟩, ⟨0, 0, 0⟩, ⟨0, 0, 0⟩, ⟨0, 0, 0⟩], 0xaa55⟩ := by
    unfold Block.table withTable
    dsimp only
    rw [if_neg hself, if_pos rfl, ofBytes_tableOf]
  have hleads : (withTable size hsize sectorZero e.offset type).Leads (0, 0)
      (e.offset, e.offset) :=
    ⟨⟨Nat.zero_lt_of_lt hlt, hsign⟩, hlt, e, he, hempty, hext, rfl⟩
  refine ⟨(e.offset, e.offset), .single hleads, ⟨hlt, by rw [htable]⟩, ⟨type, 0, 1⟩, ?_, ?_, ?_, ?_,
    ?_⟩
  · rw [htable]
    exact List.mem_cons_self
  · rintro (h | h)
    · cases h
    · exact (ordinary_types type htype).1 h
  · exact (ordinary_types type htype).2
  · rw [Nat.zero_add]
  · change 0 + e.offset + 1 ≤ size
    omega

end

/-- Take all disks of one size with one sector 0, where a signed table does not name itself as an
extended one, so that the chain can be acyclic: the scan is faithful on all of those with an acyclic
chain exactly if sector 0 has no extended partition inside the device. -/
theorem scan_faithful_iff (size : Nat) (hsize : size < 2 ^ 32) (sectorZero : Bytes)
    (hself : 0 < size → (Table.ofBytes sectorZero).signature = 0xaa55 →
      ∀ e ∈ (Table.ofBytes sectorZero).partitions, ¬ e.IsEmpty → e.IsExtended → e.offset ≠ 0) :
    (∀ block : Block, block.size = size → block.sector 0 = sectorZero → block.Acyclic →
      block.Faithful) ↔ NoExtended size sectorZero := by
  constructor
  · intro hfaithful hpos hsign e he hempty hext
    by_contra hlt
    rw [Nat.not_le] at hlt
    obtain ⟨type, htype, hfresh⟩ := exists_fresh_type sectorZero
    obtain ⟨depth, s, hscan, hreg⟩ := hfaithful (withTable size hsize sectorZero e.offset type) rfl
      rfl (acyclic_withTable htype (hself hpos hsign))
    have hpart := (hreg _).mpr (isPartition_withTable htype hsign he hempty hext hlt
      (hself hpos hsign e he hempty hext))
    obtain ⟨r, hr, hextent⟩ := List.mem_map.mp hpart
    -- but the scan has not read that table
    obtain ⟨t, ht, rfl⟩ := Option.map_eq_some_iff.mp hscan
    rw [registered_scan] at hr
    obtain ⟨e', he', hetype⟩ := typesFromSectorZero_read (by simp [TypesFromSectorZero]) ht r hr
    apply hfresh e' he'
    rw [hetype]
    exact congrArg Prod.fst hextent
  · rintro hno block rfl rfl -
    exact faithful_of_noExtended hno

/-- A disk of 8 sectors with one ordinary partition, whose sector 0 names no extended one. -/
theorem scan_faithful_ordinary :
    NoExtended 8 (tableOf 0x21) ∧
      ∀ block : Block, block.size = 8 → block.sector 0 = tableOf 0x21 → block.Acyclic →
        block.Faithful := by
  have htable := ofBytes_tableOf 0x21
  have hno : NoExtended 8 (tableOf 0x21) := by
    unfold NoExtended
    rw [htable]
    decide
  have hself : 0 < 8 → (Table.ofBytes (tableOf 0x21)).signature = 0xaa55 →
      ∀ e ∈ (Table.ofBytes (tableOf 0x21)).partitions, ¬ e.IsEmpty → e.IsExtended →
        e.offset ≠ 0 := by
    rw [htable]
    decide
  exact ⟨hno, (scan_faithful_iff 8 (by decide) (tableOf 0x21) hself).mpr hno⟩

/-- A table whose recursive call on one extended entry does not end does not end. -/
theorem read_eq_none {e : Entry} (hlt : sector < block.size)
    (hsign : (block.table 0).signature = 0xaa55) (he : e ∈ (block.table 0).partitions)
    (hempty : ¬ e.IsEmpty) (hext : e.IsExtended)
    (hnone : ∀ s, (if sector = 0 then readPartitionTable block depth e.offset e.offset s
      else readPartitionTable block depth ((e.offset + primaryExtendedSector) % 2 ^ 32)
        primaryExtendedSector s) = none) (s : Scan) :
    readPartitionTable block (depth + 1) sector primaryExtendedSector s = none := by
  unfold readPartitionTable
  rw [if_neg (by omega)]
  refine (if_neg (fun h => h hsign)).trans (run_eq_none_of_mem he (fun s => ?_) s)
  unfold readEntry
  rw [if_neg hempty, if_pos hext]
  exact hnone _

/-- With an extended partition in the first half of the device the scan never ends: at every level
it finds the same entry of sector 0 again. -/
theorem partitionScan_endless {e : Entry} (hsign : (block.table 0).signature = 0xaa55)
    (he : e ∈ (block.table 0).partitions) (hempty : ¬ e.IsEmpty) (hext : e.IsExtended)
    (hpos : 0 < e.offset) (hlt : e.offset + e.offset < block.size) (depth : Nat) :
    partitionScan depth block = none := by
  have hblock := block.size_lt
  have hmod : (e.offset + e.offset) % 2 ^ 32 = e.offset + e.offset := Nat.mod_eq_of_lt (by omega)
  have hloop : ∀ depth s,
      readPartitionTable block depth (e.offset + e.offset) e.offset s = none := by
    intro depth
    induction depth with
    | zero => exact fun _ => rfl
    | succ depth ih =>
      intro s
      apply read_eq_none hlt hsign he hempty hext
      intro s
      rw [if_neg (by omega), hmod]
      exact ih s
  have hsecond : ∀ depth s, readPartitionTable block depth e.offset e.offset s = none := by
    intro depth s
    cases depth with
    | zero => rfl
    | succ depth =>
      apply read_eq_none (by omega) hsign he hempty hext
      intro s
      rw [if_neg (by omega), hmod]
      exact hloop depth s
  unfold partitionScan
  rw [Option.map_eq_none_iff]
  cases depth with
  | zero => rfl
  | succ depth =>
    apply read_eq_none (by omega) hsign he hempty hext
    intro s
    rw [if_pos rfl]
    exact hsecond depth s

/-- The sector 0 of a disk with one extended partition, in sector 2. -/
def extendedAtTwo : Bytes := fun j =>
  if j = 450 then 0x05 else if j = 454 then 2 else if j = 458 then 4 else if j = 510 then 0x55
  else if j = 511 then 0xaa else 0

/-- On this disk of 8 sectors the chain ends in sector 2, but the scan does not end: it reads
sector 0 over and over again. -/
theorem scan_endless :
    (withTable 8 (by decide) extendedAtTwo 2 0x06).Acyclic ∧
      ¬ (withTable 8 (by decide) extendedAtTwo 2 0x06).Faithful ∧
      ∀ depth, partitionScan depth (withTable 8 (by decide) extendedAtTwo 2 0x06) = none := by
  have htable : Table.ofBytes extendedAtTwo =
      ⟨[⟨0x05, 2, 4⟩, ⟨0, 0, 0⟩, ⟨0, 0, 0⟩, ⟨0, 0, 0⟩], 0xaa55⟩ := by
    simp [Table.ofBytes, Entry.ofBytes, extendedAtTwo, leWord, List.range_succ]
  have hendless : ∀ depth,
      partitionScan depth (withTable 8 (by decide) extendedAtTwo 2 0x06) = none := by
    intro depth
    have hzero : (withTable 8 (by decide) extendedAtTwo 2 0x06).table 0 =
        ⟨[⟨0x05, 2, 4⟩, ⟨0, 0, 0⟩, ⟨0, 0, 0⟩, ⟨0, 0, 0⟩], 0xaa55⟩ := htable
    apply partitionScan_endless (e := ⟨0x05, 2, 4⟩)
    · rw [hzero]
    · rw [hzero]
      exact List.mem_cons_self
    · decide
    · decide
    · decide
    · decide
  refine ⟨acyclic_withTable (by decide) (by rw [htable]; decide), ?_, hendless⟩
  rintro ⟨depth, s, hscan, -⟩
  rw [hendless depth] at hscan
  cases hscan

end Pintos.Devices.Partition
