import Mathlib.Order.WellFounded
import Mathlib.Tactic.FinCases
import MetalNes.BootSector
import MetalNes.ClusterUse

namespace MetalNes.VolumeDiscovery

open Fat32 FatFiles BootSector ClusterUse

/-- A device that reads sectors: the bytes a read leaves in the buffer, and its return
value. -/
structure BlockDevice where
  read : U32 → Vector U8 512 × U32
  readblocks (addr numblocks : U32) : Vector U8 (numblocks.toNat * 512) × U32

def BlockDevice.toFat (device : BlockDevice) : Fat32.BlockDevice :=
  ⟨fun addr numblocks => ((device.readblocks addr numblocks).1.toList, (device.readblocks addr numblocks).2)⟩

structure MbrPartionTlbEntry where
  paritionAddr : U32
  lastPartAddr : U32
  LBA : U32
  sectorCnt : U32
  partitionType : U8

structure MasterBootRecord where
  tlbEntries : Vector MbrPartionTlbEntry 4

def chsAt (buffer : List U8) (readPtr : Nat) : Option U32 := do
  let b₀ ← buffer[readPtr]?
  let b₁ ← buffer[readPtr + 1]?
  let b₂ ← buffer[readPtr + 2]?
  return longOf b₀ b₁ b₂ 0

def pteLoad (buffer : List U8) (readPtr : Nat) : Option MbrPartionTlbEntry := do
  let readPtr := readPtr + 1
  let paritionAddr ← chsAt buffer readPtr
  let readPtr := readPtr + 3
  let partitionType ← buffer[readPtr]?
  let readPtr := readPtr + 1
  let lastPartAddr ← chsAt buffer readPtr
  let readPtr := readPtr + 3
  let LBA ← longAt buffer readPtr
  let readPtr := readPtr + 4
  let sectorCnt ← longAt buffer readPtr
  return ⟨paritionAddr, lastPartAddr, LBA, sectorCnt, partitionType⟩

def loadBootRecord (bootRecordData : List U8) : Option MasterBootRecord := do
  let recordData := 0x1BE
  let entry₀ ← pteLoad bootRecordData recordData
  let recordData := recordData + 16
  let entry₁ ← pteLoad bootRecordData recordData
  let recordData := recordData + 16
  let entry₂ ← pteLoad bootRecordData recordData
  let recordData := recordData + 16
  let entry₃ ← pteLoad bootRecordData recordData
  return ⟨#v[entry₀, entry₁, entry₂, entry₃]⟩

def longsOf : List U8 → List U32
  | b₀ :: b₁ :: b₂ :: b₃ :: bytes => longOf b₀ b₁ b₂ b₃ :: longsOf bytes
  | _ => []

def isFat32 (partitionType : U8) : Bool := partitionType == 0xB || partitionType == 0xC

def initFatfs (malloc : U32 → Option (List U8)) (device : BlockDevice) : Except Fault (Option MountedFs) :=
  if (device.read 0).2 ≠ 512 then .ok none
  else
    match loadBootRecord (device.read 0).1.toList with
    | none => .error .outOfBounds
    | some mbr =>
      match mbr.tlbEntries.toList.find? fun entry => isFat32 entry.partitionType with
      -- the pointer to the entry is still NULL
      | none => .error .nullPointer
      | some tlbentry =>
        let fatBuffer := (device.read tlbentry.LBA).1
        match fatLoadbpb fatBuffer.toList, fatLoadebr fatBuffer.toList with
        | some bpb, some ebr =>
          match malloc (bpb.bytesPerSector.setWidth 32 * ebr.sectorsPerFat) with
          | none => .error .nullPointer
          | some block =>
            let fatlba := tlbentry.LBA + bpb.reservedSectors.setWidth 32
            match storeAt block 0 (device.readblocks fatlba ebr.sectorsPerFat).1.toList with
            | none => .error .outOfBounds
            | some fattlb => .ok (some {
                fattlb := longsOf fattlb
                dev := device.toFat
                bpb := bpb.toFatBpb
                firstdatalba := fatlba + ebr.sectorsPerFat * bpb.fatCnt.setWidth 32
                clustersize := clustersizeOf bpb.toFatBpb
                ebr := ebr.toFatEbr })
        | _, _ => .error .outOfBounds

section Contents

variable (sector : Vector U8 512)

def byteAt (k : Nat) : U8 := sector.toList.getD k 0

def half (k : Nat) : U16 := wordOf (byteAt sector k) (byteAt sector (k + 1))

def long (k : Nat) : U32 :=
  longOf (byteAt sector k) (byteAt sector (k + 1)) (byteAt sector (k + 2)) (byteAt sector (k + 3))

def typeOf (i : Fin 4) : U8 := byteAt sector (0x1BE + 16 * i + 4)

def startOf (i : Fin 4) : U32 := long sector (0x1BE + 16 * i + 8)

def IsFat32 (i : Fin 4) : Prop := typeOf sector i = 0x0B ∨ typeOf sector i = 0x0C

def FirstFat32 (i : Fin 4) : Prop := IsFat32 sector i ∧ ∀ j < i, ¬ IsFat32 sector j

/-- The sectors of a table, as a boot sector has it, fit in the block of its size. -/
def TableFits : Prop := (long sector 36).toNat * 512 ≤ ((half sector 11).setWidth 32 * long sector 36).toNat

instance (i : Fin 4) : Decidable (IsFat32 sector i) := inferInstanceAs (Decidable (_ ∨ _))

instance (i : Fin 4) : Decidable (FirstFat32 sector i) := inferInstanceAs (Decidable (_ ∧ _))

instance : Decidable (TableFits sector) := inferInstanceAs (Decidable (_ ≤ _))

end Contents

/-- The first data sector of a volume from a sector on, with that boot sector. -/
def dataStart (lba : U32) (boot : Vector U8 512) : U32 :=
  lba + (half boot 14).setWidth 32 + (byteAt boot 16).setWidth 32 * long boot 36

/-- The volume of the first partition that is one, and NULL if none is. -/
structure Discovers (malloc : U32 → Option (List U8)) (device : BlockDevice) : Prop where
  found : ∀ i, FirstFat32 (device.read 0).1 i → ∃ fs, initFatfs malloc device = .ok (some fs) ∧
    fs.firstdatalba = dataStart (startOf (device.read 0).1 i) (device.read (startOf (device.read 0).1 i)).1
  missing : (∀ i, ¬ IsFat32 (device.read 0).1 i) → initFatfs malloc device = .ok none

section Sectors

variable (sector : Vector U8 512)

theorem byteAt_get {k : Nat} (hk : k < 512) : sector.toList[k]? = some (byteAt sector k) := by
  have hlen := sector.length_toList
  rw [byteAt, List.getD_eq_getElem?_getD, List.getElem?_eq_getElem (by omega)]
  rfl

theorem halfAt_sector {k : Nat} (hk : k + 1 < 512) : halfAt sector.toList k = some (half sector k) := by
  rw [halfAt, byteAt_get sector (by omega), byteAt_get sector hk]
  rfl

theorem longAt_sector {k : Nat} (hk : k + 3 < 512) : longAt sector.toList k = some (long sector k) := by
  simp only [longAt, byteAt_get sector (by omega : k < 512), byteAt_get sector (by omega : k + 1 < 512),
    byteAt_get sector (by omega : k + 2 < 512), byteAt_get sector hk]
  rfl

theorem chsAt_sector {k : Nat} (hk : k + 2 < 512) : ∃ chs, chsAt sector.toList k = some chs := by
  simp only [chsAt, byteAt_get sector (by omega : k < 512), byteAt_get sector (by omega : k + 1 < 512),
    byteAt_get sector hk]
  exact ⟨_, rfl⟩

theorem labelAt_sector {k : Nat} (hk : k + 11 ≤ 512) : ∃ label, labelAt sector.toList k = some label := by
  have hlen : (bytesAt sector.toList k 11).length = 11 := by
    rw [bytesAt, List.length_take, List.length_drop, sector.length_toList]
    omega
  exact ⟨_, dif_pos hlen⟩

theorem pteLoad_sector {k : Nat} (hk : k + 16 ≤ 512) : ∃ entry, pteLoad sector.toList k = some entry ∧
    entry.partitionType = byteAt sector (k + 4) ∧ entry.LBA = long sector (k + 8) := by
  obtain ⟨start, hstart⟩ := chsAt_sector sector (by omega : k + 1 + 2 < 512)
  obtain ⟨stop, hstop⟩ := chsAt_sector sector (by omega : k + 5 + 2 < 512)
  refine ⟨⟨start, stop, long sector (k + 8), long sector (k + 12), byteAt sector (k + 4)⟩, ?_, rfl, rfl⟩
  simp only [pteLoad, Nat.add_assoc, Nat.reduceAdd, hstart, hstop, byteAt_get sector (by omega : k + 4 < 512),
    longAt_sector sector (by omega : k + 8 + 3 < 512), longAt_sector sector (by omega : k + 12 + 3 < 512)]
  rfl

theorem fatLoadbpb_sector : ∃ bpb, fatLoadbpb sector.toList = some bpb ∧ bpb.bytesPerSector = half sector 11 ∧
    bpb.reservedSectors = half sector 14 ∧ bpb.fatCnt = byteAt sector 16 := by
  have hhalf := fun k (hk : k + 1 < 512) => halfAt_sector sector hk
  have hlong := fun k (hk : k + 3 < 512) => longAt_sector sector hk
  refine ⟨⟨⟨half sector 11, byteAt sector 13⟩, half sector 14, byteAt sector 16, half sector 17, half sector 19,
    half sector 22, half sector 24, long sector 27, long sector 31⟩, ?_, rfl, rfl, rfl⟩
  simp only [fatLoadbpb, Nat.reduceAdd, hhalf 11 (by decide), byteAt_get sector (by decide : 13 < 512),
    hhalf 14 (by decide), byteAt_get sector (by decide : 16 < 512), hhalf 17 (by decide), hhalf 19 (by decide),
    hhalf 22 (by decide), hhalf 24 (by decide), hlong 27 (by decide), hlong 31 (by decide)]
  rfl

theorem fatLoadebr_sector : ∃ ebr, fatLoadebr sector.toList = some ebr ∧ ebr.sectorsPerFat = long sector 36 := by
  have hhalf := fun k (hk : k + 1 < 512) => halfAt_sector sector hk
  have hlong := fun k (hk : k + 3 < 512) => longAt_sector sector hk
  obtain ⟨label, hlabel⟩ := labelAt_sector sector (by decide : 71 + 11 ≤ 512)
  refine ⟨⟨⟨long sector 44⟩, long sector 36, half sector 40, half sector 42, half sector 48, half sector 50,
    byteAt sector 66, label, half sector 510⟩, ?_, rfl⟩
  simp only [fatLoadebr, Nat.reduceAdd, hlong 36 (by decide), hhalf 40 (by decide), hhalf 42 (by decide),
    hlong 44 (by decide), hhalf 48 (by decide), hhalf 50 (by decide), byteAt_get sector (by decide : 66 < 512),
    hlabel, hhalf 510 (by decide)]
  rfl

theorem loadBootRecord_sector : ∃ mbr, loadBootRecord sector.toList = some mbr ∧
    ∀ i : Fin 4, mbr.tlbEntries[i].partitionType = typeOf sector i ∧ mbr.tlbEntries[i].LBA = startOf sector i := by
  obtain ⟨entry₀, h₀, hentry₀⟩ := pteLoad_sector sector (by decide : 0x1BE + 16 ≤ 512)
  obtain ⟨entry₁, h₁, hentry₁⟩ := pteLoad_sector sector (by decide : 0x1CE + 16 ≤ 512)
  obtain ⟨entry₂, h₂, hentry₂⟩ := pteLoad_sector sector (by decide : 0x1DE + 16 ≤ 512)
  obtain ⟨entry₃, h₃, hentry₃⟩ := pteLoad_sector sector (by decide : 0x1EE + 16 ≤ 512)
  refine ⟨⟨#v[entry₀, entry₁, entry₂, entry₃]⟩, ?_, ?_⟩
  · simp only [loadBootRecord, Nat.reduceAdd, h₀, h₁, h₂, h₃]
    rfl
  · intro i
    fin_cases i
    · exact hentry₀
    · exact hentry₁
    · exact hentry₂
    · exact hentry₃

theorem isFat32_iff {mbr : MasterBootRecord}
    (hmbr : ∀ i : Fin 4, mbr.tlbEntries[i].partitionType = typeOf sector i) (i : Fin 4) :
    isFat32 mbr.tlbEntries[i].partitionType = true ↔ IsFat32 sector i := by
  rw [hmbr, isFat32, Bool.or_eq_true, beq_iff_eq, beq_iff_eq]
  rfl

variable {sector}

theorem exists_first (h : ¬ ∀ i, ¬ IsFat32 sector i) : ∃ i, FirstFat32 sector i := by
  simp only [not_forall, not_not] at h
  obtain ⟨i, hi, hleast⟩ := WellFounded.has_min wellFounded_lt {i | IsFat32 sector i} h
  exact ⟨i, hi, fun j hj hfat => hleast j hfat hj⟩

theorem FirstFat32.unique {i j : Fin 4} (hi : FirstFat32 sector i) (hj : FirstFat32 sector j) : i = j := by
  rcases lt_trichotomy i j with hlt | heq | hgt
  · exact absurd hi.1 (hj.2 i hlt)
  · exact heq
  · exact absurd hj.1 (hi.2 j hgt)

theorem find_first {mbr : MasterBootRecord}
    (hmbr : ∀ i : Fin 4, mbr.tlbEntries[i].partitionType = typeOf sector i) {i : Fin 4}
    (hi : FirstFat32 sector i) :
    mbr.tlbEntries.toList.find? (fun entry => isFat32 entry.partitionType) = some mbr.tlbEntries[i] := by
  have hlen := mbr.tlbEntries.length_toList
  rw [List.find?_eq_some_iff_getElem]
  refine ⟨(isFat32_iff sector hmbr i).mpr hi.1, i, i.isLt.trans_eq hlen.symm, rfl, fun j hj => ?_⟩
  have hnot := hi.2 ⟨j, hj.trans i.isLt⟩ hj
  rw [← isFat32_iff sector hmbr, Bool.not_eq_true] at hnot
  rw [Bool.not_eq_true']
  exact hnot

theorem find_none {mbr : MasterBootRecord}
    (hmbr : ∀ i : Fin 4, mbr.tlbEntries[i].partitionType = typeOf sector i) (hnone : ∀ i, ¬ IsFat32 sector i) :
    mbr.tlbEntries.toList.find? (fun entry => isFat32 entry.partitionType) = none := by
  rw [List.find?_eq_none]
  intro entry hentry
  obtain ⟨i, hi, rfl⟩ := List.getElem_of_mem hentry
  have hlen := mbr.tlbEntries.length_toList
  exact fun hfat => hnone ⟨i, hi.trans_eq hlen⟩ ((isFat32_iff sector hmbr ⟨i, hi.trans_eq hlen⟩).mp hfat)

end Sectors

section Init

variable {malloc : U32 → Option (List U8)} {device : BlockDevice}

theorem initFatfs_missing (hread : (device.read 0).2 = 512) (hnone : ∀ i, ¬ IsFat32 (device.read 0).1 i) :
    initFatfs malloc device = .error .nullPointer := by
  obtain ⟨mbr, hload, hmbr⟩ := loadBootRecord_sector (device.read 0).1
  simp only [initFatfs, hread, ne_eq, not_true_eq_false, if_false, hload, find_none (fun i => (hmbr i).1) hnone]

theorem initFatfs_found (hread : (device.read 0).2 = 512) (hm : Granted malloc) {i : Fin 4}
    (hi : FirstFat32 (device.read 0).1 i) :
    (¬ TableFits (device.read (startOf (device.read 0).1 i)).1 ∧ initFatfs malloc device = .error .outOfBounds) ∨
      (TableFits (device.read (startOf (device.read 0).1 i)).1 ∧ ∃ fs, initFatfs malloc device = .ok (some fs) ∧
        fs.firstdatalba = dataStart (startOf (device.read 0).1 i) (device.read (startOf (device.read 0).1 i)).1) := by
  obtain ⟨mbr, hload, hmbr⟩ := loadBootRecord_sector (device.read 0).1
  have hfind := find_first (fun i => (hmbr i).1) hi
  obtain ⟨bpb, hbpb, hbytes, hreserved, hcnt⟩ := fatLoadbpb_sector (device.read (startOf (device.read 0).1 i)).1
  obtain ⟨ebr, hebr, hsectors⟩ := fatLoadebr_sector (device.read (startOf (device.read 0).1 i)).1
  obtain ⟨block, hblock, hlen⟩ := hm (bpb.bytesPerSector.setWidth 32 * ebr.sectorsPerFat)
  have hroom : TableFits (device.read (startOf (device.read 0).1 i)).1 ↔
      0 + (device.readblocks (startOf (device.read 0).1 i + bpb.reservedSectors.setWidth 32)
        ebr.sectorsPerFat).1.toList.length ≤ block.length := by
    rw [hlen, Vector.length_toList, hbytes, hsectors, Nat.zero_add]
    rfl
  by_cases hfits : TableFits (device.read (startOf (device.read 0).1 i)).1
  · refine Or.inr ⟨hfits, ?_⟩
    obtain ⟨fattlb, hstore⟩ : ∃ fattlb, storeAt block 0 (device.readblocks (startOf (device.read 0).1 i +
        bpb.reservedSectors.setWidth 32) ebr.sectorsPerFat).1.toList = some fattlb := ⟨_, if_pos (hroom.mp hfits)⟩
    simp only [initFatfs, hread, ne_eq, not_true_eq_false, if_false, hload, hfind, (hmbr i).2, hbpb, hebr, hblock,
      hstore]
    refine ⟨_, rfl, ?_⟩
    rw [dataStart, hreserved, hcnt, hsectors, BitVec.mul_comm]
  · refine Or.inl ⟨hfits, ?_⟩
    have hstore : storeAt block 0 (device.readblocks (startOf (device.read 0).1 i +
        bpb.reservedSectors.setWidth 32) ebr.sectorsPerFat).1.toList = none := if_neg (mt hroom.mpr hfits)
    simp only [initFatfs, hread, ne_eq, not_true_eq_false, if_false, hload, hfind, (hmbr i).2, hbpb, hebr, hblock,
      hstore]

end Init

/-- For all contents of the device whose first sector is read: a volume is discovered
properly exactly if some partition is one, and the block for its table holds the sectors
of the table. -/
theorem discovers_iff {malloc : U32 → Option (List U8)} {device : BlockDevice}
    (hread : (device.read 0).2 = 512) (hm : Granted malloc) : Discovers malloc device ↔
      ∃ i, FirstFat32 (device.read 0).1 i ∧ TableFits (device.read (startOf (device.read 0).1 i)).1 := by
  constructor
  · intro h
    by_cases hnone : ∀ i, ¬ IsFat32 (device.read 0).1 i
    · cases (h.missing hnone).symm.trans (initFatfs_missing hread hnone)
    · obtain ⟨i, hi⟩ := exists_first hnone
      obtain ⟨fs, hinit, -⟩ := h.found i hi
      rcases initFatfs_found hread hm hi with ⟨-, herror⟩ | ⟨hfits, -⟩
      · cases hinit.symm.trans herror
      · exact ⟨i, hi, hfits⟩
  · rintro ⟨i, hi, hfits⟩
    refine ⟨fun j hj => ?_, fun hnone => absurd hi.1 (hnone i)⟩
    obtain rfl := hi.unique hj
    rcases initFatfs_found hread hm hi with ⟨hnot, -⟩ | ⟨-, hinit⟩
    · exact absurd hfits hnot
    · exact hinit

section Example

def sectorWith (bytes : List (Nat × U8)) : Vector U8 512 :=
  bytes.foldl (fun sector b => sector.setIfInBounds b.1 b.2) (Vector.replicate 512 0)

/-- A device with a first sector and one for all others, where tables are read as zeros. -/
def device (first boot : Vector U8 512) : BlockDevice where
  read addr := (if addr = 0 then first else boot, 512)
  readblocks _ numblocks := (Vector.replicate (numblocks.toNat * 512) 0, numblocks * 512)

/-- The second entry is that of a volume from sector 63 on, with two tables of a sector. -/
def carded : BlockDevice :=
  device (sectorWith [(0x1CE + 4, 0x0C), (0x1CE + 8, 63)])
    (sectorWith [(12, 2), (13, 8), (14, 32), (16, 2), (36, 1), (44, 2)])

theorem carded_discovers : Discovers FileReads.cleared carded :=
  (discovers_iff rfl granted_cleared).mpr ⟨1, by decide +kernel⟩

def unpartitioned : BlockDevice := device (Vector.replicate 512 0) (Vector.replicate 512 0)

theorem unpartitioned_faults : initFatfs FileReads.cleared unpartitioned = .error .nullPointer ∧
    ¬ Discovers FileReads.cleared unpartitioned := by
  have hnone : ∀ i, ¬ IsFat32 (unpartitioned.read 0).1 i := by decide +kernel
  have hinit : initFatfs FileReads.cleared unpartitioned = .error .nullPointer := initFatfs_missing rfl hnone
  refine ⟨hinit, fun h => ?_⟩
  cases (h.missing hnone).symm.trans hinit

end Example

end MetalNes.VolumeDiscovery
