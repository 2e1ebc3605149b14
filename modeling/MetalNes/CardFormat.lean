import MetalNes.VolumeDiscovery

namespace MetalNes.CardFormat

open Fat32 FatFiles BootSector Patches ClusterChains VolumeDiscovery

section Bytes

def chsBytes (v : U32) : List U8 := [v.setWidth 8, (v >>> 8).setWidth 8, (v >>> 16).setWidth 8]

theorem chs_high {v : U32} (hv : v.toNat < 2 ^ 24) : (v >>> 24).setWidth 8 = (0 : U8) := by
  apply BitVec.eq_of_toNat_eq
  rw [BitVec.toNat_setWidth, BitVec.toNat_ushiftRight, Nat.shiftRight_eq_div_pow, Nat.div_eq_of_lt hv]
  rfl

theorem longsOf_bytes (table : List U32) : longsOf (table.flatMap longBytes) = table := by
  induction table with
  | nil => rfl
  | cons v table ih =>
      rw [List.flatMap_cons]
      simp only [longBytes, List.cons_append, List.nil_append, longsOf, longOf_bytes]
      rw [ih]

theorem length_longBytes (table : List U32) : (table.flatMap longBytes).length = table.length * 4 := by
  induction table with
  | nil => rfl
  | cons v table ih =>
      rw [List.flatMap_cons, List.length_append, ih, List.length_cons, Nat.succ_mul, Nat.add_comm]
      rfl

end Bytes

section Record

/-- An entry of the partition table, in which the two addresses have three bytes each. -/
structure Partition extends MbrPartionTlbEntry where
  start_lt : paritionAddr.toNat < 2 ^ 24
  last_lt : lastPartAddr.toNat < 2 ^ 24

def entryFields (k : Nat) (p : Partition) : List (Patch U8) :=
  [⟨k + 1, chsBytes p.paritionAddr⟩, ⟨k + 4, [p.partitionType]⟩, ⟨k + 5, chsBytes p.lastPartAddr⟩,
    ⟨k + 8, longBytes p.LBA⟩, ⟨k + 12, longBytes p.sectorCnt⟩]

def recordFields (parts : Vector Partition 4) : List (Patch U8) :=
  entryFields 0x1BE parts[0] ++ (entryFields 0x1CE parts[1] ++
    (entryFields 0x1DE parts[2] ++ entryFields 0x1EE parts[3]))

/-- The first sector of a card with these partitions, and other bytes around the table. -/
def bootRecord (parts : Vector Partition 4) (rest : Vector U8 512) : List U8 :=
  write (recordFields parts) rest.toList

section Read

variable {ps : List (Patch U8)} {xs : List U8} (hfit : ∀ p ∈ ps, p.stop ≤ xs.length)
  (horder : ps.IsChain Patch.Before)

include hfit horder

theorem chsAt_write {ptr : Nat} {v : U32} (hv : v.toNat < 2 ^ 24) (hp : (⟨ptr, chsBytes v⟩ : Patch U8) ∈ ps) :
    chsAt (write ps xs) ptr = some v := by
  have hlen : (chsBytes v).length = 3 := rfl
  have h := fun i hi => getElem?_write hfit horder hp (i := i) (hlen.symm ▸ hi)
  have h₀ := h 0 (by decide)
  have h₁ := h 1 (by decide)
  have h₂ := h 2 (by decide)
  rw [Nat.add_zero] at h₀
  simp only [chsAt, h₀, h₁, h₂]
  rw [← chs_high hv]
  exact congrArg some (longOf_bytes v)

theorem pteLoad_write {k : Nat} {p : Partition} (hp : ∀ f ∈ entryFields k p, f ∈ ps) :
    pteLoad (write ps xs) k = some p.toMbrPartionTlbEntry := by
  simp only [entryFields, List.forall_mem_cons] at hp
  obtain ⟨hstart, htype, hlast, hlba, hcnt, -⟩ := hp
  simp only [pteLoad, Nat.add_assoc, Nat.reduceAdd, chsAt_write hfit horder p.start_lt hstart,
    byteAt_write hfit horder htype, chsAt_write hfit horder p.last_lt hlast, longAt_write hfit horder hlba,
    longAt_write hfit horder hcnt]
  rfl

end Read

variable (parts : Vector Partition 4) (rest : Vector U8 512)

theorem recordFields_fit : ∀ p ∈ recordFields parts, p.stop ≤ rest.toList.length := by
  rw [rest.length_toList]
  simp [recordFields, entryFields, Patch.stop, chsBytes, longBytes]

theorem recordFields_inOrder : (recordFields parts).IsChain Patch.Before := by
  simp [recordFields, entryFields, Patch.Before, Patch.stop, chsBytes, longBytes]

theorem loadBootRecord_eq :
    loadBootRecord (bootRecord parts rest) = some ⟨parts.map Partition.toMbrPartionTlbEntry⟩ := by
  have hload := fun k p => pteLoad_write (recordFields_fit parts rest) (recordFields_inOrder parts) (k := k) (p := p)
  have h₀ := hload 0x1BE parts[0] fun f hf => List.mem_append_left _ hf
  have h₁ := hload 0x1CE parts[1] fun f hf => List.mem_append_right _ (List.mem_append_left _ hf)
  have h₂ := hload 0x1DE parts[2] fun f hf =>
    List.mem_append_right _ (List.mem_append_right _ (List.mem_append_left _ hf))
  have h₃ := hload 0x1EE parts[3] fun f hf =>
    List.mem_append_right _ (List.mem_append_right _ (List.mem_append_right _ hf))
  simp only [loadBootRecord, bootRecord, Nat.reduceAdd, h₀, h₁, h₂, h₃]
  have hparts : parts.map Partition.toMbrPartionTlbEntry = #v[parts[0].toMbrPartionTlbEntry,
      parts[1].toMbrPartionTlbEntry, parts[2].toMbrPartionTlbEntry, parts[3].toMbrPartionTlbEntry] := by
    apply Vector.ext
    intro i hi
    have hcases : i = 0 ∨ i = 1 ∨ i = 2 ∨ i = 3 := by omega
    rw [Vector.getElem_map]
    rcases hcases with rfl | rfl | rfl | rfl
    all_goals rfl
  rw [hparts]
  rfl

end Record

/-- What a card has in front of the data of its volume, which is in the first partition
that is one. -/
structure Format where
  partitions : Vector Partition 4
  index : Fin 4
  bpb : BootSector.FatBpb
  ebr : BootSector.FatEbr
  fattlb : List U32
  fat32 : isFat32 (partitions.get index).partitionType = true
  first : ∀ j < index, isFat32 (partitions.get j).partitionType = false
  bytesPerSector : bpb.bytesPerSector = 512
  entries : fattlb.length = ebr.sectorsPerFat.toNat * 128
  numbered : fattlb.length ≤ 2 ^ 28
  hidden : 0 < (partitions.get index).LBA.toNat
  reserved : 0 < bpb.reservedSectors.toNat
  tables : 0 < bpb.fatCnt.toNat
  addressed : (partitions.get index).LBA.toNat + bpb.reservedSectors.toNat +
    bpb.fatCnt.toNat * ebr.sectorsPerFat.toNat < 2 ^ 32

namespace Format

variable (format : Format)

def LBA : U32 := (format.partitions.get format.index).LBA

def fatlba : Nat := format.LBA.toNat + format.bpb.reservedSectors.toNat

def firstdatalba : Nat := format.fatlba + format.bpb.fatCnt.toNat * format.ebr.sectorsPerFat.toNat

/-- The sectors have the partition table, the boot sector and the first copy of the table,
each where it belongs. -/
structure On (sector : Nat → Vector U8 512) : Prop where
  record : ∃ rest, (sector 0).toList = bootRecord format.partitions rest
  boot : ∃ rest, (sector format.LBA.toNat).toList = bootSector format.bpb format.ebr rest
  fattlb : sectorBytes sector format.fatlba format.ebr.sectorsPerFat.toNat = format.fattlb.flatMap longBytes

end Format

section Image

theorem length_write {ps : List (Patch U8)} {xs : List U8} (hfit : ∀ p ∈ ps, p.stop ≤ xs.length) :
    (write ps xs).length = xs.length := by
  induction ps generalizing xs with
  | nil => rfl
  | cons p ps ih =>
      obtain ⟨hp, hps⟩ := List.forall_mem_cons.mp hfit
      have hlen := Patch.length_apply hp
      rw [write, List.foldl_cons]
      exact (ih fun q hq => (hps q hq).trans hlen.ge).trans hlen

variable (format : Format) (data : Nat → Vector U8 512)

def ofBytes (xs : List U8) (h : xs.length = 512) : Vector U8 512 := ⟨xs.toArray, h⟩

theorem toList_ofBytes {xs : List U8} (h : xs.length = 512) : (ofBytes xs h).toList = xs := rfl

theorem length_bootRecord (parts : Vector Partition 4) (rest : Vector U8 512) :
    (bootRecord parts rest).length = 512 :=
  (length_write (recordFields_fit parts rest)).trans rest.length_toList

theorem length_bootSector (bpb : BootSector.FatBpb) (ebr : BootSector.FatEbr) (rest : Vector U8 512) :
    (bootSector bpb ebr rest).length = 512 :=
  (length_write (fields_fit bpb ebr rest)).trans rest.length_toList

def recordSector : Vector U8 512 :=
  ofBytes (bootRecord format.partitions (data 0)) (length_bootRecord format.partitions (data 0))

def volumeSector : Vector U8 512 :=
  ofBytes (bootSector format.bpb format.ebr (data format.LBA.toNat)) (length_bootSector format.bpb format.ebr _)

def tableSector (i : Nat) : Vector U8 512 :=
  Vector.ofFn fun k => (format.fattlb.flatMap longBytes).getD (i * 512 + k) 0

/-- Formatting a card: the other sectors keep their data. -/
def image (lba : Nat) : Vector U8 512 :=
  if lba = 0 then recordSector format data
  else if lba = format.LBA.toNat then volumeSector format data
  else if format.fatlba ≤ lba ∧ lba < format.fatlba + format.ebr.sectorsPerFat.toNat then
    tableSector format (lba - format.fatlba)
  else data lba

theorem sectorBytes_chunks {sector : Nat → Vector U8 512} {lba n : Nat} {xs : List U8} (hlen : xs.length = n * 512)
    (h : ∀ i < n, (sector (lba + i)).toList = (xs.drop (i * 512)).take 512) : sectorBytes sector lba n = xs := by
  induction n generalizing lba xs with
  | zero => exact (List.eq_nil_of_length_eq_zero (hlen.trans (Nat.zero_mul 512))).symm
  | succ n ih =>
      have hfirst := h 0 n.succ_pos
      rw [Nat.add_zero, Nat.zero_mul, List.drop_zero] at hfirst
      have hrest : sectorBytes sector (lba + 1) n = xs.drop 512 := by
        refine ih ?_ fun i hi => ?_
        · rw [List.length_drop, hlen, Nat.succ_mul, Nat.add_sub_cancel]
        · rw [Nat.add_right_comm, Nat.add_assoc, h (i + 1) (Nat.succ_lt_succ hi), List.drop_drop, Nat.succ_mul,
            Nat.add_comm 512]
      have hshift : (fun i => (sector (lba + (i + 1))).toList) = fun i => (sector (lba + 1 + i)).toList := by
        funext i
        rw [Nat.add_right_comm, Nat.add_assoc]
      rw [sectorBytes, List.range_succ_eq_map, List.flatMap_cons, List.flatMap_map, Nat.add_zero, hfirst]
      rw [sectorBytes, ← hshift] at hrest
      exact (congrArg _ hrest).trans (List.take_append_drop 512 xs)

theorem toList_tableSector {i : Nat} (hi : i < format.ebr.sectorsPerFat.toNat) :
    (tableSector format i).toList = ((format.fattlb.flatMap longBytes).drop (i * 512)).take 512 := by
  have hlen : (format.fattlb.flatMap longBytes).length = format.ebr.sectorsPerFat.toNat * 512 := by
    rw [length_longBytes, format.entries, Nat.mul_assoc]
  have hroom : i * 512 + 512 ≤ format.ebr.sectorsPerFat.toNat * 512 := by
    rw [← Nat.succ_mul]
    exact Nat.mul_le_mul_right 512 hi
  apply List.ext_getElem
  · rw [Vector.length_toList, List.length_take, List.length_drop, hlen]
    omega
  · intro k hk hk'
    rw [Vector.length_toList] at hk
    have hinside : i * 512 + k < (format.fattlb.flatMap longBytes).length := by
      rw [hlen]
      exact (Nat.add_lt_add_left hk _).trans_le hroom
    have hbyte : (tableSector format i)[k] = (format.fattlb.flatMap longBytes).getD (i * 512 + k) 0 :=
      Vector.getElem_ofFn hk
    rw [List.getElem_take, List.getElem_drop, Vector.getElem_toList, hbyte, List.getD_eq_getElem?_getD,
      List.getElem?_eq_getElem hinside]
    rfl

/-- A formatted card has the format, whatever its data is. -/
theorem image_on : format.On (image format data) := by
  have hhidden : 0 < format.LBA.toNat := format.hidden
  have hreserved := format.reserved
  refine ⟨⟨data 0, ?_⟩, ⟨data format.LBA.toNat, ?_⟩, sectorBytes_chunks ?_ fun i hi => ?_⟩
  · rw [image, if_pos rfl, recordSector, toList_ofBytes]
  · rw [image, if_neg hhidden.ne', if_pos rfl, volumeSector, toList_ofBytes]
  · rw [length_longBytes, format.entries, Nat.mul_assoc]
  · have hfront : format.LBA.toNat < format.fatlba := Nat.lt_add_of_pos_right hreserved
    have hrecord : ¬ format.fatlba + i = 0 := by omega
    have hvolume : ¬ format.fatlba + i = format.LBA.toNat := by omega
    have htable : format.fatlba ≤ format.fatlba + i ∧
        format.fatlba + i < format.fatlba + format.ebr.sectorsPerFat.toNat :=
      ⟨Nat.le_add_right _ i, Nat.add_lt_add_left hi _⟩
    rw [← toList_tableSector format hi, image, if_neg hrecord, if_neg hvolume, if_pos htable, Nat.add_sub_cancel_left]

end Image

end MetalNes.CardFormat
