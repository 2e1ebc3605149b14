import MetalNes.CardFormat
import MetalNes.DirectoryTree

namespace MetalNes.CardMount

open Fat32 FatFiles BootSector ClusterChains ClusterUse VolumeDiscovery CardFormat

/-- A device that reads the sectors of a card, one alone or some in a row. -/
structure Serves (device : VolumeDiscovery.BlockDevice) (sector : Nat → Vector U8 512) : Prop where
  read : ∀ addr, device.read addr = (sector addr.toNat, 512)
  readblocks : ClusterChains.ReadsBlocks device.toFat sector

/-- Such a device for all sectors. -/
def reading (sector : Nat → Vector U8 512) : VolumeDiscovery.BlockDevice where
  read addr := (sector addr.toNat, 512)
  readblocks addr numblocks :=
    (⟨(sectorBytes sector addr.toNat numblocks.toNat).toArray, length_sectorBytes _ _⟩, numblocks * 512)

theorem reading_serves (sector : Nat → Vector U8 512) : Serves (reading sector) sector :=
  ⟨fun _ => rfl, fun _ _ _ => rfl⟩

def mounted (format : Format) (dev : Fat32.BlockDevice) : MountedFs where
  fattlb := format.fattlb
  dev := dev
  bpb := format.bpb.toFatBpb
  firstdatalba := BitVec.ofNat 32 format.firstdatalba
  clustersize := clustersizeOf format.bpb.toFatBpb
  ebr := format.ebr.toFatEbr

section Init

variable {format : Format} {sector : Nat → Vector U8 512} {device : VolumeDiscovery.BlockDevice}

theorem find_volume (format : Format) :
    (format.partitions.map Partition.toMbrPartionTlbEntry).toList.find? (fun entry => isFat32 entry.partitionType) =
      some (format.partitions.get format.index).toMbrPartionTlbEntry := by
  have hlen := (format.partitions.map Partition.toMbrPartionTlbEntry).length_toList
  rw [List.find?_eq_some_iff_getElem]
  refine ⟨format.fat32, format.index, format.index.isLt.trans_eq hlen.symm, ?_, fun j hj => ?_⟩
  · rw [Vector.getElem_toList, Vector.getElem_map]
    rfl
  · have hnot := format.first ⟨j, hj.trans format.index.isLt⟩ hj
    rw [Vector.getElem_toList, Vector.getElem_map, Bool.not_eq_true']
    exact hnot

theorem tableSize (format : Format) : format.ebr.sectorsPerFat.toNat ≤ 2 ^ 21 := by
  have hentries := format.entries
  have hnumbered := format.numbered
  omega

theorem toNat_fatlba (format : Format) :
    (format.LBA + format.bpb.reservedSectors.setWidth 32).toNat = format.fatlba := by
  have haddressed := format.addressed
  have hreserved : (format.bpb.reservedSectors.setWidth 32).toNat = format.bpb.reservedSectors.toNat := by
    rw [BitVec.toNat_setWidth, Nat.mod_eq_of_lt (format.bpb.reservedSectors.isLt.trans (by decide))]
  rw [BitVec.toNat_add, hreserved, Format.fatlba, Nat.mod_eq_of_lt]
  exact (Nat.le_add_right _ _).trans_lt haddressed

theorem firstdatalba_eq (format : Format) : format.LBA + format.bpb.reservedSectors.setWidth 32 +
    format.ebr.sectorsPerFat * format.bpb.fatCnt.setWidth 32 = BitVec.ofNat 32 format.firstdatalba := by
  have hfront : format.LBA + format.bpb.reservedSectors.setWidth 32 = BitVec.ofNat 32 format.fatlba := by
    rw [← toNat_fatlba, BitVec.ofNat_toNat, BitVec.setWidth_eq]
  have hcnt : format.bpb.fatCnt.setWidth 32 = BitVec.ofNat 32 format.bpb.fatCnt.toNat := (BitVec.ofNat_toNat ..).symm
  have hsectors : format.ebr.sectorsPerFat = BitVec.ofNat 32 format.ebr.sectorsPerFat.toNat := by
    rw [BitVec.ofNat_toNat, BitVec.setWidth_eq]
  rw [hfront, hcnt, Format.firstdatalba, BitVec.ofNat_add, BitVec.ofNat_mul, ← hsectors, BitVec.mul_comm]

variable (hon : format.On sector) (hserves : Serves device sector)

include hon hserves

theorem storeAt_fattlb {block : List U8}
    (hblock : block.length = (format.bpb.bytesPerSector.setWidth 32 * format.ebr.sectorsPerFat).toNat) :
    storeAt block 0 (device.readblocks (format.LBA + format.bpb.reservedSectors.setWidth 32)
      format.ebr.sectorsPerFat).1.toList = some (format.fattlb.flatMap longBytes) := by
  have hsize := tableSize format
  have haddressed := format.addressed
  have htables := Nat.le_mul_of_pos_left format.ebr.sectorsPerFat.toNat format.tables
  have hlba := toNat_fatlba format
  have hinside : format.fatlba + format.ebr.sectorsPerFat.toNat ≤ 2 ^ 32 :=
    (Nat.add_le_add_left htables _).trans haddressed.le
  have hread : (device.readblocks (format.LBA + format.bpb.reservedSectors.setWidth 32)
      format.ebr.sectorsPerFat).1.toList = format.fattlb.flatMap longBytes := by
    refine (congrArg Prod.fst (hserves.readblocks _ _ ?_)).trans ?_
    · rw [hlba]
      exact hinside
    · rw [hlba]
      exact hon.fattlb
  have hlen : block.length = (format.fattlb.flatMap longBytes).length := by
    have hbytes : (format.bpb.bytesPerSector.setWidth 32).toNat = 512 := by
      rw [format.bytesPerSector]
      rfl
    rw [hblock, BitVec.toNat_mul, hbytes, length_longBytes, format.entries, Nat.mod_eq_of_lt (by omega),
      Nat.mul_comm 512, Nat.mul_assoc]
  rw [hread, storeAt, if_pos (by omega), List.take_zero, List.nil_append, Nat.zero_add, ← hlen, List.drop_length,
    List.append_nil]

theorem initFatfs_eq {malloc : U32 → Option (List U8)} (hm : Granted malloc) :
    initFatfs malloc device = .ok (some (mounted format device.toFat)) := by
  obtain ⟨first, hfirst⟩ := hon.record
  obtain ⟨boot, hboot⟩ := hon.boot
  obtain ⟨block, hblock, hlen⟩ := hm (format.bpb.bytesPerSector.setWidth 32 * format.ebr.sectorsPerFat)
  have hrecord : loadBootRecord (device.read 0).1.toList =
      some ⟨format.partitions.map Partition.toMbrPartionTlbEntry⟩ := by
    rw [hserves.read, show (0 : U32).toNat = 0 from rfl, hfirst, loadBootRecord_eq]
  have hbpb : fatLoadbpb (device.read format.LBA).1.toList = some (shifted format.bpb boot) := by
    rw [hserves.read, hboot, fatLoadbpb_eq]
  have hebr : fatLoadebr (device.read format.LBA).1.toList = some format.ebr := by
    rw [hserves.read, hboot, fatLoadebr_eq]
  have hread : (device.read 0).2 = 512 := by rw [hserves.read]
  have hlba : (format.partitions.get format.index).toMbrPartionTlbEntry.LBA = format.LBA := rfl
  have hstore := storeAt_fattlb hon hserves hlen
  simp only [initFatfs, hread, ne_eq, not_true_eq_false, if_false, hrecord, find_volume format, hlba, hbpb, hebr,
    shifted, hblock, hstore, longsOf_bytes, firstdatalba_eq]
  rfl

end Init

theorem volume_mounted (format : Format) {sector : Nat → Vector U8 512} {device : VolumeDiscovery.BlockDevice}
    (hserves : Serves device sector) : Volume (mounted format device.toFat).toFatFs sector :=
  ⟨format.bytesPerSector, rfl, hserves.readblocks⟩

end MetalNes.CardMount
