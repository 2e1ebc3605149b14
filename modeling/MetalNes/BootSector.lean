import MetalNes.FatFiles
import MetalNes.Patches

namespace MetalNes.BootSector

open Fat32 FatFiles Patches

structure FatBpb extends Fat32.FatBpb where
  reservedSectors : U16
  fatCnt : U8
  numDirent : U16
  totSectors : U16
  sectorsPerFat : U16
  numSectorsPerTrack : U16
  numHiddenSectors : U32
  largeSectorCount : U32

structure FatEbr extends FatFiles.FatEbr where
  sectorsPerFat : U32
  flags : U16
  versionNum : U16
  sectNumFSInfo : U16
  secNumBKBS : U16
  sig : U8
  label : Vector U8 11
  bootSig : U16

section Load

def longOf (b₀ b₁ b₂ b₃ : U8) : U32 :=
  b₃.setWidth 32 <<< 24 ||| b₂.setWidth 32 <<< 16 ||| b₁.setWidth 32 <<< 8 ||| b₀.setWidth 32

def longAt (buffer : List U8) (readPtr : Nat) : Option U32 := do
  let b₀ ← buffer[readPtr]?
  let b₁ ← buffer[readPtr + 1]?
  let b₂ ← buffer[readPtr + 2]?
  let b₃ ← buffer[readPtr + 3]?
  return longOf b₀ b₁ b₂ b₃

def labelAt (buffer : List U8) (readPtr : Nat) : Option (Vector U8 11) :=
  if h : (bytesAt buffer readPtr 11).length = 11 then some ⟨(bytesAt buffer readPtr 11).toArray, h⟩ else none

def fatLoadbpb (buffer : List U8) : Option FatBpb := do
  let readPtr := 11
  let bytesPerSector ← halfAt buffer readPtr
  let readPtr := readPtr + 2
  let sectorsPerCluster ← buffer[readPtr]?
  let readPtr := readPtr + 1
  let reservedSectors ← halfAt buffer readPtr
  let readPtr := readPtr + 2
  let fatCnt ← buffer[readPtr]?
  let readPtr := readPtr + 1
  let numDirent ← halfAt buffer readPtr
  let readPtr := readPtr + 2
  let totSectors ← halfAt buffer readPtr
  let readPtr := readPtr + 2
  -- the media descriptor is skipped
  let readPtr := readPtr + 1
  let sectorsPerFat ← halfAt buffer readPtr
  let readPtr := readPtr + 2
  let numSectorsPerTrack ← halfAt buffer readPtr
  let readPtr := readPtr + 1
  -- the head count is skipped
  let readPtr := readPtr + 2
  let numHiddenSectors ← longAt buffer readPtr
  let readPtr := readPtr + 4
  let largeSectorCount ← longAt buffer readPtr
  return ⟨⟨bytesPerSector, sectorsPerCluster⟩, reservedSectors, fatCnt, numDirent, totSectors, sectorsPerFat,
    numSectorsPerTrack, numHiddenSectors, largeSectorCount⟩

def fatLoadebr (buffer : List U8) : Option FatEbr := do
  let readPtr := 36
  let sectorsPerFat ← longAt buffer readPtr
  let readPtr := readPtr + 4
  let flags ← halfAt buffer readPtr
  let readPtr := readPtr + 2
  let versionNum ← halfAt buffer readPtr
  let readPtr := readPtr + 2
  let clusterRootNum ← longAt buffer readPtr
  let readPtr := readPtr + 4
  let sectNumFSInfo ← halfAt buffer readPtr
  let readPtr := readPtr + 2
  let secNumBKBS ← halfAt buffer readPtr
  let readPtr := readPtr + 2
  let readPtr := readPtr + 14
  let sig ← buffer[readPtr]?
  let readPtr := readPtr + 1
  -- the drive number is taken to be four bytes
  let readPtr := readPtr + 4
  let label ← labelAt buffer readPtr
  let readPtr := readPtr + 11
  let readPtr := readPtr + 428
  let bootSig ← halfAt buffer readPtr
  return ⟨⟨clusterRootNum⟩, sectorsPerFat, flags, versionNum, sectNumFSInfo, secNumBKBS, sig, label, bootSig⟩

end Load

section Layout

def halfBytes (v : U16) : List U8 := [loByte v, hiByte v]

def longBytes (v : U32) : List U8 :=
  [v.setWidth 8, (v >>> 8).setWidth 8, (v >>> 16).setWidth 8, (v >>> 24).setWidth 8]

def fields (bpb : FatBpb) (ebr : FatEbr) : List (Patch U8) :=
  [⟨11, halfBytes bpb.bytesPerSector⟩, ⟨13, [bpb.sectorsPerCluster]⟩, ⟨14, halfBytes bpb.reservedSectors⟩,
    ⟨16, [bpb.fatCnt]⟩, ⟨17, halfBytes bpb.numDirent⟩, ⟨19, halfBytes bpb.totSectors⟩,
    ⟨22, halfBytes bpb.sectorsPerFat⟩, ⟨24, halfBytes bpb.numSectorsPerTrack⟩,
    ⟨28, longBytes bpb.numHiddenSectors⟩, ⟨32, longBytes bpb.largeSectorCount⟩,
    ⟨36, longBytes ebr.sectorsPerFat⟩, ⟨40, halfBytes ebr.flags⟩, ⟨42, halfBytes ebr.versionNum⟩,
    ⟨44, longBytes ebr.clusterRootNum⟩, ⟨48, halfBytes ebr.sectNumFSInfo⟩, ⟨50, halfBytes ebr.secNumBKBS⟩,
    ⟨66, [ebr.sig]⟩, ⟨71, ebr.label.toList⟩, ⟨510, halfBytes ebr.bootSig⟩]

/-- A sector with the fields, and other bytes where no field is. -/
def bootSector (bpb : FatBpb) (ebr : FatEbr) (rest : Vector U8 512) : List U8 :=
  write (fields bpb ebr) rest.toList

theorem toNat_longOf (b₀ b₁ b₂ b₃ : U8) : (longOf b₀ b₁ b₂ b₃).toNat =
    ((b₃.toNat * 256 + b₂.toNat) * 256 + b₁.toNat) * 256 + b₀.toNat := by
  have h₀ := b₀.isLt
  have h₁ := b₁.isLt
  have h₂ := b₂.isLt
  have h₃ := b₃.isLt
  have hbyte : ∀ (b : U8) (k : Nat), k ≤ 24 → (b.setWidth 32 <<< k).toNat = b.toNat * 2 ^ k := by
    intro b k hk
    have hpow := Nat.pow_le_pow_right Nat.zero_lt_two hk
    have hlt : b.toNat * 2 ^ k < 2 ^ 8 * 2 ^ 24 := Nat.mul_lt_mul_of_lt_of_le b.isLt hpow (Nat.two_pow_pos 24)
    rw [BitVec.toNat_shiftLeft, BitVec.toNat_setWidth, Nat.mod_eq_of_lt (b.isLt.trans (by decide)),
      Nat.shiftLeft_eq, Nat.mod_eq_of_lt (hlt.trans_le (by decide))]
  have hor : ∀ (k : Nat) {x : Nat} (y : Nat), x < 2 ^ k → y * 2 ^ k ||| x = y * 2 ^ k + x := by
    intro k x y hx
    rw [Nat.mul_comm]
    exact (Nat.two_pow_add_eq_or_of_lt hx y).symm
  have hlow : (b₀.setWidth 32).toNat = b₀.toNat := by
    rw [BitVec.toNat_setWidth, Nat.mod_eq_of_lt (b₀.isLt.trans (by decide))]
  rw [longOf, BitVec.toNat_or, BitVec.toNat_or, BitVec.toNat_or, hbyte b₃ 24 le_rfl, hbyte b₂ 16 (by decide),
    hbyte b₁ 8 (by decide), hlow]
  have hhigh : ∀ x y : Nat, x * 2 ^ 24 + y * 2 ^ 16 = (x * 256 + y) * 2 ^ 16 := by
    intro x y
    omega
  have hmid : ∀ x y : Nat, x * 2 ^ 16 + y * 2 ^ 8 = (x * 256 + y) * 2 ^ 8 := by
    intro x y
    omega
  rw [hor 24 _ (by omega), hhigh, hor 16 _ (by omega), hmid, hor 8 _ (by omega)]
  rfl

theorem longOf_inj {a₀ a₁ a₂ a₃ b₀ b₁ b₂ b₃ : U8} :
    longOf a₀ a₁ a₂ a₃ = longOf b₀ b₁ b₂ b₃ ↔ a₀ = b₀ ∧ a₁ = b₁ ∧ a₂ = b₂ ∧ a₃ = b₃ := by
  constructor
  · intro h
    have hnat := congrArg BitVec.toNat h
    rw [toNat_longOf, toNat_longOf] at hnat
    have h₀ := a₀.isLt
    have h₁ := a₁.isLt
    have h₂ := a₂.isLt
    have k₀ := b₀.isLt
    have k₁ := b₁.isLt
    have k₂ := b₂.isLt
    have hbytes : a₀.toNat = b₀.toNat ∧ a₁.toNat = b₁.toNat ∧ a₂.toNat = b₂.toNat ∧ a₃.toNat = b₃.toNat := by
      omega
    exact ⟨BitVec.eq_of_toNat_eq hbytes.1, BitVec.eq_of_toNat_eq hbytes.2.1, BitVec.eq_of_toNat_eq hbytes.2.2.1,
      BitVec.eq_of_toNat_eq hbytes.2.2.2⟩
  · rintro ⟨rfl, rfl, rfl, rfl⟩
    rfl

theorem longOf_bytes (v : U32) :
    longOf (v.setWidth 8) ((v >>> 8).setWidth 8) ((v >>> 16).setWidth 8) ((v >>> 24).setWidth 8) = v := by
  have hv := v.isLt
  apply BitVec.eq_of_toNat_eq
  simp only [toNat_longOf, BitVec.toNat_setWidth, BitVec.toNat_ushiftRight, Nat.shiftRight_eq_div_pow]
  omega

end Layout

section Read

variable {ps : List (Patch U8)} {xs : List U8} (hfit : ∀ p ∈ ps, p.stop ≤ xs.length)
  (horder : ps.IsChain Patch.Before)

include hfit horder

theorem byteAt_write {ptr : Nat} {b : U8} (hp : (⟨ptr, [b]⟩ : Patch U8) ∈ ps) : (write ps xs)[ptr]? = some b :=
  getElem?_write hfit horder hp (i := 0) Nat.one_pos

theorem halfAt_write {ptr : Nat} {v : U16} (hp : (⟨ptr, halfBytes v⟩ : Patch U8) ∈ ps) :
    halfAt (write ps xs) ptr = some v := by
  have hlo := getElem?_write hfit horder hp (i := 0) Nat.two_pos
  have hhi := getElem?_write hfit horder hp (i := 1) Nat.one_lt_two
  rw [Nat.add_zero] at hlo
  unfold halfAt
  rw [hlo, hhi]
  exact congrArg some (wordOf_bytes v)

theorem longBytes_write {ptr : Nat} {v : U32} (hp : (⟨ptr, longBytes v⟩ : Patch U8) ∈ ps) :
    (write ps xs)[ptr]? = some (v.setWidth 8) ∧ (write ps xs)[ptr + 1]? = some ((v >>> 8).setWidth 8) ∧
      (write ps xs)[ptr + 2]? = some ((v >>> 16).setWidth 8) ∧
      (write ps xs)[ptr + 3]? = some ((v >>> 24).setWidth 8) := by
  have hlen : (longBytes v).length = 4 := rfl
  have h := fun i hi => getElem?_write hfit horder hp (i := i) (hlen.symm ▸ hi)
  exact ⟨h 0 (by decide), h 1 (by decide), h 2 (by decide), h 3 (by decide)⟩

theorem longAt_write {ptr : Nat} {v : U32} (hp : (⟨ptr, longBytes v⟩ : Patch U8) ∈ ps) :
    longAt (write ps xs) ptr = some v := by
  obtain ⟨h₀, h₁, h₂, h₃⟩ := longBytes_write hfit horder hp
  simp only [longAt, h₀, h₁, h₂, h₃]
  exact congrArg some (longOf_bytes v)

theorem labelAt_write {ptr : Nat} {v : Vector U8 11} (hp : (⟨ptr, v.toList⟩ : Patch U8) ∈ ps) :
    labelAt (write ps xs) ptr = some v := by
  have hbytes : bytesAt (write ps xs) ptr 11 = v.toList := by
    apply List.ext_getElem?
    intro i
    rw [bytesAt, List.getElem?_take]
    by_cases hi : i < 11
    · rw [if_pos hi, List.getElem?_drop]
      exact getElem?_write hfit horder hp (hi.trans_eq v.length_toList.symm)
    · rw [if_neg hi, List.getElem?_eq_none]
      exact v.length_toList.trans_le (not_lt.mp hi)
  have hlen : (bytesAt (write ps xs) ptr 11).length = 11 := by rw [hbytes, v.length_toList]
  rw [labelAt, dif_pos hlen]
  simp only [hbytes]
  rfl

end Read

section Decode

variable (bpb : FatBpb) (ebr : FatEbr) (rest : Vector U8 512)

theorem fields_fit : ∀ p ∈ fields bpb ebr, p.stop ≤ rest.toList.length := by
  rw [rest.length_toList]
  simp [fields, Patch.stop, halfBytes, longBytes]

theorem fields_inOrder : (fields bpb ebr).IsChain Patch.Before := by
  simp [fields, Patch.Before, Patch.stop, halfBytes, longBytes]

/-- The byte in front of the number of hidden sectors, which no field takes. -/
theorem headCount_free : (bootSector bpb ebr rest)[27]? = some rest[27] := by
  have hfree : ∀ p ∈ fields bpb ebr, ¬ p.Covers 27 := by
    simp [fields, Patch.Covers, Patch.stop, halfBytes, longBytes]
  rw [bootSector, getElem?_write_free (fields_fit bpb ebr rest) hfree]
  simp

variable {bpb ebr}

theorem byte_bootSector {ptr : Nat} {b : U8} (hp : (⟨ptr, [b]⟩ : Patch U8) ∈ fields bpb ebr) :
    (bootSector bpb ebr rest)[ptr]? = some b :=
  byteAt_write (fields_fit bpb ebr rest) (fields_inOrder bpb ebr) hp

theorem half_bootSector {ptr : Nat} {v : U16} (hp : (⟨ptr, halfBytes v⟩ : Patch U8) ∈ fields bpb ebr) :
    halfAt (bootSector bpb ebr rest) ptr = some v :=
  halfAt_write (fields_fit bpb ebr rest) (fields_inOrder bpb ebr) hp

theorem longBytes_bootSector {ptr : Nat} {v : U32} (hp : (⟨ptr, longBytes v⟩ : Patch U8) ∈ fields bpb ebr) :
    (bootSector bpb ebr rest)[ptr]? = some (v.setWidth 8) ∧
      (bootSector bpb ebr rest)[ptr + 1]? = some ((v >>> 8).setWidth 8) ∧
      (bootSector bpb ebr rest)[ptr + 2]? = some ((v >>> 16).setWidth 8) ∧
      (bootSector bpb ebr rest)[ptr + 3]? = some ((v >>> 24).setWidth 8) :=
  longBytes_write (fields_fit bpb ebr rest) (fields_inOrder bpb ebr) hp

theorem long_bootSector {ptr : Nat} {v : U32} (hp : (⟨ptr, longBytes v⟩ : Patch U8) ∈ fields bpb ebr) :
    longAt (bootSector bpb ebr rest) ptr = some v :=
  longAt_write (fields_fit bpb ebr rest) (fields_inOrder bpb ebr) hp

variable (bpb ebr)

theorem fatLoadebr_eq : fatLoadebr (bootSector bpb ebr rest) = some ebr := by
  have hsectorsPerFat := long_bootSector rest (by simp [fields] : ⟨36, longBytes ebr.sectorsPerFat⟩ ∈ fields bpb ebr)
  have hflags := half_bootSector rest (by simp [fields] : ⟨40, halfBytes ebr.flags⟩ ∈ fields bpb ebr)
  have hversion := half_bootSector rest (by simp [fields] : ⟨42, halfBytes ebr.versionNum⟩ ∈ fields bpb ebr)
  have hroot := long_bootSector rest (by simp [fields] : ⟨44, longBytes ebr.clusterRootNum⟩ ∈ fields bpb ebr)
  have hinfo := half_bootSector rest (by simp [fields] : ⟨48, halfBytes ebr.sectNumFSInfo⟩ ∈ fields bpb ebr)
  have hbackup := half_bootSector rest (by simp [fields] : ⟨50, halfBytes ebr.secNumBKBS⟩ ∈ fields bpb ebr)
  have hsig := byte_bootSector rest (by simp [fields] : ⟨66, [ebr.sig]⟩ ∈ fields bpb ebr)
  have hlabel : labelAt (bootSector bpb ebr rest) 71 = some ebr.label :=
    labelAt_write (fields_fit bpb ebr rest) (fields_inOrder bpb ebr) (by simp [fields])
  have hbootSig := half_bootSector rest (by simp [fields] : ⟨510, halfBytes ebr.bootSig⟩ ∈ fields bpb ebr)
  simp only [fatLoadebr, Nat.reduceAdd, hsectorsPerFat, hflags, hversion, hroot, hinfo, hbackup, hsig, hlabel,
    hbootSig]
  rfl

/-- The pointer is one byte short from the number of hidden sectors on. -/
def shifted : FatBpb :=
  { bpb with
    numHiddenSectors := longOf rest[27] (bpb.numHiddenSectors.setWidth 8)
      ((bpb.numHiddenSectors >>> 8).setWidth 8) ((bpb.numHiddenSectors >>> 16).setWidth 8)
    largeSectorCount := longOf ((bpb.numHiddenSectors >>> 24).setWidth 8) (bpb.largeSectorCount.setWidth 8)
      ((bpb.largeSectorCount >>> 8).setWidth 8) ((bpb.largeSectorCount >>> 16).setWidth 8) }

theorem fatLoadbpb_eq : fatLoadbpb (bootSector bpb ebr rest) = some (shifted bpb rest) := by
  have hbytes := half_bootSector rest (by simp [fields] : ⟨11, halfBytes bpb.bytesPerSector⟩ ∈ fields bpb ebr)
  have hcluster := byte_bootSector rest (by simp [fields] : ⟨13, [bpb.sectorsPerCluster]⟩ ∈ fields bpb ebr)
  have hreserved := half_bootSector rest (by simp [fields] : ⟨14, halfBytes bpb.reservedSectors⟩ ∈ fields bpb ebr)
  have hcnt := byte_bootSector rest (by simp [fields] : ⟨16, [bpb.fatCnt]⟩ ∈ fields bpb ebr)
  have hdirent := half_bootSector rest (by simp [fields] : ⟨17, halfBytes bpb.numDirent⟩ ∈ fields bpb ebr)
  have htot := half_bootSector rest (by simp [fields] : ⟨19, halfBytes bpb.totSectors⟩ ∈ fields bpb ebr)
  have hfat := half_bootSector rest (by simp [fields] : ⟨22, halfBytes bpb.sectorsPerFat⟩ ∈ fields bpb ebr)
  have htrack := half_bootSector rest (by simp [fields] : ⟨24, halfBytes bpb.numSectorsPerTrack⟩ ∈ fields bpb ebr)
  obtain ⟨hh₀, hh₁, hh₂, hh₃⟩ := longBytes_bootSector rest
    (by simp [fields] : ⟨28, longBytes bpb.numHiddenSectors⟩ ∈ fields bpb ebr)
  obtain ⟨hl₀, hl₁, hl₂, -⟩ := longBytes_bootSector rest
    (by simp [fields] : ⟨32, longBytes bpb.largeSectorCount⟩ ∈ fields bpb ebr)
  have hfree := headCount_free bpb ebr rest
  have hhidden : longAt (bootSector bpb ebr rest) 27 = some (shifted bpb rest).numHiddenSectors := by
    simp only [Nat.reduceAdd] at hh₁ hh₂
    simp only [longAt, Nat.reduceAdd, hfree, hh₀, hh₁, hh₂]
    rfl
  have hlarge : longAt (bootSector bpb ebr rest) 31 = some (shifted bpb rest).largeSectorCount := by
    simp only [Nat.reduceAdd] at hh₃ hl₁ hl₂
    simp only [longAt, Nat.reduceAdd, hh₃, hl₀, hl₁, hl₂]
    rfl
  simp only [fatLoadbpb, Nat.reduceAdd, hbytes, hcluster, hreserved, hcnt, hdirent, htot, hfat, htrack, hhidden,
    hlarge]
  rfl

end Decode

/-- What decoding makes of a sector is what was written into it. -/
structure Decodes (bpb : FatBpb) (ebr : FatEbr) (rest : Vector U8 512) : Prop where
  loadbpb : fatLoadbpb (bootSector bpb ebr rest) = some bpb
  loadebr : fatLoadebr (bootSector bpb ebr rest) = some ebr

def repeated (b : U8) : U32 := longOf b b b b

theorem longOf_shift_iff {b b₀ b₁ b₂ b₃ : U8} :
    longOf b b₀ b₁ b₂ = longOf b₀ b₁ b₂ b₃ ↔ longOf b₀ b₁ b₂ b₃ = repeated b := by
  rw [repeated, longOf_inj, longOf_inj]
  constructor
  · rintro ⟨rfl, rfl, rfl, rfl⟩
    exact ⟨rfl, rfl, rfl, rfl⟩
  · rintro ⟨rfl, rfl, rfl, rfl⟩
    exact ⟨rfl, rfl, rfl, rfl⟩

theorem shifted_eq_iff (bpb : FatBpb) (rest : Vector U8 512) : shifted bpb rest = bpb ↔
    bpb.numHiddenSectors = repeated rest[27] ∧ bpb.largeSectorCount = repeated rest[27] := by
  have hcounts : shifted bpb rest = bpb ↔ (shifted bpb rest).numHiddenSectors = bpb.numHiddenSectors ∧
      (shifted bpb rest).largeSectorCount = bpb.largeSectorCount := by
    cases bpb
    simp [shifted]
  have hhidden : (shifted bpb rest).numHiddenSectors = bpb.numHiddenSectors ↔
      bpb.numHiddenSectors = repeated rest[27] := by
    have h := @longOf_shift_iff rest[27] (bpb.numHiddenSectors.setWidth 8)
      ((bpb.numHiddenSectors >>> 8).setWidth 8) ((bpb.numHiddenSectors >>> 16).setWidth 8)
      ((bpb.numHiddenSectors >>> 24).setWidth 8)
    rwa [longOf_bytes] at h
  have hlarge : (shifted bpb rest).largeSectorCount = bpb.largeSectorCount ↔
      bpb.largeSectorCount = repeated ((bpb.numHiddenSectors >>> 24).setWidth 8) := by
    have h := @longOf_shift_iff ((bpb.numHiddenSectors >>> 24).setWidth 8) (bpb.largeSectorCount.setWidth 8)
      ((bpb.largeSectorCount >>> 8).setWidth 8) ((bpb.largeSectorCount >>> 16).setWidth 8)
      ((bpb.largeSectorCount >>> 24).setWidth 8)
    rwa [longOf_bytes] at h
  rw [hcounts, hhidden, hlarge]
  refine and_congr_right fun hrepeated => ?_
  have hlast : (bpb.numHiddenSectors >>> 24).setWidth 8 = rest[27] := by
    have hbytes := (longOf_bytes bpb.numHiddenSectors).trans hrepeated
    exact (longOf_inj.mp hbytes).2.2.2
  rw [hlast]

/-- For all values of the fields and all other bytes: they are decoded as they were
written exactly if both sector counts repeat the byte in front of them. -/
theorem bootSector_decodes_iff (bpb : FatBpb) (ebr : FatEbr) (rest : Vector U8 512) : Decodes bpb ebr rest ↔
    bpb.numHiddenSectors = repeated rest[27] ∧ bpb.largeSectorCount = repeated rest[27] := by
  rw [← shifted_eq_iff]
  constructor
  · intro h
    exact Option.some.inj ((fatLoadbpb_eq bpb ebr rest).symm.trans h.loadbpb)
  · intro h
    exact ⟨(fatLoadbpb_eq bpb ebr rest).trans (congrArg some h), fatLoadebr_eq bpb ebr rest⟩

def hiddenVolume : FatBpb := ⟨⟨512, 8⟩, 32, 2, 0, 0, 0, 63, 63, 0x00200000⟩

def hiddenEbr : FatEbr := ⟨⟨2⟩, 0x800, 0, 0, 1, 6, 0x29, Vector.replicate 11 0x20, 0xAA55⟩

/-- Its 63 hidden sectors are decoded as 63 * 256. -/
theorem hiddenVolume_shifted : fatLoadbpb (bootSector hiddenVolume hiddenEbr (Vector.replicate 512 0)) =
      some { hiddenVolume with numHiddenSectors := 0x3F00, largeSectorCount := 0x20000000 } ∧
    ¬ Decodes hiddenVolume hiddenEbr (Vector.replicate 512 0) := by
  have hload := fatLoadbpb_eq hiddenVolume hiddenEbr (Vector.replicate 512 0)
  refine ⟨hload, fun h => ?_⟩
  have hcount := congrArg FatBpb.numHiddenSectors (Option.some.inj (hload.symm.trans h.loadbpb))
  revert hcount
  decide

end MetalNes.BootSector
