import MetalNes.FileReads
import MetalNes.OpenCalls
import MetalNes.PathResolution
import MetalNes.TableWalks

namespace MetalNes.ShortReads

open Loop LinkedPath CStrings Fat32 ClusterChains DirectorySlots FatFiles TableWalks OpenCalls

section Card

/-- One read of a block: the bytes that came before the card stopped, and what the rest
of its place in the buffer held. -/
structure BlockRead where
  bytes : List U8
  stale : List U8
  size : bytes.length + stale.length = 512

def BlockRead.Full (b : BlockRead) : Prop := b.bytes.length = 512

instance (b : BlockRead) : Decidable b.Full := inferInstanceAs (Decidable (_ = _))

variable (card : U32 → BlockRead)

/-- The test for an error in front of the loop compares a bit of the status with true,
which it never is, so that what counts is when the queue of the card is empty. -/
def mmciReadBlock (addr : U32) : List U8 × U32 :=
  ((card addr).bytes ++ (card addr).stale, BitVec.ofNat 32 (card addr).bytes.length)

def mmciReadBlocks (addr : U32) : Nat → List U8 × U32
  | 0 => ([], 0)
  | i + 1 =>
    let (buffer, bytesread) := mmciReadBlocks addr i
    let (block, n) := mmciReadBlock card (addr + BitVec.ofNat 32 i)
    (buffer ++ block, bytesread + n)

def mmci : BlockDevice := ⟨fun addr numblocks => mmciReadBlocks card addr numblocks.toNat⟩

def AllRead (fs : FatFs) (cs : List U32) : Prop :=
  ∀ c ∈ cs, ∀ i < sectors fs, (card (fatClustertolba fs c + BitVec.ofNat 32 i)).Full

/-- The call returns a file only where all blocks of the clusters were read in full, and
NULL where one came short. -/
structure ReportsErrors (fs : FatFs) (cs : List U32) (r : Except Fault (Option FatFile)) : Prop where
  file : ∀ f, r = .ok (some f) → AllRead card fs cs
  null : ¬ AllRead card fs cs → r = .ok none

theorem length_mmciReadBlocks (addr : U32) (n : Nat) : (mmciReadBlocks card addr n).1.length = n * 512 := by
  induction n with
  | zero => rfl
  | succ n ih =>
      rw [mmciReadBlocks, List.length_append, ih, mmciReadBlock, List.length_append, (card _).size, Nat.succ_mul]

theorem mmciReadBlocks_le (addr : U32) (n : Nat) : (mmciReadBlocks card addr n).2.toNat ≤ n * 512 := by
  induction n with
  | zero => exact le_rfl
  | succ n ih =>
      have hsize := (card (addr + BitVec.ofNat 32 n)).size
      have hblock : (mmciReadBlock card (addr + BitVec.ofNat 32 n)).2.toNat ≤ 512 := by
        rw [mmciReadBlock, BitVec.toNat_ofNat]
        omega
      have hsum := Nat.mod_le ((mmciReadBlocks card addr n).2.toNat +
        (mmciReadBlock card (addr + BitVec.ofNat 32 n)).2.toNat) (2 ^ 32)
      rw [mmciReadBlocks, BitVec.toNat_add]
      omega

theorem mmci_readsAtMost {fs : FatFs} (hdev : fs.dev = mmci card) :
    ReadsAtMost fs (sectors fs * 512) := by
  intro lba
  have hread : fs.dev.readblocks lba (fs.bpb.sectorsPerCluster.setWidth 32) =
      mmciReadBlocks card lba (sectors fs) := by
    rw [hdev, ← toNat_sectors]
    rfl
  rw [hread]
  exact ⟨length_mmciReadBlocks card lba _, mmciReadBlocks_le card lba _⟩

end Card

section Files

variable {fs : MountedFs} {card : U32 → BlockRead} {malloc : U32 → Option (List U8)} {c : U32} {cs : List U32}

theorem buffersize_ne (hdev : fs.dev = mmci card) (hm : ∀ n data, malloc n = some data → data.length = n.toNat)
    (hchain : Chain fs.toFatFs c cs) {fuel : Nat} {data : List U8} {buffersize : U32}
    (hget : fatGetdata fuel malloc c fs.toFatFs = some (.ok (data, buffersize))) : buffersize ≠ -1 := by
  obtain ⟨hsize, hroom, hblock⟩ := fatGetdata_counted (mmci_readsAtMost card hdev) hm hchain hget
  have hminus : (-1 : U32).toNat = 2 ^ 32 - 1 := rfl
  rintro rfl
  rw [← Nat.mul_assoc] at hsize hroom
  omega

theorem openFile_ne_null {fuel : Nat} {fdir : FatDir} (hdev : fs.dev = mmci card)
    (hm : ∀ n data, malloc n = some data → data.length = n.toNat) (hchain : Chain fs.toFatFs c cs)
    (hcluster : clusterAt fdir.data (fdir.readptr - sizeofDirent : Int) = some c) :
    openFile fuel malloc fs fdir ≠ some (.ok none) := by
  intro h
  unfold openFile at h
  rw [hcluster] at h
  split at h
  · next hsome _ =>
      cases hsome
      split at h
      · cases h
      · cases h
      · split at h
        · cases h
        · cases h
        · next hget =>
            rw [if_neg (buffersize_ne hdev hm hchain hget)] at h
            cases h
  · cases h

/-- For every chain and all outcomes of the reads: errors are reported exactly if there
are none. -/
theorem reportsErrors_iff {fuel : Nat} {allocs : Allocs} {path : Str} {rdir : Dirent} {fdir : FatDir}
    {r : Except Fault (Option FatFile)} (hdev : fs.dev = mmci card)
    (hm : ∀ n data, malloc n = some data → data.length = n.toNat)
    (hcall : fatFopen fuel allocs malloc fs path rdir = some r)
    (hfile : ComesTo fuel allocs malloc fs path rdir fdir)
    (hcluster : clusterAt fdir.data (fdir.readptr - sizeofDirent : Int) = some c)
    (hchain : Chain fs.toFatFs c cs) : ReportsErrors card fs.toFatFs cs r ↔ AllRead card fs.toFatFs cs := by
  constructor
  · intro h
    by_contra hshort
    have hopen := hfile.openFile_eq hcall
    rw [h.null hshort] at hopen
    exact openFile_ne_null hdev hm hchain hcluster hopen
  · exact fun h => ⟨fun _ _ => h, fun hshort => absurd h hshort⟩

end Files

section Example

open TrapCard PathResolution FileReads DirectorySearch

def fileSlot (cluster : U8) : Slot :=
  (((blankSlot 0x41).setIfInBounds 11 FAT_ARCHIVE_ENT).setIfInBounds 26 cluster).setIfInBounds 28 8

def fileSlots : List Slot := nameSlot 0x41 :: fileSlot 3 :: List.replicate 14 (blankSlot 0x00)

def whole (bytes : List U8) (h : bytes.length = 512) : BlockRead := ⟨bytes, [], by rw [h]; rfl⟩

def firstBytes (n : Nat) : BlockRead where
  bytes := List.replicate (min n 512) 0x55
  stale := List.replicate (512 - n) 0x00
  size := by
    rw [List.length_replicate, List.length_replicate]
    omega

/-- A card with a file A, of whose block so many bytes come. -/
def fileCard (n : Nat) (lba : U32) : BlockRead :=
  if lba = 0 then whole (bytes fileSlots) (length_bytes fileSlots) else firstBytes n

def fileFs (n : Nat) : MountedFs := { cardFs with dev := mmci (fileCard n) }

theorem file_opened {n : Nat} (hn : n = 512 ∨ n = 4) :
    fatFopen 3 ⟨fun _ => cleared, blank⟩ cleared (fileFs n) [0x41] blank = some (.ok (some
      ⟨List.replicate n 0x55 ++ List.replicate (512 - n) 0x00, 0, BitVec.ofNat 32 n, 8, 3⟩)) := by
  rcases hn with rfl | rfl <;> decide +kernel

theorem file_found {n : Nat} (hn : n = 512 ∨ n = 4) :
    ComesTo 3 ⟨fun _ => cleared, blank⟩ cleared (fileFs n) [0x41] blank (dirAt fileSlots 2) := by
  have hroot : openData 3 ⟨fun _ => cleared, blank⟩ (fileFs n) 0 2 = some (.ok (some (dirAt fileSlots 0))) := by
    rcases hn with rfl | rfl <;> decide +kernel
  have hlong : (nameSlot 0x41).IsLong ∧ (nameSlot 0x41).chars = [0x41] := by decide +kernel
  exact comesTo_first rfl hroot rfl hlong.1 hlong.2 rfl rfl blank

theorem full_reported : ReportsErrors (fileCard 512) (fileFs 512).toFatFs [3]
    (.ok (some ⟨List.replicate 512 0x55 ++ List.replicate 0 0x00, 0, 512, 8, 3⟩)) := by
  refine (reportsErrors_iff rfl length_cleared (file_opened (Or.inl rfl)) (file_found (Or.inl rfl))
    (by decide +kernel) (.last rfl)).mpr ?_
  intro c hc i hi
  obtain rfl := List.mem_singleton.mp hc
  obtain rfl : i = 0 := Nat.lt_one_iff.mp hi
  decide +kernel

/-- Of the file's only block four bytes come, and the file is opened all the same. -/
theorem short_not_reported : ComesTo 3 ⟨fun _ => cleared, blank⟩ cleared (fileFs 4) [0x41] blank (dirAt fileSlots 2) ∧
    ∃ f, fatFopen 3 ⟨fun _ => cleared, blank⟩ cleared (fileFs 4) [0x41] blank = some (.ok (some f)) ∧
      ¬ ReportsErrors (fileCard 4) (fileFs 4).toFatFs [3] (.ok (some f)) := by
  refine ⟨file_found (Or.inr rfl), _, file_opened (Or.inr rfl), fun h => ?_⟩
  have hfull := h.file _ rfl 3 (List.mem_singleton_self 3) 0 Nat.one_pos
  revert hfull
  decide +kernel

end Example

end MetalNes.ShortReads
