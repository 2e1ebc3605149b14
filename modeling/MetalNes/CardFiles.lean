import MetalNes.CardMount
import MetalNes.FileReads
import MetalNes.ListingOpens
import MetalNes.PathResolution

namespace MetalNes.CardFiles

open Loop CStrings Fat32 ClusterChains DirectorySlots FatFiles DirectorySearch DirectoryTree RootSearch FileReads
  ClusterUse VolumeDiscovery CardFormat CardMount Listings ListingOpens

section Layout

/-- The bytes of a file: they begin the chain from the first cluster in its entry, and the
entry has their number. -/
structure Stored (fs : FatFs) (sector : Nat → Vector U8 512) (t : Slot) (content : List U8) : Prop where
  size : (entrySize t).toNat = content.length
  data : ∃ cs, Chain fs t.cluster cs ∧ (∀ c ∈ cs, Addressable fs c) ∧ cs.length * fs.clustersize.toNat < 2 ^ 32 ∧
    content <+: cs.flatMap (clusterBytes fs sector)

/-- The files in the root and in its directories. -/
inductive FileAt (fs : FatFs) (sector : Nat → Vector U8 512) (root : Listing) : List Str → List U8 → Prop
  | here {it : Item} {content : List U8} (hit : it ∈ root.items) (hfile : it.entry.attr = FAT_ARCHIVE_ENT)
      (h : Stored fs sector it.entry content) : FileAt fs sector root [it.name] content
  | within {d it : Item} {sub : Listing} {content : List U8} (hd : d ∈ root.items)
      (hdir : d.entry.attr = FAT_DIR_ENT) (hsub : Directory fs sector d.entry.cluster sub.slots)
      (hit : it ∈ sub.items) (hfile : it.entry.attr = FAT_ARCHIVE_ENT) (h : Stored fs sector it.entry content) :
      FileAt fs sector root [d.name, it.name] content

def absolute (ns : List Str) : Str := ns.flatMap fun n => slash :: n

/-- The names with slashes between them, and one in front or not. -/
def Spelled (path : Str) (ns : List Str) : Prop := path = absolute ns ∨ slash :: path = absolute ns

end Layout

section Open

variable {fs : MountedFs} {sector : Nat → Vector U8 512} {allocs : Allocs} {malloc : U32 → Option (List U8)}

/-- The file of an entry: the data of its chain, and the size in the entry. -/
def fileOf (fs : FatFs) (sector : Nat → Vector U8 512) (t : Slot) (cs : List U32) : FatFile :=
  ⟨cs.flatMap (clusterBytes fs sector), 0, BitVec.ofNat 32 (cs.length * fs.clustersize.toNat), entrySize t, t.cluster⟩

theorem openFile_entry (hv : Volume fs.toFatFs sector) (hm : Granted malloc) {slots : List Slot} {j : Nat} {t : Slot}
    (ht : slots[j]? = some t) {cs : List U32} (hchain : Chain fs.toFatFs t.cluster cs)
    (hcs : ∀ c ∈ cs, Addressable fs.toFatFs c) (hsize : cs.length * fs.clustersize.toNat < 2 ^ 32) {fuel : Nat}
    (hfuel : cs.length ≤ fuel) :
    openFile fuel malloc fs (dirAt slots (j + 1)) = some (.ok (some (fileOf fs.toFatFs sector t cs))) := by
  have hback : (j + 1) * sizeofDirent - sizeofDirent = j * sizeofDirent := by
    rw [Nat.succ_mul, Nat.add_sub_cancel]
  have hback' : (((j + 1) * sizeofDirent : Nat) : Int) - (sizeofDirent : Nat) = ((j * sizeofDirent : Nat) : Int) := by
    rw [sizeofDirent]
    omega
  obtain ⟨data, hdata, hlen⟩ := hm (BitVec.ofNat 32 (cs.length * fs.clustersize.toNat))
  rw [BitVec.toNat_ofNat, Nat.mod_eq_of_lt hsize] at hlen
  have hget := hv.fatGetdata_eq hchain hcs hdata hlen hfuel
  have hcount := fatGetclustercount_eq hchain hfuel
  have hcluster := clusterAt_bytes ht
  have hwhole : ¬ BitVec.ofNat 32 (cs.length * fs.clustersize.toNat) = -1 := by
    intro h
    have hnat := congrArg BitVec.toNat h
    have hone : (-1 : U32).toNat = 2 ^ 32 - 1 := rfl
    rw [BitVec.toNat_ofNat, Nat.mod_eq_of_lt hsize, hv.toNat_clustersize, ← Nat.mul_assoc, hone] at hnat
    omega
  simp only [openFile, dirAt, hback, hback', hcluster, sizeInBytes_bytes ht, hcount, hget, if_neg hwhole]
  rfl

theorem fopens (hv : Volume fs.toFatFs sector) (hm : Granted malloc) {l : Listing} {it : Item} (hit : it ∈ l.items)
    (hfile : it.entry.attr = FAT_ARCHIVE_ENT) {path : Str} (hname : (names path).getLast? = some it.name)
    (hopens : Opens fs allocs (pathTo path it.name) (some (dirAt l.slots 0))) {cs : List U32}
    (hchain : Chain fs.toFatFs it.entry.cluster cs) (hcs : ∀ c ∈ cs, Addressable fs.toFatFs c)
    (hsize : cs.length * fs.clustersize.toNat < 2 ^ 32) (rdir : Dirent) : ∃ bound, ∀ fuel ≥ bound,
      fatFopen fuel allocs malloc fs path rdir = some (.ok (some (fileOf fs.toFatFs sector it.entry cs))) := by
  obtain ⟨bound, hfilename⟩ := PathSplit.getfilename_last hname
  obtain ⟨bound', hopendir⟩ := hopens
  obtain ⟨j, hj, hsearch⟩ := searchFile_item l hit hfile malloc fs
  refine ⟨max (max bound bound') (max (l.dots.length + l.items.length) cs.length), fun fuel hfuel => ?_⟩
  simp only [fatFopen, hfilename fuel (by omega), hopendir fuel (by omega), hsearch rdir fuel (by omega)]
  exact openFile_entry hv hm hj hchain hcs hsize (by omega)

end Open

section Read

theorem reads_stored {file : FatFile} {content : List U8} (hlen : file.data.length = file.buffersize.toNat)
    (hstart : file.dataptr = 0) (hfront : content <+: file.data) {sizes : List U32}
    (hsizes : total sizes ≤ content.length) : ReadsExactly content file sizes := by
  have hle := hfront.length_le
  have hp : file.dataptr ≤ file.buffersize.toNat := by
    rw [hstart]
    exact Nat.zero_le _
  have hwithin : Within file.buffersize.toNat file.dataptr sizes := by
    rintro pre n post rfl
    have hlt := file.buffersize.isLt
    rw [total_append, total_cons] at hsizes
    omega
  obtain ⟨deliveries, hreads, hall⟩ := freads_delivers hlen hp hwithin
  refine ⟨deliveries, hreads, fun k => ?_⟩
  have hk := total_append (sizes.take k) (sizes.drop k)
  rw [List.take_append_drop] at hk
  have htake : content.take (total (sizes.take k)) = file.data.take (total (sizes.take k)) := by
    rw [List.prefix_iff_eq_take.mp hfront, List.take_take, Nat.min_eq_left (by omega)]
  rw [hall, htake, hstart, List.drop_zero]

end Read

section Card

variable {fs : MountedFs} {sector : Nat → Vector U8 512} {allocs : Allocs} {root : Listing} {ns : List Str} {path : Str}

theorem names_here {it : Item} (hpath : Spelled path [it.name]) :
    names path = [it.name] ∧ pathTo path it.name = [slash] := by
  have hbare := PathSplit.names_bare it.nonempty it.noSlash
  have habsolute : absolute [it.name] = slash :: it.name := List.append_nil _
  rcases hpath with rfl | hpath
  · rw [habsolute]
    exact ⟨(names_slash _).trans hbare, pathTo_front (List.cons_ne_nil slash [])⟩
  · obtain ⟨-, rfl⟩ := List.cons.inj (hpath.trans habsolute)
    exact ⟨hbare, if_pos rfl⟩

theorem names_within {d it : Item} (hpath : Spelled path [d.name, it.name]) :
    names path = [d.name, it.name] ∧ names (pathTo path it.name) = [d.name] := by
  have hbare := PathSplit.names_bare it.nonempty it.noSlash
  have hfront : names (d.name ++ [slash]) = [d.name] := names_cons d.nonempty d.noSlash []
  have hboth : names (d.name ++ slash :: it.name) = [d.name, it.name] := by
    rw [names_cons d.nonempty d.noSlash, hbare]
  have habsolute : absolute [d.name, it.name] = slash :: (d.name ++ slash :: it.name) := by
    simp [absolute]
  have hsplit : d.name ++ slash :: it.name = (d.name ++ [slash]) ++ it.name := by
    rw [List.append_assoc]
    rfl
  rcases hpath with rfl | hpath
  · rw [habsolute, names_slash, hsplit, ← List.cons_append, pathTo_front (List.cons_ne_nil slash _), names_slash,
      ← hsplit]
    exact ⟨hboth, hfront⟩
  · obtain ⟨-, rfl⟩ := List.cons.inj (hpath.trans habsolute)
    refine ⟨hboth, ?_⟩
    rw [hsplit, pathTo_front (List.append_ne_nil_of_right_ne_nil _ (List.cons_ne_nil slash []))]
    exact hfront

theorem directory_opens (hv : Volume fs.toFatFs sector) (hdots : root.dots = [])
    (hroot : Directory fs.toFatFs sector fs.ebr.clusterRootNum root.slots) (hgrants : Grants allocs)
    {content : List U8} (h : FileAt fs.toFatFs sector root ns content) (hpath : Spelled path ns) :
    ∃ (l : Listing) (it : Item), it ∈ l.items ∧ it.entry.attr = FAT_ARCHIVE_ENT ∧
      Stored fs.toFatFs sector it.entry content ∧ (names path).getLast? = some it.name ∧
      Opens fs allocs (pathTo path it.name) (some (dirAt l.slots 0)) := by
  cases h with
  | @here it _ hit hfile hstored =>
      obtain ⟨hnames, hpathTo⟩ := names_here hpath
      refine ⟨root, it, hit, hfile, hstored, ?_, ?_⟩
      · rw [hnames]
        rfl
      · rw [hpathTo]
        exact openData_directory hv hroot hgrants 0
  | @within d it sub _ hd hdir hsub hit hfile hstored =>
      obtain ⟨hnames, hpathTo⟩ := names_within hpath
      refine ⟨sub, it, hit, hfile, hstored, ?_, ?_⟩
      · rw [hnames]
        rfl
      · exact opens_item hv hdots hroot hgrants hd hdir hsub hpathTo

/-- For every card with a format and every file in its root or in a directory there: the
volume is mounted with what was laid out, the file is opened by its path, and calls of
fat_fread that ask for no more than its size deliver its bytes. -/
theorem card_reads {format : Format} {device : VolumeDiscovery.BlockDevice} (hon : format.On sector)
    (hserves : Serves device sector) {malloc : U32 → Option (List U8)} (hm : Granted malloc)
    (hdots : root.dots = []) (hroot : Directory (mounted format device.toFat).toFatFs sector
      format.ebr.clusterRootNum root.slots) : initFatfs malloc device = .ok (some (mounted format device.toFat)) ∧
    ∀ ns content, FileAt (mounted format device.toFat).toFatFs sector root ns content → ∀ path, Spelled path ns →
      ∀ allocs, Grants allocs → ∀ rdir, ∃ file bound,
        (∀ fuel ≥ bound, fatFopen fuel allocs malloc (mounted format device.toFat) path rdir = some (.ok (some file))) ∧
        file.filesize.toNat = content.length ∧
        ∀ sizes, total sizes ≤ content.length → ReadsExactly content file sizes := by
  refine ⟨initFatfs_eq hon hserves hm, fun ns content hfile path hpath allocs hgrants rdir => ?_⟩
  have hv := volume_mounted format hserves
  obtain ⟨l, it, hit, hattr, ⟨hsize, cs, hchain, hcs, hbytes, hfront⟩, hname, hopens⟩ :=
    directory_opens hv hdots hroot hgrants hfile hpath
  obtain ⟨bound, hopen⟩ := fopens hv hm hit hattr hname hopens hchain hcs hbytes rdir
  refine ⟨_, bound, hopen, hsize, fun sizes hsizes => ?_⟩
  refine reads_stored ?_ rfl hfront hsizes
  show (cs.flatMap _).length = (BitVec.ofNat 32 _).toNat
  rw [hv.length_chain, BitVec.toNat_ofNat, Nat.mod_eq_of_lt hbytes]

end Card

section Example

open PathResolution TrapCard

def single (c : U8) (hc : c ≠ 0x00 ∧ c < 0x80) (hslash : c ≠ slash) (entry : Slot) (hentry : entry.IsFile) : Item where
  name := [c]
  long := nameSlot c
  entry := entry
  spells := ⟨rfl, rfl, Nat.le_add_left 1 12, List.forall_mem_singleton.mpr hc, rfl⟩
  isFile := hentry
  nonempty := List.cons_ne_nil c []
  noSlash := fun h => hslash (List.mem_singleton.mp h).symm

def fileSlot : Slot :=
  (((blankSlot 0x42).setIfInBounds 11 FAT_ARCHIVE_ENT).setIfInBounds 26 4).setIfInBounds 28 5

def dotSlot : Slot := (blankSlot 0x2E).setIfInBounds 11 FAT_DIR_ENT

def directoryItem : Item := single 0x41 (by decide) (by decide) (dirSlot 3) (Or.inl rfl)

def fileItem : Item := single 0x42 (by decide) (by decide) fileSlot (Or.inr rfl)

theorem free_blank {n : Nat} : ∀ s ∈ List.replicate n (blankSlot 0x00), s.attr = 0x00 := by
  intro s hs
  rw [List.eq_of_mem_replicate hs]
  rfl

/-- A root with a directory A, which has a file B of five bytes. -/
def rootListing : Listing where
  dots := []
  items := [directoryItem]
  free := List.replicate 14 (blankSlot 0x00)
  dots_dir := fun _ h => absurd h List.not_mem_nil
  distinct := List.nodup_singleton _
  free_attr := free_blank

def subListing : Listing where
  dots := [dotSlot, dotSlot]
  items := [fileItem]
  free := List.replicate 12 (blankSlot 0x00)
  dots_dir := by
    intro s hs
    rcases List.mem_pair.mp hs with rfl | rfl <;> rfl
  distinct := List.nodup_singleton _
  free_attr := free_blank

def volumeEntry : Partition := ⟨⟨0x010100, 0xFFFFFE, 63, 5, 0x0C⟩, by decide, by decide⟩

def cardFormat : Format where
  partitions := Vector.replicate 4 volumeEntry
  index := 0
  bpb := ⟨⟨512, 1⟩, 1, 1, 0, 0, 0, 63, 63, 5⟩
  ebr := ⟨⟨2⟩, 1, 0, 0, 1, 6, 0x29, Vector.replicate 11 0x20, 0xAA55⟩
  fattlb := [0x0FFFFFF8, 0x0FFFFFFF, 0x0FFFFFFF, 0x0FFFFFFF, 0x0FFFFFFF] ++ List.replicate 123 0
  fat32 := by decide
  first := fun _ h => absurd h (Fin.not_lt_zero _)
  bytesPerSector := rfl
  entries := by
    rw [List.length_append, List.length_replicate]
    rfl
  numbered := by
    rw [List.length_append, List.length_replicate]
    decide
  hidden := by decide
  reserved := by decide
  tables := by decide
  addressed := by decide

def cardData (lba : Nat) : Vector U8 512 :=
  if lba = 65 then sectorOf rootListing.slots rfl
  else if lba = 66 then sectorOf subListing.slots rfl
  else Vector.replicate 512 0x55

def cardSectors : Nat → Vector U8 512 := image cardFormat cardData

def cardFs : MountedFs := mounted cardFormat (reading cardSectors).toFat

theorem card_cluster {c : U32} (hc : c = 2 ∨ c = 3 ∨ c = 4) : Chain cardFs.toFatFs c [c] ∧
    (∀ d ∈ [c], Addressable cardFs.toFatFs d) ∧
    [c].flatMap (clusterBytes cardFs.toFatFs cardSectors) = (cardData (63 + c.toNat)).toList := by
  have hfacts : nextCluster cardFs.toFatFs c = .last ∧ clusterLba cardFs.toFatFs c = 63 + c.toNat ∧
      2 ≤ c.toNat ∧ c.toNat ≤ 4 := by
    rcases hc with rfl | rfl | rfl <;> exact ⟨rfl, rfl, by decide, by decide⟩
  obtain ⟨hlast, hlba, hlow, hhigh⟩ := hfacts
  have hone : sectors cardFs.toFatFs = 1 := rfl
  have hsector : cardSectors (63 + c.toNat) = cardData (63 + c.toNat) := by
    have hvolume : cardFormat.LBA.toNat = 63 := rfl
    have hfatlba : cardFormat.fatlba = 64 := rfl
    have htable : cardFormat.ebr.sectorsPerFat.toNat = 1 := rfl
    rw [cardSectors, image, hvolume, hfatlba, htable, if_neg (by omega), if_neg (by omega), if_neg (by omega)]
  refine ⟨.last hlast, fun d hd => ?_, ?_⟩
  · obtain rfl := List.mem_singleton.mp hd
    exact ⟨hlow, by omega, by omega⟩
  · rw [List.flatMap_singleton, clusterBytes, hlba, hone, sectorBytes, List.range_one, List.flatMap_singleton,
      Nat.add_zero, hsector]

theorem card_clustersize : 1 * cardFs.clustersize.toNat < 2 ^ 32 := by decide

theorem card_directory {c : U32} (hc : c = 2 ∨ c = 3 ∨ c = 4) {slots : List Slot}
    (hslots : (cardData (63 + c.toNat)).toList = bytes slots) : Directory cardFs.toFatFs cardSectors c slots := by
  obtain ⟨hchain, hcs, hbytes⟩ := card_cluster hc
  exact ⟨[c], hchain, hcs, card_clustersize, hbytes.trans hslots⟩

theorem card_file : FileAt cardFs.toFatFs cardSectors rootListing [[0x41], [0x42]] (List.replicate 5 0x55) := by
  obtain ⟨hchain, hcs, hbytes⟩ := card_cluster (c := 4) (Or.inr (Or.inr rfl))
  have hsub : Directory cardFs.toFatFs cardSectors directoryItem.entry.cluster subListing.slots :=
    card_directory (Or.inr (Or.inl rfl)) rfl
  have hstored : Stored cardFs.toFatFs cardSectors fileItem.entry (List.replicate 5 0x55) := by
    refine ⟨rfl, [4], hchain, hcs, card_clustersize, ?_⟩
    rw [hbytes]
    exact ⟨List.replicate 507 0x55, rfl⟩
  exact .within (List.mem_singleton_self directoryItem) rfl hsub (List.mem_singleton_self fileItem) rfl hstored

/-- The bytes of /A/B, in two calls. -/
theorem card_reads_nested : initFatfs cleared (reading cardSectors) = .ok (some cardFs) ∧ ∃ file bound,
    (∀ fuel ≥ bound, fatFopen fuel ⟨fun _ => cleared, blank⟩ cleared cardFs [slash, 0x41, slash, 0x42] blank =
      some (.ok (some file))) ∧ ReadsExactly (List.replicate 5 0x55) file [2, 3] := by
  have hroot : Directory cardFs.toFatFs cardSectors 2 rootListing.slots := card_directory (Or.inl rfl) rfl
  obtain ⟨hinit, hfiles⟩ :=
    card_reads (image_on cardFormat cardData) (reading_serves cardSectors) granted_cleared rfl hroot
  have hgrants : Grants ⟨fun _ => cleared, blank⟩ := fun _ => granted_cleared
  obtain ⟨file, bound, hopen, -, hreads⟩ :=
    hfiles _ _ card_file [slash, 0x41, slash, 0x42] (Or.inl rfl) _ hgrants blank
  exact ⟨hinit, file, bound, hopen, hreads [2, 3] (by decide)⟩

end Example

end MetalNes.CardFiles
