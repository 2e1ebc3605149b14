import MetalNes.FileReads
import MetalNes.PathResolution
import MetalNes.SlotPaths

namespace MetalNes.DataClusters

open Loop CStrings Fat32 ClusterChains DirectorySlots FatFiles DirectorySearch DirectoryTree RootSearch FileReads
  OpenCalls SlotSearch SlotPaths ClusterUse

section Calls

inductive Call
  | opendir (path : Str)
  | fopen (path : Str) (rdir : Dirent)

variable (allocs : Allocs) (malloc : U32 → Option (List U8)) (fs : MountedFs)

/-- A first cluster that fat_opendir takes from a slot, and the place of the read. For a
directory on the way it is the slot at the read pointer. -/
inductive OpendirTakes (path : Str) : Nat → U32 → Prop
  | onTheWay {fuel : Nat} {v : Walk} {nextoffset : Int} {subdir rest : Str} {c : U32}
      (hv : Walks fuel allocs fs path v) (hfound : DirFound v nextoffset)
      (hmore : strtok v.rest = (some subdir, rest)) (hc : innerClusterAt v.buffer v.readptr = some c) :
      OpendirTakes path v.calls c
  | last {fuel : Nat} {v : Walk} {nextoffset : Int} {c : U32} (hv : Walks fuel allocs fs path v)
      (hfound : DirFound v nextoffset) (hend : (strtok v.rest).1 = none)
      (hc : clusterAt v.buffer (v.readptr + nextoffset - sizeofDirent) = some c) : OpendirTakes path v.calls c

/-- A first cluster that a call takes from a slot, with the malloc of the read. -/
inductive Takes : Call → (U32 → Option (List U8)) → U32 → Prop
  | opendir {path : Str} {k : Nat} {c : U32} (h : OpendirTakes allocs fs path k c) :
      Takes (.opendir path) (allocs.data k) c
  | pathTo {path fname : Str} {rdir : Dirent} {fuel k : Nat} {c : U32}
      (hname : fatGetfilename fuel path = some (some fname))
      (h : OpendirTakes allocs fs (pathTo path fname) k c) : Takes (.fopen path rdir) (allocs.data k) c
  | file {path : Str} {rdir : Dirent} {fuel : Nat} {fdir : FatDir} {c size : U32}
      (h : ComesTo fuel allocs malloc fs path rdir fdir)
      (hc : clusterAt fdir.data (fdir.readptr - sizeofDirent : Int) = some c)
      (hsize : sizeInBytes fdir.data (fdir.readptr - sizeofDirent) = some size) : Takes (.fopen path rdir) malloc c

inductive Reads : Call → (U32 → Option (List U8)) → U32 → Prop
  | root (path : Str) : Reads (.opendir path) (allocs.data 0) fs.ebr.clusterRootNum
  | rootTo {path fname : Str} {fuel : Nat} (hname : fatGetfilename fuel path = some (some fname)) (rdir : Dirent) :
      Reads (.fopen path rdir) (allocs.data 0) fs.ebr.clusterRootNum
  | slot {call : Call} {m : U32 → Option (List U8)} {c : U32} (h : Takes allocs malloc fs call m c) : Reads call m c

def ComesToEmpty : Call → Prop
  | .opendir _ => False
  | .fopen path rdir => ∃ fuel fdir, ComesTo fuel allocs malloc fs path rdir fdir ∧
      sizeInBytes fdir.data (fdir.readptr - sizeofDirent) = some 0

def OpensEmpty : Call → Prop
  | .opendir _ => False
  | .fopen path rdir => ∃ fuel f, fatFopen fuel allocs malloc fs path rdir = some (.ok (some f)) ∧ f.data = []

structure OnlyData (call : Call) : Prop where
  data : ∀ m c, Reads allocs malloc fs call m c → ∀ d, Passes fs.toFatFs m c d → IsData fs.toFatFs d
  empty : ComesToEmpty allocs malloc fs call → OpensEmpty allocs malloc fs call

/-- The slots along the path and the entry of the file name clusters in use, and the file is
not empty. -/
def SoundSlots (sector : Nat → Vector U8 512) (start : Dirent) : Call → Prop
  | .opendir path => SoundPath fs sector start path
  | .fopen path rdir => ∀ fname, (names path).getLast? = some fname →
      SoundPath fs sector start (pathTo path fname) ∧ SoundFile fs sector start (pathTo path fname) fname rdir

variable {allocs malloc fs} {sector : Nat → Vector U8 512} {call : Call}

theorem Takes.granted {m : U32 → Option (List U8)} {c : U32} (hallocs : Grants allocs) (hm : Granted malloc)
    (h : Takes allocs malloc fs call m c) : Granted m := by
  cases h with
  | opendir h => exact hallocs _
  | pathTo hname h => exact hallocs _
  | file h hc hsize => exact hm

theorem not_opensEmpty (hfs : WellFormed fs.toFatFs) : ¬ OpensEmpty allocs malloc fs call := by
  intro h
  cases call with
  | opendir path => exact h
  | fopen path rdir =>
      obtain ⟨fuel, f, hcall, hdata⟩ := h
      exact data_ne_nil hfs (fatFopen_loaded hcall).data hdata

section Slots

variable {path : Str} {hit : Hit} {ns : List Str} {c : U32} {k : Nat}

theorem takes_of_meets (hv : Volume fs.toFatFs sector) (hallocs : Grants allocs)
    (h : Meets fs sector allocs.dirent path hit ns) (hc : hit.taken ns = some c) :
    ∃ k, OpendirTakes allocs fs path k c := by
  obtain ⟨bound, v, nextoffset, hnames, hwalks, hfound, hinner, hlast⟩ := walks_of_meets hv hallocs h
  have hw := hwalks bound le_rfl
  cases ns with
  | nil => exact ⟨v.calls, .last hw hfound (congrArg Prod.fst (strtok_of_nil hnames)) (hlast c hc)⟩
  | cons m ms =>
      obtain ⟨-, rest, hstrtok, -⟩ := strtok_of_names hnames
      exact ⟨v.calls, .onTheWay hw hfound hstrtok (hinner.trans hc)⟩

theorem meets_of_takes (hfs : WellFormed fs.toFatFs) (hroot : InUse fs.toFatFs fs.ebr.clusterRootNum)
    (hv : Volume fs.toFatFs sector) (hallocs : Grants allocs) (hsound : SoundPath fs sector allocs.dirent path)
    (h : OpendirTakes allocs fs path k c) :
    ∃ hit ns, Meets fs sector allocs.dirent path hit ns ∧ hit.taken ns = some c := by
  cases h with
  | @onTheWay fuel v nextoffset subdir rest c hw hfound hmore hc =>
      obtain ⟨hit, hmeets, hinner, -⟩ := (onPath_of_walks hfs hroot hv hallocs hsound hw).found hfound
      rw [names_of_strtok hmore] at hmeets
      exact ⟨hit, _, hmeets, hinner.symm.trans hc⟩
  | @last fuel v nextoffset c hw hfound hend hc =>
      obtain ⟨hit, hmeets, -, hlast⟩ := (onPath_of_walks hfs hroot hv hallocs hsound hw).found hfound
      have hstrtok : strtok v.rest = (none, (strtok v.rest).2) := Prod.ext hend rfl
      rw [names_of_strtok_none hstrtok] at hmeets
      exact ⟨hit, [], hmeets, hlast.symm.trans hc⟩

variable {fname : Str} {rdir : Dirent}

theorem file_fields {slots : List Slot} {j : Nat} {t : Slot} (ht : slots[j]? = some t) :
    clusterAt (dirAt slots (j + 1)).data ((dirAt slots (j + 1)).readptr - sizeofDirent : Int) = some t.cluster ∧
    sizeInBytes (dirAt slots (j + 1)).data ((dirAt slots (j + 1)).readptr - sizeofDirent) = some (entrySize t) := by
  have hback : (((j + 1) * sizeofDirent : Nat) : Int) - (sizeofDirent : Nat) = ((j * sizeofDirent : Nat) : Int) := by
    rw [sizeofDirent]
    omega
  have hback' : (j + 1) * sizeofDirent - sizeofDirent = j * sizeofDirent := by
    rw [Nat.succ_mul, Nat.add_sub_cancel]
  constructor
  · rw [dirAt, hback, clusterAt_bytes ht]
  · rw [dirAt, hback', sizeInBytes_bytes ht]

theorem takes_of_lookup (hv : Volume fs.toFatFs sector) (hallocs : Grants allocs)
    (hname : (names path).getLast? = some fname) {slots : List Slot} {t : Slot}
    (hends : EndsAt fs sector allocs.dirent (pathTo path fname) c) (hdir : Directory fs.toFatFs sector c slots)
    (ht : lookupFile fname rdir 0 slots = .ok (some t)) :
    Takes allocs malloc fs (.fopen path rdir) malloc t.cluster ∧
      (entrySize t = 0 → ComesToEmpty allocs malloc fs (.fopen path rdir)) := by
  obtain ⟨fuel, j, hcomes, hj⟩ := comesTo_of_lookup hv hallocs hname hends hdir ht
  obtain ⟨hcluster, hsize⟩ := file_fields hj
  exact ⟨.file hcomes hcluster hsize, fun hzero => ⟨fuel, _, hcomes, hzero ▸ hsize⟩⟩

/-- The file that a call comes to has the entry at which the search in its directory ends. -/
theorem sound_of_comesTo (hfs : WellFormed fs.toFatFs) (hroot : InUse fs.toFatFs fs.ebr.clusterRootNum)
    (hv : Volume fs.toFatFs sector) (hallocs : Grants allocs)
    (hsound : SoundSlots fs sector allocs.dirent (.fopen path rdir)) {fuel : Nat} {fdir : FatDir}
    (h : ComesTo fuel allocs malloc fs path rdir fdir) : ∃ slots j t, fdir = dirAt slots (j + 1) ∧
      slots[j]? = some t ∧ InUse fs.toFatFs t.cluster ∧ entrySize t ≠ 0 := by
  obtain ⟨fname, v, hsearches, -⟩ := id h
  have hname := PathSplit.last_of_getfilename hsearches.1
  obtain ⟨hpath, hfile⟩ := hsound fname hname
  obtain ⟨c, slots, j, t, hends, hdir, ht, hj, rfl⟩ := lookup_of_comesTo hfs hroot hv hallocs h hname hpath
  exact ⟨slots, j, t, rfl, hj, hfile c slots t hends hdir ht⟩

end Slots

/-- For every volume, all contents of its directories and every call: only data clusters
are read exactly if the slots along the path name clusters in use. -/
theorem onlyData_iff (hfs : WellFormed fs.toFatFs) (hv : Volume fs.toFatFs sector)
    (hroot : InUse fs.toFatFs fs.ebr.clusterRootNum) (hallocs : Grants allocs) (hm : Granted malloc) (call : Call) :
    OnlyData allocs malloc fs call ↔ SoundSlots fs sector allocs.dirent call := by
  constructor
  · intro h
    have huse : ∀ {m c}, Takes allocs malloc fs call m c → InUse fs.toFatFs c := fun htakes =>
      (passes_isData_iff hfs (htakes.granted hallocs hm)).mp (h.data _ _ (.slot htakes))
    cases call with
    | opendir path =>
        intro hit ns hmeets c hc
        obtain ⟨k, htakes⟩ := takes_of_meets hv hallocs hmeets hc
        exact huse (.opendir htakes)
    | fopen path rdir =>
        intro fname hname
        obtain ⟨fuel, hfilename⟩ := PathSplit.getfilename_last hname
        refine ⟨fun hit ns hmeets c hc => ?_, fun c slots t hends hdir ht => ?_⟩
        · obtain ⟨k, htakes⟩ := takes_of_meets hv hallocs hmeets hc
          exact huse (.pathTo (hfilename fuel le_rfl) htakes)
        · obtain ⟨htakes, hempty⟩ := takes_of_lookup hv hallocs hname hends hdir ht
          exact ⟨huse htakes, fun hzero => not_opensEmpty hfs (h.empty (hempty hzero))⟩
  · intro h
    have huse : ∀ m c, Takes allocs malloc fs call m c → InUse fs.toFatFs c := by
      intro m c htakes
      cases htakes with
      | opendir htakes =>
          obtain ⟨hit, ns, hmeets, hc⟩ := meets_of_takes hfs hroot hv hallocs h htakes
          exact h hit ns hmeets c hc
      | pathTo hname htakes =>
          obtain ⟨hsound, -⟩ := h _ (PathSplit.last_of_getfilename hname)
          obtain ⟨hit, ns, hmeets, hc⟩ := meets_of_takes hfs hroot hv hallocs hsound htakes
          exact hsound hit ns hmeets c hc
      | file hcomes hc hsize =>
          obtain ⟨slots, j, t, rfl, hj, ht, -⟩ := sound_of_comesTo hfs hroot hv hallocs h hcomes
          obtain ⟨hcluster, -⟩ := file_fields hj
          cases hcluster.symm.trans hc
          exact ht
    refine ⟨fun m c hreads => ?_, fun hempty => absurd hempty ?_⟩
    · cases hreads with
      | root path => exact (passes_isData_iff hfs (hallocs 0)).mpr hroot
      | rootTo hname rdir => exact (passes_isData_iff hfs (hallocs 0)).mpr hroot
      | slot htakes => exact (passes_isData_iff hfs (htakes.granted hallocs hm)).mpr (huse m c htakes)
    · cases call with
      | opendir path => exact id
      | fopen path rdir =>
          rintro ⟨fuel, fdir, hcomes, hsize⟩
          obtain ⟨slots, j, t, rfl, hj, -, ht⟩ := sound_of_comesTo hfs hroot hv hallocs h hcomes
          obtain ⟨-, hsize'⟩ := file_fields hj
          exact ht (Option.some.inj (hsize'.symm.trans hsize))

end Calls

section Example

open TrapCard PathResolution

/-- Cards with clusters of one sector, each a chain of its own. -/
def singles (n : Nat) (card : Nat → Vector U8 512) : MountedFs where
  fattlb := 0x0FFFFFF8 :: List.replicate (n + 1) 0x0FFFFFFF
  dev := reader card
  bpb := ⟨512, 1⟩
  firstdatalba := 2
  clustersize := 512
  ebr := ⟨2⟩

variable {n : Nat} {card : Nat → Vector U8 512}

theorem singles_entry {c entry : U32} (h : (singles n card).fattlb[c.toNat]? = some entry) :
    0x0FFFFFF8 ≤ entry &&& 0x0FFFFFFF := by
  rcases List.mem_cons.mp (List.mem_of_getElem? h) with rfl | hmem
  · decide
  · rw [List.eq_of_mem_replicate hmem]
    decide

theorem singles_unlinked (c d : U32) : nextCluster (singles n card).toFatFs c ≠ .next d := by
  intro h
  obtain ⟨entry, hentry, hmid, -⟩ := nextCluster_next h
  exact hmid (singles_entry hentry)

theorem singles_last {c : U32} (hc : c.toNat < n + 2) : nextCluster (singles n card).toFatFs c = .last := by
  have hlen : (singles n card).fattlb.length = n + 2 := congrArg Nat.succ List.length_replicate
  have hentry := List.getElem?_eq_getElem (hlen.symm ▸ hc)
  rw [nextCluster, hentry]
  exact if_pos (singles_entry hentry)

theorem singles_inUse {c : U32} (hc : 2 ≤ c.toNat) : InUse (singles n card).toFatFs c := ⟨hc, singles_unlinked c 0⟩

theorem singles_lba {c : U32} (hc : 2 ≤ c.toNat) : clusterLba (singles n card).toFatFs c = c.toNat := by
  show 2 + 1 * (c.toNat - 2) = c.toNat
  omega

theorem singles_sectors : sectors (singles n card).toFatFs = 1 := rfl

theorem singles_addressable {c : U32} (hc : 2 ≤ c.toNat) : Addressable (singles n card).toFatFs c := by
  have hlt := c.isLt
  refine ⟨hc, ?_, ?_⟩
  · rwa [singles_lba hc]
  · rw [singles_lba hc, singles_sectors]
    omega

theorem singles_clustersize : (512 : U32) = clustersizeOf ⟨512, 1⟩ := by decide

theorem singles_wellFormed (n : Nat) (card : Nat → Vector U8 512) : WellFormed (singles n card).toFatFs where
  bytesPerSector := rfl
  clustersize := singles_clustersize
  nonempty := singles_sectors.symm ▸ Nat.one_pos
  device := by
    intro lba
    rw [singles_sectors]
    have hsize : ((1 : U32) * 512).toNat ≤ 1 * 512 := by decide
    exact ⟨length_sectorBytes _ 1, hsize⟩
  reserved := ⟨singles_last (Nat.succ_pos _), singles_last (Nat.le_add_left 2 n)⟩
  links := fun c d _ h => absurd h (singles_unlinked c d)
  addressable := fun _ hlow _ => singles_addressable hlow

theorem singles_volume (n : Nat) (card : Nat → Vector U8 512) : Volume (singles n card).toFatFs card where
  bytesPerSector := rfl
  clustersize := singles_clustersize
  device := fun _ _ _ => rfl

theorem singles_directory {c : U32} (hlow : 2 ≤ c.toNat) (hc : c.toNat < n + 2) {slots : List Slot}
    (h : (card c.toNat).toList = bytes slots) : Directory (singles n card).toFatFs card c slots := by
  have hsize : 1 * (512 : U32).toNat < 2 ^ 32 := by decide
  refine ⟨[c], .last (singles_last hc), ?_, hsize, ?_⟩
  · intro d hd
    obtain rfl := List.mem_singleton.mp hd
    exact singles_addressable hlow
  · rw [List.flatMap_singleton, clusterBytes, singles_lba hlow, singles_sectors, sectorBytes, List.range_one,
      List.flatMap_singleton, Nat.add_zero, h]

def fileSlot (cluster size : U8) : Slot :=
  (((blankSlot 0x42).setIfInBounds 11 FAT_ARCHIVE_ENT).setIfInBounds 26 cluster).setIfInBounds 28 size

def holding (cluster size : U8) : List Slot :=
  nameSlot 0x42 :: fileSlot cluster size :: List.replicate 14 (blankSlot 0x00)

theorem length_parentSlots (c cluster : U8) : (parentSlots c cluster).length = 16 := rfl

theorem length_holding (cluster size : U8) : (holding cluster size).length = 16 := rfl

def filedCard (cluster size : U8) (lba : Nat) : Vector U8 512 :=
  if lba = 2 then sectorOf (parentSlots 0x41 3) (length_parentSlots 0x41 3)
  else if lba = 3 then sectorOf (holding cluster size) (length_holding cluster size)
  else blankSector 0x00

def filed (cluster size : U8) : MountedFs := singles 3 (filedCard cluster size)

def memory : Allocs := ⟨fun _ => cleared, blank⟩

theorem granted_memory : Grants memory := fun _ => granted_cleared

def pathB : Str := [0x41, slash, 0x42]

variable {cluster size : U8}

theorem filed_root : Directory (filed cluster size).toFatFs (filedCard cluster size) 2 (parentSlots 0x41 3) :=
  singles_directory (by decide) (by decide) rfl

theorem filed_inner : Directory (filed cluster size).toFatFs (filedCard cluster size) 3 (holding cluster size) :=
  singles_directory (by decide) (by decide) rfl

theorem nameSlot_long (c : U8) : (nameSlot c).IsLong := rfl

theorem lookup_A : lookup [0x41] blank 0 (parentSlots 0x41 3) =
    .ok (some ⟨nameSlot 0x41, some (dirSlot 3), pairDirent blank (nameSlot 0x41) (dirSlot 3)⟩) :=
  lookup_pair (nameSlot_long _) rfl (by decide +kernel) _

theorem lookup_B (rdir : Dirent) :
    lookupFile [0x42] rdir 0 (holding cluster size) = .ok (some (fileSlot cluster size)) :=
  lookupFile_pair (nameSlot_long _) rfl (by decide +kernel) _

theorem filed_meets {hit : Hit} {ns : List Str}
    (h : Meets (filed cluster size) (filedCard cluster size) blank [0x41, slash] hit ns) :
    ns = [] ∧ hit = ⟨nameSlot 0x41, some (dirSlot 3), pairDirent blank (nameSlot 0x41) (dirSlot 3)⟩ := by
  obtain ⟨hns, hhit⟩ := h.single rfl filed_root
  cases lookup_A.symm.trans hhit
  exact ⟨hns, rfl⟩

theorem meets_A : Meets (filed cluster size) (filedCard cluster size) blank [0x41, slash]
    ⟨nameSlot 0x41, some (dirSlot 3), pairDirent blank (nameSlot 0x41) (dirSlot 3)⟩ [] :=
  ⟨blank, 2, [0x41], parentSlots 0x41 3, .root, filed_root, lookup_A⟩

theorem endsAt_A : EndsAt (filed cluster size) (filedCard cluster size) blank [0x41, slash] 3 :=
  .last meets_A (by decide +kernel)

theorem filed_takes : (∃ k, OpendirTakes memory (filed cluster size) [0x41, slash] k 3) ∧
    Takes memory cleared (filed cluster size) (.fopen pathB blank) cleared (fileSlot cluster size).cluster ∧
    (entrySize (fileSlot cluster size) = 0 →
      ComesToEmpty memory cleared (filed cluster size) (.fopen pathB blank)) := by
  have hv := singles_volume 3 (filedCard cluster size)
  have hlast : (names pathB).getLast? = some [0x42] := by decide +kernel
  have hends : EndsAt (filed cluster size) (filedCard cluster size) blank (pathTo pathB [0x42]) 3 := endsAt_A
  exact ⟨takes_of_meets hv granted_memory meets_A (by decide +kernel),
    takes_of_lookup hv granted_memory hlast hends filed_inner (lookup_B blank)⟩

/-- The file A/B of five bytes in cluster 4, in the directory A in cluster 3. -/
theorem filed_onlyData : (∃ k, OpendirTakes memory (filed 4 5) [0x41, slash] k 3) ∧
    Takes memory cleared (filed 4 5) (.fopen pathB blank) cleared 4 ∧
    OnlyData memory cleared (filed 4 5) (.fopen pathB blank) := by
  have hlast : (names pathB).getLast? = some [0x42] := by decide +kernel
  refine ⟨filed_takes.1, filed_takes.2.1, ?_⟩
  refine (onlyData_iff (singles_wellFormed 3 _) (singles_volume 3 _) (singles_inUse (by decide)) granted_memory
    granted_cleared _).mpr ?_
  intro fname hname
  obtain rfl := Option.some.inj (hlast.symm.trans hname)
  refine ⟨fun hit ns h c hc => ?_, fun c slots t hends hdir ht => ?_⟩
  · obtain ⟨rfl, rfl⟩ := filed_meets h
    cases hc
    exact singles_inUse (by decide)
  · cases hends with
    | root hpath => exact absurd hpath (by decide)
    | last h hc =>
        obtain ⟨-, rfl⟩ := filed_meets h
        cases hc
        obtain rfl := Directory.unique filed_inner hdir
        cases (lookup_B blank).symm.trans ht
        exact ⟨singles_inUse (by decide +kernel), by decide +kernel⟩

/-- The empty file A/B, with first cluster 0 as the format prescribes it: the sector below that
of the root is read. -/
theorem empty_not_onlyData : WellFormed (filed 0 0).toFatFs ∧
    Takes memory cleared (filed 0 0) (.fopen pathB blank) cleared 0 ∧
    fatClustertolba (filed 0 0).toFatFs 0 < (filed 0 0).firstdatalba ∧
    ¬ OnlyData memory cleared (filed 0 0) (.fopen pathB blank) := by
  obtain ⟨-, htakes, hempty⟩ : _ ∧ Takes memory cleared (filed 0 0) (.fopen pathB blank) cleared 0 ∧ _ := filed_takes
  refine ⟨singles_wellFormed 3 _, htakes, by decide, fun h => ?_⟩
  exact not_opensEmpty (singles_wellFormed 3 _) (h.empty (hempty (by decide +kernel)))

end Example

end MetalNes.DataClusters
