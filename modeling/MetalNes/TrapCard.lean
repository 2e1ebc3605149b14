import MetalNes.ClusterZero
import Mathlib.Tactic.Ring

namespace MetalNes.TrapCard

open Loop LinkedPath CStrings Fat32 ClusterChains DirectorySlots FatFiles DirectorySearch DirectoryTree
  RootSearch ClusterZero

section Sectors

def sectorOf (slots : List Slot) (h : slots.length = 16) : Vector U8 512 :=
  ⟨(bytes slots).toArray, by rw [List.size_toArray, length_bytes, h]; rfl⟩

theorem bytes_flatMap {α : Type} (xs : List α) (f : α → List Slot) :
    bytes (xs.flatMap f) = xs.flatMap fun x => bytes (f x) := List.flatMap_assoc

def longSlot : Slot := (Vector.replicate 32 0x00).setIfInBounds 11 FAT_LONG_NAME_ENT

def longSlots : List Slot := List.replicate 16 longSlot

def longSector : Vector U8 512 := sectorOf longSlots List.length_replicate

theorem sectorBytes_of_slots {sector : Nat → Vector U8 512} {lba n : Nat} (f : Nat → List Slot)
    (h : ∀ i < n, (sector (lba + i)).toList = bytes (f i)) :
    sectorBytes sector lba n = bytes ((List.range n).flatMap f) := by
  rw [sectorBytes, bytes_flatMap]
  exact List.flatMap_congr fun i hi => h i (List.mem_range.mp hi)

end Sectors

section Zero

variable {fs : FatFs} {sector : Nat → Vector U8 512}

/-- The table's first entry is that of the media descriptor, no cluster. -/
structure MediaEntry (fs : FatFs) : Prop where
  entry : ∃ entry, fs.fattlb[0]? = some entry ∧ 0x0FFFFFF0 ≤ entry &&& 0x0FFFFFFF
  length : fs.fattlb.length ≤ 0x0FFFFFF0

theorem count_zero (h : MediaEntry fs) {fuel : Nat} {count : U32}
    (hcount : fatGetclustercount fuel 0 fs = some (.ok count)) : count = 1 := by
  obtain ⟨entry, hentry, hge⟩ := h.entry
  have hreturns : Returns (countBody fs) (1, 0) (.ok count) := ⟨fuel, hcount⟩
  have hget : fs.fattlb[(0 : U32).toNat]? = some entry := hentry
  by_cases hend : entry &&& 0x0FFFFFFF ≥ 0x0FFFFFF8
  · have hpass : countBody fs (1, 0) = .done (.ok 1) := by
      simp only [countBody, hget]
      exact if_pos hend
    exact Except.ok.inj (hreturns.of_first hpass)
  · have hpass : countBody fs (1, 0) = .next (1 + 1, entry &&& 0x0FFFFFFF) := by
      simp only [countBody, hget]
      exact if_neg hend
    have hbeyond : fs.fattlb[(entry &&& 0x0FFFFFFF).toNat]? = none :=
      List.getElem?_eq_none (h.length.trans (BitVec.le_def.mp hge))
    have hfault : countBody fs (1 + 1, entry &&& 0x0FFFFFFF) = .done (.error .outOfBounds) := by
      simp only [countBody, hbeyond]
    cases hreturns.unique (.of_next hpass (.of_done hfault))

theorem lba_zero (hfront : 2 * sectors fs ≤ fs.firstdatalba.toNat) :
    (fatClustertolba fs 0).toNat = fs.firstdatalba.toNat - 2 * sectors fs := by
  have hn := toNat_sectors fs
  have hlt := fs.firstdatalba.isLt
  have hring : fatClustertolba fs 0 = fs.firstdatalba -
      (fs.bpb.sectorsPerCluster.setWidth 32 + fs.bpb.sectorsPerCluster.setWidth 32) := by
    rw [fatClustertolba]
    ring
  have hdouble : (fs.bpb.sectorsPerCluster.setWidth 32 + fs.bpb.sectorsPerCluster.setWidth 32).toNat =
      2 * sectors fs := by
    rw [BitVec.toNat_add, hn]
    omega
  rw [hring, BitVec.toNat_sub_of_le (BitVec.le_def.mpr (by rw [hdouble]; exact hfront)), hdouble]

def trapSlots (n : Nat) : List Slot := (List.range n).flatMap fun _ => longSlots

theorem mem_trapSlots {n : Nat} {s : Slot} (h : s ∈ trapSlots n) : s.IsLong ∧ Unlinked s := by
  obtain ⟨-, -, hs⟩ := List.mem_flatMap.mp h
  obtain rfl := List.eq_of_mem_replicate hs
  exact ⟨rfl, rfl⟩

variable (hv : Volume fs sector) (hfront : 2 * sectors fs ≤ fs.firstdatalba.toNat)
  (hlong : ∀ lba < fs.firstdatalba.toNat, sector lba = longSector)

include hv hfront hlong

theorem read_zero : fs.dev.readblocks (fatClustertolba fs 0) (fs.bpb.sectorsPerCluster.setWidth 32) =
      (bytes (trapSlots (sectors fs)), fs.clustersize) ∧
    (bytes (trapSlots (sectors fs))).length = fs.clustersize.toNat := by
  have hn := toNat_sectors fs
  have hlba := lba_zero hfront
  have hlt := fs.firstdatalba.isLt
  have hslots : sectorBytes sector (fs.firstdatalba.toNat - 2 * sectors fs) (sectors fs) =
      bytes (trapSlots (sectors fs)) := by
    refine sectorBytes_of_slots _ fun i hi => ?_
    rw [hlong _ (by omega)]
    rfl
  constructor
  · rw [hv.device _ _ (by rw [hlba, hn]; omega), hlba, hn, hslots, hv.readcount]
  · rw [← hslots, length_sectorBytes, hv.toNat_clustersize]

theorem trapped (hpos : 0 < sectors fs) (hmedia : MediaEntry fs) : Trapped fs := by
  intro fuel malloc data size hm hget
  obtain ⟨hread, hlen⟩ := read_zero hv hfront hlong
  unfold fatGetdata at hget
  split at hget
  · cases hget
  · cases hget
  · next count hcount =>
      obtain rfl := count_zero hmedia hcount
      split at hget
      · cases hget
      · next block hblock =>
          have hblocklen : block.length = fs.clustersize.toNat := by
            rw [hm _ _ hblock, mul_one]
          have hstore : storeAt block 0 (bytes (trapSlots (sectors fs))) =
              some (bytes (trapSlots (sectors fs))) := by
            rw [storeAt, if_pos (by omega), List.take_zero, List.nil_append,
              List.drop_of_length_le (by omega), List.append_nil]
          have hpass : readBody fs ⟨block, 0, 0, 1, 0⟩ =
              .done (.ok (bytes (trapSlots (sectors fs)), 0 + fs.clustersize)) := by
            simp only [readBody, hread, hstore]
            exact if_neg (by decide)
          have hsame := Returns.of_first hpass ⟨fuel, hget⟩
          obtain ⟨rfl, rfl⟩ := Prod.mk.inj (Except.ok.inj hsame)
          rw [length_bytes] at hlen
          refine ⟨_, ⟨fun hnil => ?_, fun s => mem_trapSlots⟩, rfl, ?_⟩
          · rw [hnil, List.length_nil, Nat.zero_mul, hv.toNat_clustersize] at hlen
            omega
          · rw [zero_add, hlen]

end Zero

section Card

def blankSlot (b : U8) : Slot := (Vector.replicate 32 0x00).setIfInBounds 0 b

def blankSlots (b : U8) : List Slot := blankSlot b :: List.replicate 15 (blankSlot 0x00)

def blankSector (b : U8) : Vector U8 512 := sectorOf (blankSlots b) rfl

theorem attr_blankSlot {b : U8} {s : Slot} (h : s ∈ blankSlots b) : s.attr = 0x00 := by
  rcases List.mem_cons.mp h with rfl | h
  · rfl
  · obtain rfl := List.eq_of_mem_replicate h
    rfl

def InCluster (fs : FatFs) (c : U32) (lba : Nat) : Prop :=
  clusterLba fs c ≤ lba ∧ lba < clusterLba fs c + sectors fs

instance (fs : FatFs) (c : U32) (lba : Nat) : Decidable (InCluster fs c lba) :=
  inferInstanceAs (Decidable (_ ∧ _))

def markAt (fs : FatFs) (mark : U32) (b : U8) (lba : Nat) : U8 :=
  if lba = clusterLba fs mark then b else 0x00

/-- A card with the root as it is, long-name slots in front of the data, and nothing
else but a byte at the start of one cluster. -/
def trapCard (fs : FatFs) (sector : Nat → Vector U8 512) (root : List U32) (mark : U32) (b : U8)
    (lba : Nat) : Vector U8 512 :=
  if lba < fs.firstdatalba.toNat then longSector
  else if ∃ c ∈ root, InCluster fs c lba then sector lba
  else blankSector (markAt fs mark b lba)

variable {fs : FatFs} {sector : Nat → Vector U8 512} {root : List U32} {mark : U32} {b : U8}

theorem inCluster_unique {c d : U32} (hc : Addressable fs c) (hd : Addressable fs d) {lba : Nat}
    (hlc : InCluster fs c lba) (hld : InCluster fs d lba) : c = d := by
  have hquot : ∀ e : U32, InCluster fs e lba →
      (lba - fs.firstdatalba.toNat) / sectors fs = e.toNat - 2 := by
    rintro e ⟨hlo, hhi⟩
    rw [clusterLba] at hlo hhi
    refine Nat.div_eq_of_lt_le ?_ ?_
    · rw [Nat.mul_comm]
      omega
    · rw [Nat.mul_comm, Nat.mul_add, Nat.mul_one]
      omega
  have hsame := (hquot c hlc).symm.trans (hquot d hld)
  have htwo := hc.data
  have htwo' := hd.data
  exact BitVec.eq_of_toNat_eq (by omega)

theorem trapCard_front {lba : Nat} (h : lba < fs.firstdatalba.toNat) :
    trapCard fs sector root mark b lba = longSector := if_pos h

theorem trapCard_data {lba : Nat} {c : U32} (h : InCluster fs c lba) :
    ¬ lba < fs.firstdatalba.toNat := by
  have hle : clusterLba fs c ≤ lba := h.1
  rw [clusterLba] at hle
  omega

theorem trapCard_root {lba : Nat} {c : U32} (hc : c ∈ root) (h : InCluster fs c lba) :
    trapCard fs sector root mark b lba = sector lba := by
  rw [trapCard, if_neg (trapCard_data h), if_pos ⟨c, hc, h⟩]

theorem trapCard_blank (hroot : ∀ c ∈ root, Addressable fs c) {lba : Nat} {d : U32}
    (hd : Addressable fs d) (hout : d ∉ root) (h : InCluster fs d lba) :
    trapCard fs sector root mark b lba = blankSector (markAt fs mark b lba) := by
  refine (if_neg (trapCard_data h)).trans (if_neg ?_)
  rintro ⟨c, hc, hlba⟩
  obtain rfl := inCluster_unique (hroot c hc) hd hlba h
  exact hout hc

theorem blankSector_head (b : U8) : (blankSector b).get 0 = b := rfl

theorem inCluster_first (hpos : 0 < sectors fs) (c : U32) : InCluster fs c (clusterLba fs c) :=
  ⟨le_rfl, Nat.lt_add_of_pos_right hpos⟩

theorem trapCard_mark (hpos : 0 < sectors fs) (hroot : ∀ c ∈ root, Addressable fs c)
    (hmark : Addressable fs mark) (hout : mark ∉ root) :
    (trapCard fs sector root mark b (clusterLba fs mark)).get 0 = b := by
  rw [trapCard_blank hroot hmark hout (inCluster_first hpos mark), markAt, if_pos rfl, blankSector_head]

theorem trapCard_unmarked (hpos : 0 < sectors fs) (hroot : ∀ c ∈ root, Addressable fs c)
    (hmark : Addressable fs mark) {c : U32} (hc : Addressable fs c) (hne : c ≠ mark) :
    (trapCard fs sector root mark b (clusterLba fs c)).get 0 =
      if c ∈ root then (sector (clusterLba fs c)).get 0 else 0x00 := by
  have hfirst := inCluster_first hpos c
  by_cases hin : c ∈ root
  · rw [trapCard_root hin hfirst, if_pos hin]
  · have hlba : clusterLba fs c ≠ clusterLba fs mark := by
      intro hsame
      have hmarked := inCluster_first hpos mark
      rw [← hsame] at hmarked
      exact hne (inCluster_unique hc hmark hfirst hmarked)
    rw [trapCard_blank hroot hc hin hfirst, markAt, if_neg hlba, if_neg hin, blankSector_head]

theorem trapCard_apart (sector : Nat → Vector U8 512) (hpos : 0 < sectors fs)
    (hroot : ∀ c ∈ root, Addressable fs c) (hmark : Addressable fs mark) (hout : mark ∉ root) {c : U32}
    (hc : Addressable fs c) (hne : c ≠ mark) :
    ∃ b : U8, (trapCard fs sector root mark b (clusterLba fs c)).get 0 ≠
      (trapCard fs sector root mark b (clusterLba fs mark)).get 0 := by
  have hother : ∀ x : U8, ∃ b, x ≠ b := fun x => ⟨x + 1, by bv_omega⟩
  obtain ⟨b, hb⟩ := hother (if c ∈ root then (sector (clusterLba fs c)).get 0 else 0x00)
  refine ⟨b, ?_⟩
  rwa [trapCard_mark hpos hroot hmark hout, trapCard_unmarked hpos hroot hmark hc hne]

theorem clusterBytes_root {c : U32} (hc : c ∈ root) :
    clusterBytes fs (trapCard fs sector root mark b) c = clusterBytes fs sector c := by
  refine List.flatMap_congr fun i hi => ?_
  rw [trapCard_root hc ⟨Nat.le_add_right _ _, Nat.add_lt_add_left (List.mem_range.mp hi) _⟩]

def clusterSlots (fs : FatFs) (mark : U32) (b : U8) (d : U32) : List Slot :=
  (List.range (sectors fs)).flatMap fun i => blankSlots (markAt fs mark b (clusterLba fs d + i))

theorem clusterBytes_blank (hroot : ∀ c ∈ root, Addressable fs c) {d : U32} (hd : Addressable fs d)
    (hout : d ∉ root) :
    clusterBytes fs (trapCard fs sector root mark b) d = bytes (clusterSlots fs mark b d) := by
  refine sectorBytes_of_slots _ fun i hi => ?_
  rw [trapCard_blank hroot hd hout ⟨Nat.le_add_right _ _, Nat.add_lt_add_left hi _⟩]
  rfl

theorem chain_blank (hroot : ∀ c ∈ root, Addressable fs c) {ds : List U32}
    (hds : ∀ d ∈ ds, Addressable fs d) (hout : root.Disjoint ds) :
    ds.flatMap (clusterBytes fs (trapCard fs sector root mark b)) =
      bytes (ds.flatMap (clusterSlots fs mark b)) := by
  rw [bytes_flatMap]
  exact List.flatMap_congr fun d hd => clusterBytes_blank hroot (hds d hd) fun h => hout h hd

theorem attr_clusterSlots {ds : List U32} {s : Slot} (h : s ∈ ds.flatMap (clusterSlots fs mark b)) :
    s.attr = 0x00 := by
  obtain ⟨d, -, hs⟩ := List.mem_flatMap.mp h
  obtain ⟨i, -, hs⟩ := List.mem_flatMap.mp hs
  exact attr_blankSlot hs

end Card

section Tree

variable {fs : MountedFs} {sector : Nat → Vector U8 512} {slots : List Slot}

/-- The volume with the trap card in the place of its own. -/
def trapFs (fs : MountedFs) (sector : Nat → Vector U8 512) (root : List U32) (mark : U32) (b : U8) :
    MountedFs := onDevice fs (reader (trapCard fs.toFatFs sector root mark b))

variable {root : List U32} {mark : U32} {b : U8}

theorem addressable_onDevice {dev : BlockDevice} {c : U32} :
    Addressable (onDevice fs dev).toFatFs c ↔ Addressable fs.toFatFs c :=
  ⟨fun h => ⟨h.data, h.first, h.last⟩, fun h => ⟨h.data, h.first, h.last⟩⟩

variable (tree : Tree fs sector slots) (hroot : Chain fs.toFatFs fs.ebr.clusterRootNum root)

include tree

theorem names_one {n : Str} {c : U32} (hc : Holds slots n c) :
    Names fs.toFatFs sector fs.ebr.clusterRootNum [n] c := .step tree.root hc (.here c)

include hroot

theorem root_addressable : ∀ c ∈ root, Addressable fs.toFatFs c := by
  obtain ⟨cs, hchain, hcs, -, -⟩ := tree.root
  obtain rfl := hroot.unique hchain
  exact hcs

theorem trap_root : Directory (trapFs fs sector root mark b).toFatFs
    (trapCard fs.toFatFs sector root mark b) fs.ebr.clusterRootNum slots := by
  obtain ⟨cs, hchain, hcs, hsize, hbytes⟩ := tree.root
  obtain rfl := hroot.unique hchain
  refine ⟨root, hchain, fun c hc => addressable_onDevice.mpr (hcs c hc), hsize, ?_⟩
  rw [← hbytes]
  exact List.flatMap_congr fun c hc => clusterBytes_root hc

theorem trap_directory {n : Str} {c : U32} (hc : Holds slots n c) {cs : List U32}
    (hchain : Chain fs.toFatFs c cs) (hcs : ∀ d ∈ cs, Addressable fs.toFatFs d)
    (hsize : cs.length * fs.clustersize.toNat < 2 ^ 32) :
    Directory (trapFs fs sector root mark b).toFatFs (trapCard fs.toFatFs sector root mark b) c
      (cs.flatMap (clusterSlots fs.toFatFs mark b)) := by
  have hapart := tree.apart [] [n] _ c root cs (.here _) (names_one tree hc)
    (List.cons_ne_nil _ _).symm hroot hchain
  refine ⟨cs, hchain, fun d hd => addressable_onDevice.mpr (hcs d hd), hsize, ?_⟩
  exact chain_blank (root_addressable tree hroot) hcs hapart

theorem trap_names {p : List Str} {c : U32} (h : Names (trapFs fs sector root mark b).toFatFs
      (trapCard fs.toFatFs sector root mark b) fs.ebr.clusterRootNum p c) :
    p = [] ∧ c = fs.ebr.clusterRootNum ∨ ∃ n, p = [n] ∧ Holds slots n c := by
  cases h with
  | here => exact Or.inl ⟨rfl, rfl⟩
  | @step _ d _ _ n ns hdir hholds h =>
      obtain rfl := Directory.unique (trap_root tree hroot) hdir
      cases h with
      | here => exact Or.inr ⟨n, rfl, hholds⟩
      | @step _ _ _ slots' _ _ hdir' hholds' _ =>
          obtain ⟨_, cs, hchain, hcs, hsize, -⟩ :=
            tree.directory [n] d (names_one tree hholds)
          have hblank : Directory (trapFs fs sector root mark b).toFatFs
              (trapCard fs.toFatFs sector root mark b) d (cs.flatMap (clusterSlots fs.toFatFs mark b)) :=
            trap_directory tree hroot hholds hchain hcs hsize
          obtain rfl := Directory.unique hblank hdir'
          obtain ⟨i, s, t, -, -, ht, hattr, -⟩ := hholds'
          have hzero := attr_clusterSlots (List.mem_of_getElem? ht.1)
          rw [hzero] at hattr
          exact absurd hattr (by decide)

theorem trap_tree : Tree (trapFs fs sector root mark b) (trapCard fs.toFatFs sector root mark b) slots := by
  have hback : ∀ {p c}, Names (trapFs fs sector root mark b).toFatFs
      (trapCard fs.toFatFs sector root mark b) fs.ebr.clusterRootNum p c →
      Names fs.toFatFs sector fs.ebr.clusterRootNum p c := by
    intro p c h
    rcases trap_names tree hroot h with ⟨rfl, rfl⟩ | ⟨n, rfl, hc⟩
    · exact .here _
    · exact names_one tree hc
  refine ⟨⟨tree.volume.bytesPerSector, tree.volume.clustersize, fun _ _ _ => rfl⟩, tree.nonempty,
    trap_root tree hroot, tree.entries, fun p c h => ?_, fun p q c d cs ds hp hq hne hcs hds => ?_⟩
  · rcases trap_names tree hroot h with ⟨rfl, rfl⟩ | ⟨n, rfl, hc⟩
    · exact ⟨slots, trap_root tree hroot⟩
    · obtain ⟨_, cs, hchain, hcs, hsize, -⟩ := tree.directory [n] c (names_one tree hc)
      exact ⟨_, trap_directory tree hroot hc hchain hcs hsize⟩
  · exact tree.apart p q c d cs ds (hback hp) (hback hq) hne hcs hds

end Tree

end MetalNes.TrapCard
