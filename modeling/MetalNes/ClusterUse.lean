import MetalNes.DirectoryTree
import MetalNes.FileReads
import MetalNes.TableWalks

namespace MetalNes.ClusterUse

open Loop LinkedPath Fat32 ClusterChains DirectorySlots DirectoryTree TableWalks

section Volumes

variable (fs : FatFs)

/-- A data cluster that the table does not mark as free. -/
def InUse (c : U32) : Prop := 2 ≤ c.toNat ∧ nextCluster fs c ≠ .next 0

/-- A volume as the format prescribes it: the first two entries of the table, which stand
for no cluster, are end marks (the media byte of a card is 0xF8), and a cluster in use is
the last of its chain or goes on to one in use. -/
structure WellFormed : Prop where
  bytesPerSector : fs.bpb.bytesPerSector = 512
  clustersize : fs.clustersize = clustersizeOf fs.bpb
  nonempty : 0 < sectors fs
  device : ReadsAtMost fs (sectors fs * 512)
  reserved : nextCluster fs 0 = .last ∧ nextCluster fs 1 = .last
  links : ∀ c d, 2 ≤ c.toNat → nextCluster fs c = .next d → d = 0 ∨ InUse fs d
  addressable : ∀ c : U32, 2 ≤ c.toNat → c.toNat < fs.fattlb.length → Addressable fs c

structure IsData (c : U32) : Prop where
  number : 2 ≤ c.toNat
  lba : fs.firstdatalba.toNat ≤ (fatClustertolba fs c).toNat

/-- The clusters that fat_getdata passes to fat_clustertolba: one in every pass. -/
def Passes (malloc : U32 → Option (List U8)) (c d : U32) : Prop :=
  ∃ count data v, Returns (countBody fs) (1, c) (.ok count) ∧ malloc (fs.clustersize * count) = some data ∧
    Visits (readBody fs) ⟨data, 0, c, count, 0⟩ v ∧ v.clusternum = d

end Volumes

section Reads

variable {fs : FatFs} {malloc : U32 → Option (List U8)} {c d : U32}

def Granted (malloc : U32 → Option (List U8)) : Prop := ∀ n, ∃ data, malloc n = some data ∧ data.length = n.toNat

theorem granted_cleared : Granted FileReads.cleared := fun _ => ⟨_, rfl, List.length_replicate⟩

theorem chain_inUse (hfs : WellFormed fs) {cs : List U32} (h : Chain fs c cs) (hc : InUse fs c) :
    ∀ d ∈ cs, InUse fs d := by
  refine Path.invariant (fun c d huse hnext => ?_) h hc
  rcases hfs.links c d huse.1 hnext with rfl | hd
  · exact absurd hnext huse.2
  · exact hd

theorem Passes.inUse (hfs : WellFormed fs) (hc : InUse fs c) (h : Passes fs malloc c d) :
    InUse fs d ∧ ∃ ds, Chain fs d ds := by
  obtain ⟨count, data, v, hcount, -, hvisits, rfl⟩ := h
  obtain ⟨cs, hchain⟩ := chain_of_count hcount
  have hall := chain_inUse hfs hchain hc
  have hinv : ∃ ds, OnChain fs v ds ∧ ∀ d ∈ ds, InUse fs d := by
    refine hvisits.invariant (P := fun v => ∃ ds, OnChain fs v ds ∧ ∀ d ∈ ds, InUse fs d) ?_
      ⟨cs, onChain_start hchain hcount data, hall⟩
    rintro u t ⟨ds, hds, huse⟩ hnext
    rcases hds.pass with ⟨e, hdone⟩ | ⟨-, r, hdone⟩ | ⟨w, es, hpass, rfl, hes⟩
    · cases hdone.symm.trans hnext
    · cases hdone.symm.trans hnext
    · cases hpass.symm.trans hnext
      exact ⟨es, hes, fun d hd => huse d (List.mem_cons_of_mem _ hd)⟩
  obtain ⟨ds, ⟨hds, -⟩, huse⟩ := hinv
  obtain ⟨es, rfl⟩ := hds.exists_cons
  exact ⟨huse _ List.mem_cons_self, _, hds⟩

theorem isData_of_inUse (hfs : WellFormed fs) (hd : InUse fs d) {ds : List U32} (h : Chain fs d ds) :
    IsData fs d := by
  have haddr := hfs.addressable d hd.1 (index_of_chain h)
  refine ⟨hd.1, ?_⟩
  rw [haddr.toNat_lba, clusterLba]
  exact Nat.le_add_right _ _

theorem passes_self (hm : Granted malloc) {cs : List U32} (h : Chain fs c cs) : Passes fs malloc c c := by
  obtain ⟨data, hdata, -⟩ := hm (fs.clustersize * BitVec.ofNat 32 cs.length)
  exact ⟨_, data, _, ⟨cs.length, fatGetclustercount_eq h le_rfl⟩, hdata, .here _, rfl⟩

/-- From a free cluster the loop goes on to cluster 0. -/
theorem passes_zero (hfs : WellFormed fs) (hm : Granted malloc) (hfree : nextCluster fs c = .next 0) :
    Passes fs malloc c 0 := by
  have hchain : Chain fs c [c, 0] := .next hfree (.last hfs.reserved.1)
  obtain ⟨data, hdata, hlen⟩ := hm (fs.clustersize * BitVec.ofNat 32 2)
  have hspc := fs.bpb.sectorsPerCluster.isLt
  rw [malloc_size, hfs.clustersize, toNat_clustersizeOf hfs.bytesPerSector, BitVec.toNat_ofNat, sectors] at hlen
  obtain ⟨hbytes, -⟩ := hfs.device (fatClustertolba fs c)
  have hroom : 0 + (fs.dev.readblocks (fatClustertolba fs c) (fs.bpb.sectorsPerCluster.setWidth 32)).1.length ≤
      data.length := by
    rw [hbytes, sectors]
    omega
  have htwo : BitVec.ofNat 32 2 - 1 ≠ 0 := by decide
  have hpass := readBody_next (v := ⟨data, 0, c, BitVec.ofNat 32 2, 0⟩) rfl hroom htwo hfree
  exact ⟨_, data, _, ⟨2, fatGetclustercount_eq hchain le_rfl⟩, hdata, .next hpass (.here _), rfl⟩

/-- Only data clusters are passed on exactly if the first one is in use. -/
theorem passes_isData_iff (hfs : WellFormed fs) (hm : Granted malloc) :
    (∀ d, Passes fs malloc c d → IsData fs d) ↔ InUse fs c := by
  constructor
  · intro h
    have htwo : 2 ≤ c.toNat := by
      by_contra hlt
      have hlast : nextCluster fs c = .last := by
        rcases Nat.le_one_iff_eq_zero_or_eq_one.mp (Nat.le_of_lt_succ (Nat.lt_of_not_le hlt)) with hc | hc
        · rw [BitVec.eq_of_toNat_eq (y := 0) hc]
          exact hfs.reserved.1
        · rw [BitVec.eq_of_toNat_eq (y := 1) hc]
          exact hfs.reserved.2
      exact hlt (h c (passes_self hm (.last hlast))).number
    refine ⟨htwo, fun hfree => ?_⟩
    have hzero := (h 0 (passes_zero hfs hm hfree)).number
    exact absurd hzero (by decide)
  · intro hc d hd
    obtain ⟨huse, ds, hds⟩ := hd.inUse hfs hc
    exact isData_of_inUse hfs huse hds

theorem data_ne_nil (hfs : WellFormed fs) {fuel : Nat} {data : List U8} {size : U32}
    (hget : fatGetdata fuel malloc c fs = some (.ok (data, size))) : data ≠ [] := by
  rintro rfl
  unfold fatGetdata at hget
  split at hget
  · cases hget
  · cases hget
  · next count hcount =>
      split at hget
      · cases hget
      · next block _ =>
          obtain ⟨cs, hchain⟩ := chain_of_count ⟨fuel, hcount⟩
          obtain ⟨hroom, hlen, -⟩ := (onChain_start hchain ⟨fuel, hcount⟩ block).counted hfs.device hget
          have hpos := hfs.nonempty
          rw [List.length_nil] at hlen
          simp only [← hlen] at hroom
          omega

theorem directory_of_read (hfs : WellFormed fs) {sector : Nat → Vector U8 512} (hv : Volume fs sector)
    (hc : InUse fs c) (hm : ∀ n data, malloc n = some data → data.length = n.toNat) {fuel : Nat} {data : List U8}
    {size : U32} (hget : fatGetdata fuel malloc c fs = some (.ok (data, size))) :
    ∃ slots, Directory fs sector c slots ∧ data = bytes slots ∧ size.toNat = slots.length * sizeofDirent := by
  obtain ⟨cs, hchain⟩ := chain_of_getdata hget
  have huse := chain_inUse hfs hchain hc
  have haddr : ∀ d ∈ cs, Addressable fs d := fun d hd => by
    obtain ⟨ds, hds, -⟩ := Path.from_mem hchain hd
    exact hfs.addressable d (huse d hd).1 (index_of_chain hds)
  obtain ⟨rfl, hsize⟩ := hv.fatGetdata_inv hchain haddr hm hget
  have hlen : (cs.flatMap (clusterBytes fs sector)).length = cs.length * sectors fs * 16 * sizeofDirent := by
    rw [hv.length_chain, hv.toNat_clustersize, sizeofDirent, Nat.mul_assoc _ 16 32, Nat.mul_assoc]
  obtain ⟨slots, hslots, hcount⟩ := exists_slots hlen
  refine ⟨slots, ⟨cs, hchain, haddr, hsize ▸ size.isLt, hslots.symm⟩, hslots.symm, ?_⟩
  rw [hsize, ← hv.length_chain, hlen, hcount]

end Reads

end MetalNes.ClusterUse
