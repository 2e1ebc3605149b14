import MetalNes.Fat32
import MetalNes.LinkedPath

namespace MetalNes.ClusterChains

open Loop LinkedPath Fat32

/-- What the table says about a cluster. Only the low 28 bits of an entry count. -/
def nextCluster (fs : FatFs) (c : U32) : Link U32 :=
  match fs.fattlb[c.toNat]? with
  | none => .missing
  | some entry =>
    if entry &&& 0x0FFFFFFF ≥ 0x0FFFFFF8 then .last else .next (entry &&& 0x0FFFFFFF)

/-- The clusters of a chain, each of them in the table, up to the end mark. -/
abbrev Chain (fs : FatFs) : U32 → List U32 → Prop := Path (nextCluster fs)

variable {fs : FatFs}

theorem masked_lt (entry : U32) : (entry &&& 0x0FFFFFFF).toNat < 2 ^ 28 := by
  have hm : (0x0FFFFFFF : U32).toNat = 2 ^ 28 - 1 := rfl
  rw [BitVec.toNat_and, hm, Nat.and_two_pow_sub_one_eq_mod]
  omega

theorem nextCluster_lt {c d : U32} (h : nextCluster fs c = .next d) : d.toNat < 2 ^ 28 := by
  unfold nextCluster at h
  split at h
  · cases h
  · split at h
    · cases h
    · cases h
      exact masked_lt _

theorem Chain.length_le {c : U32} {cs : List U32} (h : Chain fs c cs) : cs.length ≤ 2 ^ 28 + 1 :=
  Path.length_le h (fun _ _ => BitVec.eq_of_toNat_eq) fun _ _ => nextCluster_lt

theorem nextCluster_last {c : U32} (h : nextCluster fs c = .last) :
    ∃ entry, fs.fattlb[c.toNat]? = some entry ∧ entry &&& 0x0FFFFFFF ≥ 0x0FFFFFF8 := by
  unfold nextCluster at h
  split at h
  · cases h
  · next entry he =>
      split at h
      · next hend => exact ⟨entry, he, hend⟩
      · cases h

theorem nextCluster_next {c d : U32} (h : nextCluster fs c = .next d) :
    ∃ entry, fs.fattlb[c.toNat]? = some entry ∧ ¬ entry &&& 0x0FFFFFFF ≥ 0x0FFFFFF8 ∧
      entry &&& 0x0FFFFFFF = d := by
  unfold nextCluster at h
  split at h
  · cases h
  · next entry he =>
      split at h
      · cases h
      · next hmid =>
          cases h
          exact ⟨entry, he, hmid, rfl⟩

section Count

theorem countBody_last {c count : U32} (h : nextCluster fs c = .last) :
    countBody fs (count, c) = .done (.ok count) := by
  obtain ⟨entry, he, hend⟩ := nextCluster_last h
  simp only [countBody, he]
  exact if_pos hend

theorem countBody_next {c d count : U32} (h : nextCluster fs c = .next d) :
    countBody fs (count, c) = .next (count + 1, d) := by
  obtain ⟨entry, he, hmid, rfl⟩ := nextCluster_next h
  simp only [countBody, he]
  exact if_neg hmid

theorem run_countBody {c : U32} {cs : List U32} (h : Chain fs c cs) (count : U32) :
    run (countBody fs) cs.length (count, c) = some (.ok (count + BitVec.ofNat 32 cs.length - 1)) := by
  induction h generalizing count with
  | last h =>
      have hone : count + BitVec.ofNat 32 1 - 1 = count := add_sub_cancel_right count 1
      exact (run_done (countBody_last h) 0).trans (by rw [List.length_singleton, hone])
  | next h _ ih =>
      rw [List.length_cons, run_next (countBody_next h), ih (count + 1), BitVec.ofNat_add,
        add_assoc, add_comm (BitVec.ofNat 32 _)]
      rfl

theorem fatGetclustercount_eq {c : U32} {cs : List U32} (h : Chain fs c cs) {fuel : Nat}
    (hfuel : cs.length ≤ fuel) :
    fatGetclustercount fuel c fs = some (.ok (BitVec.ofNat 32 cs.length)) := by
  have hone : 1 + BitVec.ofNat 32 cs.length - 1 = BitVec.ofNat 32 cs.length :=
    add_sub_cancel_left 1 _
  have hrun := run_mono hfuel (run_countBody h 1)
  rwa [hone] at hrun

end Count

section Data

def sectorBytes (sector : Nat → Vector U8 512) (lba n : Nat) : List U8 :=
  (List.range n).flatMap fun i => (sector (lba + i)).toList

/-- A device that reads what is asked for, and returns the number of bytes. -/
def ReadsBlocks (dev : BlockDevice) (sector : Nat → Vector U8 512) : Prop :=
  ∀ lba n : U32, lba.toNat + n.toNat ≤ 2 ^ 32 →
    dev.readblocks lba n = (sectorBytes sector lba.toNat n.toNat, n * 512)

def sectors (fs : FatFs) : Nat := fs.bpb.sectorsPerCluster.toNat

def clusterLba (fs : FatFs) (c : U32) : Nat := fs.firstdatalba.toNat + sectors fs * (c.toNat - 2)

def clusterBytes (fs : FatFs) (sector : Nat → Vector U8 512) (c : U32) : List U8 :=
  sectorBytes sector (clusterLba fs c) (sectors fs)

/-- A data cluster whose sector numbers do not leave 32 bits. -/
structure Addressable (fs : FatFs) (c : U32) : Prop where
  data : 2 ≤ c.toNat
  first : clusterLba fs c < 2 ^ 32
  last : clusterLba fs c + sectors fs ≤ 2 ^ 32

/-- A volume with sectors of 512 bytes, as init_fatfs sets it up, on a device. -/
structure Volume (fs : FatFs) (sector : Nat → Vector U8 512) : Prop where
  bytesPerSector : fs.bpb.bytesPerSector = 512
  clustersize : fs.clustersize = clustersizeOf fs.bpb
  device : ReadsBlocks fs.dev sector

variable {sector : Nat → Vector U8 512}

theorem length_sectorBytes (lba n : Nat) : (sectorBytes sector lba n).length = n * 512 := by
  simp [sectorBytes, List.length_flatMap]

theorem toNat_sectors (fs : FatFs) : (fs.bpb.sectorsPerCluster.setWidth 32).toNat = sectors fs := by
  have h := fs.bpb.sectorsPerCluster.isLt
  rw [BitVec.toNat_setWidth, sectors]
  omega

theorem toNat_clustersizeOf (h : fs.bpb.bytesPerSector = 512) :
    (clustersizeOf fs.bpb).toNat = sectors fs * 512 := by
  have hlt := fs.bpb.sectorsPerCluster.isLt
  have h512 : ((512 : U16).setWidth 32).toNat = 512 := rfl
  rw [clustersizeOf, h, BitVec.toNat_mul, h512, toNat_sectors, sectors]
  omega

theorem Volume.toNat_clustersize (hv : Volume fs sector) :
    fs.clustersize.toNat = sectors fs * 512 := by
  rw [hv.clustersize, toNat_clustersizeOf hv.bytesPerSector]

theorem Volume.length_clusterBytes (hv : Volume fs sector) (c : U32) :
    (clusterBytes fs sector c).length = fs.clustersize.toNat := by
  rw [clusterBytes, length_sectorBytes, hv.toNat_clustersize]

theorem Volume.length_chain (hv : Volume fs sector) (cs : List U32) :
    (cs.flatMap (clusterBytes fs sector)).length = cs.length * fs.clustersize.toNat := by
  induction cs with
  | nil => exact (Nat.zero_mul _).symm
  | cons c cs ih =>
      rw [List.flatMap_cons, List.length_append, ih, hv.length_clusterBytes, List.length_cons,
        Nat.succ_mul, Nat.add_comm]

theorem Addressable.toNat_lba {c : U32} (hc : Addressable fs c) :
    (fatClustertolba fs c).toNat = clusterLba fs c := by
  obtain ⟨htwo, hlt, -⟩ := hc
  have hsub : (c - 2).toNat = c.toNat - 2 := BitVec.toNat_sub_of_le (BitVec.le_def.mpr htwo)
  rw [clusterLba] at hlt ⊢
  rw [fatClustertolba, BitVec.toNat_add, BitVec.toNat_mul, toNat_sectors, hsub,
    Nat.mod_eq_of_lt (by omega : sectors fs * (c.toNat - 2) < 2 ^ 32), Nat.mod_eq_of_lt hlt]

theorem Volume.readcount (hv : Volume fs sector) :
    fs.bpb.sectorsPerCluster.setWidth 32 * 512 = fs.clustersize := by
  rw [hv.clustersize, clustersizeOf, hv.bytesPerSector, mul_comm]
  rfl

theorem Volume.read (hv : Volume fs sector) {c : U32} (hc : Addressable fs c) :
    fs.dev.readblocks (fatClustertolba fs c) (fs.bpb.sectorsPerCluster.setWidth 32) =
      (clusterBytes fs sector c, fs.clustersize) := by
  have hn := toNat_sectors fs
  have hlba := hc.toNat_lba
  rw [hv.device _ _ (by rw [hlba, hn]; exact hc.last), hlba, hn, hv.readcount]
  rfl

def stored (data : List U8) (ptr : Nat) (bytes : List U8) : List U8 :=
  data.take ptr ++ bytes ++ data.drop (ptr + bytes.length)

theorem length_stored {data bytes : List U8} {ptr : Nat} (h : ptr + bytes.length ≤ data.length) :
    (stored data ptr bytes).length = data.length := by
  simp only [stored, List.length_append, List.length_take, List.length_drop]
  omega

theorem length_storeAt {data bytes data' : List U8} {ptr : Nat} (h : storeAt data ptr bytes = some data') :
    ptr + bytes.length ≤ data.length ∧ data'.length = data.length := by
  unfold storeAt at h
  split at h
  · next hle =>
      cases h
      exact ⟨hle, length_stored hle⟩
  · cases h

theorem take_stored {data bytes : List U8} {ptr : Nat} (h : ptr + bytes.length ≤ data.length) :
    (stored data ptr bytes).take (ptr + bytes.length) = data.take ptr ++ bytes := by
  have hlen : ptr + bytes.length = (data.take ptr ++ bytes).length := by
    rw [List.length_append, List.length_take, Nat.min_eq_left (by omega)]
  rw [stored, hlen, List.take_left]

theorem readBody_next {v : Reading} {bytes : List U8} {ret : U32} {d : U32}
    (hread : fs.dev.readblocks (fatClustertolba fs v.clusternum) (fs.bpb.sectorsPerCluster.setWidth 32) =
      (bytes, ret)) (hroom : v.bufptr + bytes.length ≤ v.data.length) (hcount : v.clustercount - 1 ≠ 0)
    (hnext : nextCluster fs v.clusternum = .next d) :
    readBody fs v = .next ⟨stored v.data v.bufptr bytes, v.bufptr + fs.clustersize.toNat, d,
      v.clustercount - 1, v.readcount + ret⟩ := by
  obtain ⟨entry, he, -, rfl⟩ := nextCluster_next hnext
  have hstore : storeAt v.data v.bufptr bytes = some (stored v.data v.bufptr bytes) := if_pos hroom
  simp only [readBody, hread, hstore, he]
  exact if_pos hcount

variable (hv : Volume fs sector) {v : Reading} (hc : Addressable fs v.clusternum)
  (hroom : v.bufptr + fs.clustersize.toNat ≤ v.data.length)

include hv hroom in
theorem Volume.storeAt_eq : storeAt v.data v.bufptr (clusterBytes fs sector v.clusternum) =
    some (stored v.data v.bufptr (clusterBytes fs sector v.clusternum)) := by
  rw [storeAt, if_pos (by rw [hv.length_clusterBytes]; exact hroom), stored]

include hv hc hroom

theorem Volume.readBody_done (hcount : v.clustercount - 1 = 0) :
    readBody fs v = .done (.ok (stored v.data v.bufptr (clusterBytes fs sector v.clusternum),
      v.readcount + fs.clustersize)) := by
  simp only [readBody, hv.read hc, hv.storeAt_eq hroom]
  exact if_neg (not_not_intro hcount)

theorem Volume.readBody_next (hcount : v.clustercount - 1 ≠ 0) {d : U32}
    (hnext : nextCluster fs v.clusternum = .next d) :
    readBody fs v = .next ⟨stored v.data v.bufptr (clusterBytes fs sector v.clusternum),
      v.bufptr + fs.clustersize.toNat, d, v.clustercount - 1, v.readcount + fs.clustersize⟩ :=
  ClusterChains.readBody_next (hv.read hc) (by rw [hv.length_clusterBytes]; exact hroom) hcount hnext

omit hv hc hroom

theorem Volume.readBody_full (hv : Volume fs sector) {v : Reading} (hc : Addressable fs v.clusternum)
    (hfull : ¬ v.bufptr + fs.clustersize.toNat ≤ v.data.length) :
    readBody fs v = .done (.error .outOfBounds) := by
  have hstore : storeAt v.data v.bufptr (clusterBytes fs sector v.clusternum) = none :=
    if_neg (by rw [hv.length_clusterBytes]; exact hfull)
  simp only [readBody, hv.read hc, hstore]

theorem count_pred {xs : List U32} {d : U32} (hne : ∃ ys, xs = d :: ys)
    (hlt : xs.length + 1 < 2 ^ 32) :
    BitVec.ofNat 32 (xs.length + 1) - 1 ≠ 0 ∧
      BitVec.ofNat 32 (xs.length + 1) - 1 = BitVec.ofNat 32 xs.length := by
  have hminus : BitVec.ofNat 32 (xs.length + 1) - 1 = BitVec.ofNat 32 xs.length := by
    rw [BitVec.ofNat_add]
    exact add_sub_cancel_right _ 1
  obtain ⟨ys, rfl⟩ := hne
  refine ⟨?_, hminus⟩
  rw [hminus]
  intro hzero
  have hnat := congrArg BitVec.toNat hzero
  simp only [BitVec.toNat_ofNat, BitVec.ofNat_eq_ofNat, List.length_cons] at hnat hlt
  omega

theorem Volume.run_readBody (hv : Volume fs sector) {c : U32} {cs : List U32} (h : Chain fs c cs)
    (hcs : ∀ d ∈ cs, Addressable fs d) (hlt : cs.length < 2 ^ 32) {data : List U8} {bufptr : Nat}
    (hlen : data.length = bufptr + cs.length * fs.clustersize.toNat) (readcount : U32) :
    run (readBody fs) cs.length ⟨data, bufptr, c, BitVec.ofNat 32 cs.length, readcount⟩ =
      some (.ok (data.take bufptr ++ cs.flatMap (clusterBytes fs sector),
        readcount + BitVec.ofNat 32 (cs.length * fs.clustersize.toNat))) := by
  induction h generalizing data bufptr readcount with
  | @last c h =>
      have hbytes := hv.length_clusterBytes c
      rw [List.length_singleton, Nat.one_mul] at hlen
      have hcount : BitVec.ofNat 32 1 - 1 = 0 := by decide
      have hpass := hv.readBody_done (v := ⟨data, bufptr, c, BitVec.ofNat 32 1, readcount⟩)
        (hcs c (List.mem_singleton_self c)) hlen.ge hcount
      have hstored : stored data bufptr (clusterBytes fs sector c) =
          data.take bufptr ++ clusterBytes fs sector c := by
        rw [stored, hbytes, List.drop_of_length_le hlen.le, List.append_nil]
      refine (run_done hpass 0).trans ?_
      rw [hstored, List.length_singleton, Nat.one_mul, BitVec.ofNat_toNat, BitVec.setWidth_eq,
        List.flatMap_singleton]
  | @next c d xs h hp ih =>
      have hbytes := hv.length_clusterBytes c
      rw [List.length_cons] at hlt hlen
      rw [Nat.succ_mul] at hlen
      have hfits : bufptr + (clusterBytes fs sector c).length ≤ data.length := by omega
      obtain ⟨hcount, hminus⟩ := count_pred hp.exists_cons hlt
      have hpass := hv.readBody_next
        (v := ⟨data, bufptr, c, BitVec.ofNat 32 (xs.length + 1), readcount⟩)
        (hcs c List.mem_cons_self) (by rw [← hbytes]; exact hfits) hcount h
      have hroom : (stored data bufptr (clusterBytes fs sector c)).length =
          bufptr + fs.clustersize.toNat + xs.length * fs.clustersize.toNat := by
        rw [length_stored hfits]
        omega
      have hrest := ih (fun e he => hcs e (List.mem_cons_of_mem c he)) (by omega) hroom
        (readcount + fs.clustersize)
      have hsum : fs.clustersize + BitVec.ofNat 32 (xs.length * fs.clustersize.toNat) =
          BitVec.ofNat 32 ((xs.length + 1) * fs.clustersize.toNat) := by
        rw [Nat.succ_mul, BitVec.ofNat_add, add_comm, BitVec.ofNat_toNat, BitVec.setWidth_eq]
      rw [List.length_cons, run_next hpass, hminus, hrest, ← hbytes, take_stored hfits, hbytes,
        List.append_assoc, add_assoc, hsum, List.flatMap_cons]

theorem Volume.room_of_run (hv : Volume fs sector) {c : U32} {cs : List U32} (h : Chain fs c cs)
    (hcs : ∀ d ∈ cs, Addressable fs d) (hlt : cs.length < 2 ^ 32) {data : List U8} {bufptr fuel : Nat}
    {readcount : U32} {r : List U8 × U32}
    (hrun : run (readBody fs) fuel ⟨data, bufptr, c, BitVec.ofNat 32 cs.length, readcount⟩ =
      some (.ok r)) :
    bufptr + cs.length * fs.clustersize.toNat ≤ data.length := by
  have hfirst : ∀ {fuel : Nat} {v : Reading}, Addressable fs v.clusternum →
      run (readBody fs) fuel v = some (.ok r) → v.bufptr + fs.clustersize.toNat ≤ v.data.length := by
    intro fuel v hc hrun
    by_contra hroom
    cases fuel with
    | zero => cases hrun
    | succ fuel =>
        rw [run_done (hv.readBody_full hc hroom)] at hrun
        cases hrun
  induction h generalizing data bufptr fuel readcount with
  | @last c h =>
      rw [List.length_singleton, Nat.one_mul]
      exact hfirst (hcs c (List.mem_singleton_self c)) hrun
  | @next c d xs h hp ih =>
      rw [List.length_cons] at hrun hlt ⊢
      have hc := hcs c List.mem_cons_self
      have hroom : bufptr + fs.clustersize.toNat ≤ data.length := hfirst hc hrun
      have hbytes := hv.length_clusterBytes c
      obtain ⟨hcount, hminus⟩ := count_pred hp.exists_cons hlt
      cases fuel with
      | zero => cases hrun
      | succ fuel =>
          rw [run_next (hv.readBody_next hc hroom hcount h), hminus] at hrun
          have hrest : bufptr + fs.clustersize.toNat + xs.length * fs.clustersize.toNat ≤
              (stored data bufptr (clusterBytes fs sector c)).length :=
            ih (fun e he => hcs e (List.mem_cons_of_mem c he)) (Nat.lt_of_succ_lt hlt) hrun
          rw [length_stored (by rw [hbytes]; exact hroom)] at hrest
          rw [Nat.succ_mul]
          omega

end Data

variable {sector : Nat → Vector U8 512}

theorem malloc_size (clustersize : U32) (k : Nat) :
    clustersize * BitVec.ofNat 32 k = BitVec.ofNat 32 (k * clustersize.toNat) := by
  apply BitVec.eq_of_toNat_eq
  rw [BitVec.toNat_mul, BitVec.toNat_ofNat, BitVec.toNat_ofNat, Nat.mul_mod_mod, Nat.mul_comm]

section Getdata

variable {c : U32} {cs : List U32} {malloc : U32 → Option (List U8)} {fuel : Nat}

theorem Volume.fatGetdata_eq (hv : Volume fs sector) (h : Chain fs c cs)
    (hcs : ∀ d ∈ cs, Addressable fs d) {data : List U8}
    (hm : malloc (BitVec.ofNat 32 (cs.length * fs.clustersize.toNat)) = some data)
    (hlen : data.length = cs.length * fs.clustersize.toNat) (hfuel : cs.length ≤ fuel) :
    fatGetdata fuel malloc c fs = some (.ok (cs.flatMap (clusterBytes fs sector),
      BitVec.ofNat 32 (cs.length * fs.clustersize.toNat))) := by
  have hk := h.length_le
  have hrun := hv.run_readBody h hcs (by omega) (hlen.trans (Nat.zero_add _).symm) 0
  rw [List.take_zero, List.nil_append, zero_add] at hrun
  simp only [fatGetdata, fatGetclustercount_eq h hfuel, malloc_size, hm]
  exact run_mono hfuel hrun

/-- Data that has been read is the data of the chain, which then fits in the memory. -/
theorem Volume.fatGetdata_inv (hv : Volume fs sector) (h : Chain fs c cs)
    (hcs : ∀ d ∈ cs, Addressable fs d) (hm : ∀ n data, malloc n = some data → data.length = n.toNat)
    {data : List U8} {size : U32} (hget : fatGetdata fuel malloc c fs = some (.ok (data, size))) :
    data = cs.flatMap (clusterBytes fs sector) ∧ size.toNat = cs.length * fs.clustersize.toNat := by
  have hk := h.length_le
  have hlt : cs.length < 2 ^ 32 := by omega
  unfold fatGetdata at hget
  split at hget
  · cases hget
  · cases hget
  · next clustercount hcount =>
      have hreturns : Returns (countBody fs) (1, c) (.ok clustercount) := ⟨fuel, hcount⟩
      have hchain : Returns (countBody fs) (1, c) (.ok (BitVec.ofNat 32 cs.length)) :=
        ⟨cs.length, fatGetclustercount_eq h le_rfl⟩
      obtain rfl : clustercount = BitVec.ofNat 32 cs.length :=
        Except.ok.inj (hreturns.unique hchain)
      rw [malloc_size] at hget
      split at hget
      · cases hget
      · next block hblock =>
          have hroom := hv.room_of_run h hcs hlt hget
          have hlen := hm _ _ hblock
          rw [BitVec.toNat_ofNat] at hlen
          have hle := Nat.mod_le (cs.length * fs.clustersize.toNat) (2 ^ 32)
          have hexact : block.length = 0 + cs.length * fs.clustersize.toNat := by omega
          have hrun := hv.run_readBody h hcs hlt hexact 0
          rw [List.take_zero, List.nil_append, zero_add] at hrun
          have hsame := Returns.unique ⟨fuel, hget⟩ ⟨cs.length, hrun⟩
          obtain ⟨rfl, rfl⟩ := Prod.mk.inj (Except.ok.inj hsame)
          refine ⟨rfl, ?_⟩
          rw [BitVec.toNat_ofNat]
          omega

end Getdata

section Head

theorem readBody_cases (fs : FatFs) (v : Reading) {bytes : List U8} {ret : U32}
    (hread : fs.dev.readblocks (fatClustertolba fs v.clusternum) (fs.bpb.sectorsPerCluster.setWidth 32) =
      (bytes, ret)) :
    (∃ e, readBody fs v = .done (.error e)) ∨ ∃ data, storeAt v.data v.bufptr bytes = some data ∧
      (readBody fs v = .done (.ok (data, v.readcount + ret)) ∨
        ∃ c, readBody fs v =
          .next ⟨data, v.bufptr + fs.clustersize.toNat, c, v.clustercount - 1, v.readcount + ret⟩) := by
  unfold readBody
  simp only [hread]
  split
  · exact Or.inl ⟨_, rfl⟩
  · next data hstore =>
      split
      · split
        · exact Or.inl ⟨_, rfl⟩
        · exact Or.inr ⟨data, hstore, Or.inr ⟨_, rfl⟩⟩
      · exact Or.inr ⟨data, hstore, Or.inl rfl⟩

theorem storeAt_behind {data bytes data' : List U8} {ptr : Nat} (hptr : 0 < ptr)
    (h : storeAt data ptr bytes = some data') : data'[0]? = data[0]? := by
  unfold storeAt at h
  split at h
  · next hle =>
      cases h
      have hfirst : 0 < (data.take ptr).length := by
        rw [List.length_take]
        omega
      rw [List.append_assoc, List.getElem?_append_left hfirst, List.getElem?_take_of_lt hptr]
  · cases h

theorem run_readBody_head {fuel : Nat} {v : Reading} {r : List U8 × U32} (hptr : 0 < v.bufptr)
    (h : run (readBody fs) fuel v = some (.ok r)) : r.1[0]? = v.data[0]? := by
  induction fuel generalizing v with
  | zero => cases h
  | succ fuel ih =>
      rcases readBody_cases fs v rfl with ⟨e, hbody⟩ | ⟨data, hstore, hbody | ⟨c, hbody⟩⟩
      · rw [run_done hbody] at h
        cases h
      · rw [run_done hbody] at h
        cases h
        exact storeAt_behind hptr hstore
      · rw [run_next hbody] at h
        rw [ih (Nat.lt_add_right _ hptr) h, storeAt_behind hptr hstore]

theorem clusterBytes_head (hpos : 0 < sectors fs) (c : U32) :
    (clusterBytes fs sector c)[0]? = some (sector (clusterLba fs c))[0] := by
  obtain ⟨n, hn⟩ := Nat.exists_eq_succ_of_ne_zero hpos.ne'
  rw [clusterBytes, sectorBytes, hn, List.range_succ_eq_map, List.flatMap_cons,
    List.getElem?_append_left (by rw [Vector.length_toList]; decide), Nat.add_zero,
    List.getElem?_eq_getElem (by rw [Vector.length_toList]; decide), Vector.getElem_toList]

theorem chain_head (hv : Volume fs sector) (hpos : 0 < sectors fs) {c : U32} {cs : List U32}
    (h : Chain fs c cs) :
    (cs.flatMap (clusterBytes fs sector))[0]? = some (sector (clusterLba fs c))[0] := by
  obtain ⟨ds, rfl⟩ := h.exists_cons
  have hlen : 0 < (clusterBytes fs sector c).length := by
    rw [hv.length_clusterBytes, hv.toNat_clustersize]
    exact Nat.mul_pos hpos (by decide)
  rw [List.flatMap_cons, List.getElem?_append_left hlen, clusterBytes_head hpos]

theorem fatGetdata_head (hv : Volume fs sector) (hpos : 0 < sectors fs) {c : U32}
    (hc : Addressable fs c) {fuel : Nat} {malloc : U32 → Option (List U8)} {data : List U8} {size : U32}
    (hget : fatGetdata fuel malloc c fs = some (.ok (data, size))) :
    data[0]? = some (sector (clusterLba fs c))[0] := by
  unfold fatGetdata at hget
  split at hget
  · cases hget
  · cases hget
  · next count _ =>
      split at hget
      · cases hget
      · next block _ =>
          have hfirst : ∀ {stored : List U8}, storeAt block 0 (clusterBytes fs sector c) = some stored →
              stored[0]? = some (sector (clusterLba fs c))[0] := by
            intro stored hstore
            unfold storeAt at hstore
            split at hstore
            · cases hstore
              have hbytes : 0 < (clusterBytes fs sector c).length := by
                rw [hv.length_clusterBytes, hv.toNat_clustersize]
                omega
              rw [List.take_zero, List.nil_append, List.getElem?_append_left hbytes,
                clusterBytes_head hpos]
            · cases hstore
          cases fuel with
          | zero => cases hget
          | succ fuel =>
              rcases readBody_cases fs ⟨block, 0, c, count, 0⟩ (hv.read hc) with
                ⟨e, hbody⟩ | ⟨stored, hstore, hbody | ⟨d, hbody⟩⟩
              · rw [run_done hbody] at hget
                cases hget
              · rw [run_done hbody] at hget
                cases hget
                exact hfirst hstore
              · rw [run_next hbody] at hget
                have hptr : 0 < 0 + fs.clustersize.toNat := by
                  rw [hv.toNat_clustersize]
                  omega
                exact (run_readBody_head hptr hget).trans (hfirst hstore)

end Head

structure ReadsBack (fs : FatFs) (sector : Nat → Vector U8 512) (malloc : U32 → Option (List U8))
    (c : U32) (cs : List U32) : Prop where
  count : ∃ k : U32, k.toInt = cs.length ∧
    ∀ fuel ≥ cs.length, fatGetclustercount fuel c fs = some (.ok k)
  data : ∃ sizeout : U32, sizeout.toNat = cs.length * fs.clustersize.toNat ∧
    ∀ fuel ≥ cs.length, fatGetdata fuel malloc c fs =
      some (.ok (cs.flatMap (clusterBytes fs sector), sizeout))

/-- For every table, every chain in it that ends, and every setting of the top
bits of its entries. -/
theorem chain_readsBack (fs : FatFs) (sector : Nat → Vector U8 512) (hv : Volume fs sector)
    (c : U32) (cs : List U32) (h : Chain fs c cs) (hcs : ∀ d ∈ cs, Addressable fs d)
    (hsize : cs.length * fs.clustersize.toNat < 2 ^ 32) (malloc : U32 → Option (List U8))
    (data : List U8) (hm : malloc (BitVec.ofNat 32 (cs.length * fs.clustersize.toNat)) = some data)
    (hlen : data.length = cs.length * fs.clustersize.toNat) :
    ReadsBack fs sector malloc c cs := by
  have hk := h.length_le
  have hcount : ∀ fuel ≥ cs.length,
      fatGetclustercount fuel c fs = some (.ok (BitVec.ofNat 32 cs.length)) :=
    fun fuel hfuel => fatGetclustercount_eq h hfuel
  refine ⟨⟨_, ?_, hcount⟩, BitVec.ofNat 32 (cs.length * fs.clustersize.toNat), ?_, ?_⟩
  · rw [BitVec.toInt_eq_toNat_of_lt, BitVec.toNat_ofNat, Nat.mod_eq_of_lt (by omega)]
    rw [BitVec.toNat_ofNat]
    omega
  · rw [BitVec.toNat_ofNat, Nat.mod_eq_of_lt hsize]
  · exact fun fuel hfuel => hv.fatGetdata_eq h hcs hm hlen hfuel

def numbered (n : Nat) : Vector U8 512 := Vector.replicate 512 (BitVec.ofNat 8 n)

/-- A file of two clusters; the first entry has all its reserved bits set. -/
def twoClusters : FatFs where
  fattlb := [0, 0, 0xF0000003, 0x0FFFFFFF]
  dev := ⟨fun lba n => (sectorBytes numbered lba.toNat n.toNat, n * 512)⟩
  bpb := ⟨512, 2⟩
  firstdatalba := 100
  clustersize := 1024

theorem twoClusters_readsBack :
    ReadsBack twoClusters numbered (fun n => some (List.replicate n.toNat 0)) 2 [2, 3] :=
  chain_readsBack twoClusters numbered ⟨rfl, by decide, fun _ _ _ => rfl⟩ 2 [2, 3]
    (.next rfl (.last rfl))
    (fun d hd => by
      obtain rfl | rfl := List.mem_pair.mp hd
      all_goals exact ⟨by decide, by decide, by decide⟩)
    (by decide) _ (List.replicate 2048 0) rfl (List.length_replicate)

end MetalNes.ClusterChains
