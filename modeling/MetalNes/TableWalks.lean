import MetalNes.ClusterChains

namespace MetalNes.TableWalks

open Loop LinkedPath Fat32 ClusterChains

variable {fs : FatFs} {c : U32} {cs : List U32} {n : Nat}

/-- Both loops of a read end, and each index they use is that of an entry of the table,
whatever the device delivers and whichever block the data goes to. -/
structure WalkSafe (fs : FatFs) (c : U32) : Prop where
  countEnds : ∃ count, Returns (countBody fs) (1, c) (.ok count)
  countIndex : ∀ v, Visits (countBody fs) (1, c) v → v.2.toNat < fs.fattlb.length
  dataEnds : ∀ malloc, ∃ fuel r, fatGetdata fuel malloc c fs = some r
  dataIndex : ∀ count data v, Returns (countBody fs) (1, c) (.ok count) →
    Visits (readBody fs) ⟨data, 0, c, count, 0⟩ v → v.clustercount - 1 ≠ 0 →
      v.clusternum.toNat < fs.fattlb.length

section Count

theorem index_of_chain (h : Chain fs c cs) : c.toNat < fs.fattlb.length := by
  have hentry : ∃ entry, fs.fattlb[c.toNat]? = some entry := by
    cases h with
    | last h =>
        obtain ⟨entry, he, -⟩ := nextCluster_last h
        exact ⟨entry, he⟩
    | next h _ =>
        obtain ⟨entry, he, -⟩ := nextCluster_next h
        exact ⟨entry, he⟩
  obtain ⟨entry, he⟩ := hentry
  exact (List.getElem?_eq_some_iff.mp he).1

theorem countBody_cases (fs : FatFs) (count c : U32) :
    (nextCluster fs c = .missing ∧ countBody fs (count, c) = .done (.error .outOfBounds)) ∨
      (nextCluster fs c = .last ∧ countBody fs (count, c) = .done (.ok count)) ∨
      ∃ d, nextCluster fs c = .next d ∧ countBody fs (count, c) = .next (count + 1, d) := by
  cases hlink : nextCluster fs c with
  | missing =>
      refine Or.inl ⟨rfl, ?_⟩
      have hnone : fs.fattlb[c.toNat]? = none := by
        unfold nextCluster at hlink
        split at hlink
        · assumption
        · split at hlink <;> cases hlink
      simp only [countBody, hnone]
  | last => exact Or.inr (Or.inl ⟨rfl, countBody_last hlink⟩)
  | next d => exact Or.inr (Or.inr ⟨d, rfl, countBody_next hlink⟩)

theorem chain_of_count {count k : U32} (h : Returns (countBody fs) (k, c) (.ok count)) :
    ∃ cs, Chain fs c cs := by
  obtain ⟨fuel, hrun⟩ := h
  induction fuel generalizing k c with
  | zero => cases hrun
  | succ fuel ih =>
      rcases countBody_cases fs k c with ⟨-, hbody⟩ | ⟨hlast, -⟩ | ⟨d, hnext, hbody⟩
      · rw [run_done hbody] at hrun
        cases hrun
      · exact ⟨[c], .last hlast⟩
      · rw [run_next hbody] at hrun
        obtain ⟨ds, hds⟩ := ih hrun
        exact ⟨c :: ds, .next hnext hds⟩

theorem visited_chain (h : Chain fs c cs) {k : U32} {v : U32 × U32}
    (hv : Visits (countBody fs) (k, c) v) : ∃ ds, Chain fs v.2 ds := by
  refine hv.invariant (P := fun v => ∃ ds, Chain fs v.2 ds) ?_ ⟨cs, h⟩
  rintro ⟨k, d⟩ w ⟨ds, hds⟩ hnext
  cases hds with
  | last hlast =>
      rw [countBody_last hlast] at hnext
      cases hnext
  | next hlink hrest =>
      rw [countBody_next hlink] at hnext
      cases hnext
      exact ⟨_, hrest⟩

end Count

section Data

/-- The rest of a chain, and as many clusters still to be read. -/
def OnChain (fs : FatFs) (v : Reading) (ds : List U32) : Prop :=
  Chain fs v.clusternum ds ∧ v.clustercount = BitVec.ofNat 32 ds.length

theorem readBody_final {v : Reading} (h : v.clustercount - 1 = 0) : ∃ r, readBody fs v = .done r := by
  unfold readBody
  simp only
  split
  · exact ⟨_, rfl⟩
  · rw [if_neg (not_not_intro h)]
    exact ⟨_, rfl⟩

theorem readBody_link {v : Reading} {d : U32} (hcount : v.clustercount - 1 ≠ 0)
    (h : nextCluster fs v.clusternum = .next d) : readBody fs v = .done (.error .outOfBounds) ∨
      ∃ data readcount, readBody fs v =
        .next ⟨data, v.bufptr + fs.clustersize.toNat, d, v.clustercount - 1, readcount⟩ := by
  obtain ⟨entry, he, -, rfl⟩ := nextCluster_next h
  unfold readBody
  simp only
  split
  · exact Or.inl rfl
  · simp only [if_pos hcount, he]
    exact Or.inr ⟨_, _, rfl⟩

theorem OnChain.pass {v : Reading} {ds : List U32} (h : OnChain fs v ds) :
    (∃ e, readBody fs v = .done (.error e)) ∨ (ds = [v.clusternum] ∧ ∃ r, readBody fs v = .done r) ∨
      ∃ w es, readBody fs v = .next w ∧ ds = v.clusternum :: es ∧ OnChain fs w es := by
  obtain ⟨hchain, hcount⟩ := h
  have hlen := hchain.length_le
  cases hchain with
  | last hlast =>
      have hone : BitVec.ofNat 32 1 - 1 = 0 := by decide
      exact Or.inr (Or.inl ⟨rfl, readBody_final (by rw [hcount, List.length_singleton, hone])⟩)
  | next hlink hrest =>
      rw [List.length_cons] at hlen hcount
      obtain ⟨hne, hminus⟩ := count_pred hrest.exists_cons (by omega)
      rw [← hcount] at hne hminus
      rcases readBody_link hne hlink with hdone | ⟨data, readcount, hnext⟩
      · exact Or.inl ⟨_, hdone⟩
      · exact Or.inr (Or.inr ⟨_, _, hnext, rfl, hrest, hminus⟩)

theorem OnChain.returns {v : Reading} {ds : List U32} (h : OnChain fs v ds) :
    ∃ r, Returns (readBody fs) v r := by
  induction ds generalizing v with
  | nil =>
      obtain ⟨es, hnil⟩ := h.1.exists_cons
      cases hnil
  | cons d ds ih =>
      rcases h.pass with ⟨e, hdone⟩ | ⟨-, r, hdone⟩ | ⟨w, es, hnext, hcons, hw⟩
      · exact ⟨.error e, .of_done hdone⟩
      · exact ⟨r, .of_done hdone⟩
      · obtain ⟨-, rfl⟩ := List.cons.inj hcons
        obtain ⟨r, hr⟩ := ih hw
        exact ⟨r, .of_next hnext hr⟩

theorem OnChain.visits {v w : Reading} {ds : List U32} (h : OnChain fs v ds)
    (hw : Visits (readBody fs) v w) : ∃ es, OnChain fs w es := by
  refine hw.invariant (P := fun w => ∃ es, OnChain fs w es) ?_ ⟨ds, h⟩
  rintro u t ⟨es, hes⟩ hnext
  rcases hes.pass with ⟨e, hdone⟩ | ⟨-, r, hdone⟩ | ⟨t', es', hnext', -, hes'⟩
  · cases hdone.symm.trans hnext
  · cases hdone.symm.trans hnext
  · cases hnext'.symm.trans hnext
    exact ⟨es', hes'⟩

/-- Each cluster takes so many bytes of the buffer, and no more of them are counted. -/
def ReadsAtMost (fs : FatFs) (n : Nat) : Prop :=
  ∀ lba, (fs.dev.readblocks lba (fs.bpb.sectorsPerCluster.setWidth 32)).1.length = n ∧
    (fs.dev.readblocks lba (fs.bpb.sectorsPerCluster.setWidth 32)).2.toNat ≤ n

theorem OnChain.reads {v : Reading} {ds : List U32} (h : OnChain fs v ds) {bytes : List U8} {ret : U32}
    (hread : fs.dev.readblocks (fatClustertolba fs v.clusternum) (fs.bpb.sectorsPerCluster.setWidth 32) =
      (bytes, ret)) :
    (∃ e, readBody fs v = .done (.error e)) ∨ ∃ data, storeAt v.data v.bufptr bytes = some data ∧
      ((ds = [v.clusternum] ∧ readBody fs v = .done (.ok (data, v.readcount + ret))) ∨
        ∃ w es, readBody fs v = .next w ∧ ds = v.clusternum :: es ∧ OnChain fs w es ∧ w.data = data ∧
          w.bufptr = v.bufptr + fs.clustersize.toNat ∧ w.readcount = v.readcount + ret) := by
  rcases readBody_cases fs v hread with herror | ⟨data, hstore, hbody⟩
  · exact Or.inl herror
  · refine Or.inr ⟨data, hstore, ?_⟩
    rcases h.pass with ⟨e, hdone⟩ | ⟨hlast, r, hdone⟩ | ⟨w, es, hnext, hcons, hw⟩
    · rcases hbody with hbody | ⟨c, hbody⟩ <;> cases hdone.symm.trans hbody
    · rcases hbody with hbody | ⟨c, hbody⟩
      · exact Or.inl ⟨hlast, hbody⟩
      · cases hdone.symm.trans hbody
    · rcases hbody with hbody | ⟨c, hbody⟩
      · cases hnext.symm.trans hbody
      · cases hnext.symm.trans hbody
        exact Or.inr ⟨_, es, hbody, hcons, hw, rfl, rfl, rfl⟩

theorem OnChain.counted (hreads : ReadsAtMost fs n) {v : Reading} {ds : List U32} (h : OnChain fs v ds)
    {fuel : Nat} {data : List U8} {readcount : U32}
    (hrun : run (readBody fs) fuel v = some (.ok (data, readcount))) :
    v.bufptr + (ds.length - 1) * fs.clustersize.toNat + n ≤ v.data.length ∧
      data.length = v.data.length ∧ readcount.toNat ≤ v.readcount.toNat + ds.length * n := by
  induction ds generalizing v fuel with
  | nil =>
      obtain ⟨es, hnil⟩ := h.1.exists_cons
      cases hnil
  | cons d ds ih =>
      cases fuel with
      | zero => cases hrun
      | succ fuel =>
          obtain ⟨hbytes, hret⟩ := hreads (fatClustertolba fs v.clusternum)
          cases hread : fs.dev.readblocks (fatClustertolba fs v.clusternum) (fs.bpb.sectorsPerCluster.setWidth 32)
          next bytes ret =>
          simp only [hread] at hbytes hret
          have hsum : (v.readcount + ret).toNat ≤ v.readcount.toNat + ret.toNat := by
            rw [BitVec.toNat_add]
            exact Nat.mod_le _ _
          rcases h.reads hread with ⟨e, hbody⟩ | ⟨stored, hstore, ⟨hlast, hbody⟩ | ⟨w, es, hbody, hcons, hw, hdata,
            hptr, hcount⟩⟩
          · rw [run_done hbody] at hrun
            cases hrun
          · obtain ⟨hroom, hlen⟩ := length_storeAt hstore
            rw [run_done hbody] at hrun
            cases hrun
            rw [hlast, List.length_singleton]
            omega
          · obtain ⟨hroom, hlen⟩ := length_storeAt hstore
            obtain ⟨-, rfl⟩ := List.cons.inj hcons
            rw [run_next hbody] at hrun
            obtain ⟨hrest, hsame, hsize⟩ := ih hw hrun
            obtain ⟨es, rfl⟩ := hw.1.exists_cons
            rw [hdata, hptr, hlen] at hrest
            rw [hdata, hlen] at hsame
            rw [hcount] at hsize
            simp only [List.length_cons, Nat.add_sub_cancel, Nat.succ_mul] at hrest hsize ⊢
            omega

theorem onChain_start (h : Chain fs c cs) {count : U32} (hcount : Returns (countBody fs) (1, c) (.ok count))
    (data : List U8) : OnChain fs ⟨data, 0, c, count, 0⟩ cs := by
  have hlen : Returns (countBody fs) (1, c) (.ok (BitVec.ofNat 32 cs.length)) :=
    ⟨cs.length, fatGetclustercount_eq h le_rfl⟩
  exact ⟨h, Except.ok.inj (hcount.unique hlen)⟩

theorem fatGetdata_ends (h : Chain fs c cs) (malloc : U32 → Option (List U8)) :
    ∃ fuel r, fatGetdata fuel malloc c fs = some r := by
  have hcount : fatGetclustercount cs.length c fs = some (.ok (BitVec.ofNat 32 cs.length)) :=
    fatGetclustercount_eq h le_rfl
  cases hblock : malloc (fs.clustersize * BitVec.ofNat 32 cs.length) with
  | none => exact ⟨cs.length, .error .nullPointer, by simp only [fatGetdata, hcount, hblock]⟩
  | some data =>
      obtain ⟨r, fuel, hrun⟩ := (onChain_start h ⟨cs.length, hcount⟩ data).returns
      refine ⟨max cs.length fuel, r, ?_⟩
      have hcount' := fatGetclustercount_eq h (Nat.le_max_left cs.length fuel)
      simp only [fatGetdata, hcount', hblock]
      exact run_mono (Nat.le_max_right _ _) hrun

theorem chain_of_getdata {fuel : Nat} {malloc : U32 → Option (List U8)} {data : List U8} {readcount : U32}
    (hget : fatGetdata fuel malloc c fs = some (.ok (data, readcount))) : ∃ cs, Chain fs c cs := by
  unfold fatGetdata at hget
  split at hget
  · cases hget
  · cases hget
  · next count hcount => exact chain_of_count ⟨fuel, hcount⟩

/-- What a device that counts no more than it stores leaves of a chain is counted within
the block. -/
theorem fatGetdata_counted (hreads : ReadsAtMost fs n) {malloc : U32 → Option (List U8)}
    (hm : ∀ n data, malloc n = some data → data.length = n.toNat) (hchain : Chain fs c cs) {fuel : Nat}
    {data : List U8} {readcount : U32} (hget : fatGetdata fuel malloc c fs = some (.ok (data, readcount))) :
    readcount.toNat ≤ cs.length * n ∧ cs.length * n ≤ data.length ∧ data.length < 2 ^ 32 := by
  unfold fatGetdata at hget
  split at hget
  · cases hget
  · cases hget
  · next count hcount =>
      split at hget
      · cases hget
      · next block hblock =>
          have hstart := onChain_start hchain ⟨fuel, hcount⟩ block
          obtain ⟨hroom, hsame, hsize⟩ := hstart.counted hreads hget
          have hlen := hm _ _ hblock
          obtain rfl : count = BitVec.ofNat 32 cs.length := hstart.2
          rw [malloc_size, BitVec.toNat_ofNat] at hlen
          obtain ⟨es, rfl⟩ := hchain.exists_cons
          have hlt := Nat.mod_lt ((c :: es).length * fs.clustersize.toNat) (Nat.two_pow_pos 32)
          have hle := Nat.mod_le ((c :: es).length * fs.clustersize.toNat) (2 ^ 32)
          simp only [List.length_cons, Nat.add_sub_cancel, Nat.succ_mul] at hroom hsame hsize hlen hlt hle ⊢
          have hzero : (0 : U32).toNat = 0 := rfl
          -- the last cluster has room behind the others, so none of them is read past its place
          have hblocks : es.length * n ≤ es.length * fs.clustersize.toNat := Nat.mul_le_mul_left _ (by omega)
          omega

end Data

/-- For every table and start cluster: a read is safe exactly on a chain that ends. -/
theorem walkSafe_iff (fs : FatFs) (c : U32) : WalkSafe fs c ↔ ∃ cs, Chain fs c cs := by
  constructor
  · intro h
    obtain ⟨count, hcount⟩ := h.countEnds
    exact chain_of_count hcount
  · rintro ⟨cs, h⟩
    refine ⟨⟨_, cs.length, fatGetclustercount_eq h le_rfl⟩, ?_, fatGetdata_ends h, ?_⟩
    · intro v hv
      obtain ⟨ds, hds⟩ := visited_chain h hv
      exact index_of_chain hds
    · intro count data v hcount hv _
      obtain ⟨ds, hds, -⟩ := (onChain_start h hcount data).visits hv
      exact index_of_chain hds

/-- A card whose third entry links to itself. -/
def selfLinked : FatFs := { twoClusters with fattlb := [0x0FFFFFF8, 0x0FFFFFFF, 2] }

theorem selfLinked_not_safe : ¬ WalkSafe selfLinked 2 := by
  intro h
  obtain ⟨count, hcount⟩ := h.countEnds
  obtain ⟨cs, hcs⟩ := chain_of_count hcount
  have hself : nextCluster selfLinked 2 = .next 2 := rfl
  have hagain : ∀ {ds}, Chain selfLinked 2 ds → Chain selfLinked 2 (2 :: ds) := fun hds => .next hself hds
  have hlen := congrArg List.length (hcs.unique (hagain hcs))
  rw [List.length_cons] at hlen
  omega

end MetalNes.TableWalks
