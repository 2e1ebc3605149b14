import MetalNes.ClusterChains
import MetalNes.FatFiles

namespace MetalNes.FileReads

open Loop Fat32 ClusterChains FatFiles

section Open

variable {fuel : Nat} {allocs : Allocs} {malloc : U32 → Option (List U8)} {fs : MountedFs} {f : FatFile}

/-- A file as fat_fopen leaves it: the data of its chain, at the start. -/
structure Loaded (fuel : Nat) (malloc : U32 → Option (List U8)) (fs : MountedFs) (f : FatFile) : Prop where
  data : fatGetdata fuel malloc f.basecluster fs.toFatFs = some (.ok (f.data, f.buffersize))
  start : f.dataptr = 0

theorem openFile_loaded {fdir : FatDir} (h : openFile fuel malloc fs fdir = some (.ok (some f))) :
    Loaded fuel malloc fs f := by
  unfold openFile at h
  split at h
  · split at h
    · cases h
    · cases h
    · split at h
      · cases h
      · cases h
      · next hdata =>
          split at h
          · cases h
          · cases h
            exact ⟨hdata, rfl⟩
  · cases h

theorem fopenBody_loaded {fname : Str} {v : Search} {r : Option (Except Fault (Option FatFile))}
    (h : fopenBody fuel malloc fs fname v = .done r) :
    ∀ f, r = some (.ok (some f)) → Loaded fuel malloc fs f := by
  rintro f rfl
  unfold fopenBody at h
  split at h
  · cases h
  · split at h
    · cases h
    · split at h
      · injection h with h
        exact openFile_loaded h
      · split at h <;> cases h

theorem fatFopen_loaded {path : Str} {rdir : Dirent}
    (h : fatFopen fuel allocs malloc fs path rdir = some (.ok (some f))) : Loaded fuel malloc fs f := by
  have hsearch : ∀ {fname : Str} {fdir : FatDir},
      searchFile fuel malloc fs fname fdir rdir = some (.ok (some f)) → Loaded fuel malloc fs f := by
    intro fname fdir h
    unfold searchFile at h
    split at h
    · cases h
    · have hrun := Option.join_eq_some_iff.mp h
      exact run_of_done (fun _ _ => fopenBody_loaded) hrun f rfl
  unfold fatFopen at h
  split at h
  · cases h
  · cases h
  · split at h
    all_goals first
      | exact hsearch h
      | cases h

end Open

def total (sizes : List U32) : Nat := (sizes.map BitVec.toNat).sum

/-- What each of a sequence of fat_fread calls delivers. -/
def freads : List U32 → FatFile → Except Fault (List (List U8))
  | [], _ => .ok []
  | size :: sizes, file =>
    match fatFread size file with
    | .error e => .error e
    | .ok (bytes, _, file) =>
      match freads sizes file with
      | .error e => .error e
      | .ok rest => .ok (bytes :: rest)

/-- After any number of the calls, the bytes delivered are the first bytes of the
content, as many as were asked for, or all that there are. -/
def ReadsExactly (content : List U8) (file : FatFile) (sizes : List U32) : Prop :=
  ∃ deliveries, freads sizes file = .ok deliveries ∧
    ∀ k, (deliveries.take k).flatten = content.take (total (sizes.take k))

/-- From a place in a buffer on, no call asks for a size that takes the sum with the
position out of 32 bits. -/
def Within (buffersize p : Nat) (sizes : List U32) : Prop :=
  ∀ pre n post, sizes = pre ++ n :: post → min (p + total pre) buffersize + n.toNat < 2 ^ 32

/-- The file behind a read: the position does not pass the end of the buffer. -/
def moved (file : FatFile) (n : Nat) : FatFile :=
  { file with dataptr := min (file.dataptr + n) file.buffersize.toNat }

/-- The bytes a read delivers that is cut at the end of the buffer. -/
def cutBytes (file : FatFile) (n : Nat) : List U8 :=
  bytesAt file.data file.dataptr (min n (file.buffersize.toNat - file.dataptr))

theorem total_cons (n : U32) (sizes : List U32) : total (n :: sizes) = n.toNat + total sizes := rfl

theorem total_append (xs ys : List U32) : total (xs ++ ys) = total xs + total ys := by
  rw [total, List.map_append, List.sum_append]
  rfl

theorem within_cons {buffersize p : Nat} (hp : p ≤ buffersize) {n : U32} {sizes : List U32} :
    Within buffersize p (n :: sizes) ↔
      p + n.toNat < 2 ^ 32 ∧ Within buffersize (min (p + n.toNat) buffersize) sizes := by
  have hmin : ∀ t, min (min (p + n.toNat) buffersize + t) buffersize =
      min (p + (n.toNat + t)) buffersize := by
    intro t
    omega
  constructor
  · intro h
    refine ⟨?_, fun pre m post hsizes => ?_⟩
    · have hfirst := h [] n sizes rfl
      rwa [total, List.map_nil, List.sum_nil, Nat.add_zero, Nat.min_eq_left hp] at hfirst
    · rw [hmin, ← total_cons]
      exact h (n :: pre) m post (by rw [hsizes, List.cons_append])
  · rintro ⟨hn, h⟩ pre m post hsizes
    cases pre with
    | nil =>
        obtain ⟨rfl, -⟩ := List.cons.inj hsizes
        rwa [total, List.map_nil, List.sum_nil, Nat.add_zero, Nat.min_eq_left hp]
    | cons k pre =>
        obtain ⟨rfl, htail⟩ := List.cons.inj (hsizes.trans (List.cons_append ..))
        rw [total_cons, ← hmin]
        exact h pre m post htail

section Read

variable {file : FatFile} (hroom : file.buffersize.toNat ≤ file.data.length)
  (hp : file.dataptr ≤ file.buffersize.toNat)

include hroom hp

theorem fatFread_within {size : U32} (hn : file.dataptr + size.toNat < 2 ^ 32) :
    ∃ ret, fatFread size file = .ok (cutBytes file size.toNat, ret, moved file size.toNat) := by
  have hlt := file.buffersize.isLt
  have hoffset : (BitVec.ofNat 32 file.dataptr).toNat = file.dataptr := by
    rw [BitVec.toNat_ofNat]
    omega
  have hsum : (BitVec.ofNat 32 file.dataptr + size).toNat = file.dataptr + size.toNat := by
    rw [BitVec.toNat_add, hoffset, Nat.mod_eq_of_lt hn]
  have hrest : (file.buffersize - BitVec.ofNat 32 file.dataptr).toNat =
      file.buffersize.toNat - file.dataptr := by
    rw [BitVec.toNat_sub_of_le (BitVec.le_def.mpr (by rw [hoffset]; exact hp)), hoffset]
  have hread : ∀ bytestoread : U32,
      bytestoread.toNat = min size.toNat (file.buffersize.toNat - file.dataptr) →
      ∃ ret, (if bytestoread = 0 then Except.ok ([], -1, file)
        else if file.dataptr + bytestoread.toNat ≤ file.data.length then
          .ok (bytesAt file.data file.dataptr bytestoread.toNat, bytestoread,
            { file with dataptr := file.dataptr + bytestoread.toNat })
        else .error Fault.outOfBounds) = .ok (cutBytes file size.toNat, ret, moved file size.toNat) := by
    intro bytestoread hbytes
    have hptr : min (file.dataptr + size.toNat) file.buffersize.toNat =
        file.dataptr + bytestoread.toNat := by
      omega
    rw [moved, hptr, cutBytes, ← hbytes]
    by_cases hzero : bytestoread = 0
    · refine ⟨-1, (if_pos hzero).trans ?_⟩
      rw [hzero]
      rfl
    · exact ⟨bytestoread, (if_neg hzero).trans (if_pos (by omega))⟩
  apply hread
  by_cases hclip : BitVec.ofNat 32 file.dataptr + size > file.buffersize
  · have hgt := BitVec.lt_def.mp hclip
    rw [if_pos hclip, hrest]
    omega
  · have hle : ¬ file.buffersize.toNat < (BitVec.ofNat 32 file.dataptr + size).toNat :=
      fun h => hclip (BitVec.lt_def.mpr h)
    rw [if_neg hclip]
    omega

omit hroom in
/-- The sum of position and size is taken in 32 bits, so that the read is not cut. -/
theorem fatFread_beyond (hblock : file.data.length < 2 ^ 32) {size : U32}
    (hn : 2 ^ 32 ≤ file.dataptr + size.toNat) : fatFread size file = .error .outOfBounds := by
  have hlt := file.buffersize.isLt
  have hsize := size.isLt
  have hsum : (BitVec.ofNat 32 file.dataptr + size).toNat = file.dataptr + size.toNat - 2 ^ 32 := by
    rw [BitVec.toNat_add, BitVec.toNat_ofNat]
    omega
  have hwhole : ¬ BitVec.ofNat 32 file.dataptr + size > file.buffersize := by
    intro hclip
    have hgt := BitVec.lt_def.mp hclip
    omega
  have hne : size ≠ 0 := by
    rintro rfl
    have hzero : (0 : U32).toNat = 0 := rfl
    omega
  simp only [fatFread, if_neg hwhole, if_neg hne]
  exact if_neg (by omega)

end Read

section Run

variable {sizes : List U32} {file : FatFile} (hlen : file.data.length = file.buffersize.toNat)
  (hp : file.dataptr ≤ file.buffersize.toNat)

include hlen

theorem cutBytes_whole (n : Nat) : cutBytes file n = (file.data.drop file.dataptr).take n := by
  rw [cutBytes, bytesAt, ← hlen, ← List.length_drop, ← List.take_eq_take_min]

include hp

theorem freads_delivers (hs : Within file.buffersize.toNat file.dataptr sizes) :
    ∃ deliveries, freads sizes file = .ok deliveries ∧ ∀ k, (deliveries.take k).flatten =
      (file.data.drop file.dataptr).take (total (sizes.take k)) := by
  induction sizes generalizing file with
  | nil =>
      refine ⟨[], rfl, fun k => ?_⟩
      rw [List.take_nil, List.take_nil]
      rfl
  | cons n sizes ih =>
      obtain ⟨hn, hrest⟩ := (within_cons hp).mp hs
      obtain ⟨ret, hread⟩ := fatFread_within hlen.ge hp hn
      rw [cutBytes_whole hlen] at hread
      have hmoved : (moved file n.toNat).data.length = (moved file n.toNat).buffersize.toNat := hlen
      obtain ⟨deliveries, hreads, hdeliveries⟩ := ih hmoved (Nat.min_le_right _ _) hrest
      refine ⟨(file.data.drop file.dataptr).take n.toNat :: deliveries, ?_, fun k => ?_⟩
      · simp only [freads, hread, hreads]
      · cases k with
        | zero => rfl
        | succ k =>
            have hdrop : (moved file n.toNat).data.drop (moved file n.toNat).dataptr =
                (file.data.drop file.dataptr).drop n.toNat := by
              rw [moved, List.drop_drop, ← hlen, ← List.drop_eq_drop_min]
            rw [List.take_succ_cons, List.take_succ_cons, List.flatten_cons, total_cons,
              List.take_add, hdeliveries, hdrop]

theorem within_of_freads {deliveries : List (List U8)} (h : freads sizes file = .ok deliveries) :
    Within file.buffersize.toNat file.dataptr sizes := by
  induction sizes generalizing file deliveries with
  | nil =>
      intro pre n post hsizes
      cases pre <;> cases hsizes
  | cons n sizes ih =>
      rw [within_cons hp]
      by_cases hn : file.dataptr + n.toNat < 2 ^ 32
      · obtain ⟨ret, hread⟩ := fatFread_within hlen.ge hp hn
        refine ⟨hn, ?_⟩
        simp only [freads, hread] at h
        split at h
        · cases h
        · next hreads =>
            have hmoved : (moved file n.toNat).data.length = (moved file n.toNat).buffersize.toNat :=
              hlen
            exact ih hmoved (Nat.min_le_right _ _) hreads
      · have hblock : file.data.length < 2 ^ 32 := by
          rw [hlen]
          exact file.buffersize.isLt
        simp only [freads, fatFread_beyond hp hblock (by omega : 2 ^ 32 ≤ file.dataptr + n.toNat)] at h
        cases h

end Run

/-- Reading is exact as long as no more is asked for than the file's size, or if the
file fills its clusters and no position and size together leave 32 bits. -/
theorem freads_exact_iff {fs : MountedFs} {sector : Nat → Vector U8 512}
    (hv : Volume fs.toFatFs sector) {fuel : Nat} {allocs : Allocs} {malloc : U32 → Option (List U8)}
    (hm : ∀ n data, malloc n = some data → data.length = n.toNat) {path : Str} {rdir : Dirent}
    {f : FatFile} (hopen : fatFopen fuel allocs malloc fs path rdir = some (.ok (some f)))
    {cs : List U32} (hchain : Chain fs.toFatFs f.basecluster cs)
    (hcs : ∀ c ∈ cs, Addressable fs.toFatFs c) (hsize : f.filesize.toNat ≤ f.buffersize.toNat)
    (sizes : List U32) :
    ReadsExactly ((cs.flatMap (clusterBytes fs.toFatFs sector)).take f.filesize.toNat) f sizes ↔
      total sizes ≤ f.filesize.toNat ∨
        f.filesize = f.buffersize ∧ Within f.buffersize.toNat 0 sizes := by
  obtain ⟨hget, hstart⟩ := fatFopen_loaded hopen
  obtain ⟨hdata, hbuffer⟩ := hv.fatGetdata_inv hchain hcs hm hget
  have hlen : f.data.length = f.buffersize.toNat := by
    rw [hdata, hv.length_chain, hbuffer]
  have hp : f.dataptr ≤ f.buffersize.toNat := by
    rw [hstart]
    exact Nat.zero_le _
  have hwhole : f.data.drop f.dataptr = f.data := by rw [hstart, List.drop_zero]
  rw [← hdata]
  constructor
  · rintro ⟨deliveries, hreads, hexact⟩
    have hwithin := within_of_freads hlen hp hreads
    obtain ⟨_, hreads', hall⟩ := freads_delivers hlen hp hwithin
    obtain rfl := Except.ok.inj (hreads.symm.trans hreads')
    have hlast := congrArg List.length ((hexact sizes.length).symm.trans (hall sizes.length))
    rw [hwhole, List.take_length, List.length_take, List.length_take, List.length_take, hlen] at hlast
    by_cases htotal : total sizes ≤ f.filesize.toNat
    · exact Or.inl htotal
    · refine Or.inr ⟨BitVec.eq_of_toNat_eq (by omega), ?_⟩
      rwa [hstart] at hwithin
  · intro h
    have hwithin : Within f.buffersize.toNat f.dataptr sizes := by
      rw [hstart]
      rcases h with h | h
      · rintro pre n post rfl
        rw [total_append, total_cons] at h
        have hlt := f.buffersize.isLt
        omega
      · exact h.2
    obtain ⟨deliveries, hreads, hall⟩ := freads_delivers hlen hp hwithin
    refine ⟨deliveries, hreads, fun k => ?_⟩
    rw [hall, hwhole, List.take_take]
    rcases h with h | h
    · have hk := total_append (sizes.take k) (sizes.drop k)
      rw [List.take_append_drop] at hk
      rw [Nat.min_eq_left (by omega)]
    · rw [h.1, ← hlen, ← List.take_eq_take_min]

def rootBytes : List U8 :=
  [0x41, 0x41] ++ List.replicate 9 0 ++ [0x0F] ++ List.replicate 20 0 ++
    List.replicate 11 0x41 ++ [0x20] ++ List.replicate 14 0 ++ [3, 0, 5, 0, 0, 0]

def padded (bytes : List U8) (h : bytes.length ≤ 512) : Vector U8 512 :=
  ⟨(bytes ++ List.replicate (512 - bytes.length) 0).toArray, by
    rw [List.size_toArray, List.length_append, List.length_replicate]
    omega⟩

def card (lba : Nat) : Vector U8 512 :=
  if lba = 0 then padded rootBytes (by decide) else Vector.replicate 512 0x55

def cardFs : MountedFs where
  fattlb := [0x0FFFFFF8, 0x0FFFFFFF, 0x0FFFFFFF, 0x0FFFFFFF]
  dev := ⟨fun lba n => (sectorBytes card lba.toNat n.toNat, n * 512)⟩
  bpb := ⟨512, 1⟩
  firstdatalba := 0
  clustersize := 512
  ebr := ⟨2⟩

def cleared (n : U32) : Option (List U8) := some (List.replicate n.toNat 0)

def blank : Dirent := ⟨0, fun _ => 0⟩

def cardFile : FatFile := ⟨List.replicate 512 0x55, 0, 512, 5, 3⟩

theorem card_opens : fatFopen 3 ⟨fun _ => cleared, blank⟩ cleared cardFs [0x41] blank =
    some (.ok (some cardFile)) := by
  decide +kernel

theorem card_volume : Volume cardFs.toFatFs card := ⟨rfl, by decide, fun _ _ _ => rfl⟩

theorem card_addressable : ∀ c ∈ ([3] : List U32), Addressable cardFs.toFatFs c := by
  intro c hc
  obtain rfl := List.mem_singleton.mp hc
  exact ⟨by decide, by decide, by decide⟩

theorem length_cleared : ∀ n data, cleared n = some data → data.length = n.toNat := by
  rintro n data h
  obtain rfl := Option.some.inj h
  exact List.length_replicate

theorem card_reads_in_two :
    ReadsExactly ((([3] : List U32).flatMap (clusterBytes cardFs.toFatFs card)).take 5) cardFile [2, 3] :=
  (freads_exact_iff card_volume length_cleared card_opens (.last rfl) card_addressable (by decide)
    [2, 3]).mpr (Or.inl (by decide))

/-- A read of eight bytes returns three bytes more than the file has. -/
theorem card_reads_slack : fatFopen 3 ⟨fun _ => cleared, blank⟩ cleared cardFs [0x41] blank =
      some (.ok (some cardFile)) ∧ Volume cardFs.toFatFs card ∧ Chain cardFs.toFatFs 3 [3] ∧
    ¬ ReadsExactly ((([3] : List U32).flatMap (clusterBytes cardFs.toFatFs card)).take 5) cardFile [8] := by
  refine ⟨card_opens, card_volume, .last rfl, ?_⟩
  rintro ⟨deliveries, hreads, hexact⟩
  have hread : freads [8] cardFile = .ok [List.replicate 8 0x55] := by decide +kernel
  obtain rfl := Except.ok.inj (hread.symm.trans hreads)
  have hlength := congrArg List.length (hexact 1)
  rw [List.length_take, List.length_take] at hlength
  have height : ([List.replicate 8 (0x55 : U8)].take 1).flatten.length = 8 := rfl
  omega

end MetalNes.FileReads
