import MetalNes.DirectorySearch
import MetalNes.DirectoryTree

namespace MetalNes.RootSearch

open Loop LinkedPath CStrings Fat32 ClusterChains DirectorySlots FatFiles DirectorySearch DirectoryTree

section Directories

theorem halfAt_bytes {slots : List Slot} {i : Nat} {s : Slot} (h : slots[i]? = some s) {k : Nat}
    (hk : k + 1 < 32) : halfAt (bytes slots) (i * sizeofDirent + k) =
      some (wordOf (s.get ⟨k, Nat.lt_of_succ_lt hk⟩) (s.get ⟨k + 1, hk⟩)) := by
  rw [halfAt, getElem?_bytes slots i (Nat.lt_of_succ_lt hk), Nat.add_assoc, getElem?_bytes slots i hk, h]
  rfl

theorem clusterAt_bytes {slots : List Slot} {i : Nat} {s : Slot} (h : slots[i]? = some s) :
    clusterAt (bytes slots) ((i * sizeofDirent : Nat) : Int) = some s.cluster := by
  rw [clusterAt, if_pos (Int.natCast_nonneg _), Int.toNat_natCast, addrHighbits, addrLowBits,
    halfAt_bytes h (by decide : 20 + 1 < 32), halfAt_bytes h (by decide : 26 + 1 < 32)]
  rfl

def entrySize (t : Slot) : U32 :=
  (wordOf t[30] t[31]).setWidth 32 <<< 16 ||| (wordOf t[28] t[29]).setWidth 32

theorem sizeInBytes_bytes {slots : List Slot} {j : Nat} {t : Slot} (ht : slots[j]? = some t) :
    sizeInBytes (bytes slots) (j * sizeofDirent) = some (entrySize t) := by
  rw [sizeInBytes, halfAt_bytes ht (by decide : 28 + 1 < 32), halfAt_bytes ht (by decide : 30 + 1 < 32)]
  rfl

variable {fs : FatFs} {sector : Nat → Vector U8 512} {c : U32} {slots : List Slot}

theorem Directory.unique {slots' : List Slot} (h : Directory fs sector c slots)
    (h' : Directory fs sector c slots') : slots = slots' := by
  obtain ⟨cs, hchain, -, -, hbytes⟩ := h
  obtain ⟨cs', hchain', -, -, hbytes'⟩ := h'
  obtain rfl := hchain.unique hchain'
  exact bytes_injective (hbytes.symm.trans hbytes')

theorem Directory.read (hv : Volume fs sector) (h : Directory fs sector c slots) :
    ∃ bound size, size.toNat = slots.length * sizeofDirent ∧
      ∀ {malloc : U32 → Option (List U8)},
        (∀ n, ∃ data, malloc n = some data ∧ data.length = n.toNat) → ∀ fuel ≥ bound,
        fatGetdata fuel malloc c fs = some (.ok (bytes slots, size)) := by
  obtain ⟨cs, hchain, hcs, hsize, hbytes⟩ := h
  have hlen := hv.length_chain cs
  rw [hbytes, length_bytes] at hlen
  have hnat : (BitVec.ofNat 32 (cs.length * fs.clustersize.toNat)).toNat =
      cs.length * fs.clustersize.toNat := by
    rw [BitVec.toNat_ofNat, Nat.mod_eq_of_lt hsize]
  refine ⟨cs.length, BitVec.ofNat 32 (cs.length * fs.clustersize.toNat), hnat.trans hlen.symm, ?_⟩
  intro malloc hm fuel hfuel
  obtain ⟨data, hdata, hdatalen⟩ := hm (BitVec.ofNat 32 (cs.length * fs.clustersize.toNat))
  rw [hv.fatGetdata_eq hchain hcs hdata (hdatalen.trans hnat) hfuel, hbytes]

end Directories

section Opendir

variable {fs : MountedFs} {sector : Nat → Vector U8 512} {slots : List Slot} {allocs : Allocs}

/-- fat_opendir at the first slot of the root. -/
def atRoot (slots : List Slot) (size : U32) (dir : Dirent) (n rest : Str) : Walk :=
  ⟨bytes slots, size, 0, dir, some n, rest, 1⟩

theorem atRoot_at (slots : List Slot) (size : U32) (dir : Dirent) (n rest : Str) :
    Walk.at (atRoot slots size dir n rest) 0 dir = atRoot slots size dir n rest := by
  rw [Walk.at, Nat.zero_mul]
  rfl

theorem fatOpendir_root (tree : Tree fs sector slots) {path n rest : Str}
    (hpath : strtok path = (some n, rest)) (hne : path ≠ [slash]) :
    ∃ bound size, size.toNat = slots.length * sizeofDirent ∧ ∀ {allocs : Allocs}, Grants allocs →
      ∀ fuel ≥ bound, fatOpendir fuel allocs fs (some path) =
        (run (opendirBody fuel allocs fs) fuel (atRoot slots size allocs.dirent n rest)).join := by
  obtain ⟨bound, size, hsize, hread⟩ := Directory.read tree.volume tree.root
  refine ⟨bound, size, hsize, fun hgrants fuel hfuel => ?_⟩
  simp only [fatOpendir, if_neg hne, hpath, hread (hgrants 0) fuel hfuel, atRoot]

end Opendir

/-- The condition under which a path resolves: the root begins with an entry, the
first directory slots with the first name are those of the directory of that name,
and the path ends there, unless the root has no such directory. -/
structure Resolvable (slots : List Slot) (n : Str) (ns : List Str) : Prop where
  begins : BeginsWithEntry slots
  found : ∀ c, Holds slots n c → ∃ s t, search n slots = .ok (some (s, t)) ∧ t.cluster = c
  absent : (∀ c, ¬ Holds slots n c) → search n slots = .ok none
  single : ns = [] ∨ ∀ c, ¬ Holds slots n c

section Sufficient

variable {fs : MountedFs} {sector : Nat → Vector U8 512} {slots : List Slot} {allocs : Allocs}
  {n : Str} {fuel : Nat}

theorem looks_atRoot {size : U32} (hsize : size.toNat = slots.length * sizeofDirent) (dir : Dirent)
    (n rest : Str) : Looks slots n (atRoot slots size dir n rest) := ⟨rfl, hsize, rfl⟩

theorem aligned_zero (slots : List Slot) : Aligned slots 0 := fun _ _ _ h => absurd h.symm (Nat.succ_ne_zero _)

theorem atRoot_ends (hslots : Preceded slots) (hn : Nameable n) (hbegins : BeginsWithEntry slots)
    {size : U32} (hsize : size.toNat = slots.length * sizeofDirent) (dir : Dirent) (rest : Str) :
    Ends fuel allocs fs slots n (atRoot slots size dir n rest) 0 dir (slots.length + 1)
      (search n slots) :=
  search_ends (looks_atRoot hsize dir n rest) hn hslots 0 dir (aligned_zero slots) (Or.inr hbegins)

theorem atRoot_found (hslots : Preceded slots) (hn : Nameable n) (hbegins : BeginsWithEntry slots)
    {s t : Slot} (hsearch : search n slots = .ok (some (s, t))) {size : U32}
    (hsize : size.toNat = slots.length * sizeofDirent) (fuel : Nat) (allocs : Allocs) (fs : MountedFs)
    (rest : Str) : ∃ j k old, k < slots.length + 1 ∧ j < slots.length ∧ slots[j]? = some s ∧ s.IsLong ∧
      slots[j + 1]? = some t ∧
      fatGetdirent (bytes slots) (j * sizeofDirent) old =
        some (((2 * sizeofDirent : Nat) : Int), pairDirent old s t) ∧
      found (pairDirent old s t) (some n) = .ok true ∧
      Reaches (opendirBody fuel allocs fs) k (atRoot slots size allocs.dirent n rest)
        (Walk.at (atRoot slots size allocs.dirent n rest) j old) := by
  have hends : Ends fuel allocs fs slots n (atRoot slots size allocs.dirent n rest) 0 allocs.dirent
      (slots.length + 1) (search n slots) :=
    atRoot_ends hslots hn hbegins hsize allocs.dirent rest
  rw [hsearch] at hends
  cases hends with
  | some s t j k old hs hl ht hattr hfound hk hreach =>
      rw [atRoot_at] at hreach
      exact ⟨j, k, old, hk, (List.getElem?_eq_some_iff.mp hs).1, hs, hl, ht,
        fatGetdirent_pair old hs hl ht (Or.inl hattr), hfound, hreach⟩

theorem arrive_eq {v : Walk} {j : Nat} {old : Dirent} {t : Slot} (hv : v.buffer = bytes slots)
    (ht : slots[j + 1]? = some t) : arrive fuel allocs fs (Walk.at v j old)
      ((2 * sizeofDirent : Nat) : Int) = openData fuel allocs fs v.calls t.cluster := by
  have hptr : ((j * sizeofDirent : Nat) : Int) + ((2 * sizeofDirent : Nat) : Int) - (sizeofDirent : Nat) =
      (((j + 1) * sizeofDirent : Nat) : Int) := by
    rw [sizeofDirent]
    omega
  have hcluster : clusterAt (Walk.at v j old).buffer
      (((Walk.at v j old).readptr : Int) + ((2 * sizeofDirent : Nat) : Int) - (sizeofDirent : Nat)) =
        some t.cluster := by
    show clusterAt v.buffer (((j * sizeofDirent : Nat) : Int) + _ - _) = _
    rw [hv, hptr, clusterAt_bytes ht]
  rw [arrive, hcluster]
  rfl

theorem run_last (hslots : Preceded slots) (hn : Nameable n) (hbegins : BeginsWithEntry slots) {s t : Slot}
    (hsearch : search n slots = .ok (some (s, t))) {rest : Str} (hrest : names rest = []) {size : U32}
    (hsize : size.toNat = slots.length * sizeofDirent) :
    run (opendirBody fuel allocs fs) (slots.length + 1) (atRoot slots size allocs.dirent n rest) =
      some (openData fuel allocs fs 1 t.cluster) := by
  obtain ⟨j, k, old, hk, hj, -, -, ht, hget, hfound, hreach⟩ :=
    atRoot_found hslots hn hbegins hsearch hsize fuel allocs fs rest
  have hpass : opendirBody fuel allocs fs (Walk.at (atRoot slots size allocs.dirent n rest) j old) =
      .done (arrive fuel allocs fs (Walk.at (atRoot slots size allocs.dirent n rest) j old)
        ((2 * sizeofDirent : Nat) : Int)) :=
    opendirBody_last (looks_atRoot hsize allocs.dirent n rest) hj hget hfound (strtok_of_nil hrest)
  rw [arrive_eq rfl ht] at hpass
  exact run_mono hk (hreach.run_done hpass)

theorem opens_named (tree : Tree fs sector slots) {path : Str} (hpath : names path = [n])
    (hn : Nameable n) (hbegins : BeginsWithEntry slots) (hgrants : Grants allocs) {s t : Slot}
    (hsearch : search n slots = .ok (some (s, t))) {target : List Slot}
    (hdir : Directory fs.toFatFs sector t.cluster target) :
    Opens fs allocs path (some ⟨bytes target, 0, target.length * sizeofDirent⟩) := by
  obtain ⟨hne, rest, hstrtok, hrest⟩ := strtok_of_names hpath
  obtain ⟨bound, size, hsize, hopen⟩ := fatOpendir_root tree hstrtok hne
  obtain ⟨bound', size', hsize', hread⟩ := Directory.read tree.volume hdir
  refine ⟨max bound (max bound' (slots.length + 1)), fun fuel hfuel => ?_⟩
  have hdata : openData fuel allocs fs 1 t.cluster =
      some (.ok (some ⟨bytes target, 0, target.length * sizeofDirent⟩)) := by
    simp only [openData, hread (hgrants _) fuel (by omega), hsize']
  rw [hopen hgrants fuel (by omega),
    run_mono (by omega) (run_last tree.entries.preceded hn hbegins hsearch hrest hsize), hdata]
  rfl

theorem opens_unnamed (tree : Tree fs sector slots) {path : Str} {ns : List Str}
    (hpath : names path = n :: ns) (hn : Nameable n) (hbegins : BeginsWithEntry slots)
    (hgrants : Grants allocs) (hsearch : search n slots = .ok none) : Opens fs allocs path none := by
  obtain ⟨hne, rest, hstrtok, -⟩ := strtok_of_names hpath
  obtain ⟨bound, size, hsize, hopen⟩ := fatOpendir_root tree hstrtok hne
  refine ⟨max bound (slots.length + 1), fun fuel hfuel => ?_⟩
  rw [hopen hgrants fuel (by omega)]
  have hends : Ends fuel allocs fs slots n (atRoot slots size allocs.dirent n rest) 0 allocs.dirent
      (slots.length + 1) (search n slots) :=
    atRoot_ends tree.entries.preceded hn hbegins hsize allocs.dirent rest
  rw [hsearch] at hends
  cases hends with
  | none hrun =>
      rw [atRoot_at] at hrun
      rw [run_mono (by omega) hrun]
      rfl

theorem resolves_of (tree : Tree fs sector slots) {path : Str} {ns : List Str}
    (hpath : names path = n :: ns) (hn : Nameable n) (h : Resolvable slots n ns) :
    Resolves fs sector path := by
  refine ⟨fun allocs hgrants c cs hnames hchain => ?_, fun allocs hgrants hnone => ?_⟩
  · rw [hpath] at hnames
    cases hnames with
    | step hdir hholds hrest =>
        obtain rfl := Directory.unique tree.root hdir
        obtain rfl : ns = [] := h.single.resolve_right fun hno => hno _ hholds
        cases hrest with
        | here =>
            obtain ⟨s, t, hsearch, rfl⟩ := h.found c hholds
            obtain ⟨target, htarget⟩ := tree.directory [n] t.cluster (.step hdir hholds (.here _))
            have hopens := opens_named tree hpath hn h.begins hgrants hsearch htarget
            obtain ⟨ds, hds, -, -, hbytes⟩ := htarget
            obtain rfl := hchain.unique hds
            rwa [← length_bytes, ← hbytes, tree.volume.length_chain] at hopens
  · have hno : ∀ c, ¬ Holds slots n c := by
      intro c hc
      rcases h.single with rfl | hno
      · refine hnone c ?_
        rw [hpath]
        exact .step tree.root hc (.here c)
      · exact hno c hc
    exact opens_unnamed tree hpath hn h.begins hgrants (h.absent hno)

end Sufficient

end MetalNes.RootSearch
