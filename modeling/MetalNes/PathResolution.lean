import MetalNes.TrapCard

namespace MetalNes.PathResolution

open Loop LinkedPath CStrings Fat32 ClusterChains DirectorySlots FatFiles DirectorySearch DirectoryTree
  RootSearch ClusterZero TrapCard

/-- What the other direction needs of the volume and its root: the format's entry for
cluster 0, room for two clusters in front of the data, no cluster number in a
long-name slot nor in a first slot that is no entry, and directories, deleted ones
too, at data clusters. -/
structure Reserved (fs : MountedFs) (slots : List Slot) : Prop where
  media : MediaEntry fs.toFatFs
  front : 2 * sectors fs.toFatFs ≤ fs.firstdatalba.toNat
  unlinked : ∀ i s, slots[i]? = some s → s.IsLong ∨ i = 0 ∧ ¬ s.IsFile → Unlinked s
  clusters : ∀ t ∈ slots, t.attr = FAT_DIR_ENT → Addressable fs.toFatFs t.cluster

theorem search_of_holds {slots : List Slot} {n : Str} {c : U32} (h : Holds slots n c) :
    ∃ s t, search n slots = .ok (some (s, t)) := by
  obtain ⟨i, s, t, hs, hspells, ht, hattr, -⟩ := h
  have hs' := hs.1
  have ht' := ht.1
  clear hs ht
  induction slots generalizing i with
  | nil => cases hs'
  | cons u slots ih =>
      cases i with
      | zero =>
          obtain rfl := Option.some.inj hs'
          cases slots with
          | nil => cases ht'
          | cons w slots =>
              obtain rfl := Option.some.inj ht'
              exact ⟨u, w, search_here hspells.long hattr hspells.chars_eq⟩
      | succ i =>
          obtain ⟨s', t', hrest⟩ := ih i hs' ht'
          cases slots with
          | nil => cases hs'
          | cons w slots =>
              by_cases hmatch : u.IsLong ∧ w.attr = FAT_DIR_ENT ∧ u.chars = n
              · exact ⟨u, w, if_pos hmatch⟩
              · exact ⟨s', t', (if_neg hmatch).trans hrest⟩

theorem search_entry {slots : List Slot} {n : Str} {s t : Slot}
    (h : search n slots = .ok (some (s, t))) : t ∈ slots ∧ t.attr = FAT_DIR_ENT := by
  induction slots with
  | nil => cases h
  | cons u slots ih =>
      cases slots with
      | nil =>
          unfold search at h
          split at h <;> cases h
      | cons w slots =>
          by_cases hmatch : u.IsLong ∧ w.attr = FAT_DIR_ENT ∧ u.chars = n
          · have hhere : search n (u :: w :: slots) = .ok (some (u, w)) := if_pos hmatch
            cases h.symm.trans hhere
            exact ⟨List.mem_cons_of_mem _ List.mem_cons_self, hmatch.2.1⟩
          · have hrest : search n (u :: w :: slots) = search n (w :: slots) := if_neg hmatch
            obtain ⟨hmem, hattr⟩ := ih (hrest.symm.trans h)
            exact ⟨List.mem_cons_of_mem u hmem, hattr⟩

/-- Memory that is granted, with a dirent in it. -/
def granted (dir : Dirent) : Allocs := ⟨fun _ n => some (List.replicate n.toNat 0), dir⟩

theorem grants_granted (dir : Dirent) : Grants (granted dir) :=
  fun _ _ => ⟨_, rfl, List.length_replicate⟩

theorem openData_head {fuel : Nat} {allocs : Allocs} {fs : MountedFs} {sector : Nat → Vector U8 512}
    (hv : Volume fs.toFatFs sector) (hpos : 0 < sectors fs.toFatFs) {calls : Nat} {c : U32}
    (hc : Addressable fs.toFatFs c) {dir : FatDir}
    (h : openData fuel allocs fs calls c = some (.ok (some dir))) :
    dir.data[0]? = some ((sector (clusterLba fs.toFatFs c)).get 0) := by
  unfold openData at h
  split at h
  · cases h
  · cases h
  · next data size hget =>
      cases h
      exact fatGetdata_head hv hpos hc hget

section Necessary

variable {fs : MountedFs} {sector : Nat → Vector U8 512} {slots : List Slot} {root : List U32}
  {mark : U32} {b : U8} {path n : Str} {ns : List Str} {allocs : Allocs}

theorem opens_run (tree : Tree fs sector slots) (hpath : names path = n :: ns) (hgrants : Grants allocs)
    {r : Option FatDir} (h : Opens fs allocs path r) :
    ∃ rest bound size, names rest = ns ∧ size.toNat = slots.length * sizeofDirent ∧ ∀ fuel ≥ bound,
      run (opendirBody fuel allocs fs) fuel (atRoot slots size allocs.dirent n rest) =
        some (some (.ok r)) := by
  obtain ⟨hne, rest, hstrtok, hrest⟩ := strtok_of_names hpath
  obtain ⟨bound, size, hsize, hopen⟩ := fatOpendir_root tree hstrtok hne
  obtain ⟨bound', hr⟩ := h
  refine ⟨rest, max bound bound', size, hrest, hsize, fun fuel hfuel => ?_⟩
  have heq := (hopen hgrants fuel (by omega)).symm.trans (hr fuel (by omega))
  exact Option.join_eq_some_iff.mp heq

theorem Resolves.opens (tree : Tree fs sector slots) (h : Resolves fs sector path)
    (hgrants : Grants allocs) : ∃ r, Opens fs allocs path r := by
  by_cases hnamed : ∃ c, Names fs.toFatFs sector fs.ebr.clusterRootNum (names path) c
  · obtain ⟨c, hc⟩ := hnamed
    obtain ⟨_, cs, hchain, -⟩ := tree.directory _ c hc
    exact ⟨_, h.named allocs hgrants c cs hc hchain⟩
  · exact ⟨_, h.unnamed allocs hgrants fun c hc => hnamed ⟨c, hc⟩⟩

theorem trapFs_trapped (tree : Tree fs sector slots) (hroot : Chain fs.toFatFs fs.ebr.clusterRootNum root)
    (hres : Reserved fs slots) : Trapped (trapFs fs sector root mark b).toFatFs :=
  trapped (trap_tree tree hroot).volume hres.front (fun _ => trapCard_front) tree.nonempty
    ⟨hres.media.entry, hres.media.length⟩

/-- Behind the first name, every way leads to cluster 0. -/
theorem inner_stuck (hfs : Trapped fs.toFatFs) (hslots : Preceded slots) (hn : Nameable n)
    (hunlinked : ∀ (i : Nat) (s : Slot), slots[i]? = some s → s.IsLong → Unlinked s) (hbegins : BeginsWithEntry slots)
    (hgrants : Grants allocs) {s t : Slot} (hsearch : search n slots = .ok (some (s, t))) {rest : Str}
    {m : Str} {ms : List Str} (hrest : names rest = m :: ms) {size : U32}
    (hsize : size.toNat = slots.length * sizeofDirent) {fuel passes : Nat} {r : Option FatDir} :
    run (opendirBody fuel allocs fs) passes (atRoot slots size allocs.dirent n rest) ≠
      some (some (.ok r)) := by
  intro hrun
  obtain ⟨-, rest', hstrtok, -⟩ := strtok_of_names hrest
  obtain ⟨j, k, old, -, hj, hs, hl, -, hget, hfound, hreach⟩ :=
    atRoot_found hslots hn hbegins hsearch hsize fuel allocs fs rest
  refine run_stuck hfs hgrants ?_ (hreach.run hrun)
  rw [opendirBody_inner (looks_atRoot hsize allocs.dirent n rest) hj hget hfound hstrtok]
  exact enter_stuck hfs hgrants (innerClusterAt_bytes hs (hunlinked j s hs hl)) _ _ _

/-- What the block of the dirent may hold: a directory of the name. -/
def namesake (n : Str) : Dirent := ⟨DT_DIR, fun i => n.getD i 0⟩

theorem strcmp_namesake (n : Str) {m : Str} {k : Nat} (h : n.drop k = m) :
    strcmp (fun i => n.getD i 0) k m ≠ .ok false := by
  induction m generalizing k with
  | nil =>
      rw [strcmp]
      split
      · rw [List.getD_eq_getElem?_getD, List.getElem?_eq_none (List.drop_eq_nil_iff.mp h)]
        intro heq
        cases heq
      · intro heq
        cases heq
  | cons c m ih =>
      have hlt : k < n.length := by
        by_contra hge
        rw [List.drop_of_length_le (by omega)] at h
        cases h
      rw [List.drop_eq_getElem_cons hlt] at h
      obtain ⟨hc, hm⟩ := List.cons.inj h
      rw [strcmp, List.getD_eq_getElem?_getD, List.getElem?_eq_getElem hlt]
      rw [Option.getD_some, if_pos hc]
      split
      · exact ih hm
      · intro heq
        cases heq

theorem found_namesake (n : Str) : found (namesake n) (some n) ≠ .ok false := by
  have hname : found (namesake n) (some n) = strcmp (fun i => n.getD i 0) 0 n := if_pos rfl
  rw [hname]
  exact strcmp_namesake n List.drop_zero

theorem Tree.slots_ne_nil (tree : Tree fs sector slots) : slots ≠ [] := by
  rintro rfl
  obtain ⟨cs, hchain, -, -, hbytes⟩ := tree.root
  have hlen := congrArg List.length hbytes
  obtain ⟨ds, rfl⟩ := hchain.exists_cons
  have hpos := tree.nonempty
  rw [tree.volume.length_chain, tree.volume.toNat_clustersize, List.length_cons, Nat.succ_mul] at hlen
  have hzero : (bytes []).length = 0 := rfl
  omega

/-- In front of a slot that is no entry, the dirent still holds what the block held. -/
theorem uninitialised_stuck (hfs : Trapped fs.toFatFs) (hne : slots ≠ [])
    (hunlinked : ∀ (i : Nat) (s : Slot), slots[i]? = some s → s.IsLong ∨ i = 0 ∧ ¬ s.IsFile → Unlinked s)
    (hno : ¬ BeginsWithEntry slots) {rest : Str} {size : U32}
    (hsize : size.toNat = slots.length * sizeofDirent) {fuel : Nat} :
    Stuck (opendirBody fuel (granted (namesake n)) fs (atRoot slots size (namesake n) n rest)) := by
  have hlooks := looks_atRoot hsize (namesake n) n rest
  rw [← atRoot_at]
  cases slots with
  | nil => exact absurd rfl hne
  | cons s slots =>
      have hs : (s :: slots)[0]? = some s := rfl
      by_cases hl : s.IsLong
      · cases slots with
        | nil =>
            rw [opendirBody_fault hlooks Nat.one_pos
              ((fatGetdirent_long _ hs hl).trans (parseEntry_missing rfl _ _))]
            exact .error _
        | cons t slots =>
            have hother : ¬ t.IsFile := mt (beginsWithEntry_long hl t slots).mpr hno
            exact front_stuck hfs (grants_granted _) hlooks hs (hunlinked 0 s hs (Or.inl hl))
              ((fatGetdirent_long _ hs hl).trans (parseEntry_other rfl hother _ _)) (found_namesake n)
      · have hother : ¬ s.IsFile := mt (beginsWithEntry_short hl slots).mpr hno
        exact front_stuck hfs (grants_granted _) hlooks hs (hunlinked 0 s hs (Or.inr ⟨rfl, hother⟩))
          ((fatGetdirent_short _ hs hl).trans (parseEntry_other hs hother _ _)) (found_namesake n)

def ResolvesOnEvery (fs : MountedFs) (slots : List Slot) (path : Str) : Prop :=
  ∀ dev sector, Tree (onDevice fs dev) sector slots → Resolves (onDevice fs dev) sector path

variable (tree : Tree fs sector slots) (hres : Reserved fs slots) (hpath : names path = n :: ns)
  (hn : Nameable n) (h : ResolvesOnEvery fs slots path)

include tree hres hpath h

theorem begins_of_resolves : BeginsWithEntry slots := by
  obtain ⟨root, hroot, -⟩ := tree.root
  by_contra hno
  have htree : Tree (trapFs fs sector root 0 0) _ slots := trap_tree tree hroot
  have htrapped : Trapped (trapFs fs sector root 0 0).toFatFs := trapFs_trapped tree hroot hres
  obtain ⟨r, hopens⟩ := Resolves.opens htree (h _ _ htree) (grants_granted (namesake n))
  obtain ⟨rest, bound, size, -, hsize, hrun⟩ := opens_run htree hpath (grants_granted _) hopens
  exact run_stuck htrapped (grants_granted _)
    (uninitialised_stuck htrapped (Tree.slots_ne_nil tree) hres.unlinked hno hsize) (hrun bound le_rfl)

include hn

theorem single_of_found {s t : Slot} (hsearch : search n slots = .ok (some (s, t))) : ns = [] := by
  obtain ⟨root, hroot, -⟩ := tree.root
  have hbegins := begins_of_resolves tree hres hpath h
  have htree : Tree (trapFs fs sector root 0 0) _ slots := trap_tree tree hroot
  have htrapped : Trapped (trapFs fs sector root 0 0).toFatFs := trapFs_trapped tree hroot hres
  cases ns with
  | nil => rfl
  | cons m ms =>
      obtain ⟨r, hopens⟩ := Resolves.opens htree (h _ _ htree) (grants_granted (namesake n))
      obtain ⟨rest, bound, size, hrest, hsize, hrun⟩ := opens_run htree hpath (grants_granted _) hopens
      have hunlinked : ∀ (i : Nat) (s : Slot), slots[i]? = some s → s.IsLong → Unlinked s :=
        fun i s hs hl => hres.unlinked i s hs (Or.inl hl)
      exact absurd (hrun bound le_rfl) (inner_stuck htrapped tree.entries.preceded hn hunlinked hbegins
        (grants_granted _) hsearch hrest hsize)

theorem found_of_resolves {c : U32} (hc : Holds slots n c) :
    ∃ s t, search n slots = .ok (some (s, t)) ∧ t.cluster = c := by
  obtain ⟨s, t, hsearch⟩ := search_of_holds hc
  obtain rfl := single_of_found tree hres hpath hn h hsearch
  refine ⟨s, t, hsearch, ?_⟩
  by_contra hne
  obtain ⟨root, hroot, -⟩ := tree.root
  have hbegins := begins_of_resolves tree hres hpath h
  have hgrants := grants_granted (namesake n)
  have hrootcs := root_addressable tree hroot
  obtain ⟨ht, hattr⟩ := search_entry hsearch
  have htc := hres.clusters t ht hattr
  obtain ⟨_, cs, hchain, hcs, -, -⟩ := tree.directory [n] c (names_one tree hc)
  have hapart := tree.apart [] [n] _ c root cs (.here _) (names_one tree hc)
    (List.cons_ne_nil _ _).symm hroot hchain
  have hmem : c ∈ cs := by
    obtain ⟨ds, hds⟩ := hchain.exists_cons
    rw [hds]
    exact List.mem_cons_self
  -- The directory and the other cluster begin with different bytes on this card.
  obtain ⟨b, hb⟩ := trapCard_apart sector tree.nonempty hrootcs (hcs c hmem)
    (fun hin => hapart hin hmem) htc hne
  have htree : Tree (trapFs fs sector root c b) (trapCard fs.toFatFs sector root c b) slots :=
    trap_tree tree hroot
  have hopens := (h _ _ htree).named _ hgrants c cs (by rw [hpath]; exact names_one htree hc) hchain
  obtain ⟨rest, bound, size, hrest, hsize, hrun⟩ := opens_run htree hpath hgrants hopens
  have hlast : run (opendirBody bound (granted (namesake n)) (trapFs fs sector root c b))
      (slots.length + 1) (atRoot slots size (namesake n) n rest) =
        some (openData bound (granted (namesake n)) (trapFs fs sector root c b) 1 t.cluster) :=
    run_last tree.entries.preceded hn hbegins hsearch hrest hsize
  have hopened := (Returns.unique ⟨bound, hrun bound le_rfl⟩ ⟨_, hlast⟩).symm
  have hread := openData_head htree.volume tree.nonempty (addressable_onDevice.mpr htc) hopened
  have hnamed := chain_head htree.volume tree.nonempty hchain
  exact hb (Option.some.inj (hread.symm.trans hnamed))

theorem absent_of_resolves (hno : ∀ c, ¬ Holds slots n c) : search n slots = .ok none := by
  obtain ⟨root, hroot, -⟩ := tree.root
  have hbegins := begins_of_resolves tree hres hpath h
  have htree : Tree (trapFs fs sector root 0 0) _ slots := trap_tree tree hroot
  have hgrants := grants_granted (namesake n)
  have hnone : ∀ c, ¬ Names (trapFs fs sector root 0 0).toFatFs (trapCard fs.toFatFs sector root 0 0)
      fs.ebr.clusterRootNum (names path) c := by
    intro c hc
    rw [hpath] at hc
    rcases trap_names tree hroot hc with ⟨hnil, -⟩ | ⟨m, hm, hholds⟩
    · cases hnil
    · cases hm
      exact hno c hholds
  have hopens := (h _ _ htree).unnamed _ hgrants hnone
  obtain ⟨rest, bound, size, hrest, hsize, hrun⟩ := opens_run htree hpath hgrants hopens
  have hreturns := hrun bound le_rfl
  cases hsearch : search n slots with
  | error e =>
      have hends : Ends bound (granted (namesake n)) (trapFs fs sector root 0 0) slots n
          (atRoot slots size (namesake n) n rest) 0 (namesake n) (slots.length + 1) (search n slots) :=
        atRoot_ends tree.entries.preceded hn hbegins hsize (namesake n) rest
      rw [hsearch] at hends
      cases hends with
      | error e hfault =>
          rw [atRoot_at] at hfault
          cases Returns.unique ⟨bound, hreturns⟩ ⟨slots.length + 1, hfault⟩
  | ok found =>
      cases found with
      | none => rfl
      | some pair =>
          obtain rfl := single_of_found tree hres hpath hn h hsearch
          have hlast : run (opendirBody bound (granted (namesake n)) (trapFs fs sector root 0 0))
              (slots.length + 1) (atRoot slots size (namesake n) n rest) =
                some (openData bound (granted (namesake n)) (trapFs fs sector root 0 0) 1 _) :=
            run_last tree.entries.preceded hn hbegins hsearch hrest hsize
          have hsame := Returns.unique ⟨bound, hreturns⟩ ⟨_, hlast⟩
          exact absurd hsame.symm (openData_ne_null _ _ _ _ _)

end Necessary

theorem nameable_of_names {path n : Str} {ns : List Str} (hpath : names path = n :: ns)
    (hstring : ∀ c ∈ path, c ≠ 0x00 ∧ c ≠ 0xE5) : Nameable n := by
  obtain ⟨-, rest, hstrtok, -⟩ := strtok_of_names hpath
  have hmem : n ∈ names path := by
    rw [hpath]
    exact List.mem_cons_self
  refine ⟨?_, fun c hc => (hstring c (mem_of_strtok hstrtok hc)).1,
    fun c hc => (hstring c (mem_of_strtok hstrtok hc)).2⟩
  simpa using (List.mem_filter.mp hmem).2

/-- A path resolves on every tree where the condition holds, and on no other volume
does it resolve whatever else is on the card. -/
theorem opendir_resolves_iff {fs : MountedFs} {sector : Nat → Vector U8 512} {slots : List Slot}
    (tree : Tree fs sector slots) {path n : Str} {ns : List Str} (hpath : names path = n :: ns)
    (hstring : ∀ c ∈ path, c ≠ 0x00 ∧ c ≠ 0xE5) :
    (Resolvable slots n ns → Resolves fs sector path) ∧
      (Reserved fs slots → (ResolvesOnEvery fs slots path ↔ Resolvable slots n ns)) := by
  have hn := nameable_of_names hpath hstring
  refine ⟨resolves_of tree hpath hn, fun hres => ⟨fun h => ?_, fun h dev sector' tree' => ?_⟩⟩
  · refine ⟨begins_of_resolves tree hres hpath h, fun c hc => found_of_resolves tree hres hpath hn h hc,
      absent_of_resolves tree hres hpath hn h, ?_⟩
    by_cases hc : ∃ c, Holds slots n c
    · obtain ⟨c, hc⟩ := hc
      obtain ⟨s, t, hsearch⟩ := search_of_holds hc
      exact Or.inl (single_of_found tree hres hpath hn h hsearch)
    · exact Or.inr fun c hholds => hc ⟨c, hholds⟩
  · exact resolves_of tree' hpath hn h

section Nested

def nameSlot (c : U8) : Slot :=
  ⟨#[0x41, c, 0x00, 0x00, 0x00, 0xFF, 0xFF, 0xFF, 0xFF, 0xFF, 0xFF, 0x0F, 0x00, 0x00,
    0xFF, 0xFF, 0xFF, 0xFF, 0xFF, 0xFF, 0xFF, 0xFF, 0xFF, 0xFF, 0xFF, 0xFF, 0x00, 0x00,
    0xFF, 0xFF, 0xFF, 0xFF], rfl⟩

def dirSlot (cluster : U8) : Slot := ((blankSlot 0x41).setIfInBounds 11 FAT_DIR_ENT).setIfInBounds 26 cluster

def parentSlots (c cluster : U8) : List Slot :=
  nameSlot c :: dirSlot cluster :: List.replicate 14 (blankSlot 0x00)

def nestedCard (lba : Nat) : Vector U8 512 :=
  if lba = 2 then sectorOf (parentSlots 0x41 3) rfl
  else if lba = 3 then sectorOf (parentSlots 0x42 4) rfl
  else blankSector 0x00

def nestedFs : MountedFs where
  fattlb := [0x0FFFFFF8, 0x0FFFFFFF, 0x0FFFFFFF, 0x0FFFFFFF, 0x0FFFFFFF]
  dev := reader nestedCard
  bpb := ⟨512, 1⟩
  firstdatalba := 2
  clustersize := 512
  ebr := ⟨2⟩

theorem getElem?_parentSlots {c cluster : U8} {i : Nat} {t : Slot}
    (h : (parentSlots c cluster)[i]? = some t) :
    i = 0 ∧ t = nameSlot c ∨ i = 1 ∧ t = dirSlot cluster ∨ t = blankSlot 0x00 := by
  match i with
  | 0 => exact Or.inl ⟨rfl, (Option.some.inj h).symm⟩
  | 1 => exact Or.inr (Or.inl ⟨rfl, (Option.some.inj h).symm⟩)
  | i + 2 => exact Or.inr (Or.inr (List.eq_of_mem_replicate (List.mem_of_getElem? (i := i) h)))

theorem holds_parentSlots {c cluster : U8} {n : Str} {d : U32} (h : Holds (parentSlots c cluster) n d) :
    n = (nameSlot c).chars ∧ d = (dirSlot cluster).cluster := by
  obtain ⟨i, s, t, hs, hspells, ht, hattr, rfl⟩ := h
  rcases getElem?_parentSlots ht.1 with ⟨hi, -⟩ | ⟨hi, rfl⟩ | rfl
  · cases hi
  · obtain rfl : i = 0 := Nat.succ.inj hi
    obtain rfl := Option.some.inj hs.1
    exact ⟨hspells.chars_eq.symm, rfl⟩
  · cases hattr

theorem parentSlots_holds {c : U8} (cluster : U8) (hc : c ≠ 0x00 ∧ c < 0x80) :
    Holds (parentSlots c cluster) [c] (dirSlot cluster).cluster := by
  have hused : ∀ j ≤ 1, ∀ u : Slot, (parentSlots c cluster)[j]? = some u → u.first = 0x41 := by
    intro j hj u hu
    rcases Nat.le_one_iff_eq_zero_or_eq_one.mp hj with rfl | rfl <;> obtain rfl := Option.some.inj hu <;> rfl
  have hmark : (0x41 : U8) ≠ 0xE5 ∧ (0x41 : U8) ≠ 0x00 := by decide
  have hin : ∀ i ≤ 1, ∀ u : Slot, (parentSlots c cluster)[i]? = some u →
      InUse (parentSlots c cluster) i u := by
    refine fun i hi u hu => ⟨hu, ?_, fun j hj w hw => ?_⟩
    · rw [hused i hi u hu]
      exact hmark.1
    · rw [hused j (hj.trans hi) w hw]
      exact hmark.2
  refine ⟨0, nameSlot c, dirSlot cluster, hin 0 (Nat.zero_le _) _ rfl, ⟨rfl, rfl, ?_, ?_, rfl⟩,
    hin 1 le_rfl _ rfl, rfl, rfl⟩
  · exact Nat.le_add_left 1 12
  · intro e he
    rwa [List.mem_singleton.mp he]

theorem rootSlots_parentSlots (c cluster : U8) : RootSlots (parentSlots c cluster) := by
  refine ⟨fun i t ht hattr => ?_, fun n d e hd he => ?_⟩
  · rcases getElem?_parentSlots ht with ⟨-, rfl⟩ | ⟨rfl, rfl⟩ | rfl
    · cases hattr
    · exact Or.inr ⟨0, _, rfl, rfl, rfl⟩
    · cases hattr
  · exact (holds_parentSlots hd).2.trans (holds_parentSlots he).2.symm

theorem nested_directory {c : U32} (hc : c = 2 ∨ c = 3 ∨ c = 4) {slots : List Slot}
    (hslots : (nestedCard c.toNat).toList = bytes slots) :
    Chain nestedFs.toFatFs c [c] ∧ Directory nestedFs.toFatFs nestedCard c slots := by
  have hfacts : nextCluster nestedFs.toFatFs c = .last ∧ clusterLba nestedFs.toFatFs c = c.toNat ∧
      2 ≤ c.toNat ∧ c.toNat ≤ 4 := by
    rcases hc with rfl | rfl | rfl <;> exact ⟨rfl, rfl, by decide, by decide⟩
  obtain ⟨hlast, hlba, hlo, hhi⟩ := hfacts
  have hone : sectors nestedFs.toFatFs = 1 := rfl
  have hchain : Chain nestedFs.toFatFs c [c] := .last hlast
  have hsize : 1 * nestedFs.clustersize.toNat < 2 ^ 32 := by decide
  refine ⟨hchain, [c], hchain, fun d hd => ?_, hsize, ?_⟩
  · obtain rfl := List.mem_singleton.mp hd
    exact ⟨hlo, by omega, by omega⟩
  · rw [List.flatMap_singleton, clusterBytes, hlba, hone, sectorBytes, List.range_one,
      List.flatMap_singleton, Nat.add_zero, hslots]

theorem nested_root : Directory nestedFs.toFatFs nestedCard 2 (parentSlots 0x41 3) :=
  (nested_directory (Or.inl rfl) rfl).2

theorem nested_child : Directory nestedFs.toFatFs nestedCard 3 (parentSlots 0x42 4) :=
  (nested_directory (Or.inr (Or.inl rfl)) rfl).2

theorem nested_grandchild : Directory nestedFs.toFatFs nestedCard 4 (blankSlots 0x00) :=
  (nested_directory (Or.inr (Or.inr rfl)) rfl).2

theorem nested_names {p : List Str} {c : U32} (h : Names nestedFs.toFatFs nestedCard 2 p c) :
    p = [] ∧ c = 2 ∨ p = [[0x41]] ∧ c = 3 ∨ p = [[0x41], [0x42]] ∧ c = 4 := by
  cases h with
  | here => exact Or.inl ⟨rfl, rfl⟩
  | step hdir hholds h =>
      obtain rfl := Directory.unique nested_root hdir
      obtain ⟨rfl, rfl⟩ := holds_parentSlots hholds
      cases h with
      | here => exact Or.inr (Or.inl ⟨rfl, rfl⟩)
      | step hdir hholds h =>
          obtain rfl := Directory.unique nested_child hdir
          obtain ⟨rfl, rfl⟩ := holds_parentSlots hholds
          cases h with
          | here => exact Or.inr (Or.inr ⟨rfl, rfl⟩)
          | step hdir hholds h =>
              obtain rfl := Directory.unique nested_grandchild hdir
              obtain ⟨i, s, t, -, -, ht, hattr, -⟩ := hholds
              rw [attr_blankSlot (List.mem_of_getElem? ht.1)] at hattr
              cases hattr

theorem nested_tree : Tree nestedFs nestedCard (parentSlots 0x41 3) := by
  have hchain : ∀ c : U32, c = 2 ∨ c = 3 ∨ c = 4 → ∀ cs, Chain nestedFs.toFatFs c cs → cs = [c] := by
    rintro c hc cs hcs
    rcases hc with rfl | rfl | rfl <;> exact hcs.unique (.last rfl)
  refine ⟨⟨rfl, by decide, fun _ _ _ => rfl⟩, by decide, nested_root, rootSlots_parentSlots _ _,
    fun p c h => ?_, fun p q c d cs ds hp hq hne hcs hds => ?_⟩
  · rcases nested_names h with ⟨-, rfl⟩ | ⟨-, rfl⟩ | ⟨-, rfl⟩
    · exact ⟨_, nested_root⟩
    · exact ⟨_, nested_child⟩
    · exact ⟨_, nested_grandchild⟩
  · have hc : c = 2 ∨ c = 3 ∨ c = 4 := (nested_names hp).imp And.right (Or.imp And.right And.right)
    have hd : d = 2 ∨ d = 3 ∨ d = 4 := (nested_names hq).imp And.right (Or.imp And.right And.right)
    have hcd : c ≠ d := by
      rintro rfl
      rcases nested_names hp with ⟨rfl, rfl⟩ | ⟨rfl, rfl⟩ | ⟨rfl, rfl⟩ <;>
        rcases nested_names hq with ⟨rfl, h⟩ | ⟨rfl, h⟩ | ⟨rfl, h⟩ <;>
        first
          | exact hne rfl
          | exact absurd h (by decide)
    rw [hchain c hc cs hcs, hchain d hd ds hds]
    exact List.disjoint_singleton.mpr fun hmem => hcd (List.mem_singleton.mp hmem).symm

/-- The name of a root directory is resolved, on this card and every other. -/
theorem nested_single : Resolves nestedFs nestedCard [0x41] ∧
    ResolvesOnEvery nestedFs (parentSlots 0x41 3) [0x41] := by
  have hascii : (0x41 : U8) ≠ 0x00 ∧ (0x41 : U8) < 0x80 := by decide
  have hresolvable : Resolvable (parentSlots 0x41 3) [0x41] [] :=
    ⟨⟨_, 2, rfl⟩, fun c hc => ⟨_, _, rfl, (holds_parentSlots hc).2.symm⟩,
      fun hno => absurd (parentSlots_holds 3 hascii) (hno _), Or.inl rfl⟩
  have hreserved : Reserved nestedFs (parentSlots 0x41 3) := by
    refine ⟨⟨⟨_, rfl, by decide⟩, by decide⟩, by decide, fun i s hs h => ?_, fun t ht hattr => ?_⟩
    · rcases getElem?_parentSlots hs with ⟨-, rfl⟩ | ⟨rfl, rfl⟩ | rfl
      · exact rfl
      · rcases h with h | ⟨h, -⟩
        · exact absurd h (by decide)
        · cases h
      · exact rfl
    · obtain ⟨i, hi⟩ := List.mem_iff_getElem?.mp ht
      rcases getElem?_parentSlots hi with ⟨-, rfl⟩ | ⟨-, rfl⟩ | rfl
      · cases hattr
      · exact ⟨by decide, by decide, by decide⟩
      · cases hattr
  have hnames : names [0x41] = [[0x41]] := rfl
  have hboth := opendir_resolves_iff nested_tree hnames (by decide)
  exact ⟨hboth.1 hresolvable, (hboth.2 hreserved).mpr hresolvable⟩

def zeroed : Dirent := ⟨0, fun _ => 0⟩

/-- A and B are directories, but A/B is not found. -/
theorem nested_not_found : Tree nestedFs nestedCard (parentSlots 0x41 3) ∧
    Names nestedFs.toFatFs nestedCard 2 (names [0x41, slash, 0x42]) 4 ∧
    fatOpendir 20 (granted zeroed) nestedFs (some [0x41, slash, 0x42]) = some (.ok none) ∧
    ¬ Resolves nestedFs nestedCard [0x41, slash, 0x42] := by
  have hnames : Names nestedFs.toFatFs nestedCard 2 (names [0x41, slash, 0x42]) 4 :=
    .step nested_root (parentSlots_holds 3 (by decide))
      (.step nested_child (parentSlots_holds 4 (by decide)) (.here 4))
  have hnull : fatOpendir 20 (granted zeroed) nestedFs (some [0x41, slash, 0x42]) = some (.ok none) := by
    decide +kernel
  refine ⟨nested_tree, hnames, hnull, fun h => ?_⟩
  obtain ⟨bound, hopens⟩ := h.named _ (grants_granted zeroed) 4 [4] hnames (.last rfl)
  have hsome := hopens (max bound 20) (le_max_left _ _)
  cases hsome.symm.trans (fatOpendir_mono (le_max_right bound 20) hnull)

end Nested

end MetalNes.PathResolution
