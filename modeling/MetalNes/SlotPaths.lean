import MetalNes.ClusterUse
import MetalNes.PathSplit
import MetalNes.SlotSearch

namespace MetalNes.SlotPaths

open Loop LinkedPath CStrings Fat32 ClusterChains DirectorySlots FatFiles DirectorySearch DirectoryTree RootSearch
  OpenCalls ClusterUse SlotSearch

section Paths

variable (fs : MountedFs) (sector : Nat → Vector U8 512) (start : Dirent) (path : Str)

/-- The directories along a path, as the numbers in the slots lead to them: the dirent held
on the way there, the first cluster, and the names still to be found. -/
inductive Comes : Dirent → U32 → List Str → Prop
  | root : Comes start fs.ebr.clusterRootNum (names path)
  | inner {out : Dirent} {c : U32} {n m : Str} {ns : List Str} {slots : List Slot} {hit : Hit}
      (h : Comes out c (n :: m :: ns)) (hdir : Directory fs.toFatFs sector c slots)
      (hhit : lookup n out 0 slots = .ok (some hit)) : Comes hit.dirent hit.inner (m :: ns)

/-- The search in a directory along the path stops, with so many names behind. -/
def Meets (hit : Hit) (ns : List Str) : Prop :=
  ∃ out c n slots, Comes fs sector start path out c (n :: ns) ∧ Directory fs.toFatFs sector c slots ∧
    lookup n out 0 slots = .ok (some hit)

/-- The slots along the path from which a first cluster is taken name clusters in use. -/
def SoundPath : Prop :=
  ∀ hit ns, Meets fs sector start path hit ns → ∀ d, hit.taken ns = some d → ClusterUse.InUse fs.toFatFs d

inductive EndsAt : U32 → Prop
  | root (h : path = [slash]) : EndsAt fs.ebr.clusterRootNum
  | last {hit : Hit} {c : U32} (h : Meets fs sector start path hit []) (hc : hit.taken [] = some c) : EndsAt c

/-- The entry of the file in the directory at the end of the path names a cluster in use, and
a size. -/
def SoundFile (fname : Str) (rdir : Dirent) : Prop :=
  ∀ c slots t, EndsAt fs sector start path c → Directory fs.toFatFs sector c slots →
    lookupFile fname rdir 0 slots = .ok (some t) → ClusterUse.InUse fs.toFatFs t.cluster ∧ entrySize t ≠ 0

end Paths

section Walks

variable {fs : MountedFs} {sector : Nat → Vector U8 512} {allocs : Allocs} {path : Str}

theorem Comes.length_le {start out : Dirent} {c : U32} {l : List Str} (h : Comes fs sector start path out c l) :
    l.length ≤ (names path).length := by
  induction h with
  | root => exact le_rfl
  | inner _ _ _ ih => exact (Nat.le_succ _).trans ih

theorem Meets.single {start : Dirent} {hit : Hit} {n : Str} {ns : List Str} {slots : List Slot}
    (h : Meets fs sector start path hit ns) (hname : names path = [n])
    (hroot : Directory fs.toFatFs sector fs.ebr.clusterRootNum slots) :
    ns = [] ∧ lookup n start 0 slots = .ok (some hit) := by
  obtain ⟨out, c, m, slots', hcomes, hdir, hhit⟩ := h
  generalize hl : m :: ns = l at hcomes
  cases hcomes with
  | root =>
      obtain ⟨rfl, rfl⟩ := List.cons.inj (hl.trans hname)
      obtain rfl := Directory.unique hroot hdir
      exact ⟨rfl, hhit⟩
  | inner h _ _ =>
      have hle := h.length_le
      rw [hname] at hle
      simp at hle

theorem walks_of_comes (hv : Volume fs.toFatFs sector) (hgrants : Grants allocs) {out : Dirent} {c : U32} {n : Str}
    {ns : List Str} (h : Comes fs sector allocs.dirent path out c (n :: ns)) {slots : List Slot}
    (hdir : Directory fs.toFatFs sector c slots) : ∃ bound calls size rest,
      size.toNat = slots.length * sizeofDirent ∧ names rest = ns ∧
      ∀ fuel ≥ bound, Walks fuel allocs fs path ⟨bytes slots, size, 0, out, some n, rest, calls⟩ := by
  generalize hl : n :: ns = l at h
  induction h generalizing n ns slots with
  | root =>
      obtain ⟨hne, rest, hstrtok, hrest⟩ := strtok_of_names hl.symm
      obtain ⟨bound, size, hsize, hread⟩ := Directory.read hv hdir
      refine ⟨bound, 1, size, rest, hsize, hrest, fun fuel hfuel => ⟨hne, _, _, hread (hgrants 0) fuel hfuel, ?_⟩⟩
      rw [hstrtok]
      exact .here _
  | @inner out c n' m ns' slots' hit hcomes hdir' hhit ih =>
      obtain ⟨rfl, rfl⟩ := List.cons.inj hl
      obtain ⟨bound, calls, size, rest, hsize, hrest, hwalks⟩ := ih hdir' rfl
      obtain ⟨-, rest', hstrtok, hrest'⟩ := strtok_of_names hrest
      obtain ⟨bound', size', hsize', hread⟩ := Directory.read hv hdir
      have hstart := Looking.of_start slots' hsize n' out rest calls
      obtain ⟨j, k, old, hat, hhere⟩ := visits_hit (i := 0) hstart.looks hhit
      have hpass : ∀ fuel, opendirBody fuel allocs fs
          (Walk.at ⟨bytes slots', size, 0, out, some n', rest, calls⟩ j old) =
          enter fuel allocs fs (Walk.at ⟨bytes slots', size, 0, out, some n', rest, calls⟩ j old) hit.dirent n rest' :=
        fun fuel => opendirBody_inner hstart.looks hat.inside hat.getdirent hat.found hstrtok
      refine ⟨max bound bound', calls + 1, size', rest', hsize', hrest', fun fuel hfuel => ?_⟩
      obtain ⟨hne, buffer, buffersize, hroot, hvisits⟩ := hwalks fuel (le_of_max_le_left hfuel)
      have hread' := hread (hgrants calls) fuel (le_of_max_le_right hfuel)
      have hnext := hpass fuel
      simp only [enter, Walk.at, hat.inner, hread'] at hnext
      have hhere' := hhere fuel allocs fs
      rw [← hstart.place] at hhere'
      exact ⟨hne, buffer, buffersize, hroot, (hvisits.trans hhere').snoc hnext⟩

theorem walks_of_meets (hv : Volume fs.toFatFs sector) (hgrants : Grants allocs) {hit : Hit} {ns : List Str}
    (h : Meets fs sector allocs.dirent path hit ns) : ∃ bound v nextoffset, names v.rest = ns ∧
      (∀ fuel ≥ bound, Walks fuel allocs fs path v) ∧ DirFound v nextoffset ∧
      innerClusterAt v.buffer v.readptr = some hit.inner ∧
      ∀ c, hit.taken [] = some c → clusterAt v.buffer (v.readptr + nextoffset - sizeofDirent) = some c := by
  obtain ⟨out, c, n, slots, hcomes, hdir, hhit⟩ := h
  obtain ⟨bound, calls, size, rest, hsize, hrest, hwalks⟩ := walks_of_comes hv hgrants hcomes hdir
  have hstart := Looking.of_start slots hsize n out rest calls
  obtain ⟨j, k, old, hat, hhere⟩ := visits_hit (i := 0) hstart.looks hhit
  refine ⟨bound, Walk.at ⟨bytes slots, size, 0, out, some n, rest, calls⟩ j old, offsetOf k, hrest, ?_, ?_, hat.inner,
    ?_⟩
  · intro fuel hfuel
    obtain ⟨hne, buffer, buffersize, hroot, hvisits⟩ := hwalks fuel hfuel
    have hhere' := hhere fuel allocs fs
    rw [← hstart.place] at hhere'
    exact ⟨hne, buffer, buffersize, hroot, hvisits.trans hhere'⟩
  · have hlt := hat.inside
    refine ⟨?_, hit.dirent, hat.getdirent, hat.found⟩
    show j * sizeofDirent < size.toNat
    rw [hsize, sizeofDirent]
    omega
  · intro d hd
    have hentry : k ≠ 0 := by
      rintro rfl
      rw [Hit.taken, hat.entry] at hd
      cases hd
    exact (hat.last fun hk => absurd hk hentry).trans hd

theorem length_of_grants (hgrants : Grants allocs) (k : Nat) :
    ∀ n data, allocs.data k n = some data → data.length = n.toNat := by
  intro n data hdata
  obtain ⟨block, hblock, hlen⟩ := hgrants k n
  cases hdata.symm.trans hblock
  exact hlen

/-- Where a walk is: in a directory along the path, or in the root without a name to look for. -/
def OnPath (fs : MountedFs) (sector : Nat → Vector U8 512) (start : Dirent) (path : Str) (v : Walk) : Prop :=
  v.subdir = none ∨ ∃ out c n slots i, Comes fs sector start path out c (n :: names v.rest) ∧
    Directory fs.toFatFs sector c slots ∧ Looking slots n out i v

theorem not_found_none (dir : Dirent) : found dir none ≠ .ok true := by
  intro h
  unfold found at h
  split at h <;> cases h

theorem enter_next {fuel : Nat} {v w : Walk} {dir : Dirent} {subdir rest : Str}
    (h : enter fuel allocs fs v dir subdir rest = .next w) : ∃ c buffer size,
      innerClusterAt v.buffer v.readptr = some c ∧
      fatGetdata fuel (allocs.data v.calls) c fs.toFatFs = some (.ok (buffer, size)) ∧
      w = ⟨buffer, size, 0, dir, some subdir, rest, v.calls + 1⟩ := by
  unfold enter at h
  split at h
  · cases h
  · next c hc =>
      split at h
      · cases h
      · cases h
      · next buffer size hget =>
          cases h
          exact ⟨c, buffer, size, hc, hget, rfl⟩

theorem enter_ne_dir {fuel : Nat} {v : Walk} {dir : Dirent} {subdir rest : Str} {r : FatDir} :
    enter fuel allocs fs v dir subdir rest ≠ .done (some (.ok (some r))) := by
  intro h
  unfold enter at h
  split at h
  · cases h
  · split at h <;> cases h

theorem onPath_enter (hfs : WellFormed fs.toFatFs) (hv : Volume fs.toFatFs sector) (hgrants : Grants allocs)
    (hsound : SoundPath fs sector allocs.dirent path) {fuel : Nat} {v w : Walk} {n m rest : Str} {slots : List Slot}
    {out : Dirent} {c : U32} {hit : Hit} (hcomes : Comes fs sector allocs.dirent path out c (n :: m :: names rest))
    (hdir : Directory fs.toFatFs sector c slots) (hhit : lookup n out 0 slots = .ok (some hit))
    (hinner : innerClusterAt v.buffer v.readptr = some hit.inner)
    (hnext : enter fuel allocs fs v hit.dirent m rest = .next w) : OnPath fs sector allocs.dirent path w := by
  obtain ⟨d, buffer, size, hd, hget, rfl⟩ := enter_next hnext
  obtain rfl := Option.some.inj (hinner.symm.trans hd)
  have huse := hsound hit (m :: names rest) ⟨out, c, n, slots, hcomes, hdir, hhit⟩ hit.inner rfl
  obtain ⟨target, htarget, rfl, hsize⟩ := directory_of_read hfs hv huse (length_of_grants hgrants _) hget
  exact Or.inr ⟨_, _, _, target, 0, .inner hcomes hdir hhit, htarget, .of_start target hsize m hit.dirent rest _⟩

theorem OnPath.next (hfs : WellFormed fs.toFatFs) (hv : Volume fs.toFatFs sector) (hgrants : Grants allocs)
    (hsound : SoundPath fs sector allocs.dirent path) {fuel : Nat} {v w : Walk}
    (h : OnPath fs sector allocs.dirent path v) (hnext : opendirBody fuel allocs fs v = .next w) :
    OnPath fs sector allocs.dirent path w := by
  have hinside : v.readptr < v.buffersize.toNat := by
    by_contra hend
    rw [opendirBody, if_neg hend] at hnext
    cases hnext
  cases hget : fatGetdirent v.buffer v.readptr v.dir with
  | none =>
      simp only [opendirBody, if_pos hinside, hget] at hnext
      cases hnext
  | some r =>
      obtain ⟨nextoffset, e⟩ := r
      cases hfound : found e v.subdir with
      | error f =>
          simp only [opendirBody, if_pos hinside, hget, hfound] at hnext
          cases hnext
      | ok b =>
          rcases h with hnone | ⟨out, c, n, slots, i, hcomes, hdir, hlooking⟩
          · cases b with
            | true =>
                rw [hnone] at hfound
                exact absurd hfound (not_found_none e)
            | false =>
                simp only [opendirBody, if_pos hinside, hget, hfound] at hnext
                cases hnext
                exact Or.inl hnone
          · have hi := hlooking.inside.mp hinside
            obtain ⟨k, hparse, hoffset⟩ := hlooking.parsed hget
            have hfound' := hlooking.looks.subdir ▸ hfound
            cases b with
            | false =>
                obtain ⟨hbody, hnew⟩ : opendirBody fuel allocs fs v = _ ∧ _ := hlooking.next hi hparse hfound'
                cases hbody.symm.trans hnext
                exact Or.inr ⟨out, c, n, slots, _, hcomes, hdir, hnew⟩
            | true =>
                obtain ⟨hit, hhit, hat, rfl, -⟩ := hlooking.hit hi hparse hfound'
                cases hstrtok : strtok v.rest with
                | mk token rest =>
                    cases token with
                    | none =>
                        simp only [opendirBody, if_pos hinside, hget, hfound, hstrtok] at hnext
                        cases hnext
                    | some m =>
                        simp only [opendirBody, if_pos hinside, hget, hfound, hstrtok] at hnext
                        rw [names_of_strtok hstrtok] at hcomes
                        exact onPath_enter hfs hv hgrants hsound hcomes hdir hhit (hlooking.inner hat) hnext

theorem onPath_of_walks (hfs : WellFormed fs.toFatFs) (hroot : ClusterUse.InUse fs.toFatFs fs.ebr.clusterRootNum)
    (hv : Volume fs.toFatFs sector) (hgrants : Grants allocs) (hsound : SoundPath fs sector allocs.dirent path)
    {fuel : Nat} {v : Walk} (h : Walks fuel allocs fs path v) : OnPath fs sector allocs.dirent path v := by
  obtain ⟨-, buffer, size, hget, hvisits⟩ := h
  refine hvisits.invariant (fun u w hu hnext => hu.next hfs hv hgrants hsound hnext) ?_
  obtain ⟨slots, hdir, rfl, hsize⟩ := directory_of_read hfs hv hroot (length_of_grants hgrants 0) hget
  cases hstrtok : strtok path with
  | mk token rest =>
      cases token with
      | none => exact Or.inl rfl
      | some n =>
          refine Or.inr ⟨allocs.dirent, _, n, slots, 0, ?_, hdir, .of_start slots hsize n _ rest 1⟩
          have hcomes : Comes fs sector allocs.dirent path allocs.dirent _ (names path) := .root
          rwa [names_of_strtok hstrtok] at hcomes

/-- What a walk finds, a search along the path stops at. -/
theorem OnPath.found {v : Walk} (h : OnPath fs sector allocs.dirent path v) {nextoffset : Int}
    (hfound : DirFound v nextoffset) : ∃ hit, Meets fs sector allocs.dirent path hit (names v.rest) ∧
      innerClusterAt v.buffer v.readptr = some hit.inner ∧
      clusterAt v.buffer (v.readptr + nextoffset - sizeofDirent) = hit.taken [] := by
  obtain ⟨hinside, dir, hget, hdir⟩ := hfound
  rcases h with hnone | ⟨out, c, n, slots, i, hcomes, hdirectory, hlooking⟩
  · rw [hnone] at hdir
    exact absurd hdir (not_found_none dir)
  · obtain ⟨k, hparse, rfl⟩ := hlooking.parsed hget
    obtain ⟨hit, hhit, hat, -, hfirst⟩ :=
      hlooking.hit (hlooking.inside.mp hinside) hparse (hlooking.looks.subdir ▸ hdir)
    exact ⟨hit, ⟨out, c, n, slots, hcomes, hdirectory, hhit⟩, hlooking.inner hat, hlooking.last hat hfirst⟩

end Walks

section Calls

variable {fs : MountedFs} {sector : Nat → Vector U8 512} {allocs : Allocs} {path : Str}

theorem opendir_of_walks {b : Nat} {v : Walk} (hw : Walks b allocs fs path v) {r : Except Fault (Option FatDir)}
    (hdone : opendirBody b allocs fs v = .done (some r)) :
    ∃ bound, ∀ fuel ≥ bound, fatOpendir fuel allocs fs (some path) = some r := by
  obtain ⟨hne, buffer, size, hroot, hvisits⟩ := hw
  obtain ⟨passes, hrun⟩ := hvisits.returns_done hdone
  refine ⟨max b passes, fun fuel hfuel => ?_⟩
  have hroot' := fatGetdata_mono (le_of_max_le_left hfuel) hroot
  have hrun' := run_mono (le_of_max_le_right hfuel) (run_opendirBody_mono (le_of_max_le_left hfuel) hrun)
  simp only [fatOpendir, if_neg hne, hroot']
  exact Option.join_eq_some_iff.mpr hrun'

theorem opendir_of_endsAt (hv : Volume fs.toFatFs sector) (hgrants : Grants allocs) {c : U32}
    (h : EndsAt fs sector allocs.dirent path c) {slots : List Slot} (hdir : Directory fs.toFatFs sector c slots) :
    ∃ bound, ∀ fuel ≥ bound, fatOpendir fuel allocs fs (some path) = some (.ok (some (dirAt slots 0))) := by
  obtain ⟨bound, size, hsize, hread⟩ := Directory.read hv hdir
  have hopen : ∀ calls, ∀ fuel ≥ bound, openData fuel allocs fs calls c = some (.ok (some (dirAt slots 0))) := by
    intro calls fuel hfuel
    simp only [openData, hread (hgrants calls) fuel hfuel, hsize, dirAt, Nat.zero_mul]
  cases h with
  | root hpath =>
      refine ⟨bound, fun fuel hfuel => ?_⟩
      rw [fatOpendir, if_pos hpath]
      exact hopen 0 fuel hfuel
  | last hmeets hc =>
      obtain ⟨bound', v, nextoffset, hnames, hwalks, ⟨hinside, dir, hget, hfound⟩, -, hcluster⟩ :=
        walks_of_meets hv hgrants hmeets
      have hstrtok := strtok_of_nil hnames
      refine opendir_of_walks (hwalks _ (Nat.le_max_right bound bound')) ?_
      simp only [opendirBody, if_pos hinside, hget, hfound, hstrtok, arrive, hcluster c hc,
        hopen v.calls _ (Nat.le_max_left bound bound')]

theorem endsAt_of_opendir (hfs : WellFormed fs.toFatFs) (hroot : ClusterUse.InUse fs.toFatFs fs.ebr.clusterRootNum)
    (hv : Volume fs.toFatFs sector) (hgrants : Grants allocs) (hsound : SoundPath fs sector allocs.dirent path)
    {fuel : Nat} {dir : FatDir} (h : fatOpendir fuel allocs fs (some path) = some (.ok (some dir))) :
    ∃ c slots, EndsAt fs sector allocs.dirent path c ∧ Directory fs.toFatFs sector c slots ∧ dir = dirAt slots 0 := by
  have hopen : ∀ {calls c}, ClusterUse.InUse fs.toFatFs c → openData fuel allocs fs calls c = some (.ok (some dir)) →
      ∃ slots, Directory fs.toFatFs sector c slots ∧ dir = dirAt slots 0 := by
    intro calls c huse hdata
    unfold openData at hdata
    split at hdata
    · cases hdata
    · cases hdata
    · next hget =>
        cases hdata
        obtain ⟨slots, hdir, rfl, hsize⟩ := directory_of_read hfs hv huse (length_of_grants hgrants _) hget
        exact ⟨slots, hdir, by rw [hsize, dirAt, Nat.zero_mul]⟩
  by_cases hpath : path = [slash]
  · rw [fatOpendir, if_pos hpath] at h
    obtain ⟨slots, hdir, rfl⟩ := hopen hroot h
    exact ⟨_, slots, .root hpath, hdir, rfl⟩
  · simp only [fatOpendir, if_neg hpath] at h
    split at h
    · cases h
    · cases h
    · next hget =>
        obtain ⟨v, hvisits, hdone⟩ := exists_done (Option.join_eq_some_iff.mp h)
        have hon : OnPath fs sector allocs.dirent path v :=
          onPath_of_walks hfs hroot hv hgrants hsound ⟨hpath, _, _, hget, hvisits⟩
        unfold opendirBody at hdone
        split at hdone
        · next hinside =>
            split at hdone
            · cases hdone
            · next hdirent =>
                split at hdone
                · cases hdone
                · next hfound =>
                    obtain ⟨hit, hmeets, -, hcluster⟩ := hon.found ⟨hinside, _, hdirent, hfound⟩
                    split at hdone
                    · next hstrtok =>
                        have hnil : names v.rest = [] := names_of_strtok_none hstrtok
                        injection hdone with hdone
                        simp only [arrive] at hdone
                        split at hdone
                        · cases hdone
                        · next c hc =>
                            rw [hnil] at hmeets
                            have htaken := hcluster.symm.trans hc
                            obtain ⟨slots, hdir, rfl⟩ := hopen (hsound hit [] hmeets c htaken) hdone
                            exact ⟨c, slots, .last hmeets htaken, hdir, rfl⟩
                    · exact absurd hdone enter_ne_dir
                · cases hdone
        · cases hdone

variable {malloc : U32 → Option (List U8)} {fname : Str} {rdir : Dirent}

/-- fat_fopen comes to the entry that the search in the directory ends at. -/
theorem comesTo_of_lookup (hv : Volume fs.toFatFs sector) (hgrants : Grants allocs)
    (hname : (names path).getLast? = some fname) {c : U32} {slots : List Slot} {t : Slot}
    (hends : EndsAt fs sector allocs.dirent (pathTo path fname) c) (hdir : Directory fs.toFatFs sector c slots)
    (ht : lookupFile fname rdir 0 slots = .ok (some t)) : ∃ fuel j,
      ComesTo fuel allocs malloc fs path rdir (dirAt slots (j + 1)) ∧ slots[j]? = some t := by
  obtain ⟨bound, hfilename⟩ := PathSplit.getfilename_last hname
  obtain ⟨bound', hopendir⟩ := opendir_of_endsAt hv hgrants hends hdir
  obtain ⟨rdirent, fdir, rdir', v, j, hread, hfound, hfdir, hj, hvisits⟩ := visits_file (i := 0) ht
  have hfilename' := hfilename _ (Nat.le_max_left bound bound')
  have hopendir' := hopendir _ (Nat.le_max_right bound bound')
  refine ⟨max bound bound', j, ⟨fname, v, ⟨hfilename', dirAt slots 0, fdir, rdirent, rdir', hopendir', hread, ?_⟩,
    hfound, hfdir⟩, hj⟩
  exact hvisits _ malloc fs

theorem lookup_of_comesTo (hfs : WellFormed fs.toFatFs) (hroot : ClusterUse.InUse fs.toFatFs fs.ebr.clusterRootNum)
    (hv : Volume fs.toFatFs sector) (hgrants : Grants allocs) {fuel : Nat} {fdir : FatDir}
    (h : ComesTo fuel allocs malloc fs path rdir fdir) (hname : (names path).getLast? = some fname)
    (hsound : SoundPath fs sector allocs.dirent (pathTo path fname)) : ∃ c slots j t,
      EndsAt fs sector allocs.dirent (pathTo path fname) c ∧ Directory fs.toFatFs sector c slots ∧
      lookupFile fname rdir 0 slots = .ok (some t) ∧ slots[j]? = some t ∧ fdir = dirAt slots (j + 1) := by
  obtain ⟨fname', v, ⟨hfilename, dir, fdir', rdirent, rdir', hdir, hread, hvisits⟩, hfound, rfl⟩ := h
  obtain rfl := Option.some.inj ((PathSplit.last_of_getfilename hfilename).symm.trans hname)
  obtain ⟨c, slots, hends, hdirectory, rfl⟩ := endsAt_of_opendir hfs hroot hv hgrants hsound hdir
  have hscan : Scanning slots fname' rdir v :=
    hvisits.invariant (fun u w hu hnext => hu.next hnext) (scanning_of_readdir rfl hread)
  obtain ⟨j, t, hfdir, hj, hlookup⟩ := hscan.found hfound
  exact ⟨c, slots, j, t, hends, hdirectory, hlookup, hj, hfdir⟩

end Calls

end MetalNes.SlotPaths
