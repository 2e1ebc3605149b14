import MetalNes.MountWalks

namespace MetalNes.MountNames

open Blocks CStrings Loop Vfs SkipWalks MountWalks

variable {W : Type}

/-- What vfsfopen does at a mount whose driver does not open the file. -/
def refusedPass (path : Str) (m : Mount) (_ : Unit) : Pass Unit :=
  if Longer path m then .skip else if path = m.2.mountpath then .stop else .pass ()

/-- The mounts that vfsfopen can come to for a path. -/
abbrev candidates (path : Str) (ms : List Mount) : List Mount := (walk (refusedPass path) ms ()).1

abbrev NoMount (path : Str) (ms : List Mount) : Prop := ∀ m ∈ ms, ¬ m.2.mountpath <+: path

/-- The calls of the drivers name the path: each gets what stands behind the path of its
mount, and there is none if there is no mount for the path. -/
structure SameNames (path : Str) (ms : List Mount) (t : Trace) : Prop where
  named : ∀ c ∈ t.calls, ∃ m ∈ ms, m.1 = c.1 ∧ path = m.2.mountpath ++ c.2
  unmounted : NoMount path ms → t.calls = []

/-- Whatever the drivers do, vfsfopen names the path to them. -/
def NamesPath (path mode : Str) (s : VfsState W) (ms : List Mount) : Prop :=
  ∀ (drivers : Nat → FsDriver W) fuel r t, vfsfopenLog drivers (some path) mode s fuel = some (r, t) →
    SameNames path ms t

variable {drivers : Nat → FsDriver W} {path : Str} {s : VfsState W} {ms : List Mount}

theorem refusedPass_skip_iff (m : Mount) (u : Unit) : refusedPass path m u = .skip ↔ Longer path m := by
  refine skip_iff fun h => ?_
  split at h <;> cases h

theorem visited_subset (w : W) : (walk (vfsfopenPass drivers path) ms w).1 ⊆ candidates path ms := by
  refine walk_subset_of (fun m w u hf => ?_) (fun m w w' u hf => ?_) ms w ()
  · exact (refusedPass_skip_iff m u).mpr ((vfsfopenPass_skip_iff drivers path m w).mp hf)
  · obtain ⟨hlt, hne, -⟩ := vfsfopenPass_pass hf
    exact ⟨(), (if_neg hlt).trans (if_neg hne)⟩

def refusing (_ : Nat) : FsDriver W where
  fsopendir _ w := (none, w)
  fsclosedir _ w := (0, w)
  fsopenfile _ w := (none, w)
  fsclosefile _ w := (0, w)

theorem candidates_visited (w : W) : candidates path ms ⊆ (walk (vfsfopenPass refusing path) ms w).1 := by
  refine walk_subset_of (fun m u w hf => ?_) (fun m u u' w hf => ?_) ms () w
  · exact (vfsfopenPass_skip_iff refusing path m w).mpr ((refusedPass_skip_iff m u).mp hf)
  · unfold refusedPass at hf
    split at hf
    · cases hf
    · next hlt =>
        split at hf
        · cases hf
        · next hne => exact ⟨w, (if_neg hlt).trans (if_neg hne)⟩

theorem mem_vfsfopenOffer {m : Mount} {c : Nat × Str} : c ∈ vfsfopenOffer path m ↔
    (¬ Longer path m ∧ path ≠ m.2.mountpath) ∧ c = (m.1, path.drop m.2.mountpath.length) := by
  unfold vfsfopenOffer
  split
  · next h => exact iff_of_false List.not_mem_nil fun hc => not_or.mpr hc.1 h
  · next h => rw [List.mem_singleton, and_iff_right (not_or.mp h)]

theorem SameNames.of_nil {t : Trace} (h : t.calls = []) : SameNames path ms t :=
  ⟨fun _ hc => absurd (h ▸ hc) List.not_mem_nil, fun _ => h⟩

theorem SameNames.of_candidates {t : Trace} (drivers : Nat → FsDriver W) (w : W) (hcalls : t.calls =
    (walk (vfsfopenPass drivers path) ms w).1.flatMap (vfsfopenOffer path))
    (h : ∀ m ∈ candidates path ms, ¬ Longer path m → m.2.mountpath <+: path) : SameNames path ms t := by
  have hnamed : ∀ c ∈ t.calls, ∃ m ∈ ms, m.1 = c.1 ∧ path = m.2.mountpath ++ c.2 := by
    intro c hc
    rw [hcalls] at hc
    obtain ⟨m, hm, hoffer⟩ := List.mem_flatMap.mp hc
    obtain ⟨⟨hlt, -⟩, rfl⟩ := mem_vfsfopenOffer.mp hoffer
    exact ⟨m, walk_subset ms w m hm, rfl, List.prefix_append_drop (h m (visited_subset w hm) hlt)⟩
  refine ⟨hnamed, fun hnone => List.eq_nil_iff_forall_not_mem.mpr fun c hc => ?_⟩
  obtain ⟨m, hm, -, hpath⟩ := hnamed c hc
  exact hnone m hm (hpath ▸ List.prefix_append _ _)

theorem vfsfopenLog_walks (hlist : Linked s.nodes s.vfsMfs ms) (drivers : Nat → FsDriver W) (path : Str)
    {vfsofindex : Fin 64} (hfree : freeFile s = some vfsofindex) :
    ∃ fuel r, vfsfopenLog drivers (some path) modeRead s fuel =
      some (r, Trace.empty.along (vfsfopenOffer path) (walk (vfsfopenPass drivers path) ms s.world).1) := by
  obtain ⟨r, ⟨fuel, hrun⟩, -⟩ := (vfsfopenBodyLog_walks drivers path vfsofindex).returns
    (v := ⟨s.vfsMfs, s, .empty⟩) rfl hlist
  cases hroot : s.vfsMfs with
  | none =>
      rw [hroot] at hlist
      cases ms with
      | nil =>
          refine ⟨0, .ok (-1, s), ?_⟩
          simp only [vfsfopenLog, ne_eq, not_true_eq_false, if_false, hroot]
          rfl
      | cons m rest => cases hlist.1
  | some root =>
      refine ⟨fuel, r, ?_⟩
      simp only [vfsfopenLog, ne_eq, not_true_eq_false, if_false, hroot, hfree]
      rw [← hroot]
      exact hrun

/-- For every list of mounts, every path, mode and state: exactly if all mounts that vfsfopen
can come to, but the longer ones, have a prefix of the path as theirs. -/
theorem namesPath_iff (hlist : Linked s.nodes s.vfsMfs ms) (path mode : Str) : NamesPath path mode s ms ↔
    mode ≠ modeRead ∨ freeFile s = none ∨
      ∀ m ∈ candidates path ms, ¬ Longer path m → m.2.mountpath <+: path := by
  by_cases hmode : mode = modeRead
  · subst hmode
    rw [or_iff_right (not_not.mpr rfl)]
    cases hfree : freeFile s with
    | none =>
        refine iff_of_true (fun drivers fuel r t hrun => ?_) (.inl rfl)
        cases (vfsfopenLog_full path hfree).symm.trans hrun
        exact .of_nil rfl
    | some vfsofindex =>
        rw [or_iff_right (Option.some_ne_none vfsofindex)]
        constructor
        · intro hnames m hm hlt
          by_cases heq : path = m.2.mountpath
          · rw [heq]
          · obtain ⟨fuel, r, hrun⟩ := vfsfopenLog_walks hlist refusing path hfree
            have hcall : (m.1, path.drop m.2.mountpath.length) ∈
                (walk (vfsfopenPass refusing path) ms s.world).1.flatMap (vfsfopenOffer path) :=
              List.mem_flatMap.mpr ⟨m, candidates_visited s.world hm, mem_vfsfopenOffer.mpr ⟨⟨hlt, heq⟩, rfl⟩⟩
            obtain ⟨k, hk, haddr, hpath⟩ := (hnames refusing fuel r _ hrun).named _ hcall
            cases List.inj_on_of_nodup_map hlist.nodup hk (walk_subset ms () m hm) haddr
            rw [hpath]
            exact List.prefix_append _ _
        · intro hprefix drivers fuel r t hrun
          obtain ⟨fuel', r', hrun'⟩ := vfsfopenLog_walks hlist drivers path hfree
          cases vfsfopenLog_unique hrun hrun'
          exact .of_candidates drivers s.world rfl hprefix
  · refine iff_of_true (fun drivers fuel r t hrun => ?_) (.inl hmode)
    unfold vfsfopenLog at hrun
    rw [if_pos hmode] at hrun
    cases hrun
    exact .of_nil rfl

theorem below_sd_namesPath : NamesPath (sdPath ++ [slash, 0x78]) modeRead (mounted [rootPath, sdPath])
    [rootMount (some 1), sdMount] :=
  (namesPath_iff sd_linked _ modeRead).mpr (.inr (.inr (by decide)))

/-- Of a relative path, the driver of the root gets all but the first byte. -/
theorem relative_path_renamed : Linked (mounted [rootPath]).nodes (mounted [rootPath]).vfsMfs [rootMount none] ∧
    ¬ NamesPath [0x78, 0x79] modeRead (mounted [rootPath]) [rootMount none] := by
  refine ⟨⟨rfl, rfl, rfl⟩, fun hnames => ?_⟩
  have hrun : vfsfopenLog refusing (some [0x78, 0x79]) modeRead (mounted [rootPath]) 2 =
      some (.ok (-1, mounted [rootPath]), ⟨[0], [(0, [0x79])]⟩) := rfl
  exact absurd ((hnames refusing 2 _ _ hrun).unmounted (by decide)) (by decide)

end MetalNes.MountNames
