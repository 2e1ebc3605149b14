import MetalNes.HandleTables
import MetalNes.Runs

namespace MetalNes.OpenHandles

open Blocks CStrings Loop Runs Vfs HandleTables

variable {W : Type}

section Calls

variable (drivers : Nat → FsDriver W) (root : Nat)

def fileOffer (s : VfsState W) (path : Option Str) : Option Nat :=
  path.bind fun p => ((drivers root).fsopenfile (p.drop rootPath.length) s.world).1

def dirOffer (s : VfsState W) (path : Option Str) : Option Nat :=
  path.bind fun p =>
    ((drivers root).fsopendir (if p = rootPath then rootPath else p.drop rootPath.length) s.world).1

/-- A call that returns. -/
def Step (s : VfsState W) (e : Entry) (t : VfsState W) : Prop :=
  match e with
  | .vfsfopen path obtained result => obtained = fileOffer drivers root s path ∧
      ∃ fuel, Vfs.vfsfopen drivers path modeRead s fuel = some (.ok (result, t))
  | .vfsfclose fd result => Vfs.vfsfclose drivers fd.val s = .ok (result, t)
  | .opendir path obtained result => obtained = dirOffer drivers root s path ∧
      ∃ fuel, Vfs.opendir drivers path s fuel = some (.ok (result, t))
  | .closedir dir result => Vfs.closedir drivers dir s = .ok (result, t)

/-- Only an open call with the empty path may fail to return. -/
structure Responds (s : VfsState W) : Prop where
  vfsfopen : ∀ path, path ≠ some [] → ∃ obtained result t, Step drivers root s (.vfsfopen path obtained result) t
  vfsfclose : ∀ fd, ∃ result t, Step drivers root s (.vfsfclose fd result) t
  opendir : ∀ path, path ≠ some [] → ∃ obtained result t, Step drivers root s (.opendir path obtained result) t
  closedir : ∀ dir, ∃ result t, Step drivers root s (.closedir dir result) t

/-- Along a run, with the history from the start. -/
def Orderly (h : List Entry) (s : VfsState W) : List (Entry × VfsState W) → Prop
  | [] => Consistent root h s ∧ Responds drivers root s
  | (e, t) :: rest => Consistent root h s ∧ Responds drivers root s ∧ Lawful root h s e t ∧
      Orderly (e :: h) t rest

end Calls

def IsOpen (s : VfsState W) (p : Nat) : Prop :=
  (∃ fd, (s.vfsOpenFiles fd).filemeta = some p) ∨ ∃ slot, (s.vfsOpenDirs slot).dir = some p

/-- A successful open call obtained a pointer that is not open. -/
def Fresh (s : VfsState W) : Entry → Prop
  | .vfsfopen _ obtained result => result ≠ -1 → ∀ m ∈ obtained, ¬ IsOpen s m
  | .opendir _ _ result => ∀ dir ∈ result, ¬ IsOpen s dir
  | _ => True

def RootMount (root : Nat) (s : VfsState W) : Prop :=
  ∃ a prev, s.vfsMfs = some a ∧ s.nodes a = some ⟨rootPath, root, prev, none⟩

variable {root : Nat} {h : List Entry} {s t : VfsState W} {e : Entry}

theorem freeFile_some {fd : Fin 64} (hfree : freeFile s = some fd) :
    3 ≤ fd.val ∧ s.vfsOpenFiles fd = closedFile := by
  have hrange : ∀ i ∈ (List.finRange 64).drop 3, 3 ≤ i.val := by decide
  refine ⟨hrange fd (List.mem_of_find?_eq_some hfree), ?_⟩
  have hnull := List.find?_some hfree
  rw [Bool.and_eq_true, Option.isNone_iff_eq_none, Option.isNone_iff_eq_none] at hnull
  cases hfile : s.vfsOpenFiles fd with
  | mk m d =>
      rw [hfile] at hnull
      cases hnull.1
      cases hnull.2
      rfl

theorem freeFile_none (hfull : freeFile s = none) (fd : Fin 64) (hfd : 3 ≤ fd.val) :
    s.vfsOpenFiles fd ≠ closedFile := by
  have hmem : ∀ i : Fin 64, 3 ≤ i.val → i ∈ (List.finRange 64).drop 3 := by decide
  intro hclosed
  have hnot := List.find?_eq_none.mp hfull fd (hmem fd hfd)
  rw [hclosed] at hnot
  exact hnot rfl

theorem freeDir_some {slot : Fin 16} (hfree : freeDir s = some slot) :
    (s.vfsOpenDirs slot).dir = none := by
  have hnull := List.find?_some hfree
  rwa [Option.isNone_iff_eq_none] at hnull

theorem freeDir_none (hfull : freeDir s = none) (slot : Fin 16) : s.vfsOpenDirs slot ≠ closedDir := by
  intro hclosed
  have hnot := List.find?_eq_none.mp hfull slot (List.mem_finRange slot)
  rw [hclosed] at hnot
  exact hnot rfl

section Root

variable (drivers : Nat → FsDriver W)

/-- What the loop over the mounted systems amounts to where there is the root only. -/
def rootFopen (root : Nat) (path : Str) (fd : Fin 64) (s : VfsState W) : Except Fault (Int × VfsState W) :=
  if path = [] then .error .nullPointer
  else if path = rootPath then .ok (-1, s)
  else match (drivers root).fsopenfile (path.drop rootPath.length) s.world with
    | (some m, world) => .ok (fd.val, { s with
        world
        vfsOpenFiles := Function.update s.vfsOpenFiles fd ⟨some m, some root⟩ })
    | (none, world) => .ok (-1, { s with world })

def rootOpendir (root : Nat) (path : Str) (slot : Fin 16) (s : VfsState W) :
    Except Fault (Option Nat × VfsState W) :=
  if path = [] then .error .nullPointer
  else if path = rootPath then .ok (openDirOn drivers root rootPath slot s)
  else if rootPath <+: path then .ok (openDirOn drivers root (path.drop rootPath.length) slot s)
  else .ok (none, s)

variable {a : Nat} {prev : Option Nat} (hnode : s.nodes a = some ⟨rootPath, root, prev, none⟩)

include hnode

theorem returns_rootFopen (path : Str) (fd : Fin 64) :
    Returns (vfsfopenBody drivers path fd) (some a, s) (rootFopen drivers root path fd s) := by
  have hderef : deref s.nodes (some a) = .ok ⟨rootPath, root, prev, none⟩ := by simp only [deref, hnode]
  by_cases hempty : path = []
  · refine .of_done ?_
    simp only [vfsfopenBody, hderef, hempty, rootFopen]
    rfl
  have hlength : ¬ path.length < rootPath.length := Nat.not_lt.mpr (List.length_pos_iff.mpr hempty)
  by_cases hpath : path = rootPath
  · refine .of_done ?_
    simp only [vfsfopenBody, hderef, rootFopen, if_neg hlength, if_neg hempty, if_pos hpath]
  · rcases hoffer : (drivers root).fsopenfile (path.drop rootPath.length) s.world with ⟨answer, world⟩
    cases answer with
    | some m =>
        refine .of_done ?_
        simp only [vfsfopenBody, hderef, rootFopen, if_neg hlength, if_neg hempty, if_neg hpath, hoffer]
    | none =>
        have hpass : vfsfopenBody drivers path fd (some a, s) = .next (none, { s with world }) := by
          simp only [vfsfopenBody, hderef, if_neg hlength, if_neg hpath, hoffer]
        refine .of_next hpass (.of_done ?_)
        simp only [vfsfopenBody, rootFopen, if_neg hempty, if_neg hpath, hoffer]

theorem returns_rootOpendir (path : Str) (slot : Fin 16) :
    Returns (opendirBody drivers path slot) (some a, s) (rootOpendir drivers root path slot s) := by
  have hderef : deref s.nodes (some a) = .ok ⟨rootPath, root, prev, none⟩ := by simp only [deref, hnode]
  by_cases hempty : path = []
  · refine .of_done ?_
    simp only [opendirBody, hderef, hempty, rootOpendir]
    rfl
  have hlength : ¬ path.length < rootPath.length := Nat.not_lt.mpr (List.length_pos_iff.mpr hempty)
  by_cases hpath : path = rootPath
  · refine .of_done ?_
    simp only [opendirBody, hderef, rootOpendir, if_neg hlength, if_neg hempty, if_pos hpath]
    rfl
  by_cases hbelow : rootPath <+: path
  · refine .of_done ?_
    simp only [opendirBody, hderef, rootOpendir, if_neg hlength, if_neg hempty, if_neg hpath, if_pos hbelow]
  · have hpass : opendirBody drivers path slot (some a, s) = .next (none, s) := by
      simp only [opendirBody, hderef, if_neg hlength, if_neg hpath, if_neg hbelow]
    refine .of_next hpass (.of_done ?_)
    simp only [opendirBody, rootOpendir, if_neg hempty, if_neg hpath, if_neg hbelow]

end Root

section Steps

variable {drivers : Nat → FsDriver W} (hroot : RootMount root s) (hs : Consistent root h s)

include hroot hs

theorem vfsfopen_lawful {path : Option Str} {obtained : Option Nat} {result : Int}
    (hstep : Step drivers root s (.vfsfopen path obtained result) t) :
    Lawful root h s (.vfsfopen path obtained result) t ∧ RootMount root t := by
  obtain ⟨a, prev, ha, hnode⟩ := hroot
  obtain ⟨hoffer, fuel, hrun⟩ := hstep
  simp only [vfsfopen, ne_eq, not_true_eq_false, if_false, ha] at hrun
  cases path with
  | none =>
      cases hrun
      exact ⟨.notOpened (.inl rfl) (.refl s), a, prev, ha, hnode⟩
  | some p =>
      cases hfree : freeFile s with
      | none =>
          rw [hfree] at hrun
          cases hrun
          refine ⟨.notOpened (.inr (.inr (.inr (.inr fun fd hfd => ?_)))) (.refl s), a, prev, ha, hnode⟩
          rw [← hs.1.files]
          exact freeFile_none hfree fd hfd
      | some fd =>
          rw [hfree] at hrun
          have hresult := (returns_rootFopen drivers hnode p fd).unique ⟨fuel, hrun⟩
          obtain ⟨hrange, hclosed⟩ := freeFile_some hfree
          rw [hs.1.files] at hclosed
          unfold rootFopen at hresult
          split at hresult
          · cases hresult
          · split at hresult
            · next hpath =>
              cases hresult
              exact ⟨.notOpened (.inr (.inr (.inl (congrArg some hpath)))) (.refl s), a, prev, ha, hnode⟩
            · split at hresult
              · next m world hanswer =>
                cases hresult
                have hm : obtained = some m := hoffer.trans (congrArg Prod.fst hanswer)
                subst hm
                exact ⟨.opened hclosed hrange rfl rfl, a, prev, ha, hnode⟩
              · next world hanswer =>
                cases hresult
                have hm : obtained = none := hoffer.trans (congrArg Prod.fst hanswer)
                exact ⟨.notOpened (.inr (.inr (.inr (.inl hm)))) ⟨rfl, rfl⟩, a, prev, ha, hnode⟩

omit hroot in
theorem openDirOn_lawful {subpath : Str} {slot : Fin 16} (hfree : freeDir s = some slot)
    (hfresh : ∀ dir ∈ (openDirOn drivers root subpath slot s).1, ¬ IsOpen s dir) (path : Option Str) :
    Lawful root h s (.opendir path ((drivers root).fsopendir subpath s.world).1
      (openDirOn drivers root subpath slot s).1) (openDirOn drivers root subpath slot s).2 := by
  have hclosed : s.vfsOpenDirs slot = closedDir := by
    obtain hclosed | ⟨dir, hdir⟩ := hs.2.shape slot
    · exact hclosed
    · have hnull := freeDir_some hfree
      rw [hdir] at hnull
      cases hnull
  rcases hasked : (drivers root).fsopendir subpath s.world with ⟨answer, world⟩
  cases answer with
  | none =>
      simp only [openDirOn, hasked]
      exact .dirNotOpened (.inr (.inl rfl)) ⟨rfl, rfl⟩
  | some dir =>
      simp only [openDirOn, hasked] at hfresh ⊢
      refine .dirOpened hclosed (fun hheld => ?_) rfl rfl
      obtain ⟨slot', hslot'⟩ := (hs.2.dirs dir).mp hheld
      exact hfresh dir rfl (.inr ⟨slot', congrArg VfsOpenDir.dir hslot'⟩)

omit hs in
theorem RootMount.openDirOn (subpath : Str) (slot : Fin 16) :
    RootMount root (openDirOn drivers root subpath slot s).2 := by
  rw [Vfs.openDirOn]
  split
  split
  · exact hroot
  · exact hroot

theorem opendir_lawful {path : Option Str} {obtained result : Option Nat}
    (hstep : Step drivers root s (.opendir path obtained result) t)
    (hfresh : Fresh s (.opendir path obtained result)) :
    Lawful root h s (.opendir path obtained result) t ∧ RootMount root t := by
  have hmount := hroot
  obtain ⟨a, prev, ha, hnode⟩ := hroot
  obtain ⟨hoffer, fuel, hrun⟩ := hstep
  cases hfree : freeDir s with
  | none =>
      simp only [opendir, hfree] at hrun
      cases hrun
      exact ⟨.dirNotOpened (.inr (.inr (freeDir_none hfree))) (.refl s), hmount⟩
  | some slot =>
      cases path with
      | none =>
          simp only [opendir, hfree] at hrun
          cases hrun
          exact ⟨.dirNotOpened (.inl fun p hp => by cases hp) (.refl s), hmount⟩
      | some p =>
          simp only [opendir, hfree, ha] at hrun
          have hresult := (returns_rootOpendir drivers hnode p slot).unique ⟨fuel, hrun⟩
          simp only [dirOffer, Option.bind_some] at hoffer
          unfold rootOpendir at hresult
          split at hresult
          · cases hresult
          split at hresult
          · next hpath =>
            obtain rfl : _ = result := congrArg Prod.fst (Except.ok.inj hresult)
            obtain rfl : _ = t := congrArg Prod.snd (Except.ok.inj hresult)
            rw [if_pos hpath] at hoffer
            subst hoffer
            exact ⟨openDirOn_lawful hs hfree hfresh _, hmount.openDirOn _ _⟩
          · next hpath =>
            rw [if_neg hpath] at hoffer
            split at hresult
            · obtain rfl : _ = result := congrArg Prod.fst (Except.ok.inj hresult)
              obtain rfl : _ = t := congrArg Prod.snd (Except.ok.inj hresult)
              subst hoffer
              exact ⟨openDirOn_lawful hs hfree hfresh _, hmount.openDirOn _ _⟩
            · next hbelow =>
              cases hresult
              exact ⟨.dirNotOpened (.inl fun q hq => by cases hq; exact hbelow) (.refl s), hmount⟩

theorem vfsfclose_lawful {fd : Fin 64} {result : Int}
    (hstep : Step drivers root s (.vfsfclose fd result) t) :
    Lawful root h s (.vfsfclose fd result) t ∧ RootMount root t := by
  obtain ⟨a, prev, ha, hnode⟩ := hroot
  have hbound : (fd.val : Int).toNat < 64 ∧ (0 : Int) ≤ fd.val := ⟨fd.isLt, Int.natCast_nonneg _⟩
  replace hstep := (dif_pos hbound).symm.trans hstep
  obtain hclosed | ⟨-, m, hheld⟩ := hs.1.shape fd
  · have hslot : s.vfsOpenFiles fd = ⟨none, none⟩ := (hs.1.files fd).trans hclosed
    simp only [Int.toNat_natCast, Fin.eta, hslot] at hstep
    cases hstep
    exact ⟨.notClosed hclosed (.refl s), a, prev, ha, hnode⟩
  · have hslot := (hs.1.files fd).trans hheld
    simp only [Int.toNat_natCast, Fin.eta, hslot] at hstep
    cases hstep
    refine ⟨.closed ?_ rfl rfl, a, prev, ha, hnode⟩
    rw [hheld]
    exact fun hc => by cases hc

theorem closedir_lawful {dir : Option Nat} {result : Int}
    (hstep : Step drivers root s (.closedir dir result) t) :
    Lawful root h s (.closedir dir result) t ∧ RootMount root t := by
  obtain ⟨a, prev, ha, hnode⟩ := hroot
  cases dir with
  | none =>
      cases hstep
      exact ⟨.dirNotClosed (fun d hd => by cases hd) (.refl s), a, prev, ha, hnode⟩
  | some dir =>
      simp only [Step, closedir] at hstep
      split at hstep
      · next hmissing =>
        cases hstep
        refine ⟨.dirNotClosed ?_ (.refl s), a, prev, ha, hnode⟩
        intro d hd hheld
        cases hd
        obtain ⟨slot, hslot⟩ := (hs.2.dirs dir).mp hheld
        refine List.find?_eq_none.mp hmissing slot (List.mem_finRange slot) ?_
        rw [hslot]
        exact beq_self_eq_true _
      · next slot hfound =>
        have heq := List.find?_some hfound
        have hdir := hs.2.held (beq_iff_eq.mp heq)
        simp only [hdir] at hstep
        cases hstep
        exact ⟨.dirClosed hdir rfl rfl, a, prev, ha, hnode⟩

theorem step_lawful (hstep : Step drivers root s e t) (hfresh : Fresh s e) :
    Lawful root h s e t ∧ RootMount root t := by
  cases e with
  | vfsfopen => exact vfsfopen_lawful hroot hs hstep
  | vfsfclose => exact vfsfclose_lawful hroot hs hstep
  | opendir => exact opendir_lawful hroot hs hstep hfresh
  | closedir => exact closedir_lawful hroot hs hstep

omit hs in
theorem vfsfopen_responds {path : Option Str} (hpath : path ≠ some []) :
    ∃ obtained result t, Step drivers root s (.vfsfopen path obtained result) t := by
  obtain ⟨a, prev, ha, hnode⟩ := hroot
  suffices hcall : ∃ result t fuel, vfsfopen drivers path modeRead s fuel = some (.ok (result, t)) by
    obtain ⟨result, t, hcall⟩ := hcall
    exact ⟨_, result, t, rfl, hcall⟩
  simp only [vfsfopen, ne_eq, not_true_eq_false, if_false, ha]
  cases path with
  | none => exact ⟨-1, s, 0, rfl⟩
  | some p =>
      cases freeFile s with
      | none => exact ⟨-1, s, 0, rfl⟩
      | some fd =>
          obtain ⟨fuel, hrun⟩ := returns_rootFopen drivers hnode p fd
          have hok : ∃ r, rootFopen drivers root p fd s = .ok r := by
            rw [rootFopen, if_neg fun he => hpath (congrArg some he)]
            split
            · exact ⟨_, rfl⟩
            · split
              · exact ⟨_, rfl⟩
              · exact ⟨_, rfl⟩
          obtain ⟨⟨result, t⟩, hok⟩ := hok
          exact ⟨result, t, fuel, hrun.trans (congrArg some hok)⟩

omit hs in
theorem opendir_responds {path : Option Str} (hpath : path ≠ some []) :
    ∃ obtained result t, Step drivers root s (.opendir path obtained result) t := by
  obtain ⟨a, prev, ha, hnode⟩ := hroot
  suffices hcall : ∃ result t fuel, opendir drivers path s fuel = some (.ok (result, t)) by
    obtain ⟨result, t, hcall⟩ := hcall
    exact ⟨_, result, t, rfl, hcall⟩
  cases hfree : freeDir s with
  | none =>
      refine ⟨none, s, 0, ?_⟩
      simp only [opendir, hfree]
  | some slot =>
      cases path with
      | none =>
          refine ⟨none, s, 0, ?_⟩
          simp only [opendir, hfree]
      | some p =>
          obtain ⟨fuel, hrun⟩ := returns_rootOpendir drivers hnode p slot
          have hok : ∃ r, rootOpendir drivers root p slot s = .ok r := by
            rw [rootOpendir, if_neg fun he => hpath (congrArg some he)]
            split
            · exact ⟨_, rfl⟩
            · split
              · exact ⟨_, rfl⟩
              · exact ⟨_, rfl⟩
          obtain ⟨⟨result, t⟩, hok⟩ := hok
          refine ⟨result, t, fuel, ?_⟩
          simp only [opendir, hfree, ha]
          exact hrun.trans (congrArg some hok)

omit hroot hs in
theorem vfsfclose_responds (fd : Fin 64) : ∃ result t, Step drivers root s (.vfsfclose fd result) t := by
  have hbound : (fd.val : Int).toNat < 64 ∧ (0 : Int) ≤ fd.val := ⟨fd.isLt, Int.natCast_nonneg _⟩
  simp only [Step, vfsfclose]
  rw [dif_pos hbound]
  split
  · exact ⟨_, _, rfl⟩
  · exact ⟨_, _, rfl⟩

omit hroot in
theorem closedir_responds (dir : Option Nat) : ∃ result t, Step drivers root s (.closedir dir result) t := by
  cases dir with
  | none => exact ⟨-1, s, rfl⟩
  | some dir =>
      simp only [Step, closedir]
      split
      · exact ⟨-1, s, rfl⟩
      · next slot hfound =>
        have heq := List.find?_some hfound
        simp only [hs.2.held (beq_iff_eq.mp heq)]
        exact ⟨_, _, rfl⟩

theorem responds : Responds drivers root s :=
  ⟨fun _ => vfsfopen_responds hroot, vfsfclose_responds, fun _ => opendir_responds hroot,
    closedir_responds hs⟩

theorem run_orderly_from {steps : List (Entry × VfsState W)}
    (hrun : Trace (Step drivers root) s steps) (hfresh : Meets Fresh s steps) :
    Orderly drivers root h s steps := by
  induction hrun generalizing h with
  | nil s => exact ⟨hs, responds hroot hs⟩
  | cons hstep hrest ih =>
      obtain ⟨hlawful, hroot'⟩ := step_lawful hroot hs hstep hfresh.1
      exact ⟨hs, responds hroot hs, hlawful, ih hroot' (hs.step hlawful) hfresh.2⟩

end Steps

/-- For every run over a single root mount, from empty tables on. -/
theorem run_orderly {drivers : Nat → FsDriver W} (hroot : RootMount root s)
    (hfiles : ∀ fd, s.vfsOpenFiles fd = closedFile) (hdirs : ∀ slot, s.vfsOpenDirs slot = closedDir)
    {steps : List (Entry × VfsState W)} (hrun : Trace (Step drivers root) s steps)
    (hfresh : Meets Fresh s steps) : Orderly drivers root [] s steps := by
  have hs : Consistent root [] s := by
    refine ⟨⟨hfiles, fun fd => .inl rfl⟩, fun dir => ⟨False.elim, ?_⟩, fun slot => .inl (hdirs slot), ?_⟩
    · rintro ⟨slot, hslot⟩
      rw [hdirs slot] at hslot
      cases hslot
    · intro slot slot' dir hdir
      rw [hdirs slot] at hdir
      cases hdir
  exact run_orderly_from hroot hs hrun hfresh

/-- A driver that numbers the objects it hands out. -/
def countingDrivers (_ : Nat) : FsDriver Nat where
  fsopendir _ w := (some w, w + 1)
  fsclosedir _ w := (0, w)
  fsopenfile _ w := (some w, w + 1)
  fsclosefile _ w := (0, w)

def rootMounted : VfsState Nat where
  vfsMfs := some 0
  nodes a := if a = 0 then some ⟨rootPath, 7, none, none⟩ else none
  vfsOpenDirs _ := closedDir
  vfsOpenFiles _ := closedFile
  world := 1

theorem open_close_orderly : ∃ steps : List (Entry × VfsState Nat),
    steps.map Prod.fst = [.vfsfopen (some [slash, 0x61]) (some 1) 3, .opendir (some rootPath) (some 2) (some 2),
      .vfsfclose 3 0, .closedir (some 2) 0] ∧ Orderly countingDrivers 7 [] rootMounted steps := by
  have hrun : ∃ t₁ t₂ t₃ t₄, Trace (Step countingDrivers 7) rootMounted
      [(.vfsfopen (some [slash, 0x61]) (some 1) 3, t₁), (.opendir (some rootPath) (some 2) (some 2), t₂),
        (.vfsfclose 3 0, t₃), (.closedir (some 2) 0, t₄)] ∧
      ¬ IsOpen rootMounted 1 ∧ ¬ IsOpen t₁ 2 := by
    refine ⟨_, _, _, _, .cons ⟨rfl, 1, rfl⟩ (.cons ⟨rfl, 1, rfl⟩ (.cons rfl (.cons rfl (.nil _)))), ?_, ?_⟩
    all_goals
      unfold IsOpen
      decide
  obtain ⟨t₁, t₂, t₃, t₄, hrun, hfile, hdir⟩ := hrun
  refine ⟨_, rfl, run_orderly ⟨0, none, rfl, rfl⟩ (fun _ => rfl) (fun _ => rfl) hrun
    ⟨?_, ?_, trivial, trivial, trivial⟩⟩
  · rintro - m hm
    cases hm
    exact hfile
  · rintro dir hm
    cases hm
    exact hdir

end MetalNes.OpenHandles
