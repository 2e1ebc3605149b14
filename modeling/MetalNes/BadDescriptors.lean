import MetalNes.MountChain

namespace MetalNes.BadDescriptors

open Blocks Vfs MountChain

variable {W : Type}

section Calls

variable (drivers : Nat → FileDriver W)

/-- The system call: the first three descriptors are the console. -/
def read (fd : Int) (buf : Nat) (cnt : U32) (s : VfsState W) : Except Fault (U32 × VfsState W) :=
  if fd < 3 then .ok (0, s) else vfsfread drivers buf cnt 1 fd s

def close (fd : Int) (s : VfsState W) : Except Fault (Int × VfsState W) :=
  if fd < 3 then .ok (-1, s) else vfsfclose (fun d => (drivers d).toFsDriver) fd s

end Calls

/-- The driver, which notes its number at each call. -/
def recorded (drivers : Nat → FileDriver W) (d : Nat) : FileDriver (W × List Nat) where
  fsopendir path w :=
    let (dir, world) := (drivers d).fsopendir path w.1
    (dir, world, w.2 ++ [d])
  fsclosedir dir w :=
    let (r, world) := (drivers d).fsclosedir dir w.1
    (r, world, w.2 ++ [d])
  fsopenfile path w :=
    let (file, world) := (drivers d).fsopenfile path w.1
    (file, world, w.2 ++ [d])
  fsclosefile file w :=
    let (r, world) := (drivers d).fsclosefile file w.1
    (r, world, w.2 ++ [d])
  nativeFs := (drivers d).nativeFs
  fsreadfile ptr size file fs w :=
    let (r, world) := (drivers d).fsreadfile ptr size file fs w.1
    (r, world, w.2 ++ [d])
  fsfstat file fs pstat w :=
    let (r, world) := (drivers d).fsfstat file fs pstat w.1
    (r, world, w.2 ++ [d])

def IsOpen (s : VfsState W) (fd : Int) : Prop :=
  ∃ i : Fin 64, (i.val : Int) = fd ∧ (s.vfsOpenFiles i).filemeta ≠ none ∧ (s.vfsOpenFiles i).driver ≠ none

/-- The entry points that take a descriptor, with their other arguments. -/
inductive Entry
  | vfsfclose
  | vfsfread (ptr : Nat) (size nmemb : U32)
  | vfsfstat (pstat : Nat)
  | read (buf : Nat) (cnt : U32)
  | close

/-- The call returns -1, changes nothing, and no driver notes a call. The system call for
reading returns 0 for the console. -/
def Rejects (drivers : Nat → FileDriver W) (fd : Int) (s : VfsState (W × List Nat)) : Entry → Prop
  | .vfsfclose => vfsfclose (fun d => (recorded drivers d).toFsDriver) fd s = .ok (-1, s)
  | .vfsfread ptr size nmemb => vfsfread (recorded drivers) ptr size nmemb fd s = .ok (-1, s)
  | .vfsfstat pstat => vfsfstat (recorded drivers) fd pstat s = .ok (-1, s)
  | .read buf cnt => read (recorded drivers) fd buf cnt s = .ok (if fd < 3 then 0 else -1, s)
  | .close => close (recorded drivers) fd s = .ok (-1, s)

def InTable (fd : Int) : Prop := 0 ≤ fd ∧ fd ≤ 63

/-- The system calls keep the console's descriptors, and the negative ones, from the table. -/
def Entry.InRange (fd : Int) : Entry → Prop
  | .vfsfclose | .vfsfread _ _ _ | .vfsfstat _ => InTable fd
  | .read _ _ | .close => fd ≤ 63

section Descriptors

variable {s : VfsState W} {fd : Int}

theorem inTable_iff : fd.toNat < 64 ∧ 0 ≤ fd ↔ InTable fd := by
  unfold InTable
  omega

theorem fileOf_outside (h : ¬ InTable fd) : fileOf fd s = .error .outOfBounds := by
  rw [fileOf, dif_neg (inTable_iff.not.mpr h)]

theorem vfsfclose_outside (drivers : Nat → FsDriver W) (h : ¬ InTable fd) :
    vfsfclose drivers fd s = .error .outOfBounds := by
  rw [vfsfclose, dif_neg (inTable_iff.not.mpr h)]

theorem entry_closed (hclosed : ¬ IsOpen s fd) (h : fd.toNat < 64 ∧ 0 ≤ fd) :
    (s.vfsOpenFiles ⟨fd.toNat, h.1⟩).filemeta = none ∨ (s.vfsOpenFiles ⟨fd.toNat, h.1⟩).driver = none := by
  by_contra hopen
  obtain ⟨hmeta, hdriver⟩ := not_or.mp hopen
  exact hclosed ⟨⟨fd.toNat, h.1⟩, Int.toNat_of_nonneg h.2, hmeta, hdriver⟩

theorem fileOf_closed (hclosed : ¬ IsOpen s fd) (h : InTable fd) : fileOf fd s = .ok none := by
  have hfd := inTable_iff.mpr h
  rw [fileOf, dif_pos hfd]
  rcases entry_closed hclosed hfd with hnull | hnull
  · rw [hnull]
  · rw [hnull]
    cases (s.vfsOpenFiles ⟨fd.toNat, hfd.1⟩).filemeta <;> rfl

theorem vfsfclose_closed (drivers : Nat → FsDriver W) (hclosed : ¬ IsOpen s fd) (h : InTable fd) :
    vfsfclose drivers fd s = .ok (-1, s) := by
  have hfd := inTable_iff.mpr h
  rw [vfsfclose, dif_pos hfd]
  rcases entry_closed hclosed hfd with hnull | hnull
  · simp only [hnull]
  · simp only [hnull]
    cases (s.vfsOpenFiles ⟨fd.toNat, hfd.1⟩).filemeta <;> rfl

end Descriptors

section Entries

variable (drivers : Nat → FileDriver W) {s : VfsState (W × List Nat)} {fd : Int}

theorem vfsfclose_rejects_iff (hclosed : ¬ IsOpen s fd) : Rejects drivers fd s .vfsfclose ↔ InTable fd := by
  by_cases h : InTable fd
  · exact iff_of_true (vfsfclose_closed _ hclosed h) h
  · refine iff_of_false (fun hok => ?_) h
    cases (vfsfclose_outside _ h).symm.trans hok

theorem vfsfread_rejects_iff (hclosed : ¬ IsOpen s fd) (ptr : Nat) (size nmemb : U32) :
    Rejects drivers fd s (.vfsfread ptr size nmemb) ↔ InTable fd := by
  by_cases h : InTable fd
  · simp only [Rejects, vfsfread, fileOf_closed hclosed h]
    exact iff_of_true trivial h
  · simp only [Rejects, vfsfread, fileOf_outside h]
    refine iff_of_false (fun hok => ?_) h
    cases hok

theorem vfsfstat_rejects_iff (hclosed : ¬ IsOpen s fd) (pstat : Nat) :
    Rejects drivers fd s (.vfsfstat pstat) ↔ InTable fd := by
  by_cases h : InTable fd
  · simp only [Rejects, vfsfstat, fileOf_closed hclosed h]
    exact iff_of_true trivial h
  · simp only [Rejects, vfsfstat, fileOf_outside h]
    refine iff_of_false (fun hok => ?_) h
    cases hok

theorem inTable_of_file (h : ¬ fd < 3) : InTable fd ↔ fd ≤ 63 := by
  unfold InTable
  omega

theorem read_rejects_iff (hclosed : ¬ IsOpen s fd) (buf : Nat) (cnt : U32) :
    Rejects drivers fd s (.read buf cnt) ↔ fd ≤ 63 := by
  by_cases hconsole : fd < 3
  · simp only [Rejects, read, if_pos hconsole]
    exact iff_of_true trivial (by omega)
  · simp only [Rejects, read, if_neg hconsole]
    rw [← inTable_of_file hconsole]
    exact vfsfread_rejects_iff drivers hclosed buf cnt 1

theorem close_rejects_iff (hclosed : ¬ IsOpen s fd) : Rejects drivers fd s .close ↔ fd ≤ 63 := by
  by_cases hconsole : fd < 3
  · simp only [Rejects, close, if_pos hconsole]
    exact iff_of_true trivial (by omega)
  · simp only [Rejects, close, if_neg hconsole]
    rw [← inTable_of_file hconsole]
    exact vfsfclose_rejects_iff drivers hclosed

/-- For every descriptor that denotes no open file, in every state, with all drivers and at
each entry point. -/
theorem rejects_iff (hclosed : ¬ IsOpen s fd) (e : Entry) : Rejects drivers fd s e ↔ e.InRange fd := by
  cases e with
  | vfsfclose => exact vfsfclose_rejects_iff drivers hclosed
  | vfsfread ptr size nmemb => exact vfsfread_rejects_iff drivers hclosed ptr size nmemb
  | vfsfstat pstat => exact vfsfstat_rejects_iff drivers hclosed pstat
  | read buf cnt => exact read_rejects_iff drivers hclosed buf cnt
  | close => exact close_rejects_iff drivers hclosed

end Entries

def nullDrivers (d : Nat) : FileDriver Unit where
  toFsDriver := fixedDrivers none d
  nativeFs := 0
  fsreadfile _ _ _ _ w := (-1, w)
  fsfstat _ _ _ w := (-1, w)

def noFiles : VfsState (Unit × List Nat) where
  vfsMfs := none
  nodes _ := none
  vfsOpenDirs _ := ⟨none, none⟩
  vfsOpenFiles _ := ⟨none, none⟩
  world := ((), [])

theorem noFiles_closed (fd : Int) : ¬ IsOpen noFiles fd := fun ⟨_, _, hmeta, _⟩ => hmeta rfl

theorem noFiles_rejects : Rejects nullDrivers 5 noFiles (.vfsfstat 0) ∧ Rejects nullDrivers 5 noFiles .close :=
  ⟨(rejects_iff nullDrivers (noFiles_closed 5) (.vfsfstat 0)).mpr ⟨by decide, by decide⟩,
    (rejects_iff nullDrivers (noFiles_closed 5) .close).mpr (show (5 : Int) ≤ 63 by decide)⟩

/-- The descriptor that a call of vfsfopen without success returns, and one behind the
table. -/
theorem outside_not_rejected : (¬ IsOpen noFiles (-1) ∧ ¬ Rejects nullDrivers (-1) noFiles .vfsfclose) ∧
    ¬ IsOpen noFiles 64 ∧ ¬ Rejects nullDrivers 64 noFiles .close := by
  refine ⟨⟨noFiles_closed _, fun h => ?_⟩, noFiles_closed _, fun h => ?_⟩
  · cases h
  · cases h

end MetalNes.BadDescriptors
