import MetalNes.BadDescriptors
import MetalNes.FatFiles

namespace MetalNes.FileStatus

open Blocks Vfs Fat32 FatFiles

abbrev Memory := Nat → U32

def filesizeAt : Nat := 3

def firstdatalbaAt : Nat := 4

def sizeofFatFs : Nat := 6

section Calls

variable (stSize : Nat)

/-- The place of st_size in struct stat, in words, is up to the C library. -/
def fatFstat (file : Option Nat) (pstat : Nat) (mem : Memory) : Int × Memory :=
  match file with
  | some file => (0, Function.update mem (pstat + stSize) (mem (file + filesizeAt)))
  | none => (-1, mem)

/-- The function behind the cast to fs_fstat: of the three arguments it is called with, the
first two are its own. -/
def fsFstat (file driver _pstat : Nat) (mem : Memory) : Int × Memory := fatFstat stSize (some file) driver mem

/-- The table of a volume, with its functions for directories and for the other calls. -/
def fatDriver (nativeFs : Nat) (driver : FsDriver Memory) (fsreadfile : Nat → U32 → Nat → Nat → Memory → Int × Memory) :
    FileDriver Memory where
  toFsDriver := driver
  nativeFs := nativeFs
  fsreadfile := fsreadfile
  fsfstat := fsFstat stSize

end Calls

/-- A fat_file in the memory, as far as it is numbers. -/
structure FileAt (mem : Memory) (file : Nat) (f : FatFile) : Prop where
  buffersize : mem (file + 2) = f.buffersize
  filesize : mem (file + filesizeAt) = f.filesize
  basecluster : mem (file + 4) = f.basecluster

/-- The call returns 0, with the size in the field of the caller's structure and each word
of the file system as it was. -/
def ReportsSize (drivers : Nat → FileDriver Memory) (stSize native pstat : Nat) (f : FatFile) (fd : Int)
    (s : VfsState Memory) : Prop :=
  ∃ t, vfsfstat drivers fd pstat s = .ok (0, t) ∧ t.world (pstat + stSize) = f.filesize ∧
    ∀ k < sizeofFatFs, t.world (native + k) = s.world (native + k)

section Words

variable (mem : Memory) (v : U32)

theorem stored_iff (a b : Nat) : Function.update mem a v b = v ↔ b = a ∨ mem b = v := by
  by_cases hab : b = a
  · subst hab
    exact iff_of_true (Function.update_self _ _ _) (.inl rfl)
  · rw [Function.update_of_ne hab, or_iff_right hab]

/-- A block keeps its words where the one that is written to, if it is in the block, has the
value already. -/
theorem unchanged_iff (block word size : Nat) :
    (∀ k < size, Function.update mem (block + word) v (block + k) = mem (block + k)) ↔
      (word < size → mem (block + word) = v) := by
  constructor
  · intro hsame hlt
    exact (hsame word hlt).symm.trans (Function.update_self _ _ _)
  · intro hword k hk
    by_cases hkw : k = word
    · subst hkw
      exact (Function.update_self _ _ _).trans (hword hk).symm
    · exact Function.update_of_ne (fun h => hkw (Nat.add_left_cancel h)) _ _

end Words

section Fstat

variable {W : Type} {stSize native m d : Nat} {driver : FsDriver Memory}
  {fsreadfile : Nat → U32 → Nat → Nat → Memory → Int × Memory} {drivers : Nat → FileDriver Memory}
  {s : VfsState Memory} {i : Fin 64} {f : FatFile}

theorem fileOf_open {s : VfsState W} (hopen : s.vfsOpenFiles i = ⟨some m, some d⟩) :
    fileOf i.val s = .ok (some (m, d)) := by
  have hfd : (i.val : Int).toNat < 64 ∧ 0 ≤ (i.val : Int) := ⟨i.isLt, Int.natCast_nonneg i.val⟩
  have hi : (⟨(i.val : Int).toNat, hfd.1⟩ : Fin 64) = i := rfl
  rw [fileOf, dif_pos hfd, hi, hopen]

/-- The size goes to the file system, at the place of st_size. -/
theorem vfsfstat_fat (hopen : s.vfsOpenFiles i = ⟨some m, some d⟩)
    (hdriver : drivers d = fatDriver stSize native driver fsreadfile) (hfile : FileAt s.world m f) (pstat : Nat) :
    vfsfstat drivers i.val pstat s =
      .ok (0, { s with world := Function.update s.world (native + stSize) f.filesize }) := by
  rw [vfsfstat, fileOf_open hopen, ← hfile.filesize]
  simp only [hdriver]
  rfl

/-- For every volume, open file, memory and place of st_size: the call does what it should
only where there is nothing to do. -/
theorem reportsSize_iff (hopen : s.vfsOpenFiles i = ⟨some m, some d⟩)
    (hdriver : drivers d = fatDriver stSize native driver fsreadfile) (hfile : FileAt s.world m f) (pstat : Nat) :
    ReportsSize drivers stSize native pstat f i.val s ↔
      (pstat = native ∨ s.world (pstat + stSize) = f.filesize) ∧
        (stSize < sizeofFatFs → s.world (native + stSize) = f.filesize) := by
  have hcall := vfsfstat_fat hopen hdriver hfile pstat
  constructor
  · rintro ⟨t, ht, hsize, hsame⟩
    cases hcall.symm.trans ht
    exact ⟨((stored_iff _ _ _ _).mp hsize).imp_left Nat.add_right_cancel, (unchanged_iff _ _ _ _ _).mp hsame⟩
  · rintro ⟨hsize, hword⟩
    have hstored := hsize.imp_left fun h : pstat = native => congrArg (· + stSize) h
    exact ⟨_, hcall, (stored_iff _ _ _ _).mpr hstored, (unchanged_iff _ _ _ _ _).mpr hword⟩

end Fstat

/-- A volume at 16, whose functions but fat_fstat do nothing. -/
def volume (_ : Nat) : FileDriver Memory :=
  fatDriver firstdatalbaAt 16 ⟨fun _ w => (none, w), fun _ w => (0, w), fun _ w => (none, w), fun _ w => (0, w)⟩
    fun _ _ _ _ w => (0, w)

/-- A file of 7 bytes at 48 is open. The data of the volume begins at a block, and st_size of
a structure at 32 holds a number. -/
def opened (firstdatalba size : U32) : VfsState Memory where
  vfsMfs := none
  nodes _ := none
  vfsOpenDirs _ := ⟨none, none⟩
  vfsOpenFiles i := if i = 3 then ⟨some 48, some 0⟩ else ⟨none, none⟩
  world a :=
    if a = 16 + firstdatalbaAt then firstdatalba
    else if a = 32 + firstdatalbaAt then size
    else if a = 50 then 512
    else if a = 51 then 7
    else if a = 52 then 3
    else 0

def sevenBytes : FatFile := ⟨[], 0, 512, 7, 3⟩

theorem sevenBytes_at (firstdatalba size : U32) : FileAt (opened firstdatalba size).world 48 sevenBytes :=
  ⟨rfl, rfl, rfl⟩

theorem block_seven_reports : ReportsSize volume firstdatalbaAt 16 32 sevenBytes 3 (opened 7 7) :=
  (reportsSize_iff (i := 3) rfl rfl (sevenBytes_at 7 7) 32).mpr ⟨.inr rfl, fun _ => rfl⟩

/-- The size does not come to the caller, and the data begins at another block. -/
theorem block_8224_not_reported : ¬ ReportsSize volume firstdatalbaAt 16 32 sevenBytes 3 (opened 8224 0) ∧
    ∃ t, vfsfstat volume 3 32 (opened 8224 0) = .ok (0, t) ∧ t.world (16 + firstdatalbaAt) = 7 := by
  have hcall : vfsfstat volume 3 32 (opened 8224 0) = _ :=
    vfsfstat_fat (i := 3) (d := 0) rfl rfl (sevenBytes_at 8224 0) 32
  refine ⟨?_, _, hcall, rfl⟩
  rintro ⟨t, ht, hsize, -⟩
  cases hcall.symm.trans ht
  exact absurd hsize (by decide)

end MetalNes.FileStatus
