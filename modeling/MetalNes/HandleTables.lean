import MetalNes.Vfs

namespace MetalNes.HandleTables

open CStrings Vfs

variable {W : Type}

/-- A call with its result, and for an open call with what the driver has to offer. -/
inductive Entry
  | vfsfopen (path : Option Str) (obtained : Option Nat) (result : Int)
  | vfsfclose (fd : Fin 64) (result : Int)
  | opendir (path : Option Str) (obtained : Option Nat) (result : Option Nat)
  | closedir (dir : Option Nat) (result : Int)

def closedFile : VfsOpenFile := ⟨none, none⟩

def closedDir : VfsOpenDir := ⟨none, none⟩

/-- What a descriptor stands for after a history, the latest call first: the object
that its own open call obtained, until its own close. -/
def heldFile (root : Nat) : List Entry → Fin 64 → VfsOpenFile
  | [], _ => closedFile
  | .vfsfopen _ obtained result :: before, fd =>
      if result = fd.val then ⟨obtained, some root⟩ else heldFile root before fd
  | .vfsfclose fd' _ :: before, fd => if fd' = fd then closedFile else heldFile root before fd
  | _ :: before, fd => heldFile root before fd

def HeldDir : List Entry → Nat → Prop
  | [], _ => False
  | .opendir _ _ result :: before, dir => result = some dir ∨ HeldDir before dir
  | .closedir dir' _ :: before, dir => dir' ≠ some dir ∧ HeldDir before dir
  | _ :: before, dir => HeldDir before dir

def SameTables (s t : VfsState W) : Prop :=
  t.vfsOpenFiles = s.vfsOpenFiles ∧ t.vfsOpenDirs = s.vfsOpenDirs

theorem SameTables.refl (s : VfsState W) : SameTables s s := ⟨rfl, rfl⟩

/-- The file table holds what the history says, and never the first descriptors. -/
structure FilesHeld (root : Nat) (h : List Entry) (s : VfsState W) : Prop where
  files : ∀ fd, s.vfsOpenFiles fd = heldFile root h fd
  shape : ∀ fd, heldFile root h fd = closedFile ∨
    3 ≤ fd.val ∧ ∃ m, heldFile root h fd = ⟨some m, some root⟩

/-- The directory table holds what the history says, each directory in one slot. -/
structure DirsHeld (root : Nat) (h : List Entry) (s : VfsState W) : Prop where
  dirs : ∀ dir, HeldDir h dir ↔ ∃ slot, s.vfsOpenDirs slot = ⟨some dir, some root⟩
  shape : ∀ slot, s.vfsOpenDirs slot = closedDir ∨ ∃ dir, s.vfsOpenDirs slot = ⟨some dir, some root⟩
  once : ∀ slot slot' dir, (s.vfsOpenDirs slot).dir = some dir → (s.vfsOpenDirs slot').dir = some dir →
    slot = slot'

def Consistent (root : Nat) (h : List Entry) (s : VfsState W) : Prop :=
  FilesHeld root h s ∧ DirsHeld root h s

/-- What a call may do: an open call takes a slot that is closed, and fails for a
reason; a close call touches the slot of its own handle. -/
inductive Lawful (root : Nat) (h : List Entry) (s : VfsState W) : Entry → VfsState W → Prop
  | opened {path : Option Str} {m : Nat} {fd : Fin 64} {t : VfsState W}
      (hfree : heldFile root h fd = closedFile) (hrange : 3 ≤ fd.val)
      (hfiles : t.vfsOpenFiles = Function.update s.vfsOpenFiles fd ⟨some m, some root⟩)
      (hdirs : t.vfsOpenDirs = s.vfsOpenDirs) : Lawful root h s (.vfsfopen path (some m) fd.val) t
  | notOpened {path : Option Str} {obtained : Option Nat} {t : VfsState W}
      (hwhy : path = none ∨ path = some [] ∨ path = some rootPath ∨ obtained = none ∨
        ∀ fd : Fin 64, 3 ≤ fd.val → heldFile root h fd ≠ closedFile)
      (hsame : SameTables s t) : Lawful root h s (.vfsfopen path obtained (-1)) t
  | closed {fd : Fin 64} {t : VfsState W} (hopen : heldFile root h fd ≠ closedFile)
      (hfiles : t.vfsOpenFiles = Function.update s.vfsOpenFiles fd closedFile)
      (hdirs : t.vfsOpenDirs = s.vfsOpenDirs) : Lawful root h s (.vfsfclose fd 0) t
  | notClosed {fd : Fin 64} {t : VfsState W} (hclosed : heldFile root h fd = closedFile)
      (hsame : SameTables s t) : Lawful root h s (.vfsfclose fd (-1)) t
  | dirOpened {path : Option Str} {dir : Nat} {slot : Fin 16} {t : VfsState W}
      (hfree : s.vfsOpenDirs slot = closedDir) (hnew : ¬ HeldDir h dir)
      (hdirs : t.vfsOpenDirs = Function.update s.vfsOpenDirs slot ⟨some dir, some root⟩)
      (hfiles : t.vfsOpenFiles = s.vfsOpenFiles) : Lawful root h s (.opendir path (some dir) (some dir)) t
  | dirNotOpened {path : Option Str} {obtained : Option Nat} {t : VfsState W}
      (hwhy : (∀ p ∈ path, ¬ rootPath <+: p) ∨ obtained = none ∨ ∀ slot, s.vfsOpenDirs slot ≠ closedDir)
      (hsame : SameTables s t) : Lawful root h s (.opendir path obtained none) t
  | dirClosed {dir : Nat} {slot : Fin 16} {t : VfsState W}
      (hslot : s.vfsOpenDirs slot = ⟨some dir, some root⟩)
      (hdirs : t.vfsOpenDirs = Function.update s.vfsOpenDirs slot closedDir)
      (hfiles : t.vfsOpenFiles = s.vfsOpenFiles) : Lawful root h s (.closedir (some dir) 0) t
  | dirNotClosed {dir : Option Nat} {t : VfsState W} (hclosed : ∀ d ∈ dir, ¬ HeldDir h d)
      (hsame : SameTables s t) : Lawful root h s (.closedir dir (-1)) t

variable {root : Nat} {h : List Entry} {s t : VfsState W} {e : Entry}

theorem FilesHeld.keep (hs : FilesHeld root h s) (hsame : t.vfsOpenFiles = s.vfsOpenFiles)
    (hheld : heldFile root (e :: h) = heldFile root h) : FilesHeld root (e :: h) t := by
  constructor
  · intro fd
    rw [hsame, hheld]
    exact hs.files fd
  · intro fd
    rw [hheld]
    exact hs.shape fd

theorem FilesHeld.update (hs : FilesHeld root h s) {fd : Fin 64} {f : VfsOpenFile}
    (hfiles : t.vfsOpenFiles = Function.update s.vfsOpenFiles fd f)
    (hheld : heldFile root (e :: h) = Function.update (heldFile root h) fd f)
    (hf : f = closedFile ∨ 3 ≤ fd.val ∧ ∃ m, f = ⟨some m, some root⟩) : FilesHeld root (e :: h) t := by
  constructor
  · intro fd'
    rw [hfiles, hheld, funext hs.files]
  · intro fd'
    rw [hheld]
    by_cases hfd : fd' = fd
    · subst hfd
      rwa [Function.update_self]
    · rw [Function.update_of_ne hfd]
      exact hs.shape fd'

theorem DirsHeld.keep (hs : DirsHeld root h s) (hsame : t.vfsOpenDirs = s.vfsOpenDirs)
    (hheld : ∀ dir, HeldDir (e :: h) dir ↔ HeldDir h dir) : DirsHeld root (e :: h) t := by
  constructor
  · intro dir
    rw [hheld, hsame]
    exact hs.dirs dir
  · rw [hsame]
    exact hs.shape
  · rw [hsame]
    exact hs.once

theorem DirsHeld.held (hs : DirsHeld root h s) {slot : Fin 16} {dir : Nat}
    (hdir : (s.vfsOpenDirs slot).dir = some dir) : s.vfsOpenDirs slot = ⟨some dir, some root⟩ := by
  obtain hclosed | ⟨dir', hslot⟩ := hs.shape slot
  · rw [hclosed] at hdir
    cases hdir
  · rw [hslot] at hdir ⊢
    cases hdir
    rfl

theorem DirsHeld.opened (hs : DirsHeld root h s) {slot : Fin 16} {dir : Nat}
    (hfree : s.vfsOpenDirs slot = closedDir) (hnew : ¬ HeldDir h dir)
    (hdirs : t.vfsOpenDirs = Function.update s.vfsOpenDirs slot ⟨some dir, some root⟩)
    (path : Option Str) : DirsHeld root (.opendir path (some dir) (some dir) :: h) t := by
  have hslot : t.vfsOpenDirs slot = ⟨some dir, some root⟩ := by rw [hdirs, Function.update_self]
  have hother : ∀ slot' ≠ slot, t.vfsOpenDirs slot' = s.vfsOpenDirs slot' := by
    intro slot' hne
    rw [hdirs, Function.update_of_ne hne]
  -- no other slot holds the new directory
  have honly : ∀ slot', (t.vfsOpenDirs slot').dir = some dir → slot' = slot := by
    intro slot' hdir
    by_contra hne
    rw [hother slot' hne] at hdir
    exact hnew ((hs.dirs dir).mpr ⟨slot', hs.held hdir⟩)
  constructor
  · intro d
    rw [HeldDir, hs.dirs]
    constructor
    · rintro (hd | ⟨slot', hslot'⟩)
      · cases hd
        exact ⟨slot, hslot⟩
      · refine ⟨slot', (hother slot' fun he => ?_).trans hslot'⟩
        rw [he, hfree] at hslot'
        cases hslot'
    · rintro ⟨slot', hslot'⟩
      by_cases hne : slot' = slot
      · rw [hne, hslot] at hslot'
        cases hslot'
        exact .inl rfl
      · exact .inr ⟨slot', (hother slot' hne).symm.trans hslot'⟩
  · intro slot'
    by_cases hne : slot' = slot
    · exact .inr ⟨dir, hne ▸ hslot⟩
    · rw [hother slot' hne]
      exact hs.shape slot'
  · intro slot₁ slot₂ d h₁ h₂
    by_cases hd : d = dir
    · subst hd
      rw [honly slot₁ h₁, honly slot₂ h₂]
    · have hne : ∀ slot', (t.vfsOpenDirs slot').dir = some d → slot' ≠ slot := by
        rintro slot' hdir rfl
        rw [hslot] at hdir
        exact hd (Option.some.inj hdir).symm
      rw [hother _ (hne _ h₁)] at h₁
      rw [hother _ (hne _ h₂)] at h₂
      exact hs.once slot₁ slot₂ d h₁ h₂

theorem DirsHeld.closed (hs : DirsHeld root h s) {slot : Fin 16} {dir : Nat}
    (hslot : s.vfsOpenDirs slot = ⟨some dir, some root⟩)
    (hdirs : t.vfsOpenDirs = Function.update s.vfsOpenDirs slot closedDir) (result : Int) :
    DirsHeld root (.closedir (some dir) result :: h) t := by
  have hclosed : t.vfsOpenDirs slot = closedDir := by rw [hdirs, Function.update_self]
  have hother : ∀ slot' ≠ slot, t.vfsOpenDirs slot' = s.vfsOpenDirs slot' := by
    intro slot' hne
    rw [hdirs, Function.update_of_ne hne]
  have hne : ∀ slot' d, (t.vfsOpenDirs slot').dir = some d → slot' ≠ slot := by
    rintro slot' d hdir rfl
    rw [hclosed] at hdir
    cases hdir
  constructor
  · intro d
    rw [HeldDir, hs.dirs]
    constructor
    · rintro ⟨hd, slot', hslot'⟩
      refine ⟨slot', (hother slot' fun he => hd ?_).trans hslot'⟩
      rw [he, hslot] at hslot'
      cases hslot'
      rfl
    · rintro ⟨slot', hslot'⟩
      have hs' := (hother slot' (hne slot' d (congrArg VfsOpenDir.dir hslot'))).symm.trans hslot'
      refine ⟨fun hd => ?_, slot', hs'⟩
      cases hd
      exact hne slot' dir (congrArg VfsOpenDir.dir hslot')
        (hs.once slot' slot dir (congrArg VfsOpenDir.dir hs') (congrArg VfsOpenDir.dir hslot))
  · intro slot'
    by_cases he : slot' = slot
    · exact .inl (he ▸ hclosed)
    · rw [hother slot' he]
      exact hs.shape slot'
  · intro slot₁ slot₂ d h₁ h₂
    rw [hother _ (hne _ _ h₁)] at h₁
    rw [hother _ (hne _ _ h₂)] at h₂
    exact hs.once slot₁ slot₂ d h₁ h₂

theorem heldFile_opened (root : Nat) (h : List Entry) (path : Option Str) (m : Nat) (fd : Fin 64) :
    heldFile root (.vfsfopen path (some m) fd.val :: h) =
      Function.update (heldFile root h) fd ⟨some m, some root⟩ := by
  funext fd'
  rw [heldFile]
  by_cases hfd : fd' = fd
  · subst hfd
    rw [if_pos rfl, Function.update_self]
  · rw [if_neg (by omega), Function.update_of_ne hfd]

theorem heldFile_closed (root : Nat) (h : List Entry) (fd : Fin 64) (result : Int) :
    heldFile root (.vfsfclose fd result :: h) = Function.update (heldFile root h) fd closedFile := by
  funext fd'
  rw [heldFile]
  by_cases hfd : fd = fd'
  · subst hfd
    rw [if_pos rfl, Function.update_self]
  · rw [if_neg hfd, Function.update_of_ne (Ne.symm hfd)]

theorem heldFile_notOpened (root : Nat) (h : List Entry) (path : Option Str) (obtained : Option Nat) :
    heldFile root (.vfsfopen path obtained (-1) :: h) = heldFile root h := by
  funext fd
  rw [heldFile, if_neg (by omega)]

theorem Consistent.step (hs : Consistent root h s) (hl : Lawful root h s e t) :
    Consistent root (e :: h) t := by
  obtain ⟨hf, hd⟩ := hs
  cases hl with
  | opened hfree hrange hfiles hdirs =>
      exact ⟨hf.update hfiles (heldFile_opened _ _ _ _ _) (.inr ⟨hrange, _, rfl⟩), hd.keep hdirs fun _ => Iff.rfl⟩
  | notOpened hwhy hsame =>
      exact ⟨hf.keep hsame.1 (heldFile_notOpened _ _ _ _), hd.keep hsame.2 fun _ => Iff.rfl⟩
  | closed hopen hfiles hdirs =>
      exact ⟨hf.update hfiles (heldFile_closed _ _ _ _) (.inl rfl), hd.keep hdirs fun _ => Iff.rfl⟩
  | notClosed hclosed hsame =>
      refine ⟨hf.keep hsame.1 ?_, hd.keep hsame.2 fun _ => Iff.rfl⟩
      rw [heldFile_closed, ← hclosed, Function.update_eq_self]
  | dirNotOpened hwhy hsame =>
      refine ⟨hf.keep hsame.1 rfl, hd.keep hsame.2 fun dir => ?_⟩
      rw [HeldDir]
      exact or_iff_right (by simp)
  | dirNotClosed hclosed hsame =>
      refine ⟨hf.keep hsame.1 rfl, hd.keep hsame.2 fun dir => ?_⟩
      rw [HeldDir]
      exact and_iff_right_of_imp fun hheld he => hclosed dir he hheld
  | dirOpened hfree hnew hdirs hfiles => exact ⟨hf.keep hfiles rfl, hd.opened hfree hnew hdirs _⟩
  | dirClosed hslot hdirs hfiles => exact ⟨hf.keep hfiles rfl, hd.closed hslot hdirs _⟩

end MetalNes.HandleTables
