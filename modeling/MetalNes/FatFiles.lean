import MetalNes.CStrings
import MetalNes.Fat32

namespace MetalNes.FatFiles

open Loop CStrings Fat32

structure FatEbr where
  clusterRootNum : U32

structure MountedFs extends FatFs where
  ebr : FatEbr

/-- What malloc returns: the blocks for the data of cluster chains, one for each
call of fat_getdata, and what is in the block of the dirent, which nothing clears. -/
structure Allocs where
  data : Nat → U32 → Option (List U8)
  dirent : Dirent

/-- strcmp of the name in a dirent with a string, from a place on. The name has
256 places, and need not have a terminator in them. -/
def strcmp (dName : Nat → U8) : Nat → Str → Except Fault Bool
  | i, [] => if i < 256 then .ok (dName i = 0) else .error .outOfBounds
  | i, c :: s =>
    if i < 256 then
      if dName i = c then strcmp dName (i + 1) s else .ok false
    else .error .outOfBounds

def halfAt (buffer : List U8) (ptr : Nat) : Option U16 :=
  match buffer[ptr]?, buffer[ptr + 1]? with
  | some lo, some hi => some (wordOf lo hi)
  | _, _ => none

def addrHighbits (buffer : List U8) (fdir : Nat) : Option U16 := halfAt buffer (fdir + 20)

def addrLowBits (buffer : List U8) (fdir : Nat) : Option U16 := halfAt buffer (fdir + 26)

def sizeInBytes (buffer : List U8) (fdir : Nat) : Option U32 :=
  match halfAt buffer (fdir + 28), halfAt buffer (fdir + 30) with
  | some lo, some hi => some (hi.setWidth 32 <<< 16 ||| lo.setWidth 32)
  | _, _ => none

def clusterAt (buffer : List U8) (fdir : Int) : Option U32 :=
  if 0 ≤ fdir then
    match addrHighbits buffer fdir.toNat, addrLowBits buffer fdir.toNat with
    | some high, some low => some (high.setWidth 32 <<< 16 ||| low.setWidth 32)
    | _, _ => none
  else none

/-- The cluster number that fat_opendir makes for a directory on the way: the high
half is shifted out. -/
def innerClusterAt (buffer : List U8) (fdir : Nat) : Option U32 :=
  match addrHighbits buffer fdir, addrLowBits buffer fdir with
  | some high, some low => some (high.setWidth 32 >>> 16 ||| low.setWidth 32)
  | _, _ => none

section Opendir

variable (fuel : Nat) (allocs : Allocs) (fs : MountedFs)

def openData (calls : Nat) (clusternum : U32) : Option (Except Fault (Option FatDir)) :=
  match fatGetdata fuel (allocs.data calls) clusternum fs.toFatFs with
  | none => none
  | some (.error e) => some (.error e)
  | some (.ok (data, size)) => some (.ok (some ⟨data, 0, size.toNat⟩))

/-- The variables of fat_opendir, with what strtok has left of the path and the
number of calls of fat_getdata. -/
structure Walk where
  buffer : List U8
  buffersize : U32
  readptr : Nat
  dir : Dirent
  subdir : Option Str
  rest : Str
  calls : Nat

def found (dir : Dirent) (subdir : Option Str) : Except Fault Bool :=
  if dir.dType = DT_DIR then
    match subdir with
    | none => .error .nullPointer
    | some subdir => strcmp dir.dName 0 subdir
  else .ok false

/-- The next directory of the path: its entry is taken from where the read pointer
stands, which is the long name slot if there is one. -/
def enter (v : Walk) (dir : Dirent) (subdir rest : Str) :
    Iter Walk (Option (Except Fault (Option FatDir))) :=
  match innerClusterAt v.buffer v.readptr with
  | none => .done (some (.error .outOfBounds))
  | some clusternum =>
    match fatGetdata fuel (allocs.data v.calls) clusternum fs.toFatFs with
    | none => .done none
    | some (.error e) => .done (some (.error e))
    | some (.ok (buffer, buffersize)) =>
      .next ⟨buffer, buffersize, 0, dir, some subdir, rest, v.calls + 1⟩

/-- The last directory of the path: its entry is the slot before the next one. -/
def arrive (v : Walk) (nextoffset : Int) : Option (Except Fault (Option FatDir)) :=
  match clusterAt v.buffer (v.readptr + nextoffset - sizeofDirent) with
  | none => some (.error .outOfBounds)
  | some clusternum => openData fuel allocs fs v.calls clusternum

def opendirBody (v : Walk) : Iter Walk (Option (Except Fault (Option FatDir))) :=
  if v.readptr < v.buffersize.toNat then
    match fatGetdirent v.buffer v.readptr v.dir with
    | none => .done (some (.error .outOfBounds))
    | some (nextoffset, dir) =>
      match found dir v.subdir with
      | .error e => .done (some (.error e))
      | .ok true =>
        match strtok v.rest with
        | (none, _) => .done (arrive fuel allocs fs v nextoffset)
        | (some subdir, rest) => enter fuel allocs fs v dir subdir rest
      | .ok false =>
        let step := if nextoffset = -1 then sizeofDirent else nextoffset.toNat
        .next { v with readptr := v.readptr + step, dir }
  else .done (some (.ok none))

def fatOpendir (path : Option Str) : Option (Except Fault (Option FatDir)) :=
  match path with
  | none => some (.ok none)
  | some path =>
    if path = [slash] then openData fuel allocs fs 0 fs.ebr.clusterRootNum
    else
      let (subdir, rest) := strtok path
      match fatGetdata fuel (allocs.data 0) fs.ebr.clusterRootNum fs.toFatFs with
      | none => none
      | some (.error e) => some (.error e)
      | some (.ok (buffer, buffersize)) =>
        (run (opendirBody fuel allocs fs) fuel
          ⟨buffer, buffersize, 0, allocs.dirent, subdir, rest, 1⟩).join

end Opendir

theorem openData_ne_null (fuel : Nat) (allocs : Allocs) (fs : MountedFs) (calls : Nat) (c : U32) :
    openData fuel allocs fs calls c ≠ some (.ok none) := by
  intro h
  unfold openData at h
  split at h <;> cases h

section Fuel

variable {m k : Nat} (hmk : m ≤ k) {allocs : Allocs} {fs : MountedFs}

include hmk

theorem fatGetdata_mono {malloc : U32 → Option (List U8)} {c : U32} {fs : FatFs}
    {r : Except Fault (List U8 × U32)} (h : fatGetdata m malloc c fs = some r) :
    fatGetdata k malloc c fs = some r := by
  simp only [fatGetdata] at h ⊢
  cases hcount : fatGetclustercount m c fs with
  | none => rw [hcount] at h; cases h
  | some q =>
      have hcount' : fatGetclustercount k c fs = some q := run_mono hmk hcount
      rw [hcount] at h
      rw [hcount']
      cases q with
      | error e => exact h
      | ok count =>
          simp only at h ⊢
          cases hmalloc : malloc (fs.clustersize * count) with
          | none => rw [hmalloc] at h; exact h
          | some data => rw [hmalloc] at h; exact run_mono hmk h

theorem openData_mono {calls : Nat} {c : U32} {r : Except Fault (Option FatDir)}
    (h : openData m allocs fs calls c = some r) : openData k allocs fs calls c = some r := by
  unfold openData at h ⊢
  cases hget : fatGetdata m (allocs.data calls) c fs.toFatFs with
  | none => rw [hget] at h; cases h
  | some q => rw [hget] at h; rw [fatGetdata_mono hmk hget]; exact h

theorem arrive_mono {v : Walk} {nextoffset : Int} {r : Except Fault (Option FatDir)}
    (h : arrive m allocs fs v nextoffset = some r) : arrive k allocs fs v nextoffset = some r := by
  unfold arrive at h ⊢
  split at h
  · exact h
  · exact openData_mono hmk h

theorem enter_mono {v : Walk} {dir : Dirent} {subdir rest : Str}
    (h : enter m allocs fs v dir subdir rest ≠ .done none) :
    enter k allocs fs v dir subdir rest = enter m allocs fs v dir subdir rest := by
  unfold enter at h ⊢
  split at h
  · rfl
  · next clusternum _ =>
      cases hget : fatGetdata m (allocs.data v.calls) clusternum fs.toFatFs with
      | none => rw [hget] at h; exact absurd rfl h
      | some q => rw [fatGetdata_mono hmk hget]

theorem opendirBody_mono {v : Walk} (h : opendirBody m allocs fs v ≠ .done none) :
    opendirBody k allocs fs v = opendirBody m allocs fs v := by
  unfold opendirBody at h ⊢
  split at h
  · next hlt =>
      rw [if_pos hlt, if_pos hlt]
      split at h
      · rfl
      · split at h
        · rfl
        · split at h
          · cases harrive : arrive m allocs fs v _ with
            | none => rw [harrive] at h; exact absurd rfl h
            | some q => rw [arrive_mono hmk harrive]
          · exact enter_mono hmk h
        · rfl
  · next hlt => rw [if_neg hlt, if_neg hlt]

theorem run_opendirBody_mono {passes : Nat} {v : Walk} {r : Except Fault (Option FatDir)}
    (h : run (opendirBody m allocs fs) passes v = some (some r)) :
    run (opendirBody k allocs fs) passes v = some (some r) := by
  induction passes generalizing v with
  | zero => cases h
  | succ passes ih =>
      cases hbody : opendirBody m allocs fs v with
      | done q =>
          rw [run_done hbody] at h
          cases h
          have hsame := opendirBody_mono hmk (v := v) (by rw [hbody]; exact nofun)
          exact run_done (hsame.trans hbody) passes
      | next w =>
          rw [run_next hbody] at h
          have hsame := opendirBody_mono hmk (v := v) (by rw [hbody]; exact nofun)
          exact (run_next (hsame.trans hbody) passes).trans (ih h)

theorem fatOpendir_mono {path : Option Str} {r : Except Fault (Option FatDir)}
    (h : fatOpendir m allocs fs path = some r) : fatOpendir k allocs fs path = some r := by
  unfold fatOpendir at h ⊢
  split at h
  · exact h
  · next path =>
      split at h
      · next hroot =>
          simp only [if_pos hroot]
          exact openData_mono hmk h
      · next hroot =>
          simp only [if_neg hroot]
          cases hget : fatGetdata m (allocs.data 0) fs.ebr.clusterRootNum fs.toFatFs with
          | none => rw [hget] at h; cases h
          | some q =>
              rw [hget] at h
              rw [fatGetdata_mono hmk hget]
              cases q with
              | error e => exact h
              | ok q =>
                  have hrun := run_opendirBody_mono hmk (Option.join_eq_some_iff.mp h)
                  exact Option.join_eq_some_iff.mpr (run_mono hmk hrun)

end Fuel

section Fopen

def filenameBody (v : Option Str × Str) : Iter (Option Str × Str) (Option Str) :=
  match strtok v.2 with
  | (none, _) => .done v.1
  | (some n, rest) => .next (some n, rest)

def fatGetfilename (fuel : Nat) (pathstr : Str) : Option (Option Str) :=
  run filenameBody fuel (strtok pathstr)

structure FatFile where
  data : List U8
  dataptr : Nat
  buffersize : U32
  filesize : U32
  basecluster : U32
  deriving DecidableEq, Repr

variable (fuel : Nat) (allocs : Allocs) (malloc : U32 → Option (List U8)) (fs : MountedFs)

/-- The file whose entry is the slot before the read pointer. -/
def openFile (fdir : FatDir) : Option (Except Fault (Option FatFile)) :=
  match clusterAt fdir.data (fdir.readptr - sizeofDirent : Int),
      sizeInBytes fdir.data (fdir.readptr - sizeofDirent) with
  | some filecluster, some filesize =>
    match fatGetclustercount fuel filecluster fs.toFatFs with
    | none => none
    | some (.error e) => some (.error e)
    | some (.ok _) =>
      match fatGetdata fuel malloc filecluster fs.toFatFs with
      | none => none
      | some (.error e) => some (.error e)
      | some (.ok (data, buffersize)) =>
        if buffersize = -1 then some (.ok none)
        else some (.ok (some ⟨data, 0, buffersize, filesize, filecluster⟩))
  | _, _ => some (.error .outOfBounds)

/-- The search of fat_fopen: the directory, what fat_readdir returned last, and its
static dirent. -/
structure Search where
  fdir : FatDir
  rdirent : Option Dirent
  rdir : Dirent

def fopenBody (fname : Str) (v : Search) : Iter Search (Option (Except Fault (Option FatFile))) :=
  match v.rdirent with
  | none => .done (some (.ok none))
  | some rdirent =>
    match strcmp rdirent.dName 0 fname with
    | .error e => .done (some (.error e))
    | .ok same =>
      if same ∧ rdirent.dType = DT_REG then .done (openFile fuel malloc fs v.fdir)
      else
        match fatReaddir v.fdir v.rdir with
        | none => .done (some (.error .outOfBounds))
        | some (rdirent, fdir, rdir) => .next ⟨fdir, rdirent, rdir⟩

def searchFile (fname : Str) (fdir : FatDir) (rdir : Dirent) :
    Option (Except Fault (Option FatFile)) :=
  match fatReaddir fdir rdir with
  | none => some (.error .outOfBounds)
  | some (rdirent, fdir, rdir) =>
    (run (fopenBody fuel malloc fs fname) fuel ⟨fdir, rdirent, rdir⟩).join

/-- The path to a file's directory: what is before the last name, or where that is
the whole path, the root. -/
def pathTo (path fname : Str) : Str :=
  if path = fname then [slash] else path.take (path.length - fname.length)

def fatFopen (path : Str) (rdir : Dirent) : Option (Except Fault (Option FatFile)) :=
  match fatGetfilename fuel path with
  | none => none
  | some none => some (.ok none)
  | some (some fname) =>
    match fatOpendir fuel allocs fs (some (pathTo path fname)) with
    | none => none
    | some (.error e) => some (.error e)
    | some (.ok none) => some (.ok none)
    | some (.ok (some fdir)) => searchFile fuel malloc fs fname fdir rdir

end Fopen

/-- The bytes delivered, the number returned, and the file behind the read. -/
def fatFread (size : U32) (file : FatFile) : Except Fault (List U8 × U32 × FatFile) :=
  let offsetintofile := BitVec.ofNat 32 file.dataptr
  let bytestoread :=
    if offsetintofile + size > file.buffersize then file.buffersize - offsetintofile else size
  if bytestoread = 0 then .ok ([], -1, file)
  else if file.dataptr + bytestoread.toNat ≤ file.data.length then
    .ok (bytesAt file.data file.dataptr bytestoread.toNat, bytestoread,
      { file with dataptr := file.dataptr + bytestoread.toNat })
  else .error .outOfBounds

end MetalNes.FatFiles
