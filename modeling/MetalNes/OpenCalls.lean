import MetalNes.DirectorySearch

namespace MetalNes.OpenCalls

open Loop CStrings Fat32 DirectorySlots FatFiles DirectorySearch

section Opendir

variable (fuel : Nat) (allocs : Allocs) (fs : MountedFs)

/-- The places where fat_opendir looks for the directories of a path. -/
def Walks (path : Str) (v : Walk) : Prop :=
  path ≠ [slash] ∧ ∃ buffer buffersize,
    fatGetdata fuel (allocs.data 0) fs.ebr.clusterRootNum fs.toFatFs = some (.ok (buffer, buffersize)) ∧
      Visits (opendirBody fuel allocs fs)
        ⟨buffer, buffersize, 0, allocs.dirent, (strtok path).1, (strtok path).2, 1⟩ v

/-- The directory looked for is the one at the read pointer, and so far in front of the
next slot. -/
def DirFound (v : Walk) (nextoffset : Int) : Prop :=
  v.readptr < v.buffersize.toNat ∧ ∃ dir, fatGetdirent v.buffer v.readptr v.dir = some (nextoffset, dir) ∧
    found dir v.subdir = .ok true

end Opendir

section Fopen

variable (fuel : Nat) (allocs : Allocs) (malloc : U32 → Option (List U8)) (fs : MountedFs)

/-- The places where fat_fopen looks for the file. -/
def Searches (path : Str) (rdir : Dirent) (fname : Str) (v : Search) : Prop :=
  fatGetfilename fuel path = some (some fname) ∧ ∃ dir fdir rdirent rdir',
    fatOpendir fuel allocs fs (some (pathTo path fname)) = some (.ok (some dir)) ∧
      fatReaddir dir rdir = some (rdirent, fdir, rdir') ∧
      Visits (fopenBody fuel malloc fs fname) ⟨fdir, rdirent, rdir'⟩ v

def FileFound (fname : Str) (v : Search) : Prop :=
  ∃ e, v.rdirent = some e ∧ strcmp e.dName 0 fname = .ok true ∧ e.dType = DT_REG

/-- The call comes to the entry of the file, which is the slot before the read pointer. -/
def ComesTo (path : Str) (rdir : Dirent) (fdir : FatDir) : Prop :=
  ∃ fname v, Searches fuel allocs malloc fs path rdir fname v ∧ FileFound fname v ∧ v.fdir = fdir

end Fopen

variable {fuel : Nat} {allocs : Allocs} {malloc : U32 → Option (List U8)} {fs : MountedFs} {fdir : FatDir}

theorem fopenBody_found {fname : Str} {v : Search} (h : FileFound fname v) :
    fopenBody fuel malloc fs fname v = .done (openFile fuel malloc fs v.fdir) := by
  obtain ⟨e, he, hname, htype⟩ := h
  simp only [fopenBody, he, hname]
  exact if_pos ⟨trivial, htype⟩

theorem ComesTo.openFile_eq {path : Str} {rdir : Dirent} (h : ComesTo fuel allocs malloc fs path rdir fdir)
    {r : Except Fault (Option FatFile)} (hcall : fatFopen fuel allocs malloc fs path rdir = some r) :
    openFile fuel malloc fs fdir = some r := by
  obtain ⟨fname, v, ⟨hfname, dir, fdir', rdirent, rdir', hdir, hread, hvisits⟩, hfound, rfl⟩ := h
  simp only [fatFopen, hfname, hdir, searchFile, hread] at hcall
  have hreturns := hvisits.returns ⟨fuel, Option.join_eq_some_iff.mp hcall⟩
  exact (hreturns.of_first (fopenBody_found hfound)).symm

theorem comesTo_first {slots : List Slot} {s t : Slot} {n : Str} (hname : fatGetfilename fuel n = some (some n))
    (hroot : openData fuel allocs fs 0 fs.ebr.clusterRootNum = some (.ok (some (dirAt slots 0))))
    (hs : slots[0]? = some s) (hl : s.IsLong) (hchars : s.chars = n) (ht : slots[1]? = some t)
    (htype : t.attr = FAT_ARCHIVE_ENT) (rdir : Dirent) : ComesTo fuel allocs malloc fs n rdir (dirAt slots 2) := by
  have hdir : fatOpendir fuel allocs fs (some (pathTo n n)) = some (.ok (some (dirAt slots 0))) := by
    rw [pathTo, if_pos rfl]
    exact hroot
  have hread := fatReaddir_pair (i := 0) rdir hs hl ht (Or.inr htype)
  have hcmp : strcmp (pairDirent rdir s t).dName 0 n = .ok true := by
    refine (strcmp_copyLongName _ _ fun c hc => ?_).trans ?_
    · exact ne_zero_of_mem_chars (hchars.symm ▸ hc)
    · rw [hchars, decide_eq_true rfl]
  have hreg : (pairDirent rdir s t).dType = DT_REG := by
    rw [pairDirent, Slot.dType, htype]
    rfl
  exact ⟨n, _, ⟨hname, _, _, _, _, hdir, hread, .here _⟩, ⟨_, rfl, hcmp, hreg⟩, rfl⟩

end MetalNes.OpenCalls
