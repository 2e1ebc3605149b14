import MetalNes.FileReads
import MetalNes.MallocLog
import MetalNes.PathSplit

namespace MetalNes.FopenLeaks

open Loop CStrings Fat32 FatFiles MallocLog

inductive Static
  | rdir
  deriving DecidableEq

section Opendir

variable (fuel : Nat) (allocs : Allocs) (fs : MountedFs)

structure OpenDir where
  dir : FatDir
  odir : Nat
  data : Nat

def openDataLog (calls : Nat) (clusternum : U32) (l : Log Static) :
    Option (Except Fault (Option OpenDir × Log Static)) :=
  match fatGetdata fuel (allocs.data calls) clusternum fs.toFatFs with
  | none => none
  | some (.error e) => some (.error e)
  | some (.ok (data, size)) =>
    let (buffer, l) := l.malloc
    let (odir, l) := l.malloc
    some (.ok (some ⟨⟨data, 0, size.toNat⟩, odir, buffer⟩, l))

structure WalkLog where
  walk : Walk
  buffer : Nat
  log : Log Static

def enterLog (v : WalkLog) (dir : Dirent) (subdir rest : Str) :
    Iter WalkLog (Option (Except Fault (Option OpenDir × Log Static))) :=
  match innerClusterAt v.walk.buffer v.walk.readptr with
  | none => .done (some (.error .outOfBounds))
  | some clusternum =>
    let l := v.log.free (.block v.buffer)
    match fatGetdata fuel (allocs.data v.walk.calls) clusternum fs.toFatFs with
    | none => .done none
    | some (.error e) => .done (some (.error e))
    | some (.ok (buffer, buffersize)) =>
      let (block, l) := l.malloc
      .next ⟨⟨buffer, buffersize, 0, dir, some subdir, rest, v.walk.calls + 1⟩, block, l⟩

def arriveLog (dirent : Nat) (v : WalkLog) (nextoffset : Int) :
    Option (Except Fault (Option OpenDir × Log Static)) :=
  match clusterAt v.walk.buffer (v.walk.readptr + nextoffset - sizeofDirent) with
  | none => some (.error .outOfBounds)
  | some clusternum =>
    openDataLog fuel allocs fs v.walk.calls clusternum ((v.log.free (.block v.buffer)).free (.block dirent))

def opendirBodyLog (dirent : Nat) (v : WalkLog) :
    Iter WalkLog (Option (Except Fault (Option OpenDir × Log Static))) :=
  if v.walk.readptr < v.walk.buffersize.toNat then
    match fatGetdirent v.walk.buffer v.walk.readptr v.walk.dir with
    | none => .done (some (.error .outOfBounds))
    | some (nextoffset, dir) =>
      match found dir v.walk.subdir with
      | .error e => .done (some (.error e))
      | .ok true =>
        match strtok v.walk.rest with
        | (none, _) => .done (arriveLog fuel allocs fs dirent v nextoffset)
        | (some subdir, rest) => enterLog fuel allocs fs v dir subdir rest
      | .ok false =>
        let step := if nextoffset = -1 then sizeofDirent else nextoffset.toNat
        .next { v with walk := { v.walk with readptr := v.walk.readptr + step, dir } }
  else .done (some (.ok (none, (v.log.free (.block v.buffer)).free (.block dirent))))

def fatOpendirLog (path : Option Str) (l : Log Static) : Option (Except Fault (Option OpenDir × Log Static)) :=
  match path with
  | none => some (.ok (none, l))
  | some path =>
    if path = [slash] then openDataLog fuel allocs fs 0 fs.ebr.clusterRootNum l
    else
      match fatGetdata fuel (allocs.data 0) fs.ebr.clusterRootNum fs.toFatFs with
      | none => none
      | some (.error e) => some (.error e)
      | some (.ok (buffer, buffersize)) =>
        let (block, l) := l.malloc
        let (dirent, l) := l.malloc
        (run (opendirBodyLog fuel allocs fs dirent) fuel
          ⟨⟨buffer, buffersize, 0, allocs.dirent, (strtok path).1, (strtok path).2, 1⟩, block, l⟩).join

end Opendir

section Fopen

variable (fuel : Nat) (allocs : Allocs) (malloc : U32 → Option (List U8)) (fs : MountedFs)

structure OpenFile where
  file : FatFile
  fatfile : Nat
  data : Nat
  deriving DecidableEq

/-- The block of the directory's path, or none where it is the literal. -/
def pathtoLog (path fname : Str) (l : Log Static) : Option Nat × Log Static :=
  if path = fname then (none, l) else (some l.malloc.1, l.malloc.2)

/-- What is left of a string after strtok has put a terminator behind its first piece. -/
def cut (s : Str) : Str := s.take (s.length - (behind s).length)

/-- The copy of the path and, unless it is the literal, the directory's path are freed. That
the literal was used is taken from what the string is. -/
def release (copy : Nat) (pathto : Option Nat) (content : Str) (l : Log Static) : Log Static :=
  let l := l.free (.block copy)
  match pathto with
  | none => l
  | some pathto => if content ≠ [slash] then l.free (.block pathto) else l

variable (released : Log Static → Log Static)

/-- What is freed as rdirent is the static dirent by then. -/
def openFileLog (fdir : FatDir) (l : Log Static) : Option (Except Fault (Option OpenFile × Log Static)) :=
  match clusterAt fdir.data (fdir.readptr - sizeofDirent : Int),
      sizeInBytes fdir.data (fdir.readptr - sizeofDirent) with
  | some filecluster, some filesize =>
    let (fatfile, l) := l.malloc
    match fatGetclustercount fuel filecluster fs.toFatFs with
    | none => none
    | some (.error e) => some (.error e)
    | some (.ok _) =>
      match fatGetdata fuel malloc filecluster fs.toFatFs with
      | none => none
      | some (.error e) => some (.error e)
      | some (.ok (data, buffersize)) =>
        let (block, l) := l.malloc
        if buffersize = -1 then
          some (.ok (none, released (((l.free (.block block)).free (.block fatfile)).free (.static .rdir))))
        else
          some (.ok (some ⟨⟨data, 0, buffersize, filesize, filecluster⟩, fatfile, block⟩,
            released (l.free (.static .rdir))))
  | _, _ => some (.error .outOfBounds)

def fopenBodyLog (fname : Str) (l : Log Static) (v : Search) :
    Iter Search (Option (Except Fault (Option OpenFile × Log Static))) :=
  match v.rdirent with
  | none => .done (some (.ok (none, released l)))
  | some rdirent =>
    match strcmp rdirent.dName 0 fname with
    | .error e => .done (some (.error e))
    | .ok same =>
      if same ∧ rdirent.dType = DT_REG then .done (openFileLog fuel malloc fs released v.fdir l)
      else
        match fatReaddir v.fdir v.rdir with
        | none => .done (some (.error .outOfBounds))
        | some (rdirent, fdir, rdir) => .next ⟨fdir, rdirent, rdir⟩

/-- A block is allocated for the dirent, and its address is lost at once. -/
def searchFileLog (fname : Str) (fdir : FatDir) (rdir : Dirent) (l : Log Static) :
    Option (Except Fault (Option OpenFile × Log Static)) :=
  let (_, l) := l.malloc
  match fatReaddir fdir rdir with
  | none => some (.error .outOfBounds)
  | some (rdirent, fdir, rdir) =>
    (run (fopenBodyLog fuel malloc fs released fname l) fuel ⟨fdir, rdirent, rdir⟩).join

def fatFopenLog (path : Option Str) (rdir : Dirent) : Option (Except Fault (Option OpenFile × Log Static)) :=
  match path with
  | none => some (.ok (none, .empty))
  | some path =>
    let (copy, l) := Log.empty.malloc
    match fatGetfilename fuel path with
    | none => none
    | some none => some (.ok (none, l))
    | some (some fname) =>
      let (pathto, l) := pathtoLog path fname l
      let released := release copy pathto (cut (pathTo path fname))
      match fatOpendirLog fuel allocs fs (some (pathTo path fname)) l with
      | none => none
      | some (.error e) => some (.error e)
      | some (.ok (none, l)) => some (.ok (none, released l))
      | some (.ok (some fdir, l)) => searchFileLog fuel malloc fs released fname fdir.dir rdir l

end Fopen

section Model

variable {fuel : Nat} {allocs : Allocs} {malloc : U32 → Option (List U8)} {fs : MountedFs}

def forget {α β : Type} (f : α → β) (r : Option (Except Fault (Option α × Log Static))) :
    Option (Except Fault (Option β)) := r.map (Except.map fun r => r.1.map f)

theorem openDataLog_forget (calls : Nat) (c : U32) (l : Log Static) :
    forget OpenDir.dir (openDataLog fuel allocs fs calls c l) = openData fuel allocs fs calls c := by
  unfold openDataLog openData
  cases fatGetdata fuel (allocs.data calls) c fs.toFatFs with
  | none => rfl
  | some r => cases r <;> rfl

theorem enterLog_forget (v : WalkLog) (dir : Dirent) (subdir rest : Str) :
    enter fuel allocs fs v.walk dir subdir rest =
      (enterLog fuel allocs fs v dir subdir rest).map WalkLog.walk (forget OpenDir.dir) := by
  unfold enterLog enter
  cases innerClusterAt v.walk.buffer v.walk.readptr with
  | none => rfl
  | some c =>
      simp only
      cases fatGetdata fuel (allocs.data v.walk.calls) c fs.toFatFs with
      | none => rfl
      | some r => cases r <;> rfl

theorem arriveLog_forget (dirent : Nat) (v : WalkLog) (nextoffset : Int) :
    forget OpenDir.dir (arriveLog fuel allocs fs dirent v nextoffset) = arrive fuel allocs fs v.walk nextoffset := by
  unfold arriveLog arrive
  cases clusterAt v.walk.buffer (v.walk.readptr + nextoffset - sizeofDirent) with
  | none => rfl
  | some c => exact openDataLog_forget _ _ _

theorem opendirBodyLog_forget (dirent : Nat) (v : WalkLog) : opendirBody fuel allocs fs v.walk =
    (opendirBodyLog fuel allocs fs dirent v).map WalkLog.walk (forget OpenDir.dir) := by
  unfold opendirBodyLog opendirBody
  by_cases hlt : v.walk.readptr < v.walk.buffersize.toNat
  · rw [if_pos hlt, if_pos hlt]
    cases fatGetdirent v.walk.buffer v.walk.readptr v.walk.dir with
    | none => rfl
    | some entry =>
        simp only
        cases found entry.2 v.walk.subdir with
        | error e => rfl
        | ok same =>
            cases same with
            | false => rfl
            | true =>
                cases strtok v.walk.rest
                next subdir rest =>
                cases subdir with
                | none => exact congrArg Iter.done (arriveLog_forget dirent v entry.1).symm
                | some subdir => exact enterLog_forget v entry.2 subdir rest
  · rw [if_neg hlt, if_neg hlt]
    rfl

theorem forget_none {α β : Type} {f : α → β} {r : Option (Except Fault (Option α × Log Static))}
    (h : forget f r = some (.ok none)) : ∃ l, r = some (.ok (none, l)) := by
  rcases r with _ | e | ⟨_ | a, l⟩
  · cases h
  · cases h
  · exact ⟨l, rfl⟩
  · cases h

theorem forget_join {α β : Type} {f : α → β} (r : Option (Option (Except Fault (Option α × Log Static)))) :
    forget f r.join = (r.map (forget f)).join := by
  cases r <;> rfl

theorem fatOpendirLog_forget (path : Option Str) (l : Log Static) :
    forget OpenDir.dir (fatOpendirLog fuel allocs fs path l) = fatOpendir fuel allocs fs path := by
  unfold fatOpendirLog fatOpendir
  cases path with
  | none => rfl
  | some path =>
      simp only
      by_cases hroot : path = [slash]
      · rw [if_pos hroot, if_pos hroot]
        exact openDataLog_forget _ _ _
      · rw [if_neg hroot, if_neg hroot]
        cases fatGetdata fuel (allocs.data 0) fs.ebr.clusterRootNum fs.toFatFs with
        | none => rfl
        | some r =>
            cases r with
            | error e => rfl
            | ok r =>
                refine (forget_join _).trans (congrArg Option.join ?_)
                exact (run_map (opendirBodyLog_forget _) fuel _).symm

theorem openFileLog_forget (released : Log Static → Log Static) (fdir : FatDir) (l : Log Static) :
    forget OpenFile.file (openFileLog fuel malloc fs released fdir l) = openFile fuel malloc fs fdir := by
  unfold openFileLog openFile
  cases clusterAt fdir.data (fdir.readptr - sizeofDirent : Int) with
  | none => rfl
  | some c =>
      cases sizeInBytes fdir.data (fdir.readptr - sizeofDirent) with
      | none => rfl
      | some size =>
          simp only
          cases fatGetclustercount fuel c fs.toFatFs with
          | none => rfl
          | some r =>
              cases r with
              | error e => rfl
              | ok count =>
                  simp only
                  cases fatGetdata fuel malloc c fs.toFatFs with
                  | none => rfl
                  | some r =>
                      cases r with
                      | error e => rfl
                      | ok r =>
                          simp only
                          by_cases herror : r.2 = -1
                          · rw [if_pos herror, if_pos herror]
                            rfl
                          · rw [if_neg herror, if_neg herror]
                            rfl

theorem fopenBodyLog_forget (released : Log Static → Log Static) (fname : Str) (l : Log Static) (v : Search) :
    fopenBody fuel malloc fs fname v =
      (fopenBodyLog fuel malloc fs released fname l v).map id (forget OpenFile.file) := by
  unfold fopenBodyLog fopenBody
  cases v.rdirent with
  | none => rfl
  | some rdirent =>
      simp only
      cases strcmp rdirent.dName 0 fname with
      | error e => rfl
      | ok same =>
          simp only
          by_cases hfound : same = true ∧ rdirent.dType = DT_REG
          · rw [if_pos hfound, if_pos hfound]
            exact congrArg Iter.done (openFileLog_forget released v.fdir l).symm
          · rw [if_neg hfound, if_neg hfound]
            cases fatReaddir v.fdir v.rdir <;> rfl

theorem searchFileLog_forget (released : Log Static → Log Static) (fname : Str) (fdir : FatDir) (rdir : Dirent)
    (l : Log Static) : forget OpenFile.file (searchFileLog fuel malloc fs released fname fdir rdir l) =
      searchFile fuel malloc fs fname fdir rdir := by
  unfold searchFileLog searchFile
  simp only
  cases fatReaddir fdir rdir with
  | none => rfl
  | some r =>
      refine (forget_join _).trans (congrArg Option.join ?_)
      exact (run_map (f := id) (fopenBodyLog_forget released fname l.malloc.2) fuel _).symm

/-- Apart from the blocks, the call is that of the model of fat_fopen. -/
theorem fatFopenLog_forget (path : Str) (rdir : Dirent) :
    forget OpenFile.file (fatFopenLog fuel allocs malloc fs (some path) rdir) =
      fatFopen fuel allocs malloc fs path rdir := by
  unfold fatFopenLog fatFopen
  simp only
  cases fatGetfilename fuel path with
  | none => rfl
  | some name =>
      cases name with
      | none => rfl
      | some fname =>
          simp only
          rw [← fatOpendirLog_forget _ (pathtoLog path fname Log.empty.malloc.2).2]
          cases fatOpendirLog fuel allocs fs (some (pathTo path fname))
            (pathtoLog path fname Log.empty.malloc.2).2 with
          | none => rfl
          | some r =>
              cases r with
              | error e => rfl
              | ok r =>
                  cases r
                  next fdir l =>
                  cases fdir with
                  | none => rfl
                  | some fdir => exact searchFileLog_forget _ fname fdir.dir rdir l

end Model

section Owned

variable {fuel : Nat} {allocs : Allocs} {fs : MountedFs} {live : List Nat} {l : Log Static}

def dirBlocks : Option OpenDir → List Nat
  | none => []
  | some d => [d.odir, d.data]

/-- In a result of fat_opendir: the blocks of the directory are in use, and those that
were, and no others. -/
def Settled (live : List Nat) (r : Option (Except Fault (Option OpenDir × Log Static))) : Prop :=
  ∀ d l, r = some (.ok (d, l)) → Owns l (dirBlocks d ++ live)

theorem settled_none : Settled live none := by
  intro d l h
  cases h

theorem settled_error (e : Fault) : Settled live (some (.error e)) := by
  intro d l h
  cases h

theorem openDataLog_settled (h : Owns l live) (calls : Nat) (c : U32) :
    Settled live (openDataLog fuel allocs fs calls c l) := by
  intro d l' hr
  unfold openDataLog at hr
  split at hr
  · cases hr
  · cases hr
  · cases hr
    exact h.malloc.malloc

/-- The loop of fat_opendir has its buffer and its dirent. -/
def WalkOwns (dirent : Nat) (live : List Nat) (v : WalkLog) : Prop := Owns v.log (v.buffer :: dirent :: live)

theorem opendirBodyLog_next {dirent : Nat} {v w : WalkLog} (h : WalkOwns dirent live v)
    (hnext : opendirBodyLog fuel allocs fs dirent v = .next w) : WalkOwns dirent live w := by
  unfold opendirBodyLog at hnext
  split at hnext
  · split at hnext
    · cases hnext
    · split at hnext
      · cases hnext
      · split at hnext
        · cases hnext
        · unfold enterLog at hnext
          split at hnext
          · cases hnext
          · split at hnext
            · cases hnext
            · cases hnext
            · cases hnext
              exact h.free.malloc
      · cases hnext
        exact h
  · cases hnext

theorem opendirBodyLog_done {dirent : Nat} {v : WalkLog}
    {r : Option (Except Fault (Option OpenDir × Log Static))} (h : WalkOwns dirent live v)
    (hdone : opendirBodyLog fuel allocs fs dirent v = .done r) : Settled live r := by
  have hfreed : Owns ((v.log.free (.block v.buffer)).free (.block dirent)) live := h.free.free
  unfold opendirBodyLog at hdone
  split at hdone
  · split at hdone
    · cases hdone
      exact settled_error _
    · split at hdone
      · cases hdone
        exact settled_error _
      · split at hdone
        · cases hdone
          unfold arriveLog
          split
          · exact settled_error _
          · exact openDataLog_settled hfreed _ _
        · unfold enterLog at hdone
          split at hdone
          · cases hdone
            exact settled_error _
          · split at hdone
            · cases hdone
              exact settled_none
            · cases hdone
              exact settled_error _
            · cases hdone
      · cases hdone
  · cases hdone
    intro d l' hr
    cases hr
    exact hfreed

/-- All that fat_opendir allocates is freed, but for the directory it returns. -/
theorem fatOpendirLog_settled (h : Owns l live) (path : Str) :
    Settled live (fatOpendirLog fuel allocs fs (some path) l) := by
  simp only [fatOpendirLog]
  split
  · exact openDataLog_settled h _ _
  · split
    · exact settled_none
    · exact settled_error _
    · intro d l' hr
      have hstart := h.malloc.malloc.perm (List.Perm.swap _ _ _)
      refine run_invariant (P := WalkOwns l.malloc.2.malloc.1 live) (fun _ _ => opendirBodyLog_next)
        (fun _ _ => opendirBodyLog_done) ?_ (Option.join_eq_some_iff.mp hr) d l' rfl
      exact hstart

end Owned

section Lost

variable {fuel : Nat} {malloc : U32 → Option (List U8)} {fs : MountedFs} {l : Log Static} {b : Nat}

def fileBlocks : Option OpenFile → List Nat
  | none => []
  | some f => [f.fatfile, f.data]

/-- In a result of fat_fopen: a block is neither freed nor returned. -/
def Loses (b : Nat) (r : Option (Except Fault (Option OpenFile × Log Static))) : Prop :=
  ∀ f l, r = some (.ok (f, l)) → Held l b ∧ b ∉ fileBlocks f

variable {released : Log Static → Log Static} (hreleased : ∀ l, Held l b → Held (released l) b)

include hreleased

theorem openFileLog_loses (hb : Held l b) (fdir : FatDir) : Loses b (openFileLog fuel malloc fs released fdir l) := by
  have hfatfile : l.mallocs ≠ b := hb.1.ne'
  have hdata : l.malloc.2.mallocs ≠ b := (Nat.lt_succ_of_lt hb.1).ne'
  intro f l' hr
  simp only [openFileLog] at hr
  split at hr
  · split at hr
    · cases hr
    · cases hr
    · split at hr
      · cases hr
      · cases hr
      · split at hr
        · cases hr
          refine ⟨hreleased _ (((hb.malloc.malloc.free ?_).free ?_).free ?_), List.not_mem_nil⟩
          · exact fun heq => hdata (Pointer.block.inj heq)
          · exact fun heq => hfatfile (Pointer.block.inj heq)
          · intro heq
            cases heq
        · cases hr
          refine ⟨hreleased _ (hb.malloc.malloc.free ?_), ?_⟩
          · intro heq
            cases heq
          · rw [fileBlocks, List.mem_pair, not_or]
            exact ⟨hfatfile.symm, hdata.symm⟩
  · cases hr

theorem fopenBodyLog_loses (hb : Held l b) {fname : Str} {v : Search}
    {r : Option (Except Fault (Option OpenFile × Log Static))}
    (hdone : fopenBodyLog fuel malloc fs released fname l v = .done r) : Loses b r := by
  unfold fopenBodyLog at hdone
  split at hdone
  · cases hdone
    intro f l' hr
    cases hr
    exact ⟨hreleased l hb, List.not_mem_nil⟩
  · split at hdone
    · cases hdone
      intro f l' hr
      cases hr
    · split at hdone
      · cases hdone
        exact openFileLog_loses hreleased hb v.fdir
      · split at hdone
        · cases hdone
          intro f l' hr
          cases hr
        · cases hdone

end Lost

theorem searchFileLog_loses {fuel : Nat} {malloc : U32 → Option (List U8)} {fs : MountedFs} {l : Log Static}
    {live : List Nat} (h : Owns l live) {released : Log Static → Log Static}
    (hreleased : ∀ l', Held l' l.mallocs → Held (released l') l.mallocs) (fname : Str) (fdir : FatDir) (rdir : Dirent) :
    Loses l.mallocs (searchFileLog fuel malloc fs released fname fdir rdir l) := by
  have hb : Held l.malloc.2 l.mallocs := by
    refine ⟨Nat.lt_succ_self _, fun hmem => ?_⟩
    obtain ⟨b, hb, heq⟩ := h.blocks _ hmem
    cases heq
    exact lt_irrefl _ hb
  intro f l' hr
  simp only [searchFileLog] at hr
  split at hr
  · cases hr
  · exact run_of_done (fun _ _ => fopenBodyLog_loses hreleased hb) (Option.join_eq_some_iff.mp hr) f l' rfl

section Release

variable {l : Log Static} {b copy : Nat} {pathto : Option Nat}

theorem release_held (hcopy : copy ≠ b) (hpathto : pathto ≠ some b) (content : Str) (h : Held l b) :
    Held (release copy pathto content l) b := by
  have hfree := h.free fun heq => hcopy (Pointer.block.inj heq)
  unfold release
  cases pathto with
  | none => exact hfree
  | some p =>
      simp only
      split
      · exact hfree.free fun heq => hpathto (congrArg some (Pointer.block.inj heq))
      · exact hfree

/-- What strtok leaves of a path is the root's only if it was the root's. -/
theorem cut_eq_root {s : Str} (h : cut s = [slash]) : s = [slash] := by
  rcases strtok_names s with ⟨-, hnone⟩ | ⟨n, rest, hsome, -⟩
  · have hbehind : behind s = [] := by
      simp only [strtok] at hnone
      split at hnone
      · next hnil => rw [behind, hnil, List.dropWhile_nil]
      · cases hnone
    rwa [cut, hbehind, List.length_nil, Nat.sub_zero, List.take_length] at h
  · obtain ⟨⟨front, hs⟩, hne, hslash, -⟩ := strtok_some hsome
    have hcut : cut s = front ++ n := by
      have hlen := congrArg List.length hs
      rw [List.length_append] at hlen
      rw [cut, hlen, Nat.add_sub_cancel]
      exact (congrArg (List.take _) hs).trans List.take_left
    rcases List.append_eq_singleton_iff.mp (hcut.symm.trans h) with ⟨-, hn⟩ | ⟨-, hn⟩
    · exact absurd (hn ▸ List.mem_singleton_self slash) hslash
    · exact absurd hn hne

end Release

/-- On return all blocks of the call but those of the file have been freed once, and only
blocks were. -/
def LeaksNothing (r : Option OpenFile × Log Static) : Prop := r.2.FreesAll (fileBlocks r.1)

def DirectoryMissing (fuel : Nat) (allocs : Allocs) (fs : MountedFs) (path : Str) : Prop :=
  ∃ fname, fatGetfilename fuel path = some (some fname) ∧
    fatOpendir fuel allocs fs (some (pathTo path fname)) = some (.ok none)

section Calls

variable {fuel : Nat} {allocs : Allocs} {malloc : U32 → Option (List U8)} {fs : MountedFs} {path : Str}
  {rdir : Dirent} {r : Option OpenFile × Log Static}

/-- A directory that is missing is not the root, whose path is never written as a literal
then. -/
theorem pathTo_of_missing {fname : Str}
    (h : fatOpendir fuel allocs fs (some (pathTo path fname)) = some (.ok none)) :
    path ≠ fname ∧ pathTo path fname ≠ [slash] := by
  have hne : pathTo path fname ≠ [slash] := by
    intro hroot
    rw [hroot] at h
    exact openData_ne_null fuel allocs fs 0 _ h
  exact ⟨fun heq => hne (if_pos heq), hne⟩

theorem leaksNothing_of_missing (hcall : fatFopenLog fuel allocs malloc fs (some path) rdir = some (.ok r))
    (hmissing : DirectoryMissing fuel allocs fs path) : LeaksNothing r := by
  obtain ⟨fname, hname, hopen⟩ := hmissing
  obtain ⟨hne, hroot⟩ := pathTo_of_missing hopen
  simp only [fatFopenLog, hname, pathtoLog, if_neg hne] at hcall
  obtain ⟨l, hlog⟩ := forget_none ((fatOpendirLog_forget _ Log.empty.malloc.2.malloc.2).trans hopen)
  have howns : Owns l [1, 0] := fatOpendirLog_settled owns_empty.malloc.malloc _ none l hlog
  rw [hlog] at hcall
  cases hcall
  have hcut : cut (pathTo path fname) ≠ [slash] := fun h => hroot (cut_eq_root h)
  simp only [LeaksNothing, release, if_pos hcut]
  exact (howns.perm (List.Perm.swap _ _ _)).free.free.freesAll

theorem pathtoLog_owns (path fname : Str) {l : Log Static} {copy : Nat} (h : Owns l [copy]) : ∃ live,
    Owns (pathtoLog path fname l).2 live ∧ copy ∈ live ∧ ∀ b, (pathtoLog path fname l).1 = some b → b ∈ live := by
  unfold pathtoLog
  split
  · refine ⟨[copy], h, List.mem_singleton_self copy, fun b hb => ?_⟩
    cases hb
  · refine ⟨_, h.malloc, List.mem_cons_of_mem _ (List.mem_singleton_self copy), fun b hb => ?_⟩
    cases hb
    exact List.mem_cons_self

theorem not_leaksNothing (hcall : fatFopenLog fuel allocs malloc fs (some path) rdir = some (.ok r))
    (hthere : ¬ DirectoryMissing fuel allocs fs path) : ¬ LeaksNothing r := by
  simp only [fatFopenLog] at hcall
  split at hcall
  · cases hcall
  · cases hcall
    -- the copy of a path without a name
    have hcopy : Held (Log.empty : Log Static).malloc.2 0 := ⟨Nat.one_pos, List.not_mem_nil⟩
    exact hcopy.not_freesAll List.not_mem_nil
  · next fname hname =>
      split at hcall
      · cases hcall
      · cases hcall
      · next l hlog =>
          refine absurd ⟨fname, hname, ?_⟩ hthere
          rw [← fatOpendirLog_forget, hlog]
          rfl
      · next fdir l hlog =>
          obtain ⟨live, howns, hcopy, hpathto⟩ := pathtoLog_owns path fname owns_empty.malloc
          have hopened := fatOpendirLog_settled howns _ (some fdir) l hlog
          have hknown : ∀ b ∈ live, b ≠ l.mallocs := fun b hb =>
            (hopened.known b (List.mem_append_right _ hb)).ne
          obtain ⟨f, l'⟩ := r
          have hloses := searchFileLog_loses hopened (fun l' => release_held (hknown _ hcopy)
            (fun heq => hknown _ (hpathto _ heq) rfl) (cut (pathTo path fname))) fname fdir.dir rdir f l' hcall
          exact hloses.1.not_freesAll hloses.2

end Calls

/-- For every volume and path, and each call that returns: nothing is leaked exactly if the
path is NULL, or the directory in it is not there. -/
theorem leaksNothing_iff {fuel : Nat} {allocs : Allocs} {malloc : U32 → Option (List U8)} {fs : MountedFs}
    {path : Option Str} {rdir : Dirent} {r : Option OpenFile × Log Static}
    (hcall : fatFopenLog fuel allocs malloc fs path rdir = some (.ok r)) :
    LeaksNothing r ↔ ∀ p, path = some p → DirectoryMissing fuel allocs fs p := by
  cases path with
  | none =>
      cases hcall
      constructor
      · intro _ p hp
        cases hp
      · exact fun _ => owns_empty.freesAll
  | some path =>
      constructor
      · intro h p hp
        by_contra hthere
        obtain rfl := Option.some.inj hp
        exact not_leaksNothing hcall hthere h
      · exact fun h => leaksNothing_of_missing hcall (h path rfl)

section Example

open FileReads

theorem missing_leaksNothing :
    fatFopenLog 20 ⟨fun _ => cleared, blank⟩ cleared cardFs (some [0x42, slash, 0x41]) blank =
      some (.ok (none, ⟨4, [.block 1, .block 0, .block 3, .block 2]⟩)) ∧
    LeaksNothing (none, ⟨4, [.block 1, .block 0, .block 3, .block 2]⟩) := by
  have hcall : fatFopenLog 20 ⟨fun _ => cleared, blank⟩ cleared cardFs (some [0x42, slash, 0x41]) blank =
      some (.ok (none, ⟨4, [.block 1, .block 0, .block 3, .block 2]⟩)) := by
    decide +kernel
  refine ⟨hcall, (leaksNothing_iff hcall).mpr fun p hp => ?_⟩
  cases hp
  exact ⟨[0x41], by decide +kernel, by decide +kernel⟩

/-- A file in the root is opened: the directory, its data and a dirent are never freed, but
the static dirent is. -/
theorem found_leaks : fatFopenLog 3 ⟨fun _ => cleared, blank⟩ cleared cardFs (some [0x41]) blank =
      some (.ok (some ⟨cardFile, 4, 5⟩, ⟨6, [.block 0, .static .rdir]⟩)) ∧
    ¬ LeaksNothing (some ⟨cardFile, 4, 5⟩, ⟨6, [.block 0, .static .rdir]⟩) := by
  refine ⟨by decide +kernel, fun h => ?_⟩
  have hdir := h.once 1 (by decide) (by decide)
  revert hdir
  decide

end Example

end MetalNes.FopenLeaks
