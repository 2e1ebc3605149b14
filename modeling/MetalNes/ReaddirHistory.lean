import MetalNes.Enumeration
import MetalNes.LongNames
import Mathlib.Data.Fintype.EquivFin

namespace MetalNes.ReaddirHistory

open CStrings Fat32 DirectorySlots DirectorySearch LongNames

section Calls

/-- The open directories, with the dirent that fat_readdir keeps from call to call. -/
structure OpenDirs where
  dirs : Nat → FatDir
  rdir : Dirent

inductive DirCall
  | read (handle : Nat)
  | rewind (handle : Nat)

def DirCall.handle : DirCall → Nat
  | read handle | rewind handle => handle

def OpenDirs.put (s : OpenDirs) (handle : Nat) (dir : FatDir) : OpenDirs :=
  { s with dirs := Function.update s.dirs handle dir }

def callDir (s : OpenDirs) : DirCall → Option OpenDirs
  | .read handle =>
    match fatReaddir (s.dirs handle) s.rdir with
    | none => none
    | some (_, dir, rdir) => some ({ s with rdir }.put handle dir)
  | .rewind handle => some (s.put handle (fatRewinddir (s.dirs handle)))

def callDirs : List DirCall → OpenDirs → Option OpenDirs
  | [], s => some s
  | call :: calls, s =>
    match callDir s call with
    | none => none
    | some t => callDirs calls t

/-- Directories that have just been opened, before any of the calls: static data is zero. -/
def opened (contents : Nat → List Slot) : OpenDirs := ⟨fun handle => dirAt (contents handle) 0, ⟨0, fun _ => 0⟩⟩

/-- What calls on a directory and on any others can leave in the dirent when the read
pointer of the directory is at a slot. -/
def Left (slots : List Slot) (i : Nat) (rdir : Dirent) : Prop :=
  ∃ contents calls handle s, contents handle = slots ∧ callDirs calls (opened contents) = some s ∧
    s.dirs handle = dirAt slots i ∧ s.rdir = rdir

variable {s t : OpenDirs} {calls : List DirCall} {f : Nat} {dir : FatDir}

theorem put_dirs_other {handle : Nat} (h : handle ≠ f) : (s.put f dir).dirs handle = s.dirs handle :=
  Function.update_of_ne h _ _

theorem put_comm {handle : Nat} (h : handle ≠ f) (dir' : FatDir) :
    (s.put f dir).put handle dir' = (s.put handle dir').put f dir := by
  simp only [OpenDirs.put]
  rw [Function.update_comm h.symm]

theorem callDir_put {call : DirCall} (hf : call.handle ≠ f) (h : callDir s call = some t) :
    callDir (s.put f dir) call = some (t.put f dir) := by
  cases call with
  | read handle =>
      have hdir : (s.put f dir).dirs handle = s.dirs handle := put_dirs_other hf
      have hrdir : (s.put f dir).rdir = s.rdir := rfl
      simp only [callDir] at h ⊢
      rw [hdir, hrdir]
      split at h
      · cases h
      · next d r hread =>
          cases h
          exact congrArg some (put_comm (s := { s with rdir := r }) hf d)
  | rewind handle =>
      have hdir : (s.put f dir).dirs handle = s.dirs handle := put_dirs_other hf
      simp only [callDir] at h ⊢
      cases h
      rw [hdir]
      exact congrArg some (put_comm hf _)

theorem callDirs_put (hf : ∀ call ∈ calls, call.handle ≠ f) (h : callDirs calls s = some t) :
    callDirs calls (s.put f dir) = some (t.put f dir) := by
  induction calls generalizing s with
  | nil =>
      cases h
      rfl
  | cons call calls ih =>
      unfold callDirs at h ⊢
      split at h
      · cases h
      · next u hcall =>
          have hrest := ih (fun c hc => hf c (List.mem_cons_of_mem call hc)) h
          simp only [callDir_put (hf call List.mem_cons_self) hcall]
          exact hrest

theorem callDirs_concat {call : DirCall} (h : callDirs calls s = some t) :
    callDirs (calls ++ [call]) s = callDir t call := by
  induction calls generalizing s with
  | nil =>
      cases h
      rw [List.nil_append]
      unfold callDirs
      cases callDir t call with
      | none => rfl
      | some u => rfl
  | cons c calls ih =>
      unfold callDirs at h
      split at h
      · cases h
      · next u hcall =>
          rw [List.cons_append, callDirs, hcall]
          exact ih h

end Calls

section Results

def nameString (dName : Nat → U8) : Str := ((List.range 256).map dName).takeWhile (· ≠ 0)

structure SameResult (e e' : Dirent) : Prop where
  name : nameString e.dName = nameString e'.dName
  dType : e.dType = e'.dType

/-- The entry that a call returns at a slot: the one behind a long-name slot, or the one
in the slot. -/
inductive EntryAt (slots : List Slot) (i : Nat) : Slot → Prop
  | long {s t : Slot} (hs : slots[i]? = some s) (hl : s.IsLong) (ht : slots[i + 1]? = some t) (hf : t.IsFile) :
      EntryAt slots i t
  | short {t : Slot} (ht : slots[i]? = some t) (hf : t.IsFile) : EntryAt slots i t

/-- Whatever has been read before, the same comes back. -/
def HistoryFree (slots : List Slot) (i : Nat) : Prop :=
  ∀ r r', Left slots i r → Left slots i r' → ∃ e e' d d', fatReaddir (dirAt slots i) r = some (some e, d, e) ∧
    fatReaddir (dirAt slots i) r' = some (some e', d', e') ∧ SameResult e e'

variable {dName dName' : Nat → U8} {m : Nat}

theorem nameString_eq (hne : ∀ i < m, dName i ≠ 0) (hm : dName m = 0) (hlt : m < 256) :
    nameString dName = (List.range m).map dName := by
  obtain ⟨k, hk⟩ := Nat.exists_eq_add_of_lt hlt
  have hkept : ∀ c ∈ (List.range m).map dName, decide (c ≠ 0) = true := by
    intro c hc
    obtain ⟨i, hi, rfl⟩ := List.mem_map.mp hc
    exact decide_eq_true (hne i (List.mem_range.mp hi))
  have hsplit : List.range 256 = List.range m ++ (List.range (k + 1)).map (m + ·) := by
    rw [← List.range_add, ← Nat.add_assoc, ← hk]
  have hzero : ∀ rest, (dName m :: rest).takeWhile (· ≠ 0) = [] :=
    fun rest => List.takeWhile_cons_of_neg (by simp [hm])
  rw [nameString, hsplit, List.map_append, List.takeWhile_append_of_pos hkept, List.range_succ_eq_map,
    List.map_cons, List.map_cons, Nat.add_zero, hzero, List.append_nil]

theorem nameString_congr (h : ∀ i ≤ m, dName i = dName' i) (hm : dName m = 0) (hlt : m < 256) :
    nameString dName = nameString dName' := by
  have hex : ∃ i, dName i = 0 := ⟨m, hm⟩
  have hfirst := Nat.find_spec hex
  have hle := Nat.find_le (h := hex) hm
  have hbefore : ∀ i < Nat.find hex, dName i ≠ 0 := fun i hi => Nat.find_min hex hi
  have hbefore' : ∀ i < Nat.find hex, dName' i ≠ 0 := by
    intro i hi
    rw [← h i (by omega)]
    exact hbefore i hi
  rw [nameString_eq hbefore hfirst (by omega),
    nameString_eq hbefore' ((h _ hle).symm.trans hfirst) (by omega)]
  refine List.map_congr_left fun i hi => h i ?_
  have hlt' := List.mem_range.mp hi
  omega

variable {slots : List Slot} {i : Nat} {s t : Slot} {r : Dirent}

theorem sameResult_pair (r r' : Dirent) (s t : Slot) : SameResult (pairDirent r s t) (pairDirent r' s t) := by
  have hlen := length_chars_le s
  refine ⟨nameString_congr (m := s.chars.length) (fun i hi => ?_) ?_ (by omega), rfl⟩
  · show copyLongName _ _ _ = copyLongName _ _ _
    by_cases hlt : i < s.chars.length
    · rw [copyLongName, copyLongName, if_pos hlt, if_pos hlt]
    · have hend : i = s.chars.length := by omega
      rw [copyLongName, copyLongName, if_neg hlt, if_neg hlt, if_pos hend, if_pos hend]
  · show copyLongName _ _ _ = 0
    rw [copyLongName, if_neg (Nat.lt_irrefl _), if_pos rfl]

theorem copyName_lt {j : Nat} (hj : j < 11) (old : Nat → U8) (n : List U8) : copyName old n j = n.getD j 0 :=
  if_pos hj

theorem sameResult_short {j : Nat} (hj : j < 11) (hzero : t.shortName.getD j 0 = 0) (r r' : Dirent) :
    SameResult (shortDirent r t) (shortDirent r' t) := by
  refine ⟨nameString_congr (m := j) (fun i hi => ?_) ?_ (by omega), rfl⟩
  · show copyName _ _ _ = copyName _ _ _
    rw [copyName_lt (by omega), copyName_lt (by omega)]
  · exact (copyName_lt hj _ _).trans hzero

/-- A short name without a zero goes on with what is in the twelfth place. -/
theorem nameString_short (hne : ∀ j < 11, t.shortName.getD j 0 ≠ 0) (r : Dirent) :
    (nameString (shortDirent r t).dName).length = if r.dName 11 = 0 then 11 else 12 := by
  have hkept : ∀ j < 11, (shortDirent r t).dName j ≠ 0 := by
    intro j hj
    show copyName _ _ _ ≠ 0
    rw [copyName_lt hj]
    exact hne j hj
  have hnext : (shortDirent r t).dName 11 = r.dName 11 := rfl
  have hend : (shortDirent r t).dName 12 = 0 := rfl
  split
  · next hzero =>
      rw [nameString_eq hkept (hnext.trans hzero) (by decide), List.length_map, List.length_range]
  · next hzero =>
      have hall : ∀ j < 12, (shortDirent r t).dName j ≠ 0 := by
        intro j hj
        by_cases hlast : j = 11
        · rwa [hlast, hnext]
        · exact hkept j (by omega)
      rw [nameString_eq hall hend (by decide), List.length_map, List.length_range]

end Results

section Histories

variable {slots : List Slot} {i : Nat} {t : Slot} {r : Dirent}

/-- The last of the calls may read any entry of another directory. -/
theorem Left.after_pair (h : Left slots i r) {s u : Slot} (hl : s.IsLong) (hf : u.IsFile) :
    ∃ old, Left slots i (pairDirent old s u) := by
  obtain ⟨contents, calls, handle, sys, hslots, hcalls, hdir, -⟩ := h
  obtain ⟨f, hfresh⟩ := Infinite.exists_notMem_finset (handle :: calls.map DirCall.handle).toFinset
  rw [List.mem_toFinset, List.mem_cons, not_or] at hfresh
  have hapart : ∀ call ∈ calls, call.handle ≠ f := by
    rintro call hcall rfl
    exact hfresh.2 (List.mem_map_of_mem hcall)
  have hopened : opened (Function.update contents f [s, u]) = (opened contents).put f (dirAt [s, u] 0) := by
    simp only [opened, OpenDirs.put]
    congr 1
    funext k
    by_cases hk : k = f
    · rw [hk, Function.update_self, Function.update_self]
    · rw [Function.update_of_ne hk, Function.update_of_ne hk]
  have hread : fatReaddir (dirAt [s, u] 0) sys.rdir =
      some (some (pairDirent sys.rdir s u), dirAt [s, u] 2, pairDirent sys.rdir s u) :=
    fatReaddir_pair sys.rdir rfl hl rfl hf
  have hcall : callDir (sys.put f (dirAt [s, u] 0)) (.read f) =
      some ({ sys.put f (dirAt [s, u] 0) with rdir := pairDirent sys.rdir s u }.put f (dirAt [s, u] 2)) := by
    have hself : (sys.put f (dirAt [s, u] 0)).dirs f = dirAt [s, u] 0 := Function.update_self _ _ _
    have hrdir : (sys.put f (dirAt [s, u] 0)).rdir = sys.rdir := rfl
    simp only [callDir, hself, hrdir, hread]
  refine ⟨sys.rdir, Function.update contents f [s, u], calls ++ [.read f], handle,
    { sys.put f (dirAt [s, u] 0) with rdir := pairDirent sys.rdir s u }.put f (dirAt [s, u] 2), ?_, ?_, ?_, rfl⟩
  · rw [Function.update_of_ne (Ne.symm hfresh.1), hslots]
  · rw [hopened, callDirs_concat (callDirs_put hapart hcalls), hcall]
  · rw [put_dirs_other (Ne.symm hfresh.1)]
    exact (put_dirs_other (Ne.symm hfresh.1)).trans hdir

/-- In all histories together, the twelfth place is empty and is not. -/
theorem Left.both (h : Left slots i r) :
    ∃ e e', Left slots i e ∧ Left slots i e' ∧ e.dName 11 = 0 ∧ e'.dName 11 ≠ 0 := by
  have hfile : (entrySlot FAT_ARCHIVE_ENT).IsFile := by decide
  have hchars : ∀ n ≤ 13, (pieceSlot (nameA n) 0).IsLong ∧ (pieceSlot (nameA n) 0).chars = nameA n := by
    decide +kernel
  have heleven := hchars 11 (by decide)
  have htwelve := hchars 12 (by decide)
  obtain ⟨old, hleft⟩ := h.after_pair heleven.1 hfile
  obtain ⟨old', hleft'⟩ := h.after_pair htwelve.1 hfile
  refine ⟨_, _, hleft, hleft', ?_, ?_⟩
  · show copyLongName old.dName (pieceSlot (nameA 11) 0).chars 11 = 0
    rw [heleven.2]
    rfl
  · show copyLongName old'.dName (pieceSlot (nameA 12) 0).chars 11 ≠ 0
    rw [htwelve.2]
    show (0x41 : U8) ≠ 0
    decide

/-- The condition under which an entry does not take anything over. -/
def Terminated (slots : List Slot) (i : Nat) (t : Slot) : Prop :=
  (∃ s, slots[i]? = some s ∧ s.IsLong) ∨ ∃ j < 11, t.shortName.getD j 0 = 0

theorem terminated_of_historyFree (hentry : EntryAt slots i t) (hleft : Left slots i r)
    (h : HistoryFree slots i) : Terminated slots i t := by
  cases hentry with
  | @long s _ hs hl ht hf => exact Or.inl ⟨s, hs, hl⟩
  | short ht hf =>
      by_contra hnot
      rw [Terminated, not_or] at hnot
      have hne : ∀ j < 11, t.shortName.getD j 0 ≠ 0 := fun j hj hzero => hnot.2 ⟨j, hj, hzero⟩
      obtain ⟨e, e', he, he', hempty, hfull⟩ := hleft.both
      obtain ⟨x, x', d, d', hx, hx', hsame⟩ := h e e' he he'
      rw [fatReaddir_lone _ ht hf] at hx hx'
      cases hx
      cases hx'
      have hlength := congrArg List.length hsame.name
      rw [nameString_short hne, nameString_short hne, if_pos hempty, if_neg hfull] at hlength
      cases hlength

/-- For every directory and every entry the calls come to: what fat_readdir returns is
free of the history exactly if the entry has a long name, or a zero in its short one. -/
theorem historyFree_iff (hentry : EntryAt slots i t) (hleft : Left slots i r) :
    HistoryFree slots i ↔ Terminated slots i t := by
  constructor
  · exact terminated_of_historyFree hentry hleft
  · intro h r r' _ _
    cases hentry with
    | long hs hl ht hf =>
        exact ⟨_, _, _, _, fatReaddir_pair r hs hl ht hf, fatReaddir_pair r' hs hl ht hf, sameResult_pair r r' _ _⟩
    | short ht hf =>
        rcases h with ⟨s, hs, hl⟩ | ⟨j, hj, hzero⟩
        · cases hs.symm.trans ht
          exact absurd hl hf.not_isLong
        · exact ⟨_, _, _, _, fatReaddir_lone r ht hf, fatReaddir_lone r' ht hf, sameResult_short hj hzero r r'⟩

theorem left_opened (slots : List Slot) : Left slots 0 ⟨0, fun _ => 0⟩ :=
  ⟨fun _ => slots, [], 0, _, rfl, rfl, rfl, rfl⟩

theorem long_historyFree : HistoryFree [pieceSlot (nameA 1) 0, entrySlot FAT_ARCHIVE_ENT] 0 :=
  (historyFree_iff (.long rfl (by decide +kernel) rfl (by decide)) (left_opened _)).mpr
    (Or.inl ⟨_, rfl, by decide +kernel⟩)

/-- A file without a long name gets the twelfth character of the name read before. -/
theorem short_takes_over : Enumeration.Live (entrySlot FAT_ARCHIVE_ENT) ∧
    ¬ HistoryFree [entrySlot FAT_ARCHIVE_ENT] 0 := by
  refine ⟨by decide, fun h => ?_⟩
  have hentry : EntryAt [entrySlot FAT_ARCHIVE_ENT] 0 (entrySlot FAT_ARCHIVE_ENT) := .short rfl (by decide)
  rcases terminated_of_historyFree hentry (left_opened _) h with ⟨s, hs, hl⟩ | hzero
  · obtain rfl := Option.some.inj hs
    revert hl
    decide
  · revert hzero
    decide +kernel

end Histories

end MetalNes.ReaddirHistory
