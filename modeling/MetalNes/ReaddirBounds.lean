import MetalNes.ReaddirHistory

namespace MetalNes.ReaddirBounds

open Fat32 DirectorySlots DirectorySearch

section Touched

/-- Some bytes of a buffer, from an offset on. -/
structure Span where
  start : Nat
  len : Nat

def attrSpan (slot : Nat) : Span := ⟨slot + 11, 1⟩

/-- The bytes that the parser reads behind its test for a long-name entry. -/
def entryReads (buffer : List U8) (fdir nextoffset : Nat) : List Span :=
  match attrflag buffer fdir with
  | none => [attrSpan fdir]
  | some attr =>
    if attr = FAT_DIR_ENT ∨ attr = FAT_ARCHIVE_ENT then
      let lent := fdir - sizeofDirent
      attrSpan fdir ::
        if nextoffset = sizeofDirent then [⟨fdir, 11⟩] else [⟨lent + 1, 10⟩, ⟨lent + 14, 12⟩, ⟨lent + 28, 4⟩]
    else [attrSpan fdir]

/-- The bytes that fat_getdirent reads. -/
def getdirentReads (buffer : List U8) (ptr : Nat) : List Span :=
  match attrflag buffer ptr with
  | none => [attrSpan ptr]
  | some attr =>
    attrSpan ptr ::
      if attr = FAT_LONG_NAME_ENT then
        entryReads buffer (ptr + sizeofDirent) (sizeofDirent + sizeofDirent)
      else entryReads buffer ptr sizeofDirent

/-- The places of d_name that the parser writes. -/
def entryWrites (buffer : List U8) (fdir nextoffset : Nat) : List Nat :=
  match attrflag buffer fdir with
  | none => []
  | some attr =>
    if attr = FAT_DIR_ENT ∨ attr = FAT_ARCHIVE_ENT then
      if nextoffset = sizeofDirent then List.range 11 ++ [12]
      else List.range ((lentChars buffer (fdir - sizeofDirent)).length + 1)
    else []

def getdirentWrites (buffer : List U8) (ptr : Nat) : List Nat :=
  match attrflag buffer ptr with
  | none => []
  | some attr =>
    if attr = FAT_LONG_NAME_ENT then entryWrites buffer (ptr + sizeofDirent) (sizeofDirent + sizeofDirent)
    else entryWrites buffer ptr sizeofDirent

def readdirReads (dir : FatDir) : List Span :=
  if dir.readptr < dir.size then getdirentReads dir.data dir.readptr else []

def readdirWrites (dir : FatDir) : List Nat :=
  if dir.readptr < dir.size then getdirentWrites dir.data dir.readptr else []

variable {buffer buffer' : List U8}

def AgreeOn (buffer buffer' : List U8) (a : Span) : Prop :=
  ∀ k < a.len, buffer[a.start + k]? = buffer'[a.start + k]?

theorem AgreeOn.bytesAt_eq {start len : Nat} (h : AgreeOn buffer buffer' ⟨start, len⟩) :
    bytesAt buffer start len = bytesAt buffer' start len := by
  apply List.ext_getElem?
  intro k
  by_cases hk : k < len
  · rw [bytesAt, bytesAt, List.getElem?_take_of_lt hk, List.getElem?_take_of_lt hk, List.getElem?_drop,
      List.getElem?_drop]
    exact h k hk
  · rw [bytesAt, bytesAt, List.getElem?_take_eq_none (by omega), List.getElem?_take_eq_none (by omega)]

theorem AgreeOn.attrflag_eq {slot : Nat} (h : AgreeOn buffer buffer' (attrSpan slot)) :
    attrflag buffer slot = attrflag buffer' slot := h 0 Nat.one_pos

theorem parseEntry_congr {fdir nextoffset : Nat} (h : ∀ a ∈ entryReads buffer fdir nextoffset, AgreeOn buffer buffer' a)
    (out : Dirent) : parseEntry buffer fdir nextoffset out = parseEntry buffer' fdir nextoffset out := by
  have hattr : attrflag buffer fdir = attrflag buffer' fdir := by
    refine AgreeOn.attrflag_eq (h _ ?_)
    unfold entryReads
    split
    · exact List.mem_singleton_self _
    · split
      · exact List.mem_cons_self
      · exact List.mem_singleton_self _
  unfold entryReads at h
  unfold parseEntry
  rw [← hattr]
  cases hcase : attrflag buffer fdir with
  | none => rfl
  | some attr =>
      simp only [hcase] at h ⊢
      by_cases hfile : attr = FAT_DIR_ENT ∨ attr = FAT_ARCHIVE_ENT
      · simp only [if_pos hfile] at h ⊢
        by_cases hshort : nextoffset = sizeofDirent
        · simp only [if_pos hshort] at h ⊢
          rw [(h ⟨fdir, 11⟩ (List.mem_cons_of_mem _ (List.mem_singleton_self _))).bytesAt_eq]
        · simp only [if_neg hshort, List.forall_mem_cons] at h ⊢
          obtain ⟨-, h1, h2, h3, -⟩ := h
          rw [lentChars, lentChars, h1.bytesAt_eq, h2.bytesAt_eq, h3.bytesAt_eq]
      · simp only [if_neg hfile]

/-- No other bytes of the buffer have a part in the result. -/
theorem fatGetdirent_congr {ptr : Nat} (h : ∀ a ∈ getdirentReads buffer ptr, AgreeOn buffer buffer' a)
    (out : Dirent) : fatGetdirent buffer ptr out = fatGetdirent buffer' ptr out := by
  have hattr : attrflag buffer ptr = attrflag buffer' ptr := by
    refine AgreeOn.attrflag_eq (h _ ?_)
    unfold getdirentReads
    split
    · exact List.mem_singleton_self _
    · exact List.mem_cons_self
  unfold getdirentReads at h
  unfold fatGetdirent
  rw [← hattr]
  cases hcase : attrflag buffer ptr with
  | none => rfl
  | some attr =>
      simp only [hcase, List.forall_mem_cons] at h ⊢
      obtain ⟨-, h⟩ := h
      by_cases hlong : attr = FAT_LONG_NAME_ENT
      · simp only [if_pos hlong] at h ⊢
        exact parseEntry_congr h out
      · simp only [if_neg hlong] at h ⊢
        exact parseEntry_congr h out

theorem parseEntry_frame {fdir nextoffset : Nat} {out e : Dirent} {next : Int}
    (h : parseEntry buffer fdir nextoffset out = some (next, e)) {i : Nat}
    (hi : i ∉ entryWrites buffer fdir nextoffset) : e.dName i = out.dName i := by
  unfold parseEntry at h
  unfold entryWrites at hi
  cases hcase : attrflag buffer fdir with
  | none =>
      simp only [hcase] at h
      cases h
  | some attr =>
      simp only [hcase] at h hi
      by_cases hfile : attr = FAT_DIR_ENT ∨ attr = FAT_ARCHIVE_ENT
      · simp only [if_pos hfile] at h hi
        cases h
        by_cases hshort : nextoffset = sizeofDirent
        · simp only [if_pos hshort, List.mem_append, List.mem_range, List.mem_singleton, not_or] at hi ⊢
          rw [copyName, if_neg hi.1, if_neg hi.2]
        · simp only [if_neg hshort, List.mem_range] at hi ⊢
          rw [copyLongName, if_neg (by omega), if_neg (by omega)]
      · simp only [if_neg hfile] at h
        cases h
        rfl

theorem fatGetdirent_frame {ptr : Nat} {out e : Dirent} {next : Int}
    (h : fatGetdirent buffer ptr out = some (next, e)) {i : Nat} (hi : i ∉ getdirentWrites buffer ptr) :
    e.dName i = out.dName i := by
  unfold fatGetdirent at h
  unfold getdirentWrites at hi
  cases hcase : attrflag buffer ptr with
  | none =>
      simp only [hcase] at h
      cases h
  | some attr =>
      simp only [hcase] at h hi
      by_cases hlong : attr = FAT_LONG_NAME_ENT
      · simp only [if_pos hlong] at h hi
        exact parseEntry_frame h hi
      · simp only [if_neg hlong] at h hi
        exact parseEntry_frame h hi

theorem entryWrites_lt {fdir nextoffset i : Nat} (hi : i ∈ entryWrites buffer fdir nextoffset) : i < 256 := by
  have hlen := length_lentChars_le buffer (fdir - sizeofDirent)
  unfold entryWrites at hi
  split at hi
  · cases hi
  · split at hi
    · split at hi
      · rcases List.mem_append.mp hi with hi | hi
        · exact (List.mem_range.mp hi).trans (by decide)
        · rw [List.mem_singleton.mp hi]
          decide
      · have hlt := List.mem_range.mp hi
        omega
    · cases hi

theorem readdirWrites_lt {dir : FatDir} {i : Nat} (hi : i ∈ readdirWrites dir) : i < 256 := by
  unfold readdirWrites at hi
  split at hi
  · unfold getdirentWrites at hi
    split at hi
    · cases hi
    · split at hi <;> exact entryWrites_lt hi
  · cases hi

end Touched

section Scans

/-- Calls of fat_readdir on a directory, with rewinds and calls on other directories
between them, and the number of calls since the start. -/
inductive Scan (slots : List Slot) : Nat → FatDir → Dirent → Prop
  | start (rdir : Dirent) : Scan slots 0 (dirAt slots 0) rdir
  | read {n : Nat} {dir dir' : FatDir} {rdir rdir' : Dirent} {e : Option Dirent} (h : Scan slots n dir rdir)
      (hread : fatReaddir dir rdir = some (e, dir', rdir')) : Scan slots (n + 1) dir' rdir'
  | rewind {n : Nat} {dir : FatDir} {rdir : Dirent} (h : Scan slots n dir rdir) :
      Scan slots 0 (fatRewinddir dir) rdir
  | others {n : Nat} {dir : FatDir} {rdir : Dirent} (h : Scan slots n dir rdir) (rdir' : Dirent) :
      Scan slots n dir rdir'

/-- No call of any sequence leaves the buffer or the name, and after as many calls as
there are slots the end is reached. -/
structure StaysInside (slots : List Slot) : Prop where
  reads : ∀ n dir rdir, Scan slots n dir rdir → ∀ a ∈ readdirReads dir, a.start + a.len ≤ dir.data.length
  writes : ∀ n dir rdir, Scan slots n dir rdir → ∀ i ∈ readdirWrites dir, i < 256
  returns : ∀ n dir rdir, Scan slots n dir rdir → fatReaddir dir rdir ≠ none
  ends : ∀ n dir rdir, Scan slots n dir rdir → slots.length ≤ n → dir.size ≤ dir.readptr

variable {slots : List Slot} {n : Nat} {dir : FatDir} {rdir : Dirent}

theorem readSlots_step {rest : List Slot} {t : Option Slot} {k : Nat} (h : readSlots rest = some (t, k)) :
    k ≤ rest.length ∧ (rest ≠ [] → 0 < k) := by
  cases rest with
  | nil =>
      cases h
      exact ⟨le_rfl, fun hne => absurd rfl hne⟩
  | cons s rest =>
      by_cases hl : s.IsLong
      · cases rest with
        | nil =>
            rw [readSlots_long_last hl] at h
            cases h
        | cons t rest =>
            rw [readSlots_long hl] at h
            split at h
            · cases h
              exact ⟨Nat.le_add_left 2 rest.length, fun _ => Nat.two_pos⟩
            · cases h
              exact ⟨Nat.le_add_left 1 _, fun _ => Nat.one_pos⟩
      · rw [readSlots_short hl] at h
        split at h
        · cases h
          exact ⟨Nat.le_add_left 1 rest.length, fun _ => Nat.one_pos⟩
        · cases h
          exact ⟨Nat.le_add_left 1 rest.length, fun _ => Nat.one_pos⟩

theorem fatReaddir_dirAt {i : Nat} {e : Option Dirent} {dir' : FatDir} {rdir' : Dirent}
    (h : fatReaddir (dirAt slots i) rdir = some (e, dir', rdir')) :
    ∃ t k, readSlots (slots.drop i) = some (t, k) ∧ dir' = dirAt slots (i + k) := by
  have hreads := fatReaddir_reads slots i rdir
  rw [h] at hreads
  generalize readSlots (slots.drop i) = r at hreads
  cases hreads with
  | null k r => exact ⟨none, k, rfl, rfl⟩
  | entry k e t _ => exact ⟨some t, k, rfl, rfl⟩

/-- The read pointer is at a slot or at the end, and has come at least a slot further
with every call. -/
theorem Scan.position (h : Scan slots n dir rdir) :
    ∃ i, dir = dirAt slots i ∧ i ≤ slots.length ∧ min n slots.length ≤ i := by
  induction h with
  | start rdir => exact ⟨0, rfl, Nat.zero_le _, Nat.min_le_left _ _⟩
  | read h hread ih =>
      obtain ⟨i, rfl, hi, hn⟩ := ih
      obtain ⟨t, k, hslots, rfl⟩ := fatReaddir_dirAt hread
      obtain ⟨hk, hpos⟩ := readSlots_step hslots
      rw [List.length_drop] at hk
      refine ⟨i + k, rfl, by omega, ?_⟩
      by_cases hend : i = slots.length
      · omega
      · have hrest : slots.drop i ≠ [] := by
          rw [ne_eq, List.drop_eq_nil_iff]
          omega
        have hstep := hpos hrest
        omega
  | rewind h ih =>
      obtain ⟨i, rfl, -, -⟩ := ih
      refine ⟨0, ?_, Nat.zero_le _, Nat.min_le_left _ _⟩
      rw [fatRewinddir, dirAt, dirAt, Nat.zero_mul]
  | others h rdir' ih => exact ih

theorem slot_inside (k len : Nat) {i : Nat} (hi : i < slots.length) (hk : k + len ≤ 32) :
    i * sizeofDirent + k + len ≤ slots.length * sizeofDirent := by
  have hnext : (i + 1) * sizeofDirent ≤ slots.length * sizeofDirent := Nat.mul_le_mul_right _ hi
  rw [Nat.succ_mul] at hnext
  have h32 : sizeofDirent = 32 := rfl
  omega

theorem entryReads_inside {i offset : Nat} (hi : i < slots.length) (hoffset : offset = sizeofDirent ∨ 0 < i) :
    ∀ a ∈ entryReads (bytes slots) (i * sizeofDirent) offset, a.start + a.len ≤ slots.length * sizeofDirent := by
  intro a ha
  have hattr : attrflag (bytes slots) (i * sizeofDirent) = some slots[i].attr := by
    rw [attrflag_bytes, List.getElem?_eq_getElem hi]
    rfl
  have hown := slot_inside 11 1 hi (by decide)
  unfold entryReads at ha
  simp only [hattr] at ha
  split at ha
  · rcases List.mem_cons.mp ha with rfl | ha
    · exact hown
    · split at ha
      · have hname : i * sizeofDirent + 11 ≤ slots.length * sizeofDirent :=
          slot_inside 0 11 hi (by decide)
        rw [List.mem_singleton.mp ha]
        exact hname
      · next hne =>
          have hpos := hoffset.resolve_left hne
          have hback : i * sizeofDirent - sizeofDirent = (i - 1) * sizeofDirent := (Nat.sub_one_mul i _).symm
          have hfront : i - 1 < slots.length := by omega
          have h1 := slot_inside 1 10 hfront (by decide)
          have h2 := slot_inside 14 12 hfront (by decide)
          have h3 := slot_inside 28 4 hfront (by decide)
          rw [hback] at ha
          simp only [List.mem_cons, List.not_mem_nil, or_false] at ha
          rcases ha with rfl | rfl | rfl
          · exact h1
          · exact h2
          · exact h3
  · rw [List.mem_singleton.mp ha]
    exact hown

section Inside

variable (hlast : ∀ s, slots.getLast? = some s → ¬ s.IsLong)

include hlast

theorem behind_long {i : Nat} {s : Slot} (hs : slots[i]? = some s) (hl : s.IsLong) :
    ∃ t, slots[i + 1]? = some t := by
  have hi := (List.getElem?_eq_some_iff.mp hs).1
  by_cases hend : i + 1 < slots.length
  · exact ⟨_, List.getElem?_eq_getElem hend⟩
  · refine absurd hl (hlast s ?_)
    rw [List.getLast?_eq_getElem?, ← hs]
    congr 1
    omega

theorem getdirentReads_inside {i : Nat} (hi : i < slots.length) :
    ∀ a ∈ getdirentReads (bytes slots) (i * sizeofDirent), a.start + a.len ≤ slots.length * sizeofDirent := by
  intro a ha
  have hattr : attrflag (bytes slots) (i * sizeofDirent) = some slots[i].attr := by
    rw [attrflag_bytes, List.getElem?_eq_getElem hi]
    rfl
  unfold getdirentReads at ha
  simp only [hattr] at ha
  rcases List.mem_cons.mp ha with rfl | ha
  · exact slot_inside 11 1 hi (by decide)
  · by_cases hl : slots[i].attr = FAT_LONG_NAME_ENT
    · obtain ⟨t, ht⟩ := behind_long hlast (List.getElem?_eq_getElem hi) hl
      rw [if_pos hl, ← Nat.succ_mul] at ha
      exact entryReads_inside (List.getElem?_eq_some_iff.mp ht).1 (Or.inr (Nat.succ_pos i)) a ha
    · rw [if_neg hl] at ha
      exact entryReads_inside hi (Or.inl rfl) a ha

theorem readdirReads_inside (i : Nat) :
    ∀ a ∈ readdirReads (dirAt slots i), a.start + a.len ≤ (dirAt slots i).data.length := by
  have hlen : (dirAt slots i).data.length = slots.length * sizeofDirent := length_bytes slots
  rw [hlen]
  unfold readdirReads
  split
  · next hlt =>
      have hin : i < slots.length := Nat.lt_of_mul_lt_mul_right (a := sizeofDirent) hlt
      exact getdirentReads_inside hlast hin
  · intro a ha
    cases ha

theorem fatReaddir_returns (i : Nat) (rdir : Dirent) : fatReaddir (dirAt slots i) rdir ≠ none := by
  have hreads := fatReaddir_reads slots i rdir
  intro hnone
  rw [hnone] at hreads
  cases hd : slots.drop i with
  | nil =>
      rw [hd] at hreads
      cases hreads
  | cons s rest =>
      obtain ⟨hs, hrest⟩ := getElem?_of_drop hd
      by_cases hl : s.IsLong
      · obtain ⟨t, ht⟩ := behind_long hlast hs hl
        have hi := (List.getElem?_eq_some_iff.mp ht).1
        cases rest with
        | nil =>
            rw [List.drop_eq_nil_iff] at hrest
            omega
        | cons t' rest =>
            rw [hd, readSlots_long hl] at hreads
            split at hreads <;> cases hreads
      · rw [hd, readSlots_short hl] at hreads
        split at hreads <;> cases hreads

end Inside

/-- In front of a last slot that is a long-name one, no call steps over it: it is no
entry, which could end there. -/
theorem readSlots_before_last {s : Slot} (hlast : slots[slots.length - 1]? = some s) (hl : s.IsLong) {i : Nat}
    (hi : i + 1 < slots.length) :
    ∃ t k, readSlots (slots.drop i) = some (t, k) ∧ 0 < k ∧ i + k < slots.length := by
  rw [List.drop_eq_getElem_cons (by omega), List.drop_eq_getElem_cons hi]
  by_cases hlong : slots[i].IsLong
  · rw [readSlots_long hlong]
    by_cases hf : slots[i + 1].IsFile
    · rw [if_pos hf]
      refine ⟨_, 2, rfl, Nat.two_pos, ?_⟩
      by_contra hend
      have hsame : slots.length - 1 = i + 1 := by omega
      rw [hsame, List.getElem?_eq_getElem hi] at hlast
      rw [Option.some.inj hlast] at hf
      exact hf.not_isLong hl
    · rw [if_neg hf]
      exact ⟨_, 1, rfl, Nat.one_pos, hi⟩
  · rw [readSlots_short hlong]
    split
    · exact ⟨_, 1, rfl, Nat.one_pos, hi⟩
    · exact ⟨_, 1, rfl, Nat.one_pos, hi⟩

theorem scan_reaches_last {s : Slot} (hlast : slots[slots.length - 1]? = some s) (hl : s.IsLong) :
    ∃ n rdir, Scan slots n (dirAt slots (slots.length - 1)) rdir := by
  have hlen := (List.getElem?_eq_some_iff.mp hlast).1
  have hfrom : ∀ m i n rdir, i + m = slots.length - 1 → Scan slots n (dirAt slots i) rdir →
      ∃ n rdir, Scan slots n (dirAt slots (slots.length - 1)) rdir := by
    intro m
    induction m using Nat.strong_induction_on with
    | _ m ih =>
    intro i n rdir him hscan
    by_cases hm : m = 0
    · obtain rfl : i = slots.length - 1 := by omega
      exact ⟨n, rdir, hscan⟩
    · obtain ⟨t, k, hslots, hpos, hinside⟩ := readSlots_before_last hlast hl (by omega : i + 1 < slots.length)
      have hreads := fatReaddir_reads slots i rdir
      rw [hslots] at hreads
      generalize hcall : fatReaddir (dirAt slots i) rdir = r at hreads
      cases hreads with
      | null _ r => exact ih (m - k) (by omega) (i + k) (n + 1) r (by omega) (.read hscan hcall)
      | entry _ e _ _ => exact ih (m - k) (by omega) (i + k) (n + 1) e (by omega) (.read hscan hcall)
  exact hfrom (slots.length - 1) 0 0 ⟨0, fun _ => 0⟩ (by omega) (.start _)

theorem not_staysInside_of_last {s : Slot} (hlast : slots.getLast? = some s) (hl : s.IsLong) :
    ¬ StaysInside slots := by
  intro h
  rw [List.getLast?_eq_getElem?] at hlast
  obtain ⟨n, rdir, hscan⟩ := scan_reaches_last hlast hl
  have hlen := (List.getElem?_eq_some_iff.mp hlast).1
  have hbehind : slots[slots.length - 1 + 1]? = none := List.getElem?_eq_none (by omega)
  have hfault : fatReaddir (dirAt slots (slots.length - 1)) rdir = none := fatReaddir_fault hlen
    ((fatGetdirent_long rdir hlast hl).trans (parseEntry_missing hbehind _ _))
  exact h.returns n _ rdir hscan hfault

/-- For every directory buffer: no sequence of calls leaves it exactly if its last slot is
no long-name slot. -/
theorem staysInside_iff (slots : List Slot) :
    StaysInside slots ↔ ∀ s, slots.getLast? = some s → ¬ s.IsLong := by
  constructor
  · intro h s hlast hl
    exact not_staysInside_of_last hlast hl h
  · intro hlast
    refine ⟨?_, fun _ _ _ _ _ => readdirWrites_lt, ?_, ?_⟩
    · intro n dir rdir hscan
      obtain ⟨i, rfl, -, -⟩ := hscan.position
      exact readdirReads_inside hlast i
    · intro n dir rdir hscan
      obtain ⟨i, rfl, -, -⟩ := hscan.position
      exact fatReaddir_returns hlast i rdir
    · intro n dir rdir hscan hn
      obtain ⟨i, rfl, -, hi⟩ := hscan.position
      exact Nat.mul_le_mul_right sizeofDirent (by omega)

/-- A buffer with one slot of an unfinished long name. -/
theorem lone_long_leaves : ¬ StaysInside [LongNames.pieceSlot (LongNames.nameA 1) 0] :=
  not_staysInside_of_last rfl (by decide +kernel)

end Scans

end MetalNes.ReaddirBounds
