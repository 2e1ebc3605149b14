import MetalNes.DirectorySlots
import MetalNes.FatFiles

namespace MetalNes.DirectorySearch

open Loop CStrings Fat32 DirectorySlots FatFiles

/-- Where fat_opendir stops in a directory: at the first directory entry behind a
long-name slot with that name, whether they are in use or not. -/
def search (n : Str) : List Slot → Except Fault (Option (Slot × Slot))
  | [] => .ok none
  | [s] => if s.IsLong then .error .outOfBounds else .ok none
  | s :: t :: rest =>
    if s.IsLong ∧ t.attr = FAT_DIR_ENT ∧ s.chars = n then .ok (some (s, t)) else search n (t :: rest)

section Names

theorem strcmp_eq {dName : Nat → U8} {d : Str} (hlen : d.length < 256)
    (hchars : ∀ i c, d[i]? = some c → dName i = c) (hend : dName d.length = 0) (hd : ∀ c ∈ d, c ≠ 0)
    {n : Str} (hn : ∀ c ∈ n, c ≠ 0) {i : Nat} (hi : i ≤ d.length) :
    strcmp dName i n = .ok (d.drop i = n) := by
  induction n generalizing i with
  | nil =>
      rw [strcmp, if_pos (by omega)]
      congr 2
      rw [eq_iff_iff, List.drop_eq_nil_iff]
      constructor
      · intro hzero
        by_contra hlt
        have hget := List.getElem?_eq_getElem (by omega : i < d.length)
        exact hd _ (List.getElem_mem _) ((hchars i _ hget).symm.trans hzero)
      · intro hge
        rwa [Nat.le_antisymm hi hge]
  | cons c n ih =>
      have hc := hn c List.mem_cons_self
      have hrest : ∀ e ∈ n, e ≠ 0 := fun e he => hn e (List.mem_cons_of_mem c he)
      rw [strcmp, if_pos (by omega)]
      by_cases hlt : i < d.length
      · have hget := List.getElem?_eq_getElem hlt
        rw [hchars i _ hget, List.drop_eq_getElem_cons hlt]
        by_cases hsame : d[i] = c
        · rw [if_pos hsame, ih hrest hlt]
          congr 2
          rw [hsame, List.cons.injEq, eq_self, true_and]
        · rw [if_neg hsame]
          congr 1
          exact (decide_eq_false fun h => hsame (List.cons.inj h).1).symm
      · have hlast : i = d.length := by omega
        rw [hlast, hend, if_neg hc.symm, List.drop_length]
        rfl

theorem length_lentChars_le (buffer : List U8) (lent : Nat) : (lentChars buffer lent).length ≤ 26 := by
  have hbytes : ∀ k len, (bytesAt buffer k len).length ≤ len := fun k len => List.length_take_le _ _
  have h1 := hbytes (lent + 1) 10
  have h2 := hbytes (lent + 14) 12
  have h3 := hbytes (lent + 28) 4
  refine (List.length_filter_le _ _).trans ?_
  rw [List.length_append, List.length_append]
  omega

theorem length_chars_le (s : Slot) : s.chars.length ≤ 26 := length_lentChars_le s.toList 0

theorem ne_zero_of_mem_chars {s : Slot} {c : U8} (h : c ∈ s.chars) : c ≠ 0 := by
  have hkept := (List.mem_filter.mp h).2
  rw [decide_eq_true_eq] at hkept
  exact hkept.1

theorem strcmp_copyLongName (old : Nat → U8) (s : Slot) {n : Str} (hn : ∀ c ∈ n, c ≠ 0) :
    strcmp (copyLongName old s.chars) 0 n = .ok (s.chars = n) := by
  have hlen := length_chars_le s
  refine strcmp_eq (by omega) (fun i c hi => ?_) ?_ (fun c => ne_zero_of_mem_chars) hn (Nat.zero_le _)
  · rw [copyLongName, if_pos (List.getElem?_eq_some_iff.mp hi).1, List.getD_eq_getElem?_getD, hi]
    rfl
  · rw [copyLongName, if_neg (Nat.lt_irrefl _), if_pos rfl]

end Names

section Getdirent

variable {slots : List Slot} {i : Nat} {s t : Slot} (out : Dirent)

theorem fatGetdirent_long (hs : slots[i]? = some s) (hl : s.IsLong) :
    fatGetdirent (bytes slots) (i * sizeofDirent) out =
      parseEntry (bytes slots) ((i + 1) * sizeofDirent) (2 * sizeofDirent) out := by
  rw [fatGetdirent, attrflag_bytes, hs, Nat.succ_mul]
  exact if_pos hl

theorem fatGetdirent_short (hs : slots[i]? = some s) (hl : ¬ s.IsLong) :
    fatGetdirent (bytes slots) (i * sizeofDirent) out =
      parseEntry (bytes slots) (i * sizeofDirent) sizeofDirent out := by
  rw [fatGetdirent, attrflag_bytes, hs]
  exact if_neg hl

/-- What the parser makes of a long-name slot and the entry behind it. -/
def pairDirent (old : Dirent) (s t : Slot) : Dirent := ⟨t.dType, copyLongName old.dName s.chars⟩

def shortDirent (old : Dirent) (t : Slot) : Dirent :=
  ⟨t.dType, copyName old.dName (bytesAt t.toList 0 11)⟩

theorem fatGetdirent_pair (hs : slots[i]? = some s) (hl : s.IsLong) (ht : slots[i + 1]? = some t)
    (hf : t.IsFile) : fatGetdirent (bytes slots) (i * sizeofDirent) out =
      some (((2 * sizeofDirent : Nat) : Int), pairDirent out s t) := by
  have hback : (i + 1) * sizeofDirent - sizeofDirent = i * sizeofDirent := by
    rw [Nat.succ_mul, Nat.add_sub_cancel]
  have hchars : lentChars (bytes slots) (i * sizeofDirent) = s.chars := by
    rw [lentChars, bytesAt_bytes hs (by decide : 1 + 10 ≤ 32), bytesAt_bytes hs (by decide : 14 + 12 ≤ 32),
      bytesAt_bytes hs (by decide : 28 + 4 ≤ 32)]
    rfl
  rw [fatGetdirent_long out hs hl, parseEntry_eq ht hf, if_neg (by decide), hback, hchars]
  rfl

theorem fatGetdirent_lone (hs : slots[i]? = some t) (hl : ¬ t.IsLong) (hf : t.IsFile) :
    fatGetdirent (bytes slots) (i * sizeofDirent) out =
      some (((1 * sizeofDirent : Nat) : Int), shortDirent out t) := by
  have hname : bytesAt (bytes slots) (i * sizeofDirent) 11 = bytesAt t.toList 0 11 :=
    bytesAt_bytes hs (by decide : 0 + 11 ≤ 32)
  rw [fatGetdirent_short out hs hl, parseEntry_eq hs hf, if_pos rfl, hname]
  rfl

theorem fatReaddir_pair (hs : slots[i]? = some s) (hl : s.IsLong) (ht : slots[i + 1]? = some t)
    (hf : t.IsFile) : fatReaddir (dirAt slots i) out =
      some (some (pairDirent out s t), dirAt slots (i + 2), pairDirent out s t) :=
  fatReaddir_entry (List.getElem?_eq_some_iff.mp hs).1 (fatGetdirent_pair out hs hl ht hf)

theorem fatReaddir_lone (ht : slots[i]? = some t) (hf : t.IsFile) :
    fatReaddir (dirAt slots i) out = some (some (shortDirent out t), dirAt slots (i + 1), shortDirent out t) :=
  fatReaddir_entry (List.getElem?_eq_some_iff.mp ht).1 (fatGetdirent_lone out ht hf.not_isLong hf)

variable {n : Str}

theorem dType_eq_dir {t : Slot} : t.dType = DT_DIR ↔ t.attr = FAT_DIR_ENT := by
  rw [Slot.dType]
  split
  · next h => exact ⟨fun _ => h, fun _ => rfl⟩
  · next h => exact ⟨fun hreg => absurd hreg (by decide), fun hdir => absurd hdir h⟩

theorem found_pair (hn : ∀ c ∈ n, c ≠ 0) :
    found (pairDirent out s t) (some n) = .ok (t.attr = FAT_DIR_ENT ∧ s.chars = n) := by
  by_cases hdir : t.attr = FAT_DIR_ENT
  · refine (if_pos (dType_eq_dir.mpr hdir)).trans ((strcmp_copyLongName out.dName s hn).trans ?_)
    congr 2
    rw [hdir, eq_self, true_and]
  · refine (if_neg fun h => hdir (dType_eq_dir.mp h)).trans ?_
    congr 1
    exact (decide_eq_false fun h => hdir h.1).symm

/-- An entry without a long name is found only if its name can begin like the
string: that of a deleted one begins with the mark. -/
theorem found_short (hmark : t.attr = FAT_DIR_ENT → t.first = 0xE5) {c : U8} (hc : c ≠ 0xE5) :
    found (shortDirent out t) (some (c :: n)) = .ok false := by
  by_cases hdir : t.attr = FAT_DIR_ENT
  · have hfirst : (shortDirent out t).dName 0 = 0xE5 := by
      have hzero : (bytesAt t.toList 0 11).getD 0 0 = t.first := by
        rw [bytesAt, List.drop_zero, List.getD_eq_getElem?_getD, List.getElem?_take_of_lt (by decide),
          List.getElem?_eq_getElem (by rw [Vector.length_toList]; decide)]
        rfl
      rw [← hmark hdir, ← hzero]
      rfl
    refine (if_pos (dType_eq_dir.mpr hdir)).trans ?_
    show strcmp _ 0 (c :: n) = _
    rw [strcmp, if_pos (by decide), hfirst, if_neg hc.symm]
  · exact if_neg fun h => hdir (dType_eq_dir.mp h)

end Getdirent

section Passes

variable {fuel : Nat} {allocs : Allocs} {fs : MountedFs} {slots : List Slot} {n : Str} {v : Walk}

structure Looks (slots : List Slot) (n : Str) (v : Walk) : Prop where
  buffer : v.buffer = bytes slots
  size : v.buffersize.toNat = slots.length * sizeofDirent
  subdir : v.subdir = some n

def Walk.at (v : Walk) (i : Nat) (dir : Dirent) : Walk := { v with readptr := i * sizeofDirent, dir }

theorem Looks.at (hv : Looks slots n v) (i : Nat) (dir : Dirent) : Looks slots n (Walk.at v i dir) :=
  ⟨hv.buffer, hv.size, hv.subdir⟩

variable (hv : Looks slots n v) {i : Nat} {dir : Dirent}

include hv

theorem opendirBody_end (hi : slots.length ≤ i) :
    opendirBody fuel allocs fs (Walk.at v i dir) = .done (some (.ok none)) := by
  have hend : ¬ i * sizeofDirent < v.buffersize.toNat := by
    rw [hv.size, sizeofDirent]
    omega
  exact if_neg hend

variable (hi : i < slots.length)

include hi

theorem opendirBody_inside : opendirBody fuel allocs fs (Walk.at v i dir) =
    match fatGetdirent (bytes slots) (i * sizeofDirent) dir with
    | none => .done (some (.error .outOfBounds))
    | some (nextoffset, e) =>
      match found e (some n) with
      | .error f => .done (some (.error f))
      | .ok true =>
        match strtok v.rest with
        | (none, _) => .done (arrive fuel allocs fs (Walk.at v i dir) nextoffset)
        | (some subdir, rest) => enter fuel allocs fs (Walk.at v i dir) e subdir rest
      | .ok false =>
        let step := if nextoffset = -1 then sizeofDirent else nextoffset.toNat
        .next { v with readptr := i * sizeofDirent + step, dir := e } := by
  have hlt : i * sizeofDirent < v.buffersize.toNat := by
    rw [hv.size, sizeofDirent]
    omega
  rw [← hv.buffer, ← hv.subdir]
  exact if_pos hlt

theorem opendirBody_fault (hget : fatGetdirent (bytes slots) (i * sizeofDirent) dir = none) :
    opendirBody fuel allocs fs (Walk.at v i dir) = .done (some (.error .outOfBounds)) := by
  rw [opendirBody_inside hv hi, hget]

theorem opendirBody_step {k : Nat} {e : Dirent}
    (hget : fatGetdirent (bytes slots) (i * sizeofDirent) dir =
      some (((k * sizeofDirent : Nat) : Int), e))
    (hfound : found e (some n) = .ok false) :
    opendirBody fuel allocs fs (Walk.at v i dir) = .next (Walk.at v (i + k) e) := by
  have hne : ¬ ((k * sizeofDirent : Nat) : Int) = -1 := by omega
  have hstep : Walk.at v (i + k) e =
      { v with readptr := i * sizeofDirent + k * sizeofDirent, dir := e } := by
    rw [Walk.at, Nat.add_mul]
  rw [hstep]
  simp only [opendirBody_inside hv hi, hget, hfound, if_neg hne, Int.toNat_natCast]

theorem opendirBody_skip (hget : fatGetdirent (bytes slots) (i * sizeofDirent) dir = some (-1, dir))
    (hfound : found dir (some n) = .ok false) :
    opendirBody fuel allocs fs (Walk.at v i dir) = .next (Walk.at v (i + 1) dir) := by
  have hstep : Walk.at v (i + 1) dir =
      { v with readptr := i * sizeofDirent + sizeofDirent, dir := dir } := by
    rw [Walk.at, Nat.succ_mul]
  rw [hstep]
  simp only [opendirBody_inside hv hi, hget, hfound, if_pos]

theorem opendirBody_last {nextoffset : Int} {e : Dirent}
    (hget : fatGetdirent (bytes slots) (i * sizeofDirent) dir = some (nextoffset, e))
    (hfound : found e (some n) = .ok true) {rest : Str} (hrest : strtok v.rest = (none, rest)) :
    opendirBody fuel allocs fs (Walk.at v i dir) =
      .done (arrive fuel allocs fs (Walk.at v i dir) nextoffset) := by
  simp only [opendirBody_inside hv hi, hget, hfound, hrest]

theorem opendirBody_inner {nextoffset : Int} {e : Dirent}
    (hget : fatGetdirent (bytes slots) (i * sizeofDirent) dir = some (nextoffset, e))
    (hfound : found e (some n) = .ok true) {subdir rest : Str}
    (hrest : strtok v.rest = (some subdir, rest)) :
    opendirBody fuel allocs fs (Walk.at v i dir) =
      enter fuel allocs fs (Walk.at v i dir) e subdir rest := by
  simp only [opendirBody_inside hv hi, hget, hfound, hrest]

end Passes

section Search

variable {n : Str} {s t : Slot} {rest : List Slot}

theorem search_short (hl : ¬ s.IsLong) : search n (s :: rest) = search n rest := by
  cases rest with
  | nil => exact if_neg hl
  | cons t rest => exact if_neg fun h => hl h.1

theorem search_here (hl : s.IsLong) (hdir : t.attr = FAT_DIR_ENT) (hchars : s.chars = n) :
    search n (s :: t :: rest) = .ok (some (s, t)) := if_pos ⟨hl, hdir, hchars⟩

theorem search_other (h : ¬ (t.attr = FAT_DIR_ENT ∧ s.chars = n)) :
    search n (s :: t :: rest) = search n (t :: rest) := if_neg fun hs => h hs.2

end Search

section Run

variable {fuel : Nat} {allocs : Allocs} {fs : MountedFs} {slots : List Slot} {n : Str} {v : Walk}

/-- How the search from a slot on ends, within a number of passes. -/
inductive Ends (fuel : Nat) (allocs : Allocs) (fs : MountedFs) (slots : List Slot) (n : Str) (v : Walk)
    (i : Nat) (dir : Dirent) (bound : Nat) : Except Fault (Option (Slot × Slot)) → Prop
  | error (e : Fault)
      (h : run (opendirBody fuel allocs fs) bound (Walk.at v i dir) = some (some (.error e))) :
      Ends fuel allocs fs slots n v i dir bound (.error e)
  | none (h : run (opendirBody fuel allocs fs) bound (Walk.at v i dir) = some (some (.ok none))) :
      Ends fuel allocs fs slots n v i dir bound (.ok none)
  | some (s t : Slot) (j k : Nat) (old : Dirent) (hs : slots[j]? = some s) (hl : s.IsLong)
      (ht : slots[j + 1]? = some t) (hdir : t.attr = FAT_DIR_ENT)
      (hfound : found (pairDirent old s t) (some n) = .ok true) (hk : k < bound)
      (h : Reaches (opendirBody fuel allocs fs) k (Walk.at v i dir) (Walk.at v j old)) :
      Ends fuel allocs fs slots n v i dir bound (.ok (some (s, t)))

theorem Ends.of_next {i i' : Nat} {dir e : Dirent} {bound : Nat}
    {r : Except Fault (Option (Slot × Slot))}
    (hnext : opendirBody fuel allocs fs (Walk.at v i dir) = .next (Walk.at v i' e))
    (h : Ends fuel allocs fs slots n v i' e bound r) :
    Ends fuel allocs fs slots n v i dir (bound + 1) r := by
  cases h with
  | error e h => exact .error e ((run_next hnext bound).trans h)
  | none h => exact .none ((run_next hnext bound).trans h)
  | some s t j k old hs hl ht hdir hfound hk h =>
      exact .some s t j (k + 1) old hs hl ht hdir hfound (Nat.succ_lt_succ hk) (.of_next hnext h)

theorem Ends.mono {i : Nat} {dir : Dirent} {bound bound' : Nat} {r : Except Fault (Option (Slot × Slot))}
    (h : Ends fuel allocs fs slots n v i dir bound r) (hle : bound ≤ bound') :
    Ends fuel allocs fs slots n v i dir bound' r := by
  cases h with
  | error e h => exact .error e (run_mono hle h)
  | none h => exact .none (run_mono hle h)
  | some s t j k old hs hl ht hdir hfound hk h =>
      exact .some s t j k old hs hl ht hdir hfound (hk.trans_le hle) h

/-- What the search needs of a name: it is a C string, and does not begin like a
deleted entry. -/
structure Nameable (n : Str) : Prop where
  nonempty : n ≠ []
  terminated : ∀ c ∈ n, c ≠ 0
  unmarked : ∀ c ∈ n, c ≠ 0xE5

/-- A file at this slot is not behind a long-name slot. -/
def Aligned (slots : List Slot) (i : Nat) : Prop :=
  ∀ j s t, i = j + 1 → slots[j]? = some s → s.IsLong → slots[i]? = some t → ¬ t.IsFile

def BeginsWithEntry (slots : List Slot) : Prop := ∃ t k, readSlots slots = some (some t, k)

theorem beginsWithEntry_long {s : Slot} (hl : s.IsLong) (t : Slot) (rest : List Slot) :
    BeginsWithEntry (s :: t :: rest) ↔ t.IsFile := by
  rw [BeginsWithEntry, readSlots_long hl]
  constructor
  · rintro ⟨u, k, hread⟩
    by_contra hf
    rw [if_neg hf] at hread
    cases hread
  · exact fun hf => ⟨t, 2, if_pos hf⟩

theorem beginsWithEntry_short {s : Slot} (hl : ¬ s.IsLong) (rest : List Slot) :
    BeginsWithEntry (s :: rest) ↔ s.IsFile := by
  rw [BeginsWithEntry, readSlots_short hl]
  constructor
  · rintro ⟨u, k, hread⟩
    by_contra hf
    rw [if_neg hf] at hread
    cases hread
  · exact fun hf => ⟨s, 1, if_pos hf⟩

theorem aligned_of_not_file {i : Nat} {t : Slot} (ht : slots[i]? = some t) (hf : ¬ t.IsFile) :
    Aligned slots i := by
  intro j s u hj hs hl hu
  cases ht.symm.trans hu
  exact hf

theorem aligned_succ {i : Nat} {s : Slot} (hs : slots[i]? = some s) (hl : ¬ s.IsLong) :
    Aligned slots (i + 1) := by
  intro j u t hj hu hul
  obtain rfl : i = j := Nat.succ.inj hj
  cases hs.symm.trans hu
  exact absurd hul hl

/-- An entry without a long-name slot is never the one that is looked for. -/
theorem found_lone (hn : Nameable n) (hslots : Preceded slots) {i : Nat} (haligned : Aligned slots i)
    {s : Slot} (hs : slots[i]? = some s) (hf : s.IsFile) (dir : Dirent) :
    found (shortDirent dir s) (some n) = .ok false := by
  obtain ⟨c, m, hcons⟩ := List.exists_cons_of_ne_nil hn.nonempty
  have hmark : s.attr = FAT_DIR_ENT → s.first = 0xE5 := by
    intro hdir
    rcases hslots i s hs hdir with hmark | ⟨j, u, hj, hu, hul⟩
    · exact hmark
    · exact absurd hf (haligned j u s hj hu hul hs)
  have hc : c ≠ 0xE5 := hn.unmarked c (by rw [hcons]; exact List.mem_cons_self)
  rw [hcons]
  exact found_short dir hmark hc

/-- The search of a directory, from a slot on where the dirent is that of another
entry, or is about to be written. -/
theorem search_ends (hv : Looks slots n v) (hn : Nameable n) (hslots : Preceded slots) (i : Nat)
    (dir : Dirent) (haligned : Aligned slots i)
    (hstale : found dir (some n) = .ok false ∨ BeginsWithEntry (slots.drop i)) :
    Ends fuel allocs fs slots n v i dir ((slots.drop i).length + 1) (search n (slots.drop i)) := by
  generalize hrest : slots.drop i = rest at hstale ⊢
  induction hlen : rest.length using Nat.strong_induction_on generalizing i dir rest with
  | _ len ih =>
  cases rest with
  | nil => exact .none (run_done (opendirBody_end hv (List.drop_eq_nil_iff.mp hrest)) _)
  | cons s rest =>
      obtain ⟨hs, hdrop⟩ := getElem?_of_drop hrest
      have hi : i < slots.length := (List.getElem?_eq_some_iff.mp hs).1
      have hlt : rest.length < len := by
        rw [← hlen, List.length_cons]
        exact Nat.lt_succ_self _
      -- A slot that is no entry leaves the dirent as it is.
      have hskip : ¬ BeginsWithEntry (s :: rest) →
          fatGetdirent (bytes slots) (i * sizeofDirent) dir = some (-1, dir) →
          Aligned slots (i + 1) → Ends fuel allocs fs slots n v i dir (len + 1) (search n rest) := by
        intro hnone hget hnext
        have hfound := hstale.resolve_right hnone
        refine (Ends.of_next (opendirBody_skip hv hi hget hfound) ?_).mono (Nat.succ_le_succ hlt)
        exact ih rest.length hlt (i + 1) dir hnext rest hdrop (Or.inl hfound) rfl
      by_cases hl : s.IsLong
      · cases rest with
        | nil =>
            have hmissing : slots[i + 1]? = none := List.getElem?_eq_none (List.drop_eq_nil_iff.mp hdrop)
            have hend : search n [s] = .error .outOfBounds := if_pos hl
            rw [hend]
            exact .error _ (run_done (opendirBody_fault hv hi
              ((fatGetdirent_long dir hs hl).trans (parseEntry_missing hmissing _ _))) _)
        | cons t rest =>
            obtain ⟨ht, hdrop'⟩ := getElem?_of_drop hdrop
            have hlt' : rest.length < len := (Nat.lt_succ_self _).trans hlt
            by_cases hf : t.IsFile
            · have hget := fatGetdirent_pair dir hs hl ht hf
              by_cases hmatch : t.attr = FAT_DIR_ENT ∧ s.chars = n
              · have hfound : found (pairDirent dir s t) (some n) = .ok true :=
                  (found_pair dir hn.terminated).trans (congrArg _ (decide_eq_true hmatch))
                rw [search_here hl hmatch.1 hmatch.2]
                exact .some s t i 0 dir hs hl ht hmatch.1 hfound (Nat.succ_pos _) (.refl _)
              · have hfound : found (pairDirent dir s t) (some n) = .ok false :=
                  (found_pair dir hn.terminated).trans (congrArg _ (decide_eq_false hmatch))
                have hnext : Aligned slots (i + 2) := aligned_succ ht hf.not_isLong
                rw [search_other hmatch, search_short hf.not_isLong]
                refine (Ends.of_next (opendirBody_step hv hi hget hfound) ?_).mono (Nat.succ_le_succ hlt')
                exact ih rest.length hlt' (i + 2) _ hnext rest hdrop' (Or.inl hfound) rfl
            · have hnone : ¬ BeginsWithEntry (s :: t :: rest) := mt (beginsWithEntry_long hl t rest).mp hf
              have hother : ¬ (t.attr = FAT_DIR_ENT ∧ s.chars = n) := fun h => hf (Or.inl h.1)
              rw [search_other hother]
              exact hskip hnone ((fatGetdirent_long dir hs hl).trans (parseEntry_other ht hf _ _))
                (aligned_of_not_file ht hf)
      · rw [search_short hl]
        have hnext : Aligned slots (i + 1) := aligned_succ hs hl
        by_cases hf : s.IsFile
        · have hfound := found_lone hn hslots haligned hs hf dir
          have hget := fatGetdirent_lone dir hs hl hf
          refine (Ends.of_next (opendirBody_step hv hi hget hfound) ?_).mono (Nat.succ_le_succ hlt)
          exact ih rest.length hlt (i + 1) _ hnext rest hdrop (Or.inl hfound) rfl
        · have hnone : ¬ BeginsWithEntry (s :: rest) := mt (beginsWithEntry_short hl rest).mp hf
          exact hskip hnone ((fatGetdirent_short dir hs hl).trans (parseEntry_other hs hf _ _)) hnext

end Run

end MetalNes.DirectorySearch
