import MetalNes.CStrings
import MetalNes.Fat32

namespace MetalNes.DirectorySlots

open Fat32

abbrev Slot := Vector U8 32

def Slot.attr (s : Slot) : U8 := s[11]

def Slot.IsFile (s : Slot) : Prop := s.attr = FAT_DIR_ENT ∨ s.attr = FAT_ARCHIVE_ENT

def Slot.IsLong (s : Slot) : Prop := s.attr = FAT_LONG_NAME_ENT

instance (s : Slot) : Decidable s.IsFile := inferInstanceAs (Decidable (_ ∨ _))

instance (s : Slot) : Decidable s.IsLong := inferInstanceAs (Decidable (_ = _))

def Slot.dType (s : Slot) : U8 := if s.attr = FAT_DIR_ENT then DT_DIR else DT_REG

theorem Slot.pos : 0 < 32 := by decide

/-- The first byte, where the format marks deleted slots and the end. -/
def Slot.first (s : Slot) : U8 := s.get ⟨0, Slot.pos⟩

def Slot.clusterLow (s : Slot) : U16 := wordOf s[26] s[27]

def Slot.cluster (s : Slot) : U32 :=
  (wordOf s[20] s[21]).setWidth 32 <<< 16 ||| s.clusterLow.setWidth 32

def Slot.shortName (s : Slot) : List U8 := bytesAt s.toList 0 11

def Slot.nameBytes (s : Slot) : List U8 :=
  bytesAt s.toList 1 10 ++ bytesAt s.toList 14 12 ++ bytesAt s.toList 28 4

def Slot.chars (s : Slot) : Str := s.nameBytes.filter fun c => c ≠ 0x0 ∧ c ≠ 0xFF

theorem Slot.IsFile.not_isLong {s : Slot} (h : s.IsFile) : ¬ s.IsLong := by
  intro hl
  rw [Slot.IsLong] at hl
  rw [Slot.IsFile, hl] at h
  revert h
  decide

def bytes (slots : List Slot) : List U8 := slots.flatMap Vector.toList

def dirAt (slots : List Slot) (i : Nat) : FatDir :=
  ⟨bytes slots, i * sizeofDirent, slots.length * sizeofDirent⟩

theorem length_bytes (slots : List Slot) : (bytes slots).length = slots.length * sizeofDirent := by
  induction slots with
  | nil => rfl
  | cons s rest ih =>
      have hlen : s.toList.length = sizeofDirent := Vector.length_toList
      rw [bytes] at ih ⊢
      rw [List.flatMap_cons, List.length_append, ih, hlen, List.length_cons, Nat.succ_mul, Nat.add_comm]

theorem bytes_injective {xs ys : List Slot} (h : bytes xs = bytes ys) : xs = ys := by
  have hlen := congrArg List.length h
  rw [length_bytes, length_bytes, sizeofDirent] at hlen
  induction xs generalizing ys with
  | nil =>
      rw [List.length_nil] at hlen
      exact (List.eq_nil_of_length_eq_zero (by omega)).symm
  | cons x xs ih =>
      cases ys with
      | nil =>
          rw [List.length_cons, List.length_nil] at hlen
          omega
      | cons y ys =>
          rw [bytes, bytes, List.flatMap_cons, List.flatMap_cons] at h
          obtain ⟨hhead, htail⟩ :=
            List.append_inj h (Vector.length_toList.trans Vector.length_toList.symm)
          rw [List.length_cons, List.length_cons] at hlen
          rw [Vector.toList_inj.mp hhead, ih htail (by omega)]

theorem exists_slots {k : Nat} {data : List U8} (h : data.length = k * sizeofDirent) :
    ∃ slots, bytes slots = data ∧ slots.length = k := by
  induction k generalizing data with
  | zero => exact ⟨[], (List.eq_nil_of_length_eq_zero (h.trans (Nat.zero_mul _))).symm, rfl⟩
  | succ k ih =>
      rw [sizeofDirent] at h
      have hhead : (data.take 32).length = 32 := by
        rw [List.length_take]
        omega
      have htail : (data.drop 32).length = k * sizeofDirent := by
        rw [List.length_drop, sizeofDirent]
        omega
      obtain ⟨slots, hslots, hlen⟩ := ih htail
      refine ⟨⟨(data.take 32).toArray, by simpa using hhead⟩ :: slots, ?_, congrArg Nat.succ hlen⟩
      rw [bytes] at hslots ⊢
      rw [List.flatMap_cons, hslots]
      exact List.take_append_drop 32 data

/-- A directory's entry has a long-name slot in front, unless it is a deleted one. -/
def Preceded (slots : List Slot) : Prop :=
  ∀ i (t : Slot), slots[i]? = some t → t.attr = FAT_DIR_ENT →
    t.first = 0xE5 ∨ ∃ j s, i = j + 1 ∧ slots[j]? = some s ∧ s.IsLong

theorem getElem?_bytes (slots : List Slot) (i : Nat) {k : Nat} (hk : k < 32) :
    (bytes slots)[i * sizeofDirent + k]? = slots[i]?.map fun s => s.get ⟨k, hk⟩ := by
  induction slots generalizing i with
  | nil => rfl
  | cons s rest ih =>
      have hlen : s.toList.length = 32 := Vector.length_toList
      rw [bytes, List.flatMap_cons]
      cases i with
      | zero =>
          rw [Nat.zero_mul, Nat.zero_add, List.getElem?_append_left (by rw [hlen]; exact hk),
            List.getElem?_eq_getElem (by rw [hlen]; exact hk), Vector.getElem_toList]
          rfl
      | succ i =>
          have hge : s.toList.length ≤ (i + 1) * sizeofDirent + k := by
            rw [hlen, sizeofDirent]
            omega
          have hback : (i + 1) * sizeofDirent + k - s.toList.length = i * sizeofDirent + k := by
            rw [hlen, sizeofDirent]
            omega
          rw [List.getElem?_append_right hge, hback, List.getElem?_cons_succ]
          exact ih i

theorem bytesAt_bytes {slots : List Slot} {i : Nat} {s : Slot} (h : slots[i]? = some s) {k len : Nat}
    (hk : k + len ≤ 32) : bytesAt (bytes slots) (i * sizeofDirent + k) len = bytesAt s.toList k len := by
  apply List.ext_getElem?
  intro m
  by_cases hm : m < len
  · have hlt : k + m < 32 := by omega
    rw [bytesAt, bytesAt, List.getElem?_take_of_lt hm, List.getElem?_take_of_lt hm, List.getElem?_drop,
      List.getElem?_drop, Nat.add_assoc, getElem?_bytes slots i hlt, h,
      List.getElem?_eq_getElem (by rw [Vector.length_toList]; exact hlt), Vector.getElem_toList]
    rfl
  · rw [bytesAt, bytesAt, List.getElem?_take_eq_none (by omega), List.getElem?_take_eq_none (by omega)]

theorem attrflag_bytes (slots : List Slot) (i : Nat) :
    attrflag (bytes slots) (i * sizeofDirent) = slots[i]?.map Slot.attr :=
  getElem?_bytes slots i (by decide : 11 < 32)

/-- What a call of fat_readdir does at the front of the remaining slots: the slot
it returns, if any, and how many slots it steps over. -/
def readSlots : List Slot → Option (Option Slot × Nat)
  | [] => some (none, 0)
  | s :: rest =>
    if s.IsLong then
      match rest with
      | [] => none
      | t :: _ => if t.IsFile then some (some t, 2) else some (none, 1)
    else if s.IsFile then some (some s, 1)
    else some (none, 1)

theorem readSlots_long_last {s : Slot} (h : s.IsLong) : readSlots [s] = none := if_pos h

theorem readSlots_long {s : Slot} (h : s.IsLong) (t : Slot) (rest : List Slot) :
    readSlots (s :: t :: rest) = if t.IsFile then some (some t, 2) else some (none, 1) := if_pos h

theorem readSlots_short {s : Slot} (h : ¬ s.IsLong) (rest : List Slot) :
    readSlots (s :: rest) = if s.IsFile then some (some s, 1) else some (none, 1) := by
  cases rest with
  | nil | cons => exact if_neg h

section Parse

variable {slots : List Slot} {i : Nat}

theorem parseEntry_missing (h : slots[i]? = none) (offset : Nat) (out : Dirent) :
    parseEntry (bytes slots) (i * sizeofDirent) offset out = none := by
  rw [parseEntry, attrflag_bytes, h]
  rfl

theorem parseEntry_eq {t : Slot} (h : slots[i]? = some t) (ht : t.IsFile) (offset : Nat)
    (out : Dirent) :
    parseEntry (bytes slots) (i * sizeofDirent) offset out = some ((offset : Int),
      { dName :=
          if offset = sizeofDirent then
            copyName out.dName (bytesAt (bytes slots) (i * sizeofDirent) 11)
          else copyLongName out.dName (lentChars (bytes slots) (i * sizeofDirent - sizeofDirent))
        dType := t.dType }) := by
  rw [parseEntry, attrflag_bytes, h]
  exact if_pos ht

theorem parseEntry_file {t : Slot} (h : slots[i]? = some t) (ht : t.IsFile) (offset : Nat)
    (out : Dirent) :
    ∃ e : Dirent, e.dType = t.dType ∧
      parseEntry (bytes slots) (i * sizeofDirent) offset out = some ((offset : Int), e) :=
  ⟨_, rfl, parseEntry_eq h ht offset out⟩

theorem parseEntry_other {t : Slot} (h : slots[i]? = some t) (ht : ¬ t.IsFile) (offset : Nat)
    (out : Dirent) :
    parseEntry (bytes slots) (i * sizeofDirent) offset out = some (-1, out) := by
  rw [parseEntry, attrflag_bytes, h]
  exact if_neg ht

end Parse

theorem getElem?_of_drop {slots rest : List Slot} {i : Nat} {s : Slot}
    (h : slots.drop i = s :: rest) : slots[i]? = some s ∧ slots.drop (i + 1) = rest := by
  have hhead : (slots.drop i)[0]? = some s := by rw [h]; rfl
  have htail : (slots.drop i).drop 1 = rest := by rw [h]; rfl
  rw [List.getElem?_drop] at hhead
  rw [List.drop_drop] at htail
  exact ⟨hhead, htail⟩

/-- A call of fat_readdir, seen on the slots. -/
inductive Reads (slots : List Slot) (i : Nat) (rdir : Dirent) :
    Option (Option Dirent × FatDir × Dirent) → Option (Option Slot × Nat) → Prop
  | fault : Reads slots i rdir none none
  | null (k : Nat) (r : Dirent) :
      Reads slots i rdir (some (none, dirAt slots (i + k), r)) (some (none, k))
  | entry (k : Nat) (e : Dirent) (t : Slot) (h : e.dType = t.dType) :
      Reads slots i rdir (some (some e, dirAt slots (i + k), e)) (some (some t, k))

section Readdir

variable {slots : List Slot} {i : Nat} {rdir : Dirent}

theorem fatReaddir_end (h : slots.length ≤ i) :
    fatReaddir (dirAt slots i) rdir = some (none, dirAt slots i, rdir) := by
  have hend : ¬ i * sizeofDirent < slots.length * sizeofDirent := by
    rw [sizeofDirent]
    omega
  exact if_neg hend

variable (h : i < slots.length)

include h

theorem fatReaddir_inside : fatReaddir (dirAt slots i) rdir =
    match fatGetdirent (bytes slots) (i * sizeofDirent) rdir with
    | none => none
    | some (next, r) =>
      if next = -1 then
        some (none, { dirAt slots i with readptr := i * sizeofDirent + sizeofDirent }, r)
      else some (some r, { dirAt slots i with readptr := i * sizeofDirent + next.toNat }, r) := by
  have hlt : i * sizeofDirent < slots.length * sizeofDirent := by
    rw [sizeofDirent]
    omega
  exact if_pos hlt

theorem fatReaddir_fault (hp : fatGetdirent (bytes slots) (i * sizeofDirent) rdir = none) :
    fatReaddir (dirAt slots i) rdir = none := by
  rw [fatReaddir_inside h, hp]

theorem fatReaddir_null (hp : fatGetdirent (bytes slots) (i * sizeofDirent) rdir = some (-1, rdir)) :
    fatReaddir (dirAt slots i) rdir = some (none, dirAt slots (i + 1), rdir) := by
  rw [fatReaddir_inside h, hp, dirAt, dirAt, Nat.succ_mul]
  exact if_pos rfl

theorem fatReaddir_entry {k : Nat} {e : Dirent}
    (hp : fatGetdirent (bytes slots) (i * sizeofDirent) rdir =
      some (((k * sizeofDirent : Nat) : Int), e)) :
    fatReaddir (dirAt slots i) rdir = some (some e, dirAt slots (i + k), e) := by
  have hne : ¬ ((k * sizeofDirent : Nat) : Int) = -1 := by omega
  rw [fatReaddir_inside h, hp, dirAt, dirAt, Nat.add_mul]
  exact if_neg hne

end Readdir

theorem fatReaddir_reads (slots : List Slot) (i : Nat) (rdir : Dirent) :
    Reads slots i rdir (fatReaddir (dirAt slots i) rdir) (readSlots (slots.drop i)) := by
  cases hd : slots.drop i with
  | nil =>
      rw [fatReaddir_end (List.drop_eq_nil_iff.mp hd)]
      exact .null 0 rdir
  | cons s rest =>
      obtain ⟨hs, hrest⟩ := getElem?_of_drop hd
      have hlt : i < slots.length := (List.getElem?_eq_some_iff.mp hs).1
      have hattr : attrflag (bytes slots) (i * sizeofDirent) = some s.attr := by
        rw [attrflag_bytes, hs]
        rfl
      by_cases hlong : s.IsLong
      · have hget : fatGetdirent (bytes slots) (i * sizeofDirent) rdir =
            parseEntry (bytes slots) ((i + 1) * sizeofDirent) (2 * sizeofDirent) rdir := by
          rw [fatGetdirent, hattr, Nat.succ_mul]
          exact if_pos hlong
        cases hr : rest with
        | nil =>
            rw [hr] at hrest
            have hmissing : slots[i + 1]? = none :=
              List.getElem?_eq_none (List.drop_eq_nil_iff.mp hrest)
            rw [fatReaddir_fault hlt (hget.trans (parseEntry_missing hmissing _ _)),
              readSlots_long_last hlong]
            exact .fault
        | cons t rest' =>
            rw [hr] at hrest
            have ht := (getElem?_of_drop hrest).1
            rw [readSlots_long hlong]
            by_cases hfile : t.IsFile
            · obtain ⟨e, he, hparse⟩ := parseEntry_file ht hfile (2 * sizeofDirent) rdir
              rw [fatReaddir_entry hlt (hget.trans hparse), if_pos hfile]
              exact .entry 2 e t he
            · rw [fatReaddir_null hlt (hget.trans (parseEntry_other ht hfile _ _)), if_neg hfile]
              exact .null 1 rdir
      · have hget : fatGetdirent (bytes slots) (i * sizeofDirent) rdir =
            parseEntry (bytes slots) (i * sizeofDirent) sizeofDirent rdir := by
          rw [fatGetdirent, hattr]
          exact if_neg hlong
        rw [readSlots_short hlong]
        by_cases hfile : s.IsFile
        · obtain ⟨e, he, hparse⟩ := parseEntry_file hs hfile sizeofDirent rdir
          have hnext : fatGetdirent (bytes slots) (i * sizeofDirent) rdir =
              some (((1 * sizeofDirent : Nat) : Int), e) := hget.trans hparse
          rw [fatReaddir_entry hlt hnext, if_pos hfile]
          exact .entry 1 e s he
        · rw [fatReaddir_null hlt (hget.trans (parseEntry_other hs hfile _ _)), if_neg hfile]
          exact .null 1 rdir

end MetalNes.DirectorySlots
