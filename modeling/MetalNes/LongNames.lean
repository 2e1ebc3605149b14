import MetalNes.DirectorySearch
import MetalNes.DirectoryTree

namespace MetalNes.LongNames

open Loop CStrings Fat32 DirectorySlots FatFiles DirectorySearch DirectoryTree

section Form

def fragments (name : Str) : Nat := (name.length + 12) / 13

def fragment (name : Str) (i : Nat) : Str := (name.drop (13 * i)).take 13

/-- The long-name slot of one fragment. The number of the last one is marked. -/
structure IsFragment (s : Slot) (name : Str) (i : Nat) : Prop where
  long : s.IsLong
  sequence : s.first = BitVec.ofNat 8 (i + 1) ||| if i + 1 = fragments name then 0x40 else 0x00
  bytes : s.nameBytes = ucs2 (fragment name i) ++ filler (fragment name i).length

/-- A long name in a directory: the slots of its fragments, the last one first, and
behind them the entry. -/
structure Stored (slots : List Slot) (i : Nat) (name : Str) (attr : U8) : Prop where
  nonempty : name ≠ []
  length : name.length ≤ 255
  ascii : ∀ c ∈ name, c ≠ 0x00 ∧ c < 0x80
  pieces : ∀ j < fragments name, ∃ s, slots[i + j]? = some s ∧ IsFragment s name (fragments name - 1 - j)
  entry : ∃ t, slots[i + fragments name]? = some t ∧ t.attr = attr
  kind : attr = FAT_DIR_ENT ∨ attr = FAT_ARCHIVE_ENT

end Form

section Scan

/-- One call of fat_getdirent in a scan, which steps over one slot where there is no
entry. -/
def scanBody (buffer : List U8) (v : Nat × Dirent) : Iter (Nat × Dirent) (Option Dirent) :=
  match fatGetdirent buffer v.1 v.2 with
  | none => .done none
  | some (next, e) => if next = -1 then .next (v.1 + sizeofDirent, e) else .done (some e)

/-- The dirent has the name as a C string, and the type of the attribute. -/
structure Named (e : Dirent) (name : Str) (attr : U8) : Prop where
  chars : ∀ i c, name[i]? = some c → e.dName i = c
  terminated : e.dName name.length = 0
  dType : e.dType = if attr = FAT_DIR_ENT then DT_DIR else DT_REG

/-- The scan from a slot on yields the name, whatever is in the dirent before. -/
def Decodes (slots : List Slot) (i : Nat) (name : Str) (attr : U8) : Prop :=
  ∀ out, ∃ e, Returns (scanBody (bytes slots)) (i * sizeofDirent, out) (some e) ∧ Named e name attr

variable {slots : List Slot} {i : Nat} {name : Str} {attr : U8}

theorem Stored.fragments_pos (h : Stored slots i name attr) : 0 < fragments name := by
  have hpos := List.length_pos_iff.mpr h.nonempty
  rw [fragments]
  omega

theorem Stored.chars_piece (h : Stored slots i name attr) {s : Slot} {j : Nat} (hs : IsFragment s name j) :
    s.chars = fragment name j := by
  refine chars_of_nameBytes (fun c hc => h.ascii c ?_) hs.bytes
  exact List.mem_of_mem_drop (List.mem_of_mem_take hc)

theorem scanBody_skip {s t : Slot} (hs : slots[i]? = some s) (hl : s.IsLong) (ht : slots[i + 1]? = some t)
    (hother : ¬ t.IsFile) (out : Dirent) :
    scanBody (bytes slots) (i * sizeofDirent, out) = .next ((i + 1) * sizeofDirent, out) := by
  have hget := (fatGetdirent_long out hs hl).trans (parseEntry_other ht hother _ _)
  rw [Nat.succ_mul]
  simp only [scanBody, hget, if_pos]

theorem scanBody_pair {s t : Slot} (hs : slots[i]? = some s) (hl : s.IsLong) (ht : slots[i + 1]? = some t)
    (hf : t.IsFile) (out : Dirent) :
    scanBody (bytes slots) (i * sizeofDirent, out) = .done (some (pairDirent out s t)) := by
  have hget := fatGetdirent_pair out hs hl ht hf
  have hne : ¬ ((2 * sizeofDirent : Nat) : Int) = -1 := by decide
  simp only [scanBody, hget, if_neg hne]

theorem Stored.isFile {t : Slot} (h : Stored slots i name attr) (ht : t.attr = attr) : t.IsFile := by
  rw [Slot.IsFile, ht]
  exact h.kind

/-- The scan steps over every fragment but the first of the name, which it takes for the
whole. -/
theorem Stored.scan (h : Stored slots i name attr) : ∃ s t : Slot, s.chars = name.take 13 ∧ t.attr = attr ∧
    ∀ out, Returns (scanBody (bytes slots)) (i * sizeofDirent, out) (some (pairDirent out s t)) := by
  have hpos := h.fragments_pos
  obtain ⟨t, ht, hattr⟩ := h.entry
  obtain ⟨s, hs, hpiece⟩ := h.pieces (fragments name - 1) (by omega)
  have hfirst : s.chars = name.take 13 := by
    rw [h.chars_piece hpiece, Nat.sub_self, fragment, Nat.mul_zero, List.drop_zero]
  have hbehind : slots[i + (fragments name - 1) + 1]? = some t := by
    rw [← ht]
    congr 1
    omega
  refine ⟨s, t, hfirst, hattr, fun out => ?_⟩
  have hfrom : ∀ m j, j + m + 1 = fragments name →
      Returns (scanBody (bytes slots)) ((i + j) * sizeofDirent, out) (some (pairDirent out s t)) := by
    intro m
    induction m with
    | zero =>
        intro j hj
        obtain rfl : j = fragments name - 1 := by omega
        exact .of_done (scanBody_pair hs hpiece.long hbehind (h.isFile hattr) out)
    | succ m ih =>
        intro j hj
        obtain ⟨u, hu, hupiece⟩ := h.pieces j (by omega)
        obtain ⟨w, hw, hwpiece⟩ := h.pieces (j + 1) (by omega)
        have hother : ¬ w.IsFile := fun hf => hf.not_isLong hwpiece.long
        exact .of_next (scanBody_skip hu hupiece.long hw hother out) (ih (j + 1) (by omega))
  exact hfrom (fragments name - 1) 0 (by omega)

theorem named_of_take {s t : Slot} (hs : s.chars = name.take 13) (ht : t.attr = attr) (hle : name.length ≤ 13)
    (out : Dirent) : Named (pairDirent out s t) name attr := by
  rw [List.take_of_length_le hle] at hs
  refine ⟨fun i c hc => ?_, ?_, ?_⟩
  · show copyLongName out.dName s.chars i = c
    rw [hs, copyLongName, if_pos (List.getElem?_eq_some_iff.mp hc).1, List.getD_eq_getElem?_getD, hc]
    rfl
  · show copyLongName out.dName s.chars name.length = 0
    rw [hs, copyLongName, if_neg (Nat.lt_irrefl _), if_pos rfl]
  · show t.dType = _
    rw [Slot.dType, ht]

/-- Behind its first fragment a longer name is cut off. -/
theorem not_named_of_take {s t : Slot} (hs : s.chars = name.take 13) (hascii : ∀ c ∈ name, c ≠ 0x00 ∧ c < 0x80)
    (hlt : 13 < name.length) (out : Dirent) : ¬ Named (pairDirent out s t) name attr := by
  intro h
  have hcut : (name.take 13).length = 13 := by
    rw [List.length_take]
    omega
  have hget := List.getElem?_eq_getElem hlt
  have hchar : copyLongName out.dName s.chars 13 = name[13] := h.chars 13 _ hget
  have hzero : copyLongName out.dName s.chars 13 = 0 := by
    rw [hs, copyLongName, hcut, if_neg (Nat.lt_irrefl _), if_pos rfl]
  exact (hascii _ (List.getElem_mem hlt)).1 (hchar.symm.trans hzero)

theorem length_le_of_decodes (h : Stored slots i name attr) (hdecodes : Decodes slots i name attr) :
    name.length ≤ 13 := by
  obtain ⟨s, t, hs, -, hscan⟩ := h.scan
  obtain ⟨e, hreturns, hnamed⟩ := hdecodes ⟨0, fun _ => 0⟩
  obtain rfl : e = _ := Option.some.inj (hreturns.unique (hscan _))
  by_contra hlong
  exact not_named_of_take hs h.ascii (by omega) _ hnamed

/-- For every name in VFAT form, of any length: the scan decodes those of one slot. -/
theorem decodes_iff (h : Stored slots i name attr) : Decodes slots i name attr ↔ name.length ≤ 13 := by
  constructor
  · exact length_le_of_decodes h
  · intro hle out
    obtain ⟨s, t, hs, ht, hscan⟩ := h.scan
    exact ⟨_, hscan out, named_of_take hs ht hle out⟩

/-- The long-name slot of a fragment, byte by byte. -/
def pieceSlot (name : Str) (i : Nat) : Slot :=
  let units := ucs2 (fragment name i) ++ filler (fragment name i).length
  let sequence := BitVec.ofNat 8 (i + 1) ||| if i + 1 = fragments name then 0x40 else 0x00
  Vector.ofFn fun k => (sequence :: units.take 10 ++ [FAT_LONG_NAME_ENT, 0x00, 0x00] ++
    (units.drop 10).take 12 ++ [0x00, 0x00] ++ units.drop 22).getD k 0x00

def entrySlot (attr : U8) : Slot := Vector.ofFn fun k => if k.val = 11 then attr else 0x20

def nameA (n : Nat) : Str := List.replicate n 0x41

theorem one_stored : Stored [pieceSlot (nameA 1) 0, entrySlot FAT_ARCHIVE_ENT] 0 (nameA 1) FAT_ARCHIVE_ENT := by
  refine ⟨by decide, by decide, by decide, fun j hj => ?_, ⟨_, rfl, by decide⟩, Or.inr rfl⟩
  have hone : fragments (nameA 1) = 1 := rfl
  obtain rfl : j = 0 := by omega
  exact ⟨_, rfl, by decide +kernel, by decide +kernel, by decide +kernel⟩

theorem one_decodes :
    Decodes [pieceSlot (nameA 1) 0, entrySlot FAT_ARCHIVE_ENT] 0 (nameA 1) FAT_ARCHIVE_ENT :=
  (decodes_iff one_stored).mpr (by decide)

def fourteenSlots : List Slot := [pieceSlot (nameA 14) 1, pieceSlot (nameA 14) 0, entrySlot FAT_ARCHIVE_ENT]

theorem fourteen_stored : Stored fourteenSlots 0 (nameA 14) FAT_ARCHIVE_ENT := by
  refine ⟨by decide, by decide, by decide, fun j hj => ?_, ⟨_, rfl, by decide⟩, Or.inr rfl⟩
  have htwo : fragments (nameA 14) = 2 := rfl
  obtain rfl | rfl : j = 0 ∨ j = 1 := by omega
  · exact ⟨pieceSlot (nameA 14) 1, rfl, by decide +kernel, by decide +kernel, by decide +kernel⟩
  · exact ⟨pieceSlot (nameA 14) 0, rfl, by decide +kernel, by decide +kernel, by decide +kernel⟩

/-- A name of fourteen characters comes back with thirteen. -/
theorem fourteen_cut : Stored fourteenSlots 0 (nameA 14) FAT_ARCHIVE_ENT ∧
    ¬ Decodes fourteenSlots 0 (nameA 14) FAT_ARCHIVE_ENT := by
  refine ⟨fourteen_stored, fun h => ?_⟩
  have hle := length_le_of_decodes fourteen_stored h
  revert hle
  decide

end Scan

end MetalNes.LongNames
