import MetalNes.RootSearch

namespace MetalNes.Listings

open Loop CStrings Fat32 DirectorySlots FatFiles DirectorySearch DirectoryTree

/-- A file or directory in a directory: the slot with its name, and its entry. -/
structure Item where
  name : Str
  long : Slot
  entry : Slot
  spells : Spells long name
  isFile : entry.IsFile
  nonempty : name ≠ []
  noSlash : slash ∉ name

def Item.slots (it : Item) : List Slot := [it.long, it.entry]

/-- The slots of a directory: those of the directory itself and the one it is in, the items
with their names, and free slots. -/
structure Listing where
  dots : List Slot
  items : List Item
  free : List Slot
  dots_dir : ∀ s ∈ dots, s.attr = FAT_DIR_ENT
  distinct : (items.map Item.name).Nodup
  free_attr : ∀ s ∈ free, s.attr = 0x00

namespace Listing

variable (l : Listing)

def slots : List Slot := l.dots ++ (l.items.flatMap Item.slots ++ l.free)

end Listing

theorem Item.nameable (it : Item) : Nameable it.name := by
  refine ⟨it.nonempty, fun c hc => (it.spells.ascii c hc).1, fun c hc hmark => ?_⟩
  have hlt := (it.spells.ascii c hc).2
  rw [hmark] at hlt
  exact absurd hlt (by decide)

theorem eq_of_name {it head : Item} {items : List Item} (hdistinct : ((head :: items).map Item.name).Nodup)
    (hit : it ∈ head :: items) (hname : head.name = it.name) : it = head := by
  rcases List.mem_cons.mp hit with rfl | hit
  · rfl
  · exact absurd (List.mem_map.mpr ⟨it, hit, hname.symm⟩) (List.nodup_cons.mp hdistinct).1

section Opendir

theorem search_item {items : List Item} (hdistinct : (items.map Item.name).Nodup) {it : Item} (hit : it ∈ items)
    (hdir : it.entry.attr = FAT_DIR_ENT) (free : List Slot) :
    search it.name (items.flatMap Item.slots ++ free) = .ok (some (it.long, it.entry)) := by
  induction items with
  | nil => cases hit
  | cons head items ih =>
      rw [List.flatMap_cons, List.append_assoc, Item.slots, List.cons_append, List.cons_append, List.nil_append]
      by_cases hname : head.name = it.name
      · obtain rfl := eq_of_name hdistinct hit hname
        exact search_here it.spells.long hdir it.spells.chars_eq
      · have hother : ¬ (head.entry.attr = FAT_DIR_ENT ∧ head.long.chars = it.name) :=
          fun h => hname (head.spells.chars_eq.symm.trans h.2)
        have hrest : it ∈ items := (List.mem_cons.mp hit).resolve_left fun h => hname (congrArg Item.name h.symm)
        rw [search_other hother, search_short head.isFile.not_isLong]
        exact ih (List.nodup_cons.mp hdistinct).2 hrest

theorem preceded_pair {s t : Slot} {rest : List Slot} (hs : s.IsLong) (h : Preceded rest) :
    Preceded (s :: t :: rest) := by
  intro i u hi hdir
  match i with
  | 0 =>
      cases hi
      rw [Slot.IsLong, hdir] at hs
      exact absurd hs (by decide)
  | 1 => exact Or.inr ⟨0, s, rfl, rfl, hs⟩
  | i + 2 =>
      refine (h i u hi hdir).imp_right ?_
      rintro ⟨j, v, rfl, hv, hlong⟩
      exact ⟨j + 2, v, rfl, hv, hlong⟩

theorem preceded_items {free : List Slot} (hfree : ∀ s ∈ free, s.attr = 0x00) (items : List Item) :
    Preceded (items.flatMap Item.slots ++ free) := by
  induction items with
  | nil =>
      intro i t hi hdir
      have hattr := hfree t (List.mem_of_getElem? hi)
      rw [hdir] at hattr
      exact absurd hattr (by decide)
  | cons head items ih =>
      rw [List.flatMap_cons, List.append_assoc, Item.slots, List.cons_append, List.cons_append, List.nil_append]
      exact preceded_pair head.spells.long ih

theorem begins_items {items : List Item} {it : Item} (hit : it ∈ items) (free : List Slot) :
    BeginsWithEntry (items.flatMap Item.slots ++ free) := by
  obtain ⟨head, items, rfl⟩ := List.exists_cons_of_ne_nil (List.ne_nil_of_mem hit)
  exact (beginsWithEntry_long head.spells.long head.entry _).mpr head.isFile

end Opendir

section Fopen

variable {malloc : U32 → Option (List U8)} {fs : MountedFs} {slots : List Slot} {n : Str}

/-- The search of fat_fopen with a number of passes of its own. -/
def looks (fuel passes : Nat) (malloc : U32 → Option (List U8)) (fs : MountedFs) (n : Str) (fdir : FatDir)
    (rdir : Dirent) : Option (Except Fault (Option FatFile)) :=
  match fatReaddir fdir rdir with
  | none => some (.error .outOfBounds)
  | some (rdirent, fdir, rdir) => (run (fopenBody fuel malloc fs n) passes ⟨fdir, rdirent, rdir⟩).join

theorem looks_self (fuel : Nat) (fdir : FatDir) (rdir : Dirent) :
    looks fuel fuel malloc fs n fdir rdir = searchFile fuel malloc fs n fdir rdir := rfl

section Pass

variable {i k : Nat} {rdir e : Dirent} (hread : fatReaddir (dirAt slots i) rdir = some (some e, dirAt slots (i + k), e))

include hread

theorem looks_entry (fuel passes : Nat) : looks fuel passes malloc fs n (dirAt slots i) rdir =
    (run (fopenBody fuel malloc fs n) passes ⟨dirAt slots (i + k), some e, e⟩).join := by
  simp only [looks, hread]

theorem looks_skip (malloc : U32 → Option (List U8)) (fs : MountedFs) {same : Bool}
    (hname : strcmp e.dName 0 n = .ok same) (hother : ¬ (same = true ∧ e.dType = DT_REG)) (fuel passes : Nat) :
    looks fuel (passes + 1) malloc fs n (dirAt slots i) rdir =
      looks fuel passes malloc fs n (dirAt slots (i + k)) e := by
  rw [looks_entry hread]
  cases hnext : fatReaddir (dirAt slots (i + k)) e with
  | none =>
      have hbody : fopenBody fuel malloc fs n ⟨dirAt slots (i + k), some e, e⟩ =
          .done (some (.error .outOfBounds)) := by
        simp only [fopenBody, hname, if_neg hother, hnext]
      rw [run_done hbody, looks, hnext]
      rfl
  | some r =>
      obtain ⟨rdirent, fdir, rdir'⟩ := r
      have hbody : fopenBody fuel malloc fs n ⟨dirAt slots (i + k), some e, e⟩ = .next ⟨fdir, rdirent, rdir'⟩ := by
        simp only [fopenBody, hname, if_neg hother, hnext]
      simp only [run_next hbody, looks, hnext]

theorem looks_found (hname : strcmp e.dName 0 n = .ok true) (htype : e.dType = DT_REG) (fuel passes : Nat) :
    looks fuel (passes + 1) malloc fs n (dirAt slots i) rdir = openFile fuel malloc fs (dirAt slots (i + k)) := by
  have hbody : fopenBody fuel malloc fs n ⟨dirAt slots (i + k), some e, e⟩ =
      .done (openFile fuel malloc fs (dirAt slots (i + k))) := by
    simp only [fopenBody, hname]
    exact if_pos ⟨trivial, htype⟩
  rw [looks_entry hread, run_done hbody]
  rfl

end Pass

theorem strcmp_returns (dName : Nat → U8) {i : Nat} (h : i + n.length < 256) :
    ∃ same, strcmp dName i n = .ok same := by
  induction n generalizing i with
  | nil => exact ⟨_, if_pos h⟩
  | cons c n ih =>
      rw [List.length_cons] at h
      rw [strcmp, if_pos (by omega)]
      by_cases hc : dName i = c
      · rw [if_pos hc]
        exact ih (by omega)
      · exact ⟨false, if_neg hc⟩

theorem dType_eq_reg {t : Slot} : t.dType = DT_REG ↔ t.attr ≠ FAT_DIR_ENT := by
  rw [Slot.dType]
  split
  · next h => exact iff_of_false (by decide) (not_not_intro h)
  · next h => exact iff_of_true rfl h

/-- The entries of directories are stepped over, whatever their names are. -/
theorem looks_dots (malloc : U32 → Option (List U8)) (fs : MountedFs) {dots rest : List Slot}
    (hdots : ∀ s ∈ dots, s.attr = FAT_DIR_ENT) (hn : n.length < 256) {i : Nat} (hi : slots.drop i = dots ++ rest)
    (rdir : Dirent) : ∃ rdir', ∀ fuel passes,
      looks fuel (passes + dots.length) malloc fs n (dirAt slots i) rdir =
        looks fuel passes malloc fs n (dirAt slots (i + dots.length)) rdir' := by
  induction dots generalizing i rdir with
  | nil => exact ⟨rdir, fun _ _ => rfl⟩
  | cons s dots ih =>
      obtain ⟨hs, hdrop⟩ := getElem?_of_drop hi
      have hattr := hdots s List.mem_cons_self
      have hread := fatReaddir_lone rdir hs (Or.inl hattr)
      obtain ⟨same, hname⟩ := strcmp_returns (shortDirent rdir s).dName ((Nat.zero_add _).trans_lt hn)
      have hother : ¬ (same = true ∧ (shortDirent rdir s).dType = DT_REG) := fun h => dType_eq_reg.mp h.2 hattr
      obtain ⟨rdir', hrest⟩ := ih (fun t ht => hdots t (List.mem_cons_of_mem s ht)) hdrop (shortDirent rdir s)
      refine ⟨rdir', fun fuel passes => ?_⟩
      have hskip := looks_skip hread malloc fs hname hother fuel (passes + dots.length)
      rw [List.length_cons, ← Nat.add_assoc passes, hskip, hrest, Nat.add_assoc, Nat.add_comm 1]

theorem looks_item (malloc : U32 → Option (List U8)) (fs : MountedFs) {items : List Item}
    (hdistinct : (items.map Item.name).Nodup) {it : Item} (hit : it ∈ items)
    (hfile : it.entry.attr = FAT_ARCHIVE_ENT) {free : List Slot} {i : Nat}
    (hi : slots.drop i = items.flatMap Item.slots ++ free) : ∃ j, slots[j]? = some it.entry ∧
      ∀ rdir fuel passes, items.length ≤ passes →
        looks fuel passes malloc fs it.name (dirAt slots i) rdir = openFile fuel malloc fs (dirAt slots (j + 1)) := by
  induction items generalizing i with
  | nil => cases hit
  | cons head items ih =>
      rw [List.flatMap_cons, List.append_assoc, Item.slots, List.cons_append, List.cons_append, List.nil_append] at hi
      obtain ⟨hlong, hdrop⟩ := getElem?_of_drop hi
      obtain ⟨hentry, hdrop⟩ := getElem?_of_drop hdrop
      have hread := fun rdir => fatReaddir_pair rdir hlong head.spells.long hentry head.isFile
      have hcmp : ∀ rdir, strcmp (pairDirent rdir head.long head.entry).dName 0 it.name =
          .ok (head.name = it.name) := by
        intro rdir
        refine (strcmp_copyLongName rdir.dName head.long it.nameable.terminated).trans ?_
        rw [head.spells.chars_eq]
      by_cases hname : head.name = it.name
      · obtain rfl := eq_of_name hdistinct hit hname
        refine ⟨i + 1, hentry, fun rdir fuel passes hpasses => ?_⟩
        obtain ⟨passes, rfl⟩ := Nat.exists_eq_add_of_lt (Nat.lt_of_lt_of_le (Nat.zero_lt_succ items.length) hpasses)
        have htype : (pairDirent rdir it.long it.entry).dType = DT_REG := by
          refine dType_eq_reg.mpr ?_
          rw [hfile]
          decide
        exact looks_found (hread rdir) ((hcmp rdir).trans (congrArg _ (decide_eq_true rfl))) htype fuel _
      · have hrest : it ∈ items := (List.mem_cons.mp hit).resolve_left fun h => hname (congrArg Item.name h.symm)
        obtain ⟨j, hj, hlooks⟩ := ih (List.nodup_cons.mp hdistinct).2 hrest hdrop
        refine ⟨j, hj, fun rdir fuel passes hpasses => ?_⟩
        obtain ⟨passes, rfl⟩ := Nat.exists_eq_add_of_lt (Nat.lt_of_lt_of_le (Nat.zero_lt_succ items.length) hpasses)
        rw [List.length_cons] at hpasses
        rw [Nat.zero_add] at hpasses ⊢
        have hother : ¬ (decide (head.name = it.name) = true ∧ (pairDirent rdir head.long head.entry).dType = DT_REG) :=
          fun h => hname (of_decide_eq_true h.1)
        rw [looks_skip (hread rdir) malloc fs (hcmp rdir) hother]
        exact hlooks _ fuel passes (Nat.le_of_succ_le_succ hpasses)

theorem searchFile_item (l : Listing) {it : Item} (hit : it ∈ l.items) (hfile : it.entry.attr = FAT_ARCHIVE_ENT)
    (malloc : U32 → Option (List U8)) (fs : MountedFs) : ∃ j, l.slots[j]? = some it.entry ∧
      ∀ rdir fuel, l.dots.length + l.items.length ≤ fuel → searchFile fuel malloc fs it.name (dirAt l.slots 0) rdir =
        openFile fuel malloc fs (dirAt l.slots (j + 1)) := by
  have hdrop : l.slots.drop (0 + l.dots.length) = l.items.flatMap Item.slots ++ l.free := by
    rw [Nat.zero_add, Listing.slots, List.drop_left]
  have hlen : it.name.length < 256 := it.spells.length.trans_lt (by decide)
  obtain ⟨j, hj, hlooks⟩ := looks_item malloc fs l.distinct hit hfile hdrop
  refine ⟨j, hj, fun rdir fuel hfuel => ?_⟩
  obtain ⟨m, rfl⟩ := Nat.exists_eq_add_of_le hfuel
  obtain ⟨rdir', hdots⟩ := looks_dots malloc fs l.dots_dir hlen (List.drop_zero (l := l.slots)) rdir
  have hsum : l.dots.length + l.items.length + m = l.items.length + m + l.dots.length := by omega
  rw [← looks_self, hsum, hdots]
  exact hlooks rdir' _ _ (Nat.le_add_right _ m)

end Fopen

end MetalNes.Listings
