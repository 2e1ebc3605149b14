import MetalNes.ClusterChains
import MetalNes.DirectorySlots
import MetalNes.FatFiles

namespace MetalNes.DirectoryTree

open CStrings Fat32 ClusterChains DirectorySlots FatFiles

section Slots

/-- A slot that is in use: it is not marked as deleted, and no slot up to it marks
the end of the directory. -/
def InUse (slots : List Slot) (i : Nat) (s : Slot) : Prop :=
  slots[i]? = some s ∧ s.first ≠ 0xE5 ∧ ∀ j ≤ i, ∀ u : Slot, slots[j]? = some u → u.first ≠ 0x00

def ucs2 (n : Str) : List U8 := n.flatMap fun c => [c, 0x00]

/-- What stands behind a name of k characters in the name fields: a zero character,
and filler. -/
def filler (k : Nat) : List U8 :=
  if k < 13 then 0x00 :: 0x00 :: List.replicate (2 * (12 - k)) 0xFF else []

/-- A long-name slot with the whole of a short ASCII name: it is the first of its
entry, and the last. -/
structure Spells (s : Slot) (n : Str) : Prop where
  long : s.IsLong
  sequence : s.first = 0x41
  length : n.length ≤ 13
  ascii : ∀ c ∈ n, c ≠ 0x00 ∧ c < 0x80
  bytes : s.nameBytes = ucs2 n ++ filler n.length

/-- The directory has a directory of the name, which starts at the cluster. -/
def Holds (slots : List Slot) (n : Str) (c : U32) : Prop :=
  ∃ i s t, InUse slots i s ∧ Spells s n ∧ InUse slots (i + 1) t ∧ t.attr = FAT_DIR_ENT ∧ t.cluster = c

theorem filter_ucs2 {n : Str} (hn : ∀ c ∈ n, c ≠ 0x00 ∧ c < 0x80) :
    (ucs2 n).filter (fun c => c ≠ 0x0 ∧ c ≠ 0xFF) = n := by
  induction n with
  | nil => rfl
  | cons c n ih =>
      obtain ⟨hzero, hlt⟩ := hn c List.mem_cons_self
      have hmark : c ≠ 0xFF := by
        rintro rfl
        revert hlt
        decide
      have hrest := ih fun d hd => hn d (List.mem_cons_of_mem c hd)
      rw [ucs2, List.flatMap_cons, List.cons_append,
        List.filter_cons_of_pos (by rw [decide_eq_true_eq]; exact ⟨hzero, hmark⟩),
        List.cons_append, List.nil_append, List.filter_cons_of_neg (by decide)]
      rw [ucs2] at hrest
      rw [hrest]

theorem filter_filler (k : Nat) : (filler k).filter (fun c => c ≠ 0x0 ∧ c ≠ 0xFF) = [] := by
  rw [List.filter_eq_nil_iff]
  intro c hc
  rw [filler] at hc
  split at hc
  · rcases List.mem_cons.mp hc with rfl | hc
    · decide
    rcases List.mem_cons.mp hc with rfl | hc
    · decide
    · rw [List.eq_of_mem_replicate hc]
      decide
  · cases hc

/-- The parser takes ASCII characters from a long-name slot, and no filler. -/
theorem chars_of_nameBytes {s : Slot} {n : Str} (hn : ∀ c ∈ n, c ≠ 0x00 ∧ c < 0x80)
    (h : s.nameBytes = ucs2 n ++ filler n.length) : s.chars = n := by
  rw [Slot.chars, h, List.filter_append, filter_ucs2 hn, filter_filler, List.append_nil]

theorem Spells.chars_eq {s : Slot} {n : Str} (h : Spells s n) : s.chars = n :=
  chars_of_nameBytes h.ascii h.bytes

end Slots

section Tree

/-- The clusters of a directory hold the slots. -/
def Directory (fs : FatFs) (sector : Nat → Vector U8 512) (c : U32) (slots : List Slot) : Prop :=
  ∃ cs, Chain fs c cs ∧ (∀ d ∈ cs, Addressable fs d) ∧ cs.length * fs.clustersize.toNat < 2 ^ 32 ∧
    cs.flatMap (clusterBytes fs sector) = bytes slots

/-- The path of names leads from the first directory to the last. -/
inductive Names (fs : FatFs) (sector : Nat → Vector U8 512) : U32 → List Str → U32 → Prop
  | here (c : U32) : Names fs sector c [] c
  | step {c d e : U32} {slots : List Slot} {n : Str} {ns : List Str}
      (hdir : Directory fs sector c slots) (hholds : Holds slots n d) (h : Names fs sector d ns e) :
      Names fs sector c (n :: ns) e

/-- What the slots of the root keep to. No two directories share a name. -/
structure RootSlots (slots : List Slot) : Prop where
  preceded : Preceded slots
  distinct : ∀ n c d, Holds slots n c → Holds slots n d → c = d

/-- A directory tree on a volume. Its chains end, and no two directories meet. -/
structure Tree (fs : MountedFs) (sector : Nat → Vector U8 512) (slots : List Slot) : Prop where
  volume : Volume fs.toFatFs sector
  nonempty : 0 < sectors fs.toFatFs
  root : Directory fs.toFatFs sector fs.ebr.clusterRootNum slots
  entries : RootSlots slots
  directory : ∀ p c, Names fs.toFatFs sector fs.ebr.clusterRootNum p c →
    ∃ slots, Directory fs.toFatFs sector c slots
  apart : ∀ p q c d cs ds, Names fs.toFatFs sector fs.ebr.clusterRootNum p c →
    Names fs.toFatFs sector fs.ebr.clusterRootNum q d → p ≠ q →
    Chain fs.toFatFs c cs → Chain fs.toFatFs d ds → cs.Disjoint ds

def onDevice (fs : MountedFs) (dev : BlockDevice) : MountedFs := { fs with dev := dev }

def reader (sector : Nat → Vector U8 512) : BlockDevice :=
  ⟨fun lba n => (sectorBytes sector lba.toNat n.toNat, n * 512)⟩

def Grants (allocs : Allocs) : Prop :=
  ∀ k n, ∃ data, allocs.data k n = some data ∧ data.length = n.toNat

def Opens (fs : MountedFs) (allocs : Allocs) (path : Str) (r : Option FatDir) : Prop :=
  ∃ bound, ∀ fuel ≥ bound, fatOpendir fuel allocs fs (some path) = some (.ok r)

/-- Opening the path returns the data of the directory it names, or NULL where it
names none, whatever is in the blocks of memory. -/
structure Resolves (fs : MountedFs) (sector : Nat → Vector U8 512) (path : Str) : Prop where
  named : ∀ allocs, Grants allocs → ∀ c cs,
    Names fs.toFatFs sector fs.ebr.clusterRootNum (names path) c → Chain fs.toFatFs c cs →
    Opens fs allocs path (some ⟨cs.flatMap (clusterBytes fs.toFatFs sector), 0,
      cs.length * fs.clustersize.toNat⟩)
  unnamed : ∀ allocs, Grants allocs →
    (∀ c, ¬ Names fs.toFatFs sector fs.ebr.clusterRootNum (names path) c) →
    Opens fs allocs path none

end Tree

end MetalNes.DirectoryTree
