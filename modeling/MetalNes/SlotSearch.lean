import MetalNes.ClusterZero
import MetalNes.OpenCalls

namespace MetalNes.SlotSearch

open Loop CStrings Fat32 DirectorySlots FatFiles DirectorySearch RootSearch ClusterZero OpenCalls

section Slots

/-- What fat_getdirent makes of the slots from a place on: how many of them are the entry,
none where no entry starts, and the dirent. -/
def slotDirent (out : Dirent) : List Slot → Option (Nat × Dirent)
  | [] => none
  | s :: rest =>
    if s.IsLong then
      match rest with
      | [] => none
      | t :: _ => if t.IsFile then some (2, pairDirent out s t) else some (0, out)
    else if s.IsFile then some (1, shortDirent out s) else some (0, out)

def offsetOf (k : Nat) : Int := if k = 0 then -1 else ((k * sizeofDirent : Nat) : Int)

/-- Where fat_opendir stops in a directory: the slot at the read pointer, the slot in front
of the next entry where an entry starts there at all, and the dirent. -/
structure Hit where
  pointer : Slot
  entry : Option Slot
  dirent : Dirent

/-- The first cluster of a directory on the way: the low half at the read pointer. -/
def Hit.inner (hit : Hit) : U32 := hit.pointer.clusterLow.setWidth 32

def Hit.taken (hit : Hit) : List Str → Option U32
  | [] => hit.entry.map Slot.cluster
  | _ :: _ => some hit.inner

/-- The search of fat_opendir among the slots behind those that it skips. The dirent keeps
what it held where no entry starts. -/
def lookup (n : Str) : Dirent → Nat → List Slot → Except Fault (Option Hit)
  | _, _, [] => .ok none
  | out, skip + 1, _ :: rest => lookup n out skip rest
  | out, 0, s :: rest =>
    match slotDirent out (s :: rest) with
    | none => .error .outOfBounds
    | some (k, e) =>
      match found e (some n) with
      | .error f => .error f
      | .ok true => .ok (some ⟨s, if k = 0 then none else (s :: rest)[k - 1]?, e⟩)
      | .ok false => lookup n e (k - 1) rest

/-- The search of fat_fopen, which ends where fat_readdir finds no entry. -/
def lookupFile (n : Str) : Dirent → Nat → List Slot → Except Fault (Option Slot)
  | _, _, [] => .ok none
  | out, skip + 1, _ :: rest => lookupFile n out skip rest
  | out, 0, s :: rest =>
    match slotDirent out (s :: rest) with
    | none => .error .outOfBounds
    | some (0, _) => .ok none
    | some (k + 1, e) =>
      match strcmp e.dName 0 n with
      | .error f => .error f
      | .ok same => if same ∧ e.dType = DT_REG then .ok (s :: rest)[k]? else lookupFile n e k rest

variable {slots : List Slot} {i : Nat} {out : Dirent} {n : Str}

theorem slotDirent_long_last {s : Slot} (hl : s.IsLong) : slotDirent out [s] = none := if_pos hl

theorem slotDirent_long {s : Slot} (hl : s.IsLong) (t : Slot) (rest : List Slot) :
    slotDirent out (s :: t :: rest) = if t.IsFile then some (2, pairDirent out s t) else some (0, out) := if_pos hl

theorem slotDirent_short {s : Slot} (hl : ¬ s.IsLong) (rest : List Slot) :
    slotDirent out (s :: rest) = if s.IsFile then some (1, shortDirent out s) else some (0, out) := by
  cases rest with
  | nil | cons => exact if_neg hl

theorem fatGetdirent_slots (slots : List Slot) (i : Nat) (out : Dirent) :
    fatGetdirent (bytes slots) (i * sizeofDirent) out =
      (slotDirent out (slots.drop i)).map fun r => (offsetOf r.1, r.2) := by
  cases hd : slots.drop i with
  | nil =>
      have hnone : slots[i]? = none := List.getElem?_eq_none (List.drop_eq_nil_iff.mp hd)
      rw [fatGetdirent, attrflag_bytes, hnone]
      rfl
  | cons s rest =>
      obtain ⟨hs, hrest⟩ := getElem?_of_drop hd
      by_cases hl : s.IsLong
      · cases rest with
        | nil =>
            have hmissing : slots[i + 1]? = none := List.getElem?_eq_none (List.drop_eq_nil_iff.mp hrest)
            rw [fatGetdirent_long _ hs hl, parseEntry_missing hmissing, slotDirent_long_last hl]
            rfl
        | cons t rest =>
            have ht := (getElem?_of_drop hrest).1
            by_cases hf : t.IsFile
            · rw [fatGetdirent_pair _ hs hl ht hf, slotDirent_long hl, if_pos hf]
              rfl
            · rw [fatGetdirent_long _ hs hl, parseEntry_other ht hf, slotDirent_long hl, if_neg hf]
              rfl
      · by_cases hf : s.IsFile
        · rw [fatGetdirent_lone _ hs hl hf, slotDirent_short hl, if_pos hf]
          rfl
        · rw [fatGetdirent_short _ hs hl, parseEntry_other hs hf, slotDirent_short hl, if_neg hf]
          rfl

theorem slotDirent_length {l : List Slot} {k : Nat} {e : Dirent} (h : slotDirent out l = some (k, e)) :
    k ≤ l.length ∧ (k = 0 → e = out) := by
  cases l with
  | nil => cases h
  | cons s rest =>
      by_cases hl : s.IsLong
      · cases rest with
        | nil =>
            rw [slotDirent_long_last hl] at h
            cases h
        | cons t rest =>
            rw [slotDirent_long hl] at h
            split_ifs at h <;> cases h
            · exact ⟨Nat.le_add_left 2 _, fun h0 => absurd h0 (by decide)⟩
            · exact ⟨Nat.zero_le _, fun _ => rfl⟩
      · rw [slotDirent_short hl] at h
        split_ifs at h <;> cases h
        · exact ⟨Nat.le_add_left 1 _, fun h0 => absurd h0 (by decide)⟩
        · exact ⟨Nat.zero_le _, fun _ => rfl⟩

theorem lookup_skip (n : Str) (out : Dirent) (k : Nat) (l : List Slot) :
    lookup n out k l = lookup n out 0 (l.drop k) := by
  induction k generalizing l with
  | zero => rfl
  | succ k ih =>
      cases l with
      | nil => rfl
      | cons s rest => exact ih rest

theorem lookupFile_skip (n : Str) (out : Dirent) (k : Nat) (l : List Slot) :
    lookupFile n out k l = lookupFile n out 0 (l.drop k) := by
  induction k generalizing l with
  | zero => rfl
  | succ k ih =>
      cases l with
      | nil => rfl
      | cons s rest => exact ih rest

theorem lookup_pair {s t : Slot} (hl : s.IsLong) (ht : t.attr = FAT_DIR_ENT) (hchars : s.chars = n)
    (rest : List Slot) : lookup n out 0 (s :: t :: rest) = .ok (some ⟨s, some t, pairDirent out s t⟩) := by
  have hn : ∀ c ∈ n, c ≠ 0 := fun c hc => ne_zero_of_mem_chars (hchars.symm ▸ hc)
  have hfile : t.IsFile := Or.inl ht
  have hfound : found (pairDirent out s t) (some n) = .ok true :=
    (found_pair out hn).trans (congrArg _ (decide_eq_true ⟨ht, hchars⟩))
  rw [lookup, slotDirent_long hl, if_pos hfile]
  simp only [hfound]
  rfl

theorem lookupFile_pair {s t : Slot} (hl : s.IsLong) (ht : t.attr = FAT_ARCHIVE_ENT) (hchars : s.chars = n)
    (rest : List Slot) : lookupFile n out 0 (s :: t :: rest) = .ok (some t) := by
  have hn : ∀ c ∈ n, c ≠ 0 := fun c hc => ne_zero_of_mem_chars (hchars.symm ▸ hc)
  have hfile : t.IsFile := Or.inr ht
  have hcmp : strcmp (pairDirent out s t).dName 0 n = .ok true :=
    (strcmp_copyLongName out.dName s hn).trans (congrArg _ (decide_eq_true hchars))
  have hreg : (pairDirent out s t).dType = DT_REG := by
    rw [pairDirent, Slot.dType, ht]
    rfl
  rw [lookupFile, slotDirent_long hl, if_pos hfile]
  simp only [hcmp]
  exact if_pos ⟨trivial, hreg⟩

structure HitAt (slots : List Slot) (n : Str) (j : Nat) (old : Dirent) (k : Nat) (hit : Hit) : Prop where
  slot : slots[j]? = some hit.pointer
  parsed : slotDirent old (slots.drop j) = some (k, hit.dirent)
  found : found hit.dirent (some n) = .ok true
  entry : hit.entry = if k = 0 then none else slots[j + (k - 1)]?

theorem lookup_fault (hi : i < slots.length) (h : slotDirent out (slots.drop i) = none) :
    lookup n out 0 (slots.drop i) = .error .outOfBounds := by
  rw [List.drop_eq_getElem_cons hi] at h ⊢
  rw [lookup, h]

theorem lookup_error (hi : i < slots.length) {k : Nat} {e : Dirent} {f : Fault}
    (h : slotDirent out (slots.drop i) = some (k, e)) (hfound : found e (some n) = .error f) :
    lookup n out 0 (slots.drop i) = .error f := by
  rw [List.drop_eq_getElem_cons hi] at h ⊢
  rw [lookup, h]
  simp only [hfound]

theorem lookup_next (hi : i < slots.length) {k : Nat} {e : Dirent}
    (h : slotDirent out (slots.drop i) = some (k, e)) (hfound : found e (some n) = .ok false) :
    lookup n out 0 (slots.drop i) = lookup n e 0 (slots.drop (i + 1 + (k - 1))) := by
  rw [← List.drop_drop, ← lookup_skip n e (k - 1)]
  rw [List.drop_eq_getElem_cons hi] at h ⊢
  rw [lookup, h]
  simp only [hfound]

theorem lookup_found {k : Nat} {e : Dirent} (hi : i < slots.length)
    (h : slotDirent out (slots.drop i) = some (k, e)) (hfound : found e (some n) = .ok true) :
    ∃ hit, lookup n out 0 (slots.drop i) = .ok (some hit) ∧ HitAt slots n i out k hit := by
  have hslot := List.getElem?_eq_getElem hi
  refine ⟨⟨slots[i], if k = 0 then none else slots[i + (k - 1)]?, e⟩, ?_, hslot, h, hfound, rfl⟩
  rw [← List.getElem?_drop]
  rw [List.drop_eq_getElem_cons hi] at h ⊢
  rw [lookup, h]
  simp only [hfound]

theorem HitAt.getdirent {j k : Nat} {old : Dirent} {hit : Hit} (h : HitAt slots n j old k hit) :
    fatGetdirent (bytes slots) (j * sizeofDirent) old = some (offsetOf k, hit.dirent) := by
  rw [fatGetdirent_slots, h.parsed]
  rfl

theorem HitAt.inside {j k : Nat} {old : Dirent} {hit : Hit} (h : HitAt slots n j old k hit) : j < slots.length :=
  (List.getElem?_eq_some_iff.mp h.slot).1

theorem HitAt.inner {j k : Nat} {old : Dirent} {hit : Hit} (h : HitAt slots n j old k hit) :
    innerClusterAt (bytes slots) (j * sizeofDirent) = some hit.inner := innerClusterAt_low h.slot

/-- The slot in front of the next entry. In front of the first slot there is none. -/
theorem HitAt.last {j k : Nat} {old : Dirent} {hit : Hit} (h : HitAt slots n j old k hit) (hfirst : k = 0 → j = 0) :
    clusterAt (bytes slots) (((j * sizeofDirent : Nat) : Int) + offsetOf k - (sizeofDirent : Nat)) =
      hit.entry.map Slot.cluster := by
  rw [h.entry]
  cases k with
  | zero =>
      rw [hfirst rfl]
      rfl
  | succ k =>
      have hptr : ((j * sizeofDirent : Nat) : Int) + offsetOf (k + 1) - (sizeofDirent : Nat) =
          (((j + k) * sizeofDirent : Nat) : Int) := by
        rw [offsetOf, if_neg (Nat.succ_ne_zero k), sizeofDirent]
        omega
      have hle := (slotDirent_length h.parsed).1
      rw [List.length_drop] at hle
      have hlt : j + k < slots.length := by omega
      rw [hptr, if_neg (Nat.succ_ne_zero k), Nat.add_sub_cancel, clusterAt_bytes (List.getElem?_eq_getElem hlt),
        List.getElem?_eq_getElem hlt]
      rfl

end Slots

section Passes

variable {fuel : Nat} {allocs : Allocs} {fs : MountedFs} {slots : List Slot} {n : Str} {v : Walk} {i : Nat}
  {out : Dirent}

theorem opendirBody_other (hv : Looks slots n v) (hi : i < slots.length) {k : Nat} {e : Dirent}
    (hparse : slotDirent out (slots.drop i) = some (k, e)) (hfound : found e (some n) = .ok false) :
    opendirBody fuel allocs fs (Walk.at v i out) = .next (Walk.at v (i + 1 + (k - 1)) e) := by
  have hget : fatGetdirent (bytes slots) (i * sizeofDirent) out = some (offsetOf k, e) := by
    rw [fatGetdirent_slots, hparse]
    rfl
  cases k with
  | zero =>
      obtain rfl := (slotDirent_length hparse).2 rfl
      exact opendirBody_skip hv hi hget hfound
  | succ k =>
      rw [offsetOf, if_neg (Nat.succ_ne_zero k)] at hget
      rw [opendirBody_step hv hi hget hfound, Nat.add_assoc, Nat.add_comm 1, Nat.add_sub_cancel]

theorem visits_hit (hv : Looks slots n v) {hit : Hit} (h : lookup n out 0 (slots.drop i) = .ok (some hit)) :
    ∃ j k old, HitAt slots n j old k hit ∧ ∀ fuel allocs fs,
      Visits (opendirBody fuel allocs fs) (Walk.at v i out) (Walk.at v j old) := by
  induction hrest : slots.length - i using Nat.strong_induction_on generalizing i out with
  | _ rest ih =>
      by_cases hi : i < slots.length
      · cases hparse : slotDirent out (slots.drop i) with
        | none =>
            rw [lookup_fault hi hparse] at h
            cases h
        | some r =>
            obtain ⟨k, e⟩ := r
            cases hfound : found e (some n) with
            | error f =>
                rw [lookup_error hi hparse hfound] at h
                cases h
            | ok b =>
                cases b with
                | true =>
                    obtain ⟨hit', hlookup, hat⟩ := lookup_found hi hparse hfound
                    cases hlookup.symm.trans h
                    exact ⟨i, k, out, hat, fun _ _ _ => .here _⟩
                | false =>
                    rw [lookup_next hi hparse hfound] at h
                    obtain ⟨j, l, old, hat, hvisits⟩ := ih _ (by omega) h rfl
                    refine ⟨j, l, old, hat, fun fuel allocs fs => ?_⟩
                    exact .next (opendirBody_other hv hi hparse hfound) (hvisits fuel allocs fs)
      · rw [List.drop_of_length_le (Nat.le_of_not_lt hi)] at h
        cases h

/-- fat_opendir is in a directory, which it came to with the dirent. Among the slots from
here on it finds what there is among all of them. -/
structure Looking (slots : List Slot) (n : Str) (start : Dirent) (i : Nat) (v : Walk) : Prop where
  place : v = Walk.at v i v.dir
  looks : Looks slots n v
  rest : lookup n v.dir 0 (slots.drop i) = lookup n start 0 slots
  stale : i = 0 ∨ found v.dir (some n) = .ok false

theorem Looking.of_start (slots : List Slot) {size : U32} (hsize : size.toNat = slots.length * sizeofDirent)
    (n : Str) (start : Dirent) (rest : Str) (calls : Nat) :
    Looking slots n start 0 ⟨bytes slots, size, 0, start, some n, rest, calls⟩ where
  place := by
    rw [Walk.at, Nat.zero_mul]
  looks := ⟨rfl, hsize, rfl⟩
  rest := rfl
  stale := Or.inl rfl

theorem Looking.inside {start : Dirent} (h : Looking slots n start i v) :
    v.readptr < v.buffersize.toNat ↔ i < slots.length := by
  have hptr : v.readptr = i * sizeofDirent := congrArg Walk.readptr h.place
  rw [hptr, h.looks.size, sizeofDirent]
  omega

theorem Looking.parsed {start : Dirent} (h : Looking slots n start i v) {nextoffset : Int} {e : Dirent}
    (hget : fatGetdirent v.buffer v.readptr v.dir = some (nextoffset, e)) :
    ∃ k, slotDirent v.dir (slots.drop i) = some (k, e) ∧ nextoffset = offsetOf k := by
  have hptr : v.readptr = i * sizeofDirent := congrArg Walk.readptr h.place
  rw [h.looks.buffer, hptr, fatGetdirent_slots] at hget
  obtain ⟨⟨k, e'⟩, hparse, heq⟩ := Option.map_eq_some_iff.mp hget
  cases heq
  exact ⟨k, hparse, rfl⟩

/-- What is found is what the search among all the slots of the directory stops at. -/
theorem Looking.hit {start : Dirent} (h : Looking slots n start i v) (hi : i < slots.length) {k : Nat} {e : Dirent}
    (hparse : slotDirent v.dir (slots.drop i) = some (k, e)) (hfound : found e (some n) = .ok true) :
    ∃ hit, lookup n start 0 slots = .ok (some hit) ∧ HitAt slots n i v.dir k hit ∧ hit.dirent = e ∧
      (k = 0 → i = 0) := by
  obtain ⟨hit, hlookup, hat⟩ := lookup_found hi hparse hfound
  obtain ⟨-, rfl⟩ := Prod.mk.inj (Option.some.inj (hparse.symm.trans hat.parsed))
  refine ⟨hit, h.rest.symm.trans hlookup, hat, rfl, fun hk => h.stale.resolve_right fun hstale => ?_⟩
  rw [(slotDirent_length hparse).2 hk, hstale] at hfound
  cases hfound

theorem Looking.inner {start : Dirent} (h : Looking slots n start i v) {k : Nat} {hit : Hit}
    (hat : HitAt slots n i v.dir k hit) : innerClusterAt v.buffer v.readptr = some hit.inner := by
  have hptr : v.readptr = i * sizeofDirent := congrArg Walk.readptr h.place
  rw [h.looks.buffer, hptr, hat.inner]

theorem Looking.last {start : Dirent} (h : Looking slots n start i v) {k : Nat} {hit : Hit}
    (hat : HitAt slots n i v.dir k hit) (hfirst : k = 0 → i = 0) :
    clusterAt v.buffer (v.readptr + offsetOf k - sizeofDirent) = hit.taken [] := by
  have hptr : v.readptr = i * sizeofDirent := congrArg Walk.readptr h.place
  rw [h.looks.buffer, hptr]
  exact hat.last hfirst

theorem Looking.next {start : Dirent} (h : Looking slots n start i v) (hi : i < slots.length) {k : Nat} {e : Dirent}
    (hparse : slotDirent v.dir (slots.drop i) = some (k, e)) (hfound : found e (some n) = .ok false) :
    opendirBody fuel allocs fs v = .next (Walk.at v (i + 1 + (k - 1)) e) ∧
      Looking slots n start (i + 1 + (k - 1)) (Walk.at v (i + 1 + (k - 1)) e) := by
  have hbody : opendirBody fuel allocs fs (Walk.at v i v.dir) = .next (Walk.at v (i + 1 + (k - 1)) e) :=
    opendirBody_other h.looks hi hparse hfound
  rw [← h.place] at hbody
  refine ⟨hbody, rfl, h.looks.at _ _, ?_, Or.inr hfound⟩
  exact (lookup_next hi hparse hfound).symm.trans h.rest

end Passes

section Files

variable {slots : List Slot} {i : Nat} {out : Dirent} {n : Str}

theorem fatReaddir_slots (hi : i < slots.length) : fatReaddir (dirAt slots i) out =
    match slotDirent out (slots.drop i) with
    | none => none
    | some (0, e) => some (none, dirAt slots (i + 1), e)
    | some (k + 1, e) => some (some e, dirAt slots (i + (k + 1)), e) := by
  have hget := fatGetdirent_slots slots i out
  cases hparse : slotDirent out (slots.drop i) with
  | none =>
      rw [hparse] at hget
      exact fatReaddir_fault hi hget
  | some r =>
      obtain ⟨k, e⟩ := r
      rw [hparse] at hget
      cases k with
      | zero =>
          obtain rfl := (slotDirent_length hparse).2 rfl
          exact fatReaddir_null hi hget
      | succ k => exact fatReaddir_entry hi hget

theorem lookupFile_fault (hi : i < slots.length) (h : slotDirent out (slots.drop i) = none) :
    lookupFile n out 0 (slots.drop i) = .error .outOfBounds := by
  rw [List.drop_eq_getElem_cons hi] at h ⊢
  rw [lookupFile, h]

theorem lookupFile_null (hi : i < slots.length) {e : Dirent} (h : slotDirent out (slots.drop i) = some (0, e)) :
    lookupFile n out 0 (slots.drop i) = .ok none := by
  rw [List.drop_eq_getElem_cons hi] at h ⊢
  rw [lookupFile, h]

variable {k : Nat} {e : Dirent} (hi : i < slots.length) (hparse : slotDirent out (slots.drop i) = some (k + 1, e))

include hi hparse

theorem lookupFile_entry : lookupFile n out 0 (slots.drop i) =
    match strcmp e.dName 0 n with
    | .error f => .error f
    | .ok same =>
      if same ∧ e.dType = DT_REG then .ok slots[i + k]? else lookupFile n e 0 (slots.drop (i + (k + 1))) := by
  rw [Nat.add_comm k, ← Nat.add_assoc, ← List.drop_drop, ← lookupFile_skip n e k, ← List.getElem?_drop]
  rw [List.drop_eq_getElem_cons hi] at hparse ⊢
  rw [lookupFile, hparse]

theorem entry_inside : ∃ t, slots[i + k]? = some t := by
  have hle := (slotDirent_length hparse).1
  rw [List.length_drop] at hle
  exact ⟨_, List.getElem?_eq_getElem (by omega)⟩

end Files

section Scans

variable {slots : List Slot} {n : Str} {start : Dirent} {v : Search}

/-- fat_fopen has read an entry, or none, and from there on finds what there is among all
the slots. -/
inductive Scanning (slots : List Slot) (n : Str) (start : Dirent) : Search → Prop
  | none (fdir : FatDir) (rdir : Dirent) : Scanning slots n start ⟨fdir, none, rdir⟩
  | entry {i k : Nat} {old e : Dirent} (hi : i < slots.length)
      (hparse : slotDirent old (slots.drop i) = some (k + 1, e))
      (hrest : lookupFile n old 0 (slots.drop i) = lookupFile n start 0 slots) :
      Scanning slots n start ⟨dirAt slots (i + (k + 1)), some e, e⟩

theorem scanning_of_readdir {i : Nat} {old : Dirent}
    (hrest : lookupFile n old 0 (slots.drop i) = lookupFile n start 0 slots) {rdirent : Option Dirent}
    {fdir : FatDir} {rdir : Dirent} (h : fatReaddir (dirAt slots i) old = some (rdirent, fdir, rdir)) :
    Scanning slots n start ⟨fdir, rdirent, rdir⟩ := by
  by_cases hi : i < slots.length
  · rw [fatReaddir_slots hi] at h
    cases hparse : slotDirent old (slots.drop i) with
    | none =>
        rw [hparse] at h
        cases h
    | some r =>
        obtain ⟨k, e⟩ := r
        rw [hparse] at h
        cases k with
        | zero =>
            cases h
            exact .none _ _
        | succ k =>
            cases h
            exact .entry hi hparse hrest
  · rw [fatReaddir_end (Nat.le_of_not_lt hi)] at h
    cases h
    exact .none _ _

theorem Scanning.next {fuel : Nat} {malloc : U32 → Option (List U8)} {fs : MountedFs} {w : Search}
    (h : Scanning slots n start v) (hnext : fopenBody fuel malloc fs n v = .next w) : Scanning slots n start w := by
  cases h with
  | none fdir rdir => cases hnext
  | @entry i k old e hi hparse hrest =>
      have hentry := lookupFile_entry (n := n) hi hparse
      cases hcmp : strcmp e.dName 0 n with
      | error f =>
          simp only [fopenBody, hcmp] at hnext
          cases hnext
      | ok same =>
          simp only [fopenBody, hcmp] at hnext hentry
          split at hnext
          · cases hnext
          · next hother =>
              rw [if_neg hother] at hentry
              cases hread : fatReaddir (dirAt slots (i + (k + 1))) e with
              | none =>
                  rw [hread] at hnext
                  cases hnext
              | some r =>
                  rw [hread] at hnext
                  cases hnext
                  exact scanning_of_readdir (hentry.symm.trans hrest) hread

theorem Scanning.found (h : Scanning slots n start v) (hfound : FileFound n v) :
    ∃ j t, v.fdir = dirAt slots (j + 1) ∧ slots[j]? = some t ∧ lookupFile n start 0 slots = .ok (some t) := by
  obtain ⟨e', he, hname, htype⟩ := hfound
  cases h with
  | none fdir rdir => cases he
  | @entry i k old e hi hparse hrest =>
      cases he
      obtain ⟨t, ht⟩ := entry_inside hi hparse
      have hentry := lookupFile_entry (n := n) hi hparse
      simp only [hname] at hentry
      rw [if_pos ⟨trivial, htype⟩, ht] at hentry
      exact ⟨i + k, t, rfl, ht, hrest.symm.trans hentry⟩

theorem visits_file {i : Nat} {old : Dirent} {t : Slot}
    (h : lookupFile n old 0 (slots.drop i) = .ok (some t)) : ∃ rdirent fdir rdir v j,
      fatReaddir (dirAt slots i) old = some (rdirent, fdir, rdir) ∧ FileFound n v ∧ v.fdir = dirAt slots (j + 1) ∧
      slots[j]? = some t ∧ ∀ fuel malloc fs, Visits (fopenBody fuel malloc fs n) ⟨fdir, rdirent, rdir⟩ v := by
  induction hrest : slots.length - i using Nat.strong_induction_on generalizing i old with
  | _ rest ih =>
      by_cases hi : i < slots.length
      · cases hparse : slotDirent old (slots.drop i) with
        | none =>
            rw [lookupFile_fault hi hparse] at h
            cases h
        | some r =>
            obtain ⟨k, e⟩ := r
            cases k with
            | zero =>
                rw [lookupFile_null hi hparse] at h
                cases h
            | succ k =>
                have hread : fatReaddir (dirAt slots i) old = some (some e, dirAt slots (i + (k + 1)), e) := by
                  rw [fatReaddir_slots hi, hparse]
                rw [lookupFile_entry hi hparse] at h
                cases hcmp : strcmp e.dName 0 n with
                | error f =>
                    rw [hcmp] at h
                    cases h
                | ok same =>
                    simp only [hcmp] at h
                    split at h
                    · next hmatch =>
                        obtain ⟨hsame, htype⟩ := hmatch
                        refine ⟨_, _, _, _, i + k, hread, ⟨e, rfl, ?_, htype⟩, rfl, Except.ok.inj h,
                          fun _ _ _ => .here _⟩
                        rw [hcmp, hsame]
                    · next hother =>
                        obtain ⟨rdirent, fdir, rdir, v, j, hread', hfound, hfdir, hj, hvisits⟩ := ih _ (by omega) h rfl
                        refine ⟨_, _, _, v, j, hread, hfound, hfdir, hj, fun fuel malloc fs => ?_⟩
                        refine .next ?_ (hvisits fuel malloc fs)
                        simp only [fopenBody, hcmp, if_neg hother, hread']
      · rw [List.drop_of_length_le (Nat.le_of_not_lt hi)] at h
        cases h

end Scans

end MetalNes.SlotSearch
