import MetalNes.DirectorySlots

namespace MetalNes.Enumeration

open Fat32 DirectorySlots

/-- A directory or archive entry that is neither deleted nor unused. -/
def Live (s : Slot) : Prop := s.IsFile ∧ s[0] ≠ 0xE5 ∧ s[0] ≠ 0x00

instance (s : Slot) : Decidable (Live s) := inferInstanceAs (Decidable (_ ∧ _))

structure Found where
  slot : Nat
  dType : U8
  deriving DecidableEq, Repr

/-- The entry a call has returned. Callers find its slot right behind the new
read pointer. -/
def found (dir : FatDir) (e : Dirent) : Found := ⟨dir.readptr / sizeofDirent - 1, e.dType⟩

def nthCall : Nat → FatDir → Dirent → Option (Option Found)
  | n, dir, rdir =>
    match fatReaddir dir rdir with
    | none => none
    | some (e, dir, rdir) =>
      match n with
      | 0 => some (e.map (found dir))
      | n + 1 => nthCall n dir rdir

def liveFrom : Nat → List Slot → List Found
  | _, [] => []
  | i, s :: rest =>
    if Live s then ⟨i, s.dType⟩ :: liveFrom (i + 1) rest else liveFrom (i + 1) rest

/-- The calls return the live entries one after the other, and then NULL. -/
def Complete (slots : List Slot) : Prop :=
  ∀ (rdir : Dirent) (n : Nat), nthCall n (dirAt slots 0) rdir = some ((liveFrom 0 slots)[n]?)

def nthSlot : Nat → Nat → List Slot → Option (Option Found)
  | n, i, rest =>
    match readSlots rest with
    | none => none
    | some (t, k) =>
      match n with
      | 0 => some (t.map fun t => ⟨i + k - 1, t.dType⟩)
      | n + 1 => nthSlot n (i + k) (rest.drop k)

theorem found_dirAt (slots : List Slot) (i : Nat) (e : Dirent) :
    found (dirAt slots i) e = ⟨i - 1, e.dType⟩ := by
  rw [found, dirAt, Nat.mul_div_cancel i (by decide : 0 < sizeofDirent)]

theorem nthCall_dirAt (slots : List Slot) (n i : Nat) (rdir : Dirent) :
    nthCall n (dirAt slots i) rdir = nthSlot n i (slots.drop i) := by
  induction n generalizing i rdir with
  | zero =>
      have hreads := fatReaddir_reads slots i rdir
      rw [nthCall, nthSlot]
      generalize fatReaddir (dirAt slots i) rdir = call at hreads ⊢
      generalize readSlots (slots.drop i) = slot at hreads ⊢
      cases hreads with
      | fault => rfl
      | null k r => rfl
      | entry k e t h =>
          simp only [Option.map_some, found_dirAt, h]
  | succ n ih =>
      have hreads := fatReaddir_reads slots i rdir
      rw [nthCall, nthSlot]
      generalize fatReaddir (dirAt slots i) rdir = call at hreads ⊢
      generalize readSlots (slots.drop i) = slot at hreads ⊢
      cases hreads with
      | fault => rfl
      | null k r =>
          simp only [List.drop_drop]
          exact ih (i + k) r
      | entry k e t h =>
          simp only [List.drop_drop]
          exact ih (i + k) e

def CompleteFrom (i : Nat) (rest : List Slot) : Prop :=
  ∀ n, nthSlot n i rest = some ((liveFrom i rest)[n]?)

theorem complete_iff (slots : List Slot) : Complete slots ↔ CompleteFrom 0 slots := by
  have hcalls : ∀ rdir n, nthCall n (dirAt slots 0) rdir = nthSlot n 0 slots :=
    fun rdir n => nthCall_dirAt slots n 0 rdir
  constructor
  · intro h n
    exact (hcalls ⟨0, fun _ => 0⟩ n).symm.trans (h _ n)
  · intro h rdir n
    exact (hcalls rdir n).trans (h n)

theorem completeFrom_step {i k : Nat} {rest : List Slot} {t : Option Slot}
    (h : readSlots rest = some (t, k)) :
    CompleteFrom i rest ↔
      (liveFrom i rest)[0]? = t.map (fun t => ⟨i + k - 1, t.dType⟩) ∧
        ∀ n, nthSlot n (i + k) (rest.drop k) = some ((liveFrom i rest)[n + 1]?) := by
  have hzero : nthSlot 0 i rest = some (t.map fun t => ⟨i + k - 1, t.dType⟩) := by
    rw [nthSlot, h]
  have hsucc : ∀ n, nthSlot (n + 1) i rest = nthSlot n (i + k) (rest.drop k) := by
    intro n
    rw [nthSlot, h]
  constructor
  · intro hc
    refine ⟨Option.some.inj ((hc 0).symm.trans hzero), fun n => ?_⟩
    rw [← hsucc n]
    exact hc (n + 1)
  · rintro ⟨h0, hn⟩ n
    cases n with
    | zero => rw [hzero, h0]
    | succ n => rw [hsucc n, hn n]

theorem liveFrom_slot_ge (i : Nat) (rest : List Slot) : ∀ f ∈ liveFrom i rest, i ≤ f.slot := by
  induction rest generalizing i with
  | nil => simp [liveFrom]
  | cons s rest ih =>
      intro f hf
      rw [liveFrom] at hf
      split at hf
      · rcases List.mem_cons.mp hf with rfl | hf
        · exact le_rfl
        · exact (Nat.le_succ i).trans (ih (i + 1) f hf)
      · exact (Nat.le_succ i).trans (ih (i + 1) f hf)

theorem liveFrom_sorted (i : Nat) (rest : List Slot) :
    (liveFrom i rest).Pairwise fun f g => f.slot < g.slot := by
  induction rest generalizing i with
  | nil => exact .nil
  | cons s rest ih =>
      rw [liveFrom]
      split
      · exact .cons (fun f hf => liveFrom_slot_ge (i + 1) rest f hf) (ih (i + 1))
      · exact ih (i + 1)

theorem mem_liveFrom_iff (i : Nat) (rest : List Slot) (f : Found) :
    f ∈ liveFrom i rest ↔
      ∃ j s, rest[j]? = some s ∧ Live s ∧ f = ⟨i + j, s.dType⟩ := by
  induction rest generalizing i with
  | nil => simp [liveFrom]
  | cons s rest ih =>
      have hshift : (∃ j t, (s :: rest)[j]? = some t ∧ Live t ∧ f = ⟨i + j, t.dType⟩) ↔
          (Live s ∧ f = ⟨i, s.dType⟩) ∨
            ∃ j t, rest[j]? = some t ∧ Live t ∧ f = ⟨i + 1 + j, t.dType⟩ := by
        constructor
        · rintro ⟨j, t, hj, ht, rfl⟩
          cases j with
          | zero =>
              cases Option.some.inj hj
              exact .inl ⟨ht, rfl⟩
          | succ j => exact .inr ⟨j, t, hj, ht, by rw [Nat.add_right_comm, Nat.add_assoc]⟩
        · rintro (⟨hs, rfl⟩ | ⟨j, t, hj, ht, rfl⟩)
          · exact ⟨0, s, rfl, hs, rfl⟩
          · exact ⟨j + 1, t, hj, ht, by rw [Nat.add_right_comm, Nat.add_assoc]⟩
      rw [hshift, liveFrom]
      split
      · next hs => rw [List.mem_cons, ih (i + 1), and_iff_right hs]
      · next hs => rw [ih (i + 1), or_iff_right fun h => hs h.1]

theorem liveFrom_eq_nil_iff (i : Nat) (rest : List Slot) :
    liveFrom i rest = [] ↔ ∀ t ∈ rest, ¬ Live t := by
  induction rest generalizing i with
  | nil => simp [liveFrom]
  | cons s rest ih =>
      rw [liveFrom, List.forall_mem_cons]
      split
      · next h => exact iff_of_false (List.cons_ne_nil _ _) fun hall => hall.1 h
      · next h => exact (ih (i + 1)).trans (and_iff_right h).symm

section Cases

variable {i : Nat} {s : Slot} {rest : List Slot}

theorem completeFrom_nil (i : Nat) : CompleteFrom i [] := by
  intro n
  induction n with
  | zero => rfl
  | succ n ih => exact ih

theorem completeFrom_live (hs : Live s) : CompleteFrom i (s :: rest) ↔ CompleteFrom (i + 1) rest := by
  have hread := (readSlots_short hs.1.not_isLong rest).trans (if_pos hs.1)
  have hlive : liveFrom i (s :: rest) = ⟨i, s.dType⟩ :: liveFrom (i + 1) rest := if_pos hs
  rw [completeFrom_step hread, hlive]
  exact and_iff_right rfl

theorem not_completeFrom_dead (hfile : s.IsFile) (hs : ¬ Live s) : ¬ CompleteFrom i (s :: rest) := by
  have hread := (readSlots_short hfile.not_isLong rest).trans (if_pos hfile)
  have hlive : liveFrom i (s :: rest) = liveFrom (i + 1) rest := if_neg hs
  rw [completeFrom_step hread, hlive]
  rintro ⟨h0, -⟩
  have hmem := List.mem_of_getElem? h0
  have hge := liveFrom_slot_ge (i + 1) rest _ hmem
  simp only [Nat.add_sub_cancel] at hge
  omega

/-- A call that returns NULL must have no live entry before it. -/
theorem completeFrom_null (hs : ¬ Live s) (hread : readSlots (s :: rest) = some (none, 1)) :
    CompleteFrom i (s :: rest) ↔ (∀ t ∈ rest, ¬ Live t) ∧ CompleteFrom (i + 1) rest := by
  have hlive : liveFrom i (s :: rest) = liveFrom (i + 1) rest := if_neg hs
  rw [completeFrom_step hread, hlive, ← liveFrom_eq_nil_iff (i + 1)]
  constructor
  · rintro ⟨h0, hn⟩
    have hnil : liveFrom (i + 1) rest = [] := by
      cases hl : liveFrom (i + 1) rest with
      | nil => rfl
      | cons f fs =>
          rw [hl] at h0
          cases h0
    refine ⟨hnil, fun n => ?_⟩
    have hrest := hn n
    rw [hnil] at hrest ⊢
    exact hrest
  · rintro ⟨hnil, hc⟩
    rw [hnil]
    refine ⟨rfl, fun n => ?_⟩
    have hrest := hc n
    rw [hnil] at hrest
    exact hrest

theorem completeFrom_long_live (hs : s.IsLong) {t : Slot} (ht : Live t) :
    CompleteFrom i (s :: t :: rest) ↔ CompleteFrom (i + 2) rest := by
  have hread := (readSlots_long hs t rest).trans (if_pos ht.1)
  have hnot : ¬ Live s := fun h => h.1.not_isLong hs
  have hlive : liveFrom i (s :: t :: rest) = ⟨i + 1, t.dType⟩ :: liveFrom (i + 2) rest :=
    (if_neg hnot).trans (if_pos ht)
  rw [completeFrom_step hread, hlive]
  exact and_iff_right rfl

theorem not_completeFrom_long_dead (hs : s.IsLong) {t : Slot} (hfile : t.IsFile) (ht : ¬ Live t) :
    ¬ CompleteFrom i (s :: t :: rest) := by
  have hread := (readSlots_long hs t rest).trans (if_pos hfile)
  have hnot : ¬ Live s := fun h => h.1.not_isLong hs
  have hlive : liveFrom i (s :: t :: rest) = liveFrom (i + 2) rest :=
    (if_neg hnot).trans (if_neg ht)
  rw [completeFrom_step hread, hlive]
  rintro ⟨h0, -⟩
  have hge := liveFrom_slot_ge (i + 2) rest _ (List.mem_of_getElem? h0)
  simp only at hge
  omega

/-- The parser looks for the entry behind the last slot. -/
theorem not_completeFrom_long_last (hs : s.IsLong) : ¬ CompleteFrom i [s] := by
  intro h
  have hfault : nthSlot 0 i [s] = none := by
    rw [nthSlot, readSlots_long_last hs]
  have h0 := h 0
  rw [hfault] at h0
  cases h0

end Cases

/-- A directory the calls get through: no dead slot still has the attribute of a
file; a slot in front of live entries is a live entry itself, or a long name slot
directly in front of one; and the buffer does not end in a long name slot. -/
structure Tidy (slots : List Slot) : Prop where
  noDead : ∀ s ∈ slots, s.IsFile → Live s
  front : ∀ pre s post, slots = pre ++ s :: post → ¬ s.IsFile → (∃ t ∈ post, Live t) →
    s.IsLong ∧ ∃ t rest, post = t :: rest ∧ Live t
  last : ∀ pre s, slots = pre ++ [s] → ¬ s.IsLong

theorem tidy_nil : Tidy [] := by
  refine ⟨?_, ?_, ?_⟩
  · simp
  · intro pre s post h
    cases pre <;> cases h
  · intro pre s h
    cases pre <;> cases h

theorem tidy_cons (s : Slot) (rest : List Slot) : Tidy (s :: rest) ↔
    (s.IsFile → Live s) ∧
      (¬ s.IsFile → (∃ t ∈ rest, Live t) → s.IsLong ∧ ∃ t rest', rest = t :: rest' ∧ Live t) ∧
      (rest = [] → ¬ s.IsLong) ∧ Tidy rest := by
  constructor
  · intro h
    refine ⟨h.noDead s List.mem_cons_self, h.front [] s rest rfl, ?_, ?_, ?_, ?_⟩
    · rintro rfl
      exact h.last [] s rfl
    · exact fun t ht => h.noDead t (List.mem_cons_of_mem s ht)
    · intro pre t post he
      exact h.front (s :: pre) t post (by rw [he]; rfl)
    · intro pre t he
      exact h.last (s :: pre) t (by rw [he]; rfl)
  · rintro ⟨hdead, hfront, hlast, hrest⟩
    refine ⟨?_, ?_, ?_⟩
    · intro t ht
      rcases List.mem_cons.mp ht with rfl | ht
      · exact hdead
      · exact hrest.noDead t ht
    · intro pre t post he
      cases pre with
      | nil =>
          cases he
          exact hfront
      | cons p pre =>
          cases he
          exact hrest.front pre t post rfl
    · intro pre t he
      cases pre with
      | nil =>
          cases he
          exact hlast rfl
      | cons p pre =>
          cases he
          exact hrest.last pre t rfl

theorem tidy_cons_live {s : Slot} {rest : List Slot} (hs : Live s) : Tidy (s :: rest) ↔ Tidy rest := by
  rw [tidy_cons]
  constructor
  · exact fun h => h.2.2.2
  · exact fun h => ⟨fun _ => hs, fun hf => absurd hs.1 hf, fun _ => hs.1.not_isLong, h⟩

theorem tidy_long_live {s t : Slot} {rest : List Slot} (hs : s.IsLong) (ht : Live t) :
    Tidy (s :: t :: rest) ↔ Tidy rest := by
  rw [tidy_cons, tidy_cons_live ht]
  constructor
  · exact fun h => h.2.2.2
  · exact fun h => ⟨fun hf => absurd hs hf.not_isLong, fun _ _ => ⟨hs, t, rest, rfl, ht⟩,
      fun hnil => (by cases hnil), h⟩

theorem tidy_null {s : Slot} {rest : List Slot} (hs : ¬ s.IsFile)
    (hnext : s.IsLong → ∃ t rest', rest = t :: rest' ∧ ¬ Live t) :
    Tidy (s :: rest) ↔ (∀ t ∈ rest, ¬ Live t) ∧ Tidy rest := by
  rw [tidy_cons]
  constructor
  · rintro ⟨-, hfront, -, hrest⟩
    refine ⟨fun t ht hlive => ?_, hrest⟩
    obtain ⟨hlong, u, rest', he, hu⟩ := hfront hs ⟨t, ht, hlive⟩
    obtain ⟨v, rest'', he', hv⟩ := hnext hlong
    cases he.symm.trans he'
    exact hv hu
  · rintro ⟨hnone, hrest⟩
    refine ⟨fun h => absurd h hs, ?_, ?_, hrest⟩
    · rintro - ⟨t, ht, hlive⟩
      exact absurd hlive (hnone t ht)
    · rintro rfl hlong
      obtain ⟨t, rest', he, -⟩ := hnext hlong
      cases he

theorem completeFrom_iff (i : Nat) (slots : List Slot) : CompleteFrom i slots ↔ Tidy slots := by
  induction hn : slots.length using Nat.strongRecOn generalizing i slots with
  | ind n ih =>
      cases slots with
      | nil => exact iff_of_true (completeFrom_nil i) tidy_nil
      | cons s rest =>
          have hrest : ∀ j, CompleteFrom j rest ↔ Tidy rest := fun j =>
            ih rest.length (by rw [← hn]; exact Nat.lt_succ_self _) j rest rfl
          by_cases hlive : Live s
          · rw [completeFrom_live hlive, tidy_cons_live hlive, hrest]
          by_cases hfile : s.IsFile
          · exact iff_of_false (not_completeFrom_dead hfile hlive)
              fun h => hlive (h.noDead s List.mem_cons_self hfile)
          by_cases hlong : s.IsLong
          · cases rest with
            | nil =>
                exact iff_of_false (not_completeFrom_long_last hlong)
                  fun h => h.last [] s rfl hlong
            | cons t rest' =>
                by_cases ht : Live t
                · have hlt : rest'.length < n := by
                    rw [← hn, List.length_cons, List.length_cons]
                    omega
                  have hrest' := ih rest'.length hlt (i + 2) rest' rfl
                  rw [completeFrom_long_live hlong ht, tidy_long_live hlong ht, hrest']
                by_cases htfile : t.IsFile
                · exact iff_of_false (not_completeFrom_long_dead hlong htfile ht)
                    fun h => ht (h.noDead t (List.mem_cons_of_mem s List.mem_cons_self) htfile)
                · have hread := (readSlots_long hlong t rest').trans (if_neg htfile)
                  rw [completeFrom_null hlive hread, hrest,
                    tidy_null hfile fun _ => ⟨t, rest', rfl, ht⟩]
          · have hread := (readSlots_short hlong rest).trans (if_neg hfile)
            rw [completeFrom_null hlive hread, hrest, tidy_null hfile fun h => absurd h hlong]

/-- For every directory, of any slots in any order: the calls enumerate its live
entries exactly under the condition above. -/
theorem complete_iff_tidy (slots : List Slot) : Complete slots ↔ Tidy slots :=
  (complete_iff slots).trans (completeFrom_iff 0 slots)

def slotOf (first attr : U8) : Slot :=
  Vector.ofFn fun i => if i = 0 then first else if i = 11 then attr else 0x20

def labelled : List Slot := [slotOf 0x4D 0x08, slotOf 0x41 FAT_ARCHIVE_ENT, Vector.replicate 32 0]

def undeleted : List Slot := [slotOf 0xE5 FAT_ARCHIVE_ENT, Vector.replicate 32 0]

/-- The label ends the enumeration before the file, and a deleted file comes back. -/
theorem label_hides_file : ¬ Complete labelled ∧ ¬ Complete undeleted := by
  refine ⟨fun h => ?_, fun h => ?_⟩
  all_goals
    have hfirst := h ⟨0, fun _ => 0⟩ 0
    revert hfirst
    decide +kernel

end MetalNes.Enumeration
