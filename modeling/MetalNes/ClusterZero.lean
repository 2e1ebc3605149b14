import MetalNes.RootSearch

namespace MetalNes.ClusterZero

open Loop CStrings Fat32 ClusterChains DirectorySlots FatFiles DirectorySearch DirectoryTree RootSearch

/-- A slot without a cluster number in its low half. -/
def Unlinked (s : Slot) : Prop := s.clusterLow = 0

/-- The high half of a directory on the way is shifted out. -/
theorem innerClusterAt_low {slots : List Slot} {i : Nat} {s : Slot} (h : slots[i]? = some s) :
    innerClusterAt (bytes slots) (i * sizeofDirent) = some (s.clusterLow.setWidth 32) := by
  have hhigh : ∀ high low : U16, high.setWidth 32 >>> 16 ||| low.setWidth 32 = low.setWidth 32 := by
    intro high low
    apply BitVec.eq_of_toNat_eq
    have hlt := high.isLt
    simp only [BitVec.toNat_or, BitVec.toNat_ushiftRight, BitVec.toNat_setWidth, Nat.shiftRight_eq_div_pow]
    rw [Nat.mod_eq_of_lt (by omega), Nat.div_eq_of_lt (by omega), Nat.zero_or]
  rw [innerClusterAt, addrHighbits, addrLowBits, halfAt_bytes h (by decide : 20 + 1 < 32),
    halfAt_bytes h (by decide : 26 + 1 < 32)]
  exact congrArg some (hhigh _ _)

theorem innerClusterAt_bytes {slots : List Slot} {i : Nat} {s : Slot} (h : slots[i]? = some s)
    (hs : Unlinked s) : innerClusterAt (bytes slots) (i * sizeofDirent) = some 0 := by
  rw [innerClusterAt_low h, hs]
  rfl

/-- Slots in which fat_opendir finds nothing: long-name slots, and no entry behind
any of them. -/
def Traps (slots : List Slot) : Prop := slots ≠ [] ∧ ∀ s ∈ slots, s.IsLong ∧ Unlinked s

/-- What is read for cluster 0, if anything is, holds no entry. -/
def Trapped (fs : FatFs) : Prop :=
  ∀ fuel malloc data size, (∀ n block, malloc n = some block → block.length = n.toNat) →
    fatGetdata fuel malloc 0 fs = some (.ok (data, size)) →
    ∃ slots, Traps slots ∧ data = bytes slots ∧ size.toNat = slots.length * sizeofDirent

section Walk

variable {fuel : Nat} {allocs : Allocs} {fs : MountedFs}

/-- fat_opendir is among slots that are no entries. Only the dirent it came with could
be the one it looks for, and only in front of the first slot. -/
def InTrap (v : Walk) : Prop :=
  ∃ slots n i, v = Walk.at v i v.dir ∧ Looks slots n v ∧ Traps slots ∧ i < slots.length ∧
    (i = 0 ∨ found v.dir (some n) = .ok false)

/-- A pass that opens nothing, and does not find that there is nothing to open. -/
inductive Stuck : Iter Walk (Option (Except Fault (Option FatDir))) → Prop
  | unending : Stuck (.done none)
  | error (e : Fault) : Stuck (.done (some (.error e)))
  | trap (v : Walk) (h : InTrap v) : Stuck (.next v)

theorem enter_stuck (hfs : Trapped fs.toFatFs) (hgrants : Grants allocs) {v : Walk}
    (hcluster : innerClusterAt v.buffer v.readptr = some 0) (dir : Dirent) (subdir rest : Str) :
    Stuck (enter fuel allocs fs v dir subdir rest) := by
  have hm : ∀ n block, allocs.data v.calls n = some block → block.length = n.toNat := by
    intro n block hblock
    obtain ⟨data, hdata, hlen⟩ := hgrants v.calls n
    cases hblock.symm.trans hdata
    exact hlen
  simp only [enter, hcluster]
  cases hget : fatGetdata fuel (allocs.data v.calls) 0 fs.toFatFs with
  | none => exact .unending
  | some r =>
      cases r with
      | error e => exact .error e
      | ok r =>
          obtain ⟨slots, htraps, hdata, hsize⟩ := hfs fuel _ r.1 r.2 hm hget
          refine .trap _ ⟨slots, subdir, 0, ?_, ⟨hdata, hsize, rfl⟩, htraps, ?_, Or.inl rfl⟩
          · rw [Walk.at, Nat.zero_mul]
          · exact List.length_pos_iff.mpr htraps.1

theorem arrive_front (v : Walk) (dir : Dirent) :
    arrive fuel allocs fs (Walk.at v 0 dir) (-1) = some (.error .outOfBounds) := by
  have hptr : ¬ 0 ≤ (((Walk.at v 0 dir).readptr : Int) + -1 - (sizeofDirent : Nat)) := by
    show ¬ (0 : Int) ≤ ((0 * sizeofDirent : Nat) : Int) + -1 - (sizeofDirent : Nat)
    decide
  rw [arrive, clusterAt, if_neg hptr]

/-- In front of the first slot, if it is no entry, a dirent that is taken for the
directory leads to cluster 0, or out of the buffer. -/
theorem front_stuck (hfs : Trapped fs.toFatFs) (hgrants : Grants allocs) {v : Walk} {slots : List Slot}
    {n : Str} (hv : Looks slots n v) {s : Slot} (hs : slots[0]? = some s) (hunlinked : Unlinked s)
    {dir : Dirent} (hget : fatGetdirent (bytes slots) (0 * sizeofDirent) dir = some (-1, dir))
    (hfound : found dir (some n) ≠ .ok false) : Stuck (opendirBody fuel allocs fs (Walk.at v 0 dir)) := by
  have hi : 0 < slots.length := (List.getElem?_eq_some_iff.mp hs).1
  cases hf : found dir (some n) with
  | error e =>
      simp only [opendirBody_inside hv hi, hget, hf]
      exact .error e
  | ok b =>
      cases b with
      | false => exact absurd hf hfound
      | true =>
          cases hrest : strtok v.rest with
          | mk token rest =>
              cases token with
              | none =>
                  rw [opendirBody_last hv hi hget hf hrest, arrive_front]
                  exact .error _
              | some subdir =>
                  have hcluster : innerClusterAt (Walk.at v 0 dir).buffer (Walk.at v 0 dir).readptr =
                      some 0 := by
                    show innerClusterAt v.buffer (0 * sizeofDirent) = some 0
                    rw [hv.buffer, innerClusterAt_bytes hs hunlinked]
                  rw [opendirBody_inner hv hi hget hf hrest]
                  exact enter_stuck hfs hgrants hcluster _ _ _

theorem opendirBody_trap (hfs : Trapped fs.toFatFs) (hgrants : Grants allocs) {v : Walk} (hv : InTrap v) :
    Stuck (opendirBody fuel allocs fs v) := by
  obtain ⟨slots, n, i, hat, hlooks, htraps, hi, hstale⟩ := hv
  have hs := List.getElem?_eq_getElem hi
  obtain ⟨hlong, hunlinked⟩ := htraps.2 slots[i] (List.getElem_mem hi)
  rw [hat]
  by_cases hlast : slots.length ≤ i + 1
  · have hmissing : slots[i + 1]? = none := List.getElem?_eq_none hlast
    rw [opendirBody_fault hlooks hi ((fatGetdirent_long _ hs hlong).trans (parseEntry_missing hmissing _ _))]
    exact .error _
  · have hnext : i + 1 < slots.length := by omega
    have ht := List.getElem?_eq_getElem hnext
    have hother : ¬ slots[i + 1].IsFile := fun h =>
      h.not_isLong (htraps.2 _ (List.getElem_mem hnext)).1
    have hget : fatGetdirent (bytes slots) (i * sizeofDirent) v.dir = some (-1, v.dir) :=
      (fatGetdirent_long _ hs hlong).trans (parseEntry_other ht hother _ _)
    by_cases hfound : found v.dir (some n) = .ok false
    · rw [opendirBody_skip hlooks hi hget hfound]
      exact .trap _ ⟨slots, n, i + 1, rfl, hlooks.at _ _, htraps, hnext, Or.inr hfound⟩
    · obtain rfl : i = 0 := hstale.resolve_right hfound
      exact front_stuck hfs hgrants hlooks hs hunlinked hget hfound

theorem run_stuck (hfs : Trapped fs.toFatFs) (hgrants : Grants allocs) {v : Walk}
    (hv : Stuck (opendirBody fuel allocs fs v)) {passes : Nat} {r : Option FatDir} :
    run (opendirBody fuel allocs fs) passes v ≠ some (some (.ok r)) := by
  induction passes generalizing v with
  | zero => exact nofun
  | succ passes ih =>
      cases hbody : opendirBody fuel allocs fs v with
      | done q =>
          rw [run_done hbody]
          rw [hbody] at hv
          cases hv <;> exact nofun
      | next w =>
          rw [run_next hbody]
          rw [hbody] at hv
          cases hv with
          | trap _ hw => exact ih (opendirBody_trap hfs hgrants hw)

end Walk

end MetalNes.ClusterZero
