import MetalNes.LastWrite
import MetalNes.NesBus

namespace MetalNes.RamMirror

open LastWrite NesBus

/-- An address of the RAM that aliases another one. -/
def Mirrors (a b : U16) : Prop := b ≤ 0x1FFF ∧ b.toNat % 0x800 = a.toNat % 0x800

theorem cell_eq_iff (a b : U16) : b &&& 0x07FF = a &&& 0x07FF ↔ b.toNat % 0x800 = a.toNat % 0x800 := by
  have hm : (0x07FF : U16).toNat = 2 ^ 11 - 1 := rfl
  rw [← BitVec.toNat_inj, BitVec.toNat_and, BitVec.toNat_and, hm, Nat.and_two_pow_sub_one_eq_mod,
    Nat.and_two_pow_sub_one_eq_mod]

def ramWrites : List BusCall → List (U16 × U8)
  | [] => []
  | .write b data :: calls =>
    if b ≤ 0x1FFF then (b &&& 0x07FF, data) :: ramWrites calls else ramWrites calls
  | .read _ _ :: calls => ramWrites calls

theorem apply_nesCpuRam (s : Nes) (call : BusCall) :
    (call.apply s).nesCpuRam = (ramWrites [call]).foldl store s.nesCpuRam := by
  cases call with
  | read a ro => rfl
  | write b data =>
      rw [BusCall.apply, nesCpuWrite_eq, ramWrites, ramWrite]
      split <;> rfl

theorem ramWrites_append (pre post : List BusCall) :
    ramWrites (pre ++ post) = ramWrites pre ++ ramWrites post := by
  induction pre with
  | nil => rfl
  | cons call pre ih =>
      cases call with
      | read a ro => exact ih
      | write b data =>
          rw [List.cons_append, ramWrites, ramWrites, ih]
          split <;> rfl

theorem runCalls_nesCpuRam (s : Nes) (calls : List BusCall) :
    (runCalls s calls).nesCpuRam = (ramWrites calls).foldl store s.nesCpuRam := by
  induction calls generalizing s with
  | nil => rfl
  | cons call calls ih =>
      rw [runCalls, List.foldl_cons, ← runCalls, ih, apply_nesCpuRam, ← List.foldl_append,
        ← ramWrites_append]
      rfl

theorem mem_ramWrites {calls : List BusCall} {w : U16 × U8} (h : w ∈ ramWrites calls) :
    ∃ b, .write b w.2 ∈ calls ∧ b ≤ 0x1FFF ∧ w.1 = b &&& 0x07FF := by
  induction calls with
  | nil => cases h
  | cons call calls ih =>
      have htail : w ∈ ramWrites calls → ∃ b, .write b w.2 ∈ call :: calls ∧ b ≤ 0x1FFF ∧
          w.1 = b &&& 0x07FF := by
        intro hw
        obtain ⟨b, hb, hle, hcell⟩ := ih hw
        exact ⟨b, List.mem_cons_of_mem _ hb, hle, hcell⟩
      cases call with
      | read a ro => exact htail h
      | write b data =>
          rw [ramWrites] at h
          split at h
          · next hle =>
              rcases List.mem_cons.mp h with rfl | h
              · exact ⟨b, List.mem_cons_self, hle, rfl⟩
              · exact htail h
          · exact htail h

/-- What reads of an address find after some calls. -/
structure RamLaw (s : Nes) (calls : List BusCall) (a : U16) : Prop where
  written : ∀ pre b data post, calls = pre ++ .write b data :: post → Mirrors a b →
    (∀ c d, .write c d ∈ post → ¬ Mirrors a c) →
      ∀ readOnly, nesCpuRead (runCalls s calls) a readOnly = data
  initial : (∀ b d, .write b d ∈ calls → ¬ Mirrors a b) →
    ∀ readOnly, nesCpuRead (runCalls s calls) a readOnly = s.nesCpuRam (a &&& 0x07FF)
  others : ∀ call : BusCall, (∀ b d, call = .write b d → 0x2000 ≤ b) → ∀ readOnly,
    nesCpuRead (call.apply (runCalls s calls)) a readOnly = nesCpuRead (runCalls s calls) a readOnly

theorem nesCpuRead_ram (s : Nes) {a : U16} (ha : a ≤ 0x1FFF) (readOnly : Bool) :
    nesCpuRead s a readOnly = s.nesCpuRam (a &&& 0x07FF) := if_pos ha

theorem nesCpuRead_runCalls (s : Nes) (calls : List BusCall) {a : U16} (ha : a ≤ 0x1FFF)
    (readOnly : Bool) : nesCpuRead (runCalls s calls) a readOnly =
      (lastWrite (a &&& 0x07FF) (ramWrites calls)).getD (s.nesCpuRam (a &&& 0x07FF)) := by
  rw [nesCpuRead_ram _ ha, runCalls_nesCpuRam, foldl_store]

theorem not_mirrors_cell {calls : List BusCall} {a : U16}
    (h : ∀ c d, .write c d ∈ calls → ¬ Mirrors a c) : ∀ w ∈ ramWrites calls, w.1 ≠ a &&& 0x07FF := by
  intro w hw he
  obtain ⟨b, hb, hle, hcell⟩ := mem_ramWrites hw
  exact h b w.2 hb ⟨hle, (cell_eq_iff a b).mp (hcell.symm.trans he)⟩

/-- For every sequence of bus calls and every RAM address. -/
theorem run_ramLaw (s : Nes) (calls : List BusCall) (a : U16) (ha : a ≤ 0x1FFF) : RamLaw s calls a := by
  refine ⟨?_, ?_, ?_⟩
  · rintro pre b data post rfl ⟨hle, hmirror⟩ hlast readOnly
    have hhead : ramWrites (.write b data :: post) = (b &&& 0x07FF, data) :: ramWrites post := if_pos hle
    rw [nesCpuRead_runCalls s _ ha, ramWrites_append, hhead, (cell_eq_iff a b).mpr hmirror,
      lastWrite_middle (not_mirrors_cell hlast)]
    rfl
  · intro hnone readOnly
    rw [nesCpuRead_runCalls s _ ha, lastWrite_eq_none (not_mirrors_cell hnone)]
    rfl
  · intro call hcall readOnly
    have hno : ramWrites [call] = [] := by
      cases call with
      | read b ro => rfl
      | write b d =>
          have hb := hcall b d rfl
          exact if_neg (by bv_omega)
    rw [nesCpuRead_ram _ ha, nesCpuRead_ram _ ha, apply_nesCpuRam, hno]
    rfl

theorem aliased_write_read :
    RamLaw (zeroMachine ⟨fun _ => 0, 16384, fun _ => 0, 8192, 0, 1, 1, .zero⟩)
      [.write 0x0801 0x42, .write 0x2801 0x43, .read 0x1001 false] 0x1801 :=
  run_ramLaw _ _ 0x1801 (by decide)

end MetalNes.RamMirror
