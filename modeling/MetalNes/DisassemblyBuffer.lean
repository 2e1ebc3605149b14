import MetalNes.NesDissasembly
import MetalNes.Spans

namespace MetalNes.DisassemblyBuffer

open NesBus NesTable NesDissasembly Spans

/-- What a pass writes through disstr: memset, strcpy and sprintf, each with the bytes of
its text and the final zero. -/
def passWrites (s : Nes) (d : Display) : List Span :=
  let ins := nesInstruction (nesCpuRead s d.addr true)
  let text := (modeBranch s (d.addr + 1) ins).2
  [⟨d.disstr, 256⟩, ⟨d.disstr, ins.name.length + 1⟩, ⟨d.disstr + (ins.name.length + 1), text.length + 1⟩]

def displayWrites (s : Nes) : Nat → Display → List Span
  | 0, _ => []
  | n + 1, d => passWrites s d ++ displayWrites s n (displayPass s d).1

/-- All bytes that are written lie in the block, and the block is what is freed. -/
structure StaysInBuffer (s : Nes) : Prop where
  inside : ∀ w ∈ displayWrites s 10 (displayStart s), w.Inside 256
  freed : (nesDissasembleDisplay s).2 = 0

theorem displayWrites_eq (s : Nes) (n : Nat) (d : Display) :
    displayWrites s n d = (List.range n).flatMap fun i => passWrites s ((fun d => (displayPass s d).1)^[i] d) := by
  induction n generalizing d with
  | zero => rfl
  | succ n ih =>
      rw [displayWrites, ih, List.range_succ_eq_map, List.flatMap_cons, List.flatMap_map]
      rfl

theorem length_name (opcode : U8) : (nesInstruction opcode).name.length = 3 := by
  revert opcode
  decide +kernel

/-- Each pass moves the pointer behind the three letters of a name and their zero. -/
theorem displayed_disstr (s : Nes) (n : Nat) : (displayed s n).disstr = 4 * n := by
  induction n with
  | zero => rfl
  | succ n ih =>
      have hname := length_name (nesCpuRead s (displayed s n).addr true)
      have hmoved : (displayPass s (displayed s n)).1.disstr = (displayed s n).disstr +
          ((nesInstruction (nesCpuRead s (displayed s n).addr true)).name.length + 1) := rfl
      rw [displayed, Function.iterate_succ_apply', ← displayed, hmoved, hname, ih]
      rfl

theorem length_hexText {value : Nat} (h : value < 16 ^ 4) : (hexText value).length ≤ 4 := by
  rw [hexText, String.length_ofList, List.length_map]
  exact (Nat.length_toDigits_le_iff (by decide) (by decide)).mpr h

theorem length_operandText {ins : Instruction} {value : Nat} {suffix : String} (hname : ins.name.length = 3)
    (hvalue : value < 16 ^ 4) (hsuffix : suffix.length ≤ 7) : (operandText ins value suffix).length ≤ 17 := by
  have hhex := length_hexText hvalue
  have hdollar : "$".length = 1 := rfl
  have hspace : " ".length = 1 := rfl
  simp only [operandText, String.length_append]
  omega

theorem length_modeBranch (s : Nes) (addr : U16) {ins : Instruction} (hname : ins.name.length = 3) :
    (modeBranch s addr ins).2.length ≤ 17 := by
  have hbyte : ∀ b : U8, b.toNat < 16 ^ 4 := fun b => b.isLt.trans (by decide)
  rw [modeBranch]
  cases ins.addrMode with
  | IMP =>
      have hdollar : "$".length = 1 := rfl
      have hspace : " ".length = 1 := rfl
      have himp : "{IMP}".length = 5 := rfl
      simp only [String.length_append]
      omega
  | IMM | ZP0 | ZPX | ZPY | REL | IZX | IZY => exact length_operandText hname (hbyte _) (by decide)
  | ABS | ABX | ABY | IND => exact length_operandText hname (BitVec.isLt _) (by decide)

/-- The first pass fills the block. Every later one clears bytes behind it. -/
theorem pass_inside_iff (s : Nes) (n : Nat) :
    (∀ w ∈ passWrites s (displayed s n), w.Inside 256) ↔ n = 0 := by
  have hname := length_name (nesCpuRead s (displayed s n).addr true)
  have hdisstr := displayed_disstr s n
  constructor
  · intro h
    have hcleared := Span.inside_iff.mp (h ⟨(displayed s n).disstr, 256⟩ List.mem_cons_self)
    simp only [Span.stop] at hcleared
    omega
  · rintro rfl
    have htext := length_modeBranch s ((displayed s 0).addr + 1) hname
    simp only [passWrites, List.forall_mem_cons]
    refine ⟨?_, ?_, ?_, fun w hw => absurd hw List.not_mem_nil⟩ <;>
      refine Span.inside_of_stop_le ?_ <;> simp only [Span.stop] <;> omega

theorem freed_offset (s : Nes) : (nesDissasembleDisplay s).2 = 40 :=
  (nesDissasembleDisplay_freed s).trans (displayed_disstr s 10)

/-- For every PC and all memory contents, the second pass leaves the block, and a pointer
into its middle is freed. -/
theorem not_staysInBuffer (s : Nes) : ¬ StaysInBuffer s := by
  intro h
  have hsecond : ∀ w ∈ passWrites s (displayed s 1), w.Inside 256 := by
    intro w hw
    refine h.inside w ?_
    rw [displayWrites_eq]
    exact List.mem_flatMap.mpr ⟨1, by decide, hw⟩
  exact absurd ((pass_inside_iff s 1).mp hsecond) Nat.one_ne_zero

/-- Ten times BRK, with nothing but zeroes in memory. -/
def zeroed : Nes := zeroMachine ⟨fun _ => 0, 16384, fun _ => 0, 8192, 0, 1, 1, .zero⟩

/-- The second pass clears the bytes 4 to 259 of 256, and the pointer at offset 40 is freed. -/
theorem zeroed_leaves_buffer : ⟨4, 256⟩ ∈ displayWrites zeroed 10 (displayStart zeroed) ∧
    (nesDissasembleDisplay zeroed).2 = 40 ∧ ¬ StaysInBuffer zeroed := by
  refine ⟨by decide +kernel, freed_offset zeroed, fun h => ?_⟩
  exact absurd ((freed_offset zeroed).symm.trans h.freed) (by decide)

end MetalNes.DisassemblyBuffer
