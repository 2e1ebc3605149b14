import MetalNes.NesStack
import Mathlib.Logic.Relation

namespace MetalNes.StackDiscipline

open NesBus NesOperations NesStack NesClock
open RingStack (depth)

/-- What PHA, PHP and JSR put away: A, P, or the address behind the operand. -/
inductive Saved
  | A (data : U8)
  | P (data : U8)
  | PC (next : U16)
  deriving DecidableEq, Repr

def Saved.bytes : Saved → List U8
  | .A data | .P data => [data]
  | .PC next => [loByte (next - 1), hiByte (next - 1)]

structure Frame where
  saved : Saved
  SP : U8

structure Config where
  state : Nes
  frames : List Frame

def contents (frames : List Frame) : List U8 := frames.flatMap (·.saved.bytes)

def Config.pushing (c : Config) (saved : Saved) (t : Nes) : Config :=
  ⟨t, ⟨saved, c.state.SP⟩ :: c.frames⟩

/-- The calls of a nesting. A pull needs a matching push on top of the open ones,
and between the calls everything but the stack pointer and the RAM may change. -/
inductive Step : Config → Config → Prop
  | pha (c : Config) (h : (contents c.frames).length + 1 ≤ 256) :
      Step c (c.pushing (.A c.state.A) (nesPHA c.state).1)
  | php (c : Config) (h : (contents c.frames).length + 1 ≤ 256) :
      Step c (c.pushing (.P c.state.P) (nesPHP c.state).1)
  | jsr (c : Config) (h : (contents c.frames).length + 2 ≤ 256) :
      Step c (c.pushing (.PC c.state.PC) (nesJSR c.state).1)
  | pla (s : Nes) (data SP : U8) (frames : List Frame) :
      Step ⟨s, ⟨.A data, SP⟩ :: frames⟩ ⟨(nesPLA s).1, frames⟩
  | plp (s : Nes) (data SP : U8) (frames : List Frame) :
      Step ⟨s, ⟨.P data, SP⟩ :: frames⟩ ⟨(nesPLP s).1, frames⟩
  | rts (s : Nes) (next : U16) (SP : U8) (frames : List Frame) :
      Step ⟨s, ⟨.PC next, SP⟩ :: frames⟩ ⟨(nesRTS s).1, frames⟩
  | other (s t : Nes) (frames : List Frame) (hram : t.nesCpuRam = s.nesCpuRam)
      (hsp : t.SP = s.SP) : Step ⟨s, frames⟩ ⟨t, frames⟩

abbrev Run : Config → Config → Prop := Relation.ReflTransGen Step

def Linked : U8 → List Frame → Prop
  | _, [] => True
  | SP, f :: frames => f.SP = SP + depth f.saved.bytes ∧ Linked f.SP frames

structure Sound (c : Config) : Prop where
  stacked : Stacked c.state (contents c.frames)
  linked : Linked c.state.SP c.frames

theorem contents_cons (f : Frame) (frames : List Frame) :
    contents (f :: frames) = f.saved.bytes ++ contents frames := List.flatMap_cons

theorem Sound.push {c : Config} (h : Sound c) {saved : Saved} {t : Nes}
    (hstacked : Stacked t (saved.bytes ++ contents c.frames))
    (hsp : c.state.SP = t.SP + depth saved.bytes) : Sound (c.pushing saved t) :=
  ⟨hstacked, hsp, h.linked⟩

theorem Sound.pull {s t : Nes} {f : Frame} {frames : List Frame} (h : Sound ⟨s, f :: frames⟩)
    (hram : t.nesCpuRam = s.nesCpuRam) (hsp : t.SP = s.SP + depth f.saved.bytes) :
    Sound ⟨t, frames⟩ := by
  obtain ⟨hstacked, hSP, hlinked⟩ := h
  rw [contents_cons] at hstacked
  rw [← hsp] at hSP
  refine ⟨?_, by rw [← hSP]; exact hlinked⟩
  rw [Stacked, hram, hsp]
  exact RingStack.Holds.drop hstacked

theorem byte_room (SP data : U8) : SP = SP - 1 + depth [data] := (sub_add_cancel SP 1).symm

theorem word_room (SP : U8) (next : U16) : SP = SP - 1 - 1 + depth (Saved.PC next).bytes := by
  rw [sub_sub]
  exact (sub_add_cancel SP (1 + 1)).symm

theorem word_depth (SP : U8) (next : U16) : SP + 1 + 1 = SP + depth (Saved.PC next).bytes :=
  add_assoc SP 1 1

theorem Step.sound {c d : Config} (hs : Step c d) (h : Sound c) : Sound d := by
  cases hs with
  | pha _ hroom =>
      have hstacked := h.stacked.push (by omega) c.state.A
      exact h.push hstacked (byte_room c.state.SP c.state.A)
  | php _ hroom =>
      have hstacked := h.stacked.push (by omega) c.state.P
      exact h.push (hstacked.congr rfl rfl) (byte_room c.state.SP c.state.P)
  | jsr _ hroom =>
      have hstart : Stacked { c.state with PC := c.state.PC - 1 } (contents c.frames) :=
        h.stacked.congr rfl rfl
      have hstacked := hstart.pushWord hroom (c.state.PC - 1)
      rw [nesJSR_eq]
      exact h.push (hstacked.congr rfl rfl) (word_room c.state.SP c.state.PC)
  | pla s data SP frames => exact h.pull (nesPLA_nesCpuRam s) (nesPLA_SP s)
  | plp s data SP frames => exact h.pull (nesPLP_nesCpuRam s) (nesPLP_SP s)
  | rts s next SP frames =>
      exact h.pull (nesRTS_nesCpuRam s) ((nesRTS_SP s).trans (word_depth s.SP next))
  | other s t frames hram hsp =>
      exact ⟨h.stacked.congr hram hsp, by rw [hsp]; exact h.linked⟩

theorem Run.sound {c d : Config} (hr : Run c d) (h : Sound c) : Sound d := by
  induction hr with
  | refl => exact h
  | tail _ hs ih => exact hs.sound ih

/-- The pull that matches an open push brings back what was saved, and the stack
pointer from before the push. -/
def Restores (f : Frame) (s : Nes) : Prop :=
  match f.saved with
  | .A data => (nesPLA s).1.A = data ∧ (nesPLA s).1.SP = f.SP
  | .P data => (nesPLP s).1.P = data ||| NesPFlags.U.mask ∧ (nesPLP s).1.SP = f.SP
  | .PC next => (nesRTS s).1.PC = next ∧ (nesRTS s).1.SP = f.SP

theorem Sound.restores {s : Nes} {f : Frame} {frames : List Frame} (h : Sound ⟨s, f :: frames⟩) :
    Restores f s := by
  obtain ⟨hstacked, hSP, -⟩ := h
  rw [contents_cons] at hstacked
  obtain ⟨saved, SP⟩ := f
  cases saved with
  | A data => exact ⟨hstacked.pull.1, (nesPLA_SP s).trans hSP.symm⟩
  | P data =>
      refine ⟨?_, (nesPLP_SP s).trans hSP.symm⟩
      have hP : (nesPLP s).1.P = setflag (nesPull s).2 .U true := rfl
      rw [hP, hstacked.pull.1]
      rfl
  | PC next =>
      have hword : (nesRTS s).1.PC = (pullWord s).2 + 1 := rfl
      refine ⟨?_, (nesRTS_SP s).trans ((word_depth s.SP next).trans hSP.symm)⟩
      rw [hword, hstacked.pullWord.1, sub_add_cancel]

/-- In every nesting that keeps at most 256 bytes on the stack, whatever the
registers, the stack pointer and the RAM were at its start. -/
theorem run_restores (s : Nes) (c : Config) (hr : Run ⟨s, []⟩ c) (f : Frame) (frames : List Frame)
    (hf : c.frames = f :: frames) : Restores f c.state := by
  have hstart : Sound ⟨s, []⟩ := ⟨trivial, trivial⟩
  have hsound := Run.sound hr hstart
  obtain ⟨t, _⟩ := c
  cases hf
  exact hsound.restores

/-- A call whose return address lies on both sides of the wrap. -/
def wrapped : Config := ⟨{ ramMachine [] with SP := 0, PC := 0x1234 }, []⟩

theorem wrapped_restores :
    Restores ⟨.PC 0x1234, 0⟩ (nesJSR wrapped.state).1 :=
  run_restores wrapped.state (wrapped.pushing (.PC 0x1234) (nesJSR wrapped.state).1)
    (.single (.jsr wrapped (by decide))) ⟨.PC 0x1234, 0⟩ [] rfl

end MetalNes.StackDiscipline
