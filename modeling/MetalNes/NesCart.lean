import MetalNes.Blocks
import MetalNes.Liballoc
import MetalNes.NesBus

namespace MetalNes.NesCart

open Blocks NesBus
open Liballoc (LIBALLOC_MAGIC)

def ROM_OK : Int := 0
def BAD_ROM : Int := -2
def ROM_NOT_FOUND : Int := -1
def ROM_MISSING_MAPPER : Int := - 2

/-- The allocations of nes_load_cart. -/
inductive Kind
  | cartbuffer
  | cart
  | prgMem
  | chrMem
  | mapper
  deriving DecidableEq, Repr

/-- A NES_CARTIDGE in memory, with its own block and the bytes its pointers lead to. -/
structure LoadedCart where
  block : Nat
  prgMem : Option Nat
  prg : List U8
  prgSize : U32
  chrMem : Option Nat
  chr : List U8
  chrSize : U32
  mapperId : U8
  prgBanks : U8
  chrBanks : U8
  mapper : Option NesMapper
  deriving DecidableEq, Repr

/-- What a call does besides allocating. -/
inductive Action
  | fopen
  | fclose
  | readNull
  deriving DecidableEq, Repr

structure Loader where
  heap : Heap Kind
  nesLoadedCart : Option LoadedCart
  actions : List Action
  deriving DecidableEq, Repr

structure CartFile where
  contents : List U8
  statres : Int

/-- What a call finds: the file, the bytes from address 0 on, the allocations that are
refused, and the split_left of the tag that malloc puts in front of the read buffer. -/
structure LoadCall where
  fopen : Option CartFile
  addressZero : Nat → U8
  refused : Kind → Bool
  splitLeft : U32

def Loader.act (s : Loader) (a : Action) : Loader := { s with actions := a :: s.actions }

def Loader.free (s : Loader) (b : Option Nat) : Loader :=
  { s with heap := s.heap.free (b.map base) }

def Loader.malloc (s : Loader) (refused : Kind → Bool) (kind : Kind) : Option Nat × Loader :=
  let (b, heap) := s.heap.malloc (refused kind) kind
  (b, { s with heap })

def byteAt (buffer : List U8) (i : Nat) : Except Fault U8 :=
  match buffer[i]? with
  | none => .error .outOfBounds
  | some c => .ok c

/-- Whether strncmp finds the bytes at a position of the buffer equal to a string. -/
def strncmp (buffer : List U8) (i : Nat) (s : Nat → U8) : Nat → Except Fault Bool
  | 0 => .ok true
  | n + 1 => do
    let c ← byteAt buffer i
    if c ≠ s 0 then .ok false
    else if c = 0 then .ok true
    else strncmp buffer (i + 1) (fun k => s (k + 1)) n

/-- The bytes a memcpy from the buffer leaves at the destination. -/
def memcpy (dst : Option Nat) (buffer : List U8) (i len : Nat) : Except Fault (List U8) :=
  if len = 0 then .ok []
  else if dst = none then .error .nullPointer
  else if i + len ≤ buffer.length then .ok ((buffer.drop i).take len)
  else .error .outOfBounds

def identstr : Nat → U8 := fun i => [0x4E, 0x45, 0x53].getD i 0

def nesGetMapper (refused : Kind → Bool) (mapperid : U8) (s : Loader) :
    Except Fault (Option NesMapper × Loader) :=
  let (mapper, s) := s.malloc refused .mapper
  if mapperid = 0 then
    match mapper with
    | none => .error .nullPointer
    | some _ => .ok (some .zero, s)
  else .ok (none, s.free mapper)

def trainerSize (mapper1 : U8) : Nat := if mapper1 &&& 0x4 = 0x4 then 512 else 0

def mapperidOf (mapper1 mapper2 : U8) : U8 := (mapper2 &&& 0xF0) ||| (mapper1 >>> 4)

/-- The new cartridge, and the place of its CHR data in the buffer. -/
def buildCart (call : LoadCall) (contents : List U8) (s : Loader) :
    Except Fault (LoadedCart × Nat × Loader) := do
  let mapper2 ← byteAt contents 7
  let mapper1 ← byteAt contents 6
  let mapperid := mapperidOf mapper1 mapper2
  let (nesCart, s) := s.malloc call.refused .cart
  match nesCart with
  | none => .error .nullPointer
  | some block =>
    let data := 16 + trainerSize mapper1
    let prgRomChunks ← byteAt contents 4
    let (prgMem, s) := s.malloc call.refused .prgMem
    let prg ← memcpy prgMem contents data (prgRomChunks.toNat * 16384)
    let chrData := data + prgRomChunks.toNat * 16384
    let chrRomChunks ← byteAt contents 5
    let (chrMem, s) := s.malloc call.refused .chrMem
    let chr ← memcpy chrMem contents chrData (chrRomChunks.toNat * 8192)
    let (mapper, s) ← nesGetMapper call.refused mapperid s
    .ok ({
      block, prgMem, prg, chrMem, chr, mapper
      prgSize := BitVec.ofNat 32 (prgRomChunks.toNat * 16384)
      chrSize := BitVec.ofNat 32 (chrRomChunks.toNat * 8192)
      mapperId := mapperid
      prgBanks := prgRomChunks
      chrBanks := chrRomChunks }, chrData, s)

def Loader.freeCart (s : Loader) (cart : LoadedCart) : Loader :=
  ((s.free cart.prgMem).free cart.chrMem).free (some cart.block)

/-- The word where free looks for the magic number, 32 bytes in front of its pointer. Right
behind the header that is a field of the tag of the buffer, later it is a word of the file. -/
def tagMagic (call : LoadCall) (contents : List U8) (i : Nat) : Except Fault U32 :=
  if i < 32 then .ok call.splitLeft
  else if i ≤ contents.length + 28 then .ok (ByteWords.load (fun k => contents.getD k 0) (i - 32))
  else .error .outOfBounds

def freeCartbuffer (call : LoadCall) (contents : List U8) (cartbuffer : Ptr) (s : Loader) : Except Fault Loader := do
  let magic ← tagMagic call contents cartbuffer.offset
  let heap ← s.heap.freeInside cartbuffer (magic = LIBALLOC_MAGIC)
  .ok { s with heap }

def closeCart (cart : LoadedCart) (s : Loader) : Int × Loader :=
  let s := s.act .fclose
  if cart.mapper = none then (ROM_MISSING_MAPPER, s.freeCart cart) else (ROM_OK, s)

/-- The end of nes_load_cart. The buffer pointer has been advanced to the CHR data
when it is freed. -/
def installCart (call : LoadCall) (contents : List U8) (cartbuffer : Ptr) (cart : LoadedCart) (s : Loader) :
    Except Fault (Int × Loader) := do
  let s := { s with nesLoadedCart := some cart }
  let s ← freeCartbuffer call contents cartbuffer s
  .ok (closeCart cart s)

def loadInes (call : LoadCall) (cartbuffer : Nat) (contents : List U8) (s : Loader) :
    Except Fault (Int × Loader) := do
  let (cart, chrData, s) ← buildCart call contents s
  installCart call contents ⟨cartbuffer, chrData⟩ cart s

def loadBuffer (call : LoadCall) (cartbuffer : Nat) (contents : List U8) (s : Loader) :
    Except Fault (Int × Loader) := do
  if ← strncmp contents 0 identstr 3 then
    let s := s.act .readNull
    if ← strncmp contents 11 call.addressZero 4 then loadInes call cartbuffer contents s
    -- the test for NES 2.0 has an empty body, and nes_cart is NULL when its mapper is read
    else .error .nullPointer
  else .ok (BAD_ROM, s)

/-- The old cartridge is freed, and nes_loaded_cart keeps pointing to it. -/
def freeLoaded (s : Loader) : Loader :=
  match s.nesLoadedCart with
  | none => s
  | some cart => s.freeCart cart

def nesLoadCart (call : LoadCall) (s : Loader) : Except Fault (Int × Loader) :=
  let s := freeLoaded s
  match call.fopen with
  | none => .ok (ROM_NOT_FOUND, s)
  | some cartfile =>
    let s := s.act .fopen
    if cartfile.statres ≠ 0 then .ok (BAD_ROM, s.act .fclose)
    else
      let (cartbuffer, s) := s.malloc call.refused .cartbuffer
      match cartbuffer with
      | none => .error .nullPointer
      | some cartbuffer => loadBuffer call cartbuffer cartfile.contents s

/-- The cartridge as the bus sees it. -/
def LoadedCart.inserted (cart : LoadedCart) (mapper : NesMapper) : NesCartidge where
  prgMem i := cart.prg.getD i 0
  prgSize := cart.prgSize
  chrMem i := cart.chr.getD i 0
  chrSize := cart.chrSize
  mapperId := cart.mapperId
  prgBanks := cart.prgBanks
  chrBanks := cart.chrBanks
  mapper := mapper

/-- The blocks of a cartridge, in the order in which they are freed. -/
def LoadedCart.blocks (cart : LoadedCart) : List Nat :=
  cart.prgMem.toList ++ cart.chrMem.toList ++ [cart.block]

/-- What is left where free finds no magic number in front of the buffer pointer. -/
def installed (cartbuffer : Ptr) (cart : LoadedCart) (s : Loader) : Int × Loader :=
  closeCart cart { s with nesLoadedCart := some cart, heap := s.heap.free (some cartbuffer) }

theorem installed_fst (cartbuffer : Ptr) (cart : LoadedCart) (s : Loader) :
    (installed cartbuffer cart s).1 = if cart.mapper = none then ROM_MISSING_MAPPER else ROM_OK := by
  unfold installed closeCart
  split <;> rfl

theorem installed_nesLoadedCart (cartbuffer : Ptr) (cart : LoadedCart) (s : Loader) :
    (installed cartbuffer cart s).2.nesLoadedCart = some cart := by
  unfold installed closeCart
  split <;> rfl

section Install

variable {call : LoadCall} {contents : List U8} {cartbuffer : Ptr} {cart : LoadedCart} {s : Loader}

theorem installCart_of_tag {magic : U32} (h : tagMagic call contents cartbuffer.offset = .ok magic) :
    installCart call contents cartbuffer cart s =
      if magic = LIBALLOC_MAGIC then .error .invalidFree else .ok (installed cartbuffer cart s) := by
  simp only [installCart, freeCartbuffer, h, Heap.freeInside, bind, Except.bind]
  by_cases hmagic : magic = LIBALLOC_MAGIC
  · simp [hmagic]
  · simp [hmagic, installed]

theorem installCart_ok {r : Int × Loader} (h : installCart call contents cartbuffer cart s = .ok r) :
    (∃ magic, tagMagic call contents cartbuffer.offset = .ok magic ∧ magic ≠ LIBALLOC_MAGIC) ∧
      installed cartbuffer cart s = r := by
  cases htag : tagMagic call contents cartbuffer.offset with
  | error e =>
      rw [installCart, freeCartbuffer, htag] at h
      cases h
  | ok magic =>
      rw [installCart_of_tag htag] at h
      split at h
      · cases h
      · next hne => exact ⟨⟨magic, rfl, hne⟩, Except.ok.inj h⟩

end Install

theorem freeCart_heap (s : Loader) (cart : LoadedCart) :
    (s.freeCart cart).heap = s.heap.freeAll cart.blocks := by
  rw [LoadedCart.blocks, Loader.freeCart]
  cases cart.prgMem <;> cases cart.chrMem <;> rfl

/-- A cartridge made of new blocks. -/
structure Built (s s' : Loader) (cart : LoadedCart) : Prop where
  grows : s.heap.Grows s'.heap
  live : s.heap.Sound → ∀ b ∈ cart.blocks, s'.heap.Live b
  nodup : cart.blocks.Nodup
  new : ∀ b ∈ cart.blocks, s.heap.blocks.length ≤ b
  nesLoadedCart : s'.nesLoadedCart = s.nesLoadedCart

theorem Built.after {s t u : Loader} {cart : LoadedCart} (hb : Built t u cart)
    (hgrow : s.heap.Grows t.heap) (hsame : t.nesLoadedCart = s.nesLoadedCart) : Built s u cart where
  grows := hgrow.trans hb.grows
  live hs := hb.live (hgrow.sound hs)
  nodup := hb.nodup
  new b hmem := hgrow.length.trans (hb.new b hmem)
  nesLoadedCart := hb.nesLoadedCart.trans hsame

/-- A cartridge with the mapper and the sizes that a file announces. -/
structure Announced (contents : List U8) (cart : LoadedCart) : Prop where
  mapperId : cart.mapperId = mapperidOf (contents.getD 6 0) (contents.getD 7 0)
  mapper : cart.mapper = none ↔ cart.mapperId ≠ 0
  prgBanks : cart.prgBanks = contents.getD 4 0
  prg : cart.prg.length = cart.prgBanks.toNat * 16384
  prgSize : cart.prgSize.toNat = cart.prg.length
  chrBanks : cart.chrBanks = contents.getD 5 0
  chr : cart.chr.length = cart.chrBanks.toNat * 8192
  chrSize : cart.chrSize.toNat = cart.chr.length

/-- Where the sections of a file lie, as its header announces them. -/
def prgStart (contents : List U8) : Nat := 16 + trainerSize (contents.getD 6 0)

def prgLength (contents : List U8) : Nat := (contents.getD 4 0).toNat * 16384

def chrStart (contents : List U8) : Nat := prgStart contents + prgLength contents

def chrLength (contents : List U8) : Nat := (contents.getD 5 0).toNat * 8192

def announcedSize (contents : List U8) : Nat := chrStart contents + chrLength contents

theorem header_le_chrStart (contents : List U8) : 16 ≤ chrStart contents :=
  Nat.le_add_right_of_le (Nat.le_add_right _ _)

/-- Where free(cartbuffer) looks for the magic number, it stands there. -/
def Marked (call : LoadCall) (contents : List U8) : Prop :=
  tagMagic call contents (chrStart contents) = .ok LIBALLOC_MAGIC

section Build

variable {call : LoadCall} {contents : List U8} {s s' : Loader}

theorem malloc_ok {refused : Kind → Bool} {kind : Kind} {b : Option Nat}
    (h : s.malloc refused kind = (b, s')) :
    s.heap.Grows s'.heap ∧ (s'.nesLoadedCart = s.nesLoadedCart ∧ s'.actions = s.actions) ∧
      ∀ c ∈ b, c = s.heap.blocks.length ∧ c < s'.heap.blocks.length ∧
        (s.heap.Sound → s'.heap.Live c) ∧ refused kind = false := by
  cases h
  refine ⟨s.heap.malloc_grows _ _, ⟨rfl, rfl⟩, fun c hc => ?_⟩
  obtain ⟨hgranted, hnew, hlt⟩ := Heap.malloc_some hc
  exact ⟨hnew, hlt, fun hs => hs.malloc_live hc, hgranted⟩

theorem byteAt_ok {buffer : List U8} {i : Nat} {c : U8} (h : byteAt buffer i = .ok c) :
    buffer.getD i 0 = c := by
  unfold byteAt at h
  split at h
  · cases h
  · next hc =>
      cases h
      rw [List.getD_eq_getElem?_getD, hc, Option.getD_some]

theorem memcpy_length {dst : Option Nat} {buffer bytes : List U8} {i len : Nat}
    (h : memcpy dst buffer i len = .ok bytes) : bytes.length = len := by
  unfold memcpy at h
  split at h
  · next hlen =>
      cases h
      exact hlen.symm
  · split at h
    · cases h
    · split at h
      · next hfits =>
          cases h
          rw [List.length_take, List.length_drop]
          omega
      · cases h

theorem toNat_size (banks : U8) {n : Nat} (hn : n ≤ 16384) :
    (BitVec.ofNat 32 (banks.toNat * n)).toNat = banks.toNat * n := by
  have hb := banks.isLt
  have hle : banks.toNat * n ≤ 255 * 16384 := Nat.mul_le_mul (by omega) hn
  rw [BitVec.toNat_ofNat, Nat.mod_eq_of_lt (by omega)]

theorem nesGetMapper_ok {mapperid : U8} {mapper : Option NesMapper}
    (h : nesGetMapper call.refused mapperid s = .ok (mapper, s')) :
    (mapper = none ↔ mapperid ≠ 0) ∧ s.heap.Grows s'.heap ∧
      s'.nesLoadedCart = s.nesLoadedCart ∧ s'.actions = s.actions := by
  by_cases hid : mapperid = 0
  · replace h := (if_pos hid).symm.trans h
    split at h
    · cases h
    · cases h
      exact ⟨iff_of_false (Option.some_ne_none _) (not_not_intro hid), s.heap.malloc_grows _ _, rfl, rfl⟩
  · replace h := (if_neg hid).symm.trans h
    cases h
    exact ⟨iff_of_true rfl hid, s.heap.malloc_free_grows _ _, rfl, rfl⟩

theorem nodup_blocks {p q : Option Nat} {b n : Nat} (hp : ∀ c ∈ p, b < c ∧ c < n)
    (hq : ∀ c ∈ q, n ≤ c) (hb : b < n) : (p.toList ++ q.toList ++ [b]).Nodup := by
  cases p with
  | none =>
      cases q with
      | none => simp
      | some d =>
          have hd := hq d rfl
          simp
          omega
  | some c =>
      have hc := hp c rfl
      cases q with
      | none =>
          simp
          omega
      | some d =>
          have hd := hq d rfl
          simp
          omega

theorem buildCart_ok {cart : LoadedCart} {i : Nat} (h : buildCart call contents s = .ok (cart, i, s')) :
    i = chrStart contents ∧ s'.actions = s.actions ∧ Built s s' cart ∧ Announced contents cart := by
  obtain ⟨mapper2, h7, h⟩ := ok_of_bind h
  obtain ⟨mapper1, h6, h⟩ := ok_of_bind h
  rcases hm : s.malloc call.refused .cart with ⟨nesCart, s₁⟩
  rw [hm] at h
  cases nesCart with
  | none => cases h
  | some block =>
      obtain ⟨prgRomChunks, h4, h⟩ := ok_of_bind h
      rcases hm₁ : s₁.malloc call.refused .prgMem with ⟨prgMem, s₂⟩
      simp only [hm₁] at h
      obtain ⟨prg, hprg, h⟩ := ok_of_bind h
      obtain ⟨chrRomChunks, h5, h⟩ := ok_of_bind h
      rcases hm₂ : s₂.malloc call.refused .chrMem with ⟨chrMem, s₃⟩
      simp only [hm₂] at h
      obtain ⟨chr, hchr, h⟩ := ok_of_bind h
      obtain ⟨⟨mapper, s₄⟩, hmapper, h⟩ := ok_of_bind h
      cases h
      obtain ⟨hgrow, hsame, hblock⟩ := malloc_ok hm
      obtain ⟨hgrow₁, hsame₁, hprgMem⟩ := malloc_ok hm₁
      obtain ⟨hgrow₂, hsame₂, hchrMem⟩ := malloc_ok hm₂
      obtain ⟨hid, hgrow₃, hsame₃⟩ := nesGetMapper_ok hmapper
      obtain ⟨hnew, hlt, hlive, -⟩ := hblock block rfl
      have hgrow₂₃ := hgrow₂.trans hgrow₃
      have hgrow₁₃ := hgrow₁.trans hgrow₂₃
      have hmem : ∀ b ∈ prgMem.toList ++ chrMem.toList ++ [block],
          b ∈ prgMem ∨ b ∈ chrMem ∨ b = block := by
        simp only [List.mem_append, Option.mem_toList, List.mem_singleton, or_assoc]
        exact fun _ => id
      have hactions := hsame₃.2.trans (hsame₂.2.trans (hsame₁.2.trans hsame.2))
      refine ⟨by rw [chrStart, prgStart, prgLength, byteAt_ok h4, byteAt_ok h6], hactions,
        ⟨hgrow.trans hgrow₁₃, ?_, ?_, ?_, ?_⟩, ?_⟩
      · intro hs b hb
        rcases hmem b hb with hb | hb | rfl
        · exact hgrow₂₃.live b ((hprgMem b hb).2.2.1 (hgrow.sound hs))
        · exact hgrow₃.live b ((hchrMem b hb).2.2.1 (hgrow₁.sound (hgrow.sound hs)))
        · exact hgrow₁₃.live b (hlive hs)
      · refine nodup_blocks (n := s₂.heap.blocks.length) (fun b hb => ⟨?_, (hprgMem b hb).2.1⟩)
          (fun b hb => (hchrMem b hb).1.ge) (hlt.trans_le hgrow₁.length)
        exact hlt.trans_le (hprgMem b hb).1.ge
      · intro b hb
        rcases hmem b hb with hb | hb | rfl
        · exact hgrow.length.trans (hprgMem b hb).1.ge
        · exact (hgrow.length.trans hgrow₁.length).trans (hchrMem b hb).1.ge
        · exact hnew.ge
      · exact hsame₃.1.trans (hsame₂.1.trans (hsame₁.1.trans hsame.1))
      · have hprgLen := memcpy_length hprg
        have hchrLen := memcpy_length hchr
        refine ⟨?_, hid, (byteAt_ok h4).symm, hprgLen, ?_, (byteAt_ok h5).symm, hchrLen, ?_⟩
        · rw [byteAt_ok h6, byteAt_ok h7]
        · exact (toNat_size prgRomChunks le_rfl).trans hprgLen.symm
        · exact (toNat_size chrRomChunks (by decide)).trans hchrLen.symm

end Build

section Magic

theorem byteAt_of_drop {buffer rest : List U8} {i : Nat} {c : U8} (h : buffer.drop i = c :: rest) :
    byteAt buffer i = .ok c := by
  have hhead : (buffer.drop i)[0]? = some c := by rw [h]; rfl
  rw [List.getElem?_drop, Nat.add_zero] at hhead
  rw [byteAt, hhead]

theorem byteAt_of_drop_nil {buffer : List U8} {i : Nat} (h : buffer.drop i = []) :
    byteAt buffer i = .error .outOfBounds := by
  rw [byteAt, List.getElem?_eq_none (List.drop_eq_nil_iff.mp h)]

/-- Comparing with a string literal: equal, different, or the buffer ends first. -/
theorem strncmp_literal (buffer : List U8) (i : Nat) (str : List U8) (hstr : (0 : U8) ∉ str) :
    strncmp buffer i (fun k => str.getD k 0) str.length =
      if str <+: buffer.drop i then .ok true
      else if buffer.drop i <+: str then .error .outOfBounds else .ok false := by
  induction str generalizing i with
  | nil => rw [if_pos List.nil_prefix]; rfl
  | cons c str ih =>
      rw [List.mem_cons, not_or] at hstr
      rw [List.length_cons, strncmp]
      cases hd : buffer.drop i with
      | nil =>
          rw [byteAt_of_drop_nil hd, if_neg (by simp), if_pos List.nil_prefix]
          rfl
      | cons d rest =>
          have hrest : buffer.drop (i + 1) = rest := by rw [← List.drop_drop, hd]; rfl
          have hstep := ih (i + 1) hstr.2
          rw [byteAt_of_drop hd]
          by_cases hdc : d = c
          · subst hdc
            have hne : d ≠ 0 := fun he => hstr.1 he.symm
            simp only [List.cons_prefix_cons, true_and]
            rw [hrest] at hstep
            exact ((if_neg (not_not_intro rfl)).trans (if_neg hne)).trans hstep
          · rw [if_neg fun h => hdc (List.cons_prefix_cons.mp h).1.symm,
              if_neg fun h => hdc (List.cons_prefix_cons.mp h).1]
            exact if_pos hdc

def magic : List U8 := [0x4E, 0x45, 0x53]

theorem strncmp_magic (buffer : List U8) : strncmp buffer 0 identstr 3 =
    if magic <+: buffer then .ok true
    else if buffer <+: magic then .error .outOfBounds else .ok false :=
  strncmp_literal buffer 0 magic (by decide)

end Magic

/-- The ways in which a call returns. -/
inductive Exit (call : LoadCall) (s : Loader) : Int → Loader → Prop
  | notFound (h : call.fopen = none) : Exit call s ROM_NOT_FOUND (freeLoaded s)
  | noStat (file : CartFile) (h : call.fopen = some file) (hstat : file.statres ≠ 0) :
      Exit call s BAD_ROM (((freeLoaded s).act .fopen).act .fclose)
  | badMagic (file : CartFile) (h : call.fopen = some file) (hstat : file.statres = 0)
      (hmagic : ¬ magic <+: file.contents) (hdiffers : ¬ file.contents <+: magic)
      (hgranted : call.refused .cartbuffer = false) (t : Loader)
      (hgrow : (freeLoaded s).heap.Grows t.heap) (hsame : t.nesLoadedCart = s.nesLoadedCart)
      (hactions : t.actions = .fopen :: s.actions) : Exit call s BAD_ROM t
  | read (file : CartFile) (h : call.fopen = some file) (hstat : file.statres = 0)
      (hmagic : magic <+: file.contents) (t : Loader) (cart : LoadedCart) (cartbuffer : Ptr)
      (hbuffer : cartbuffer.block < t.heap.blocks.length) (hplace : cartbuffer.offset = chrStart file.contents)
      (hbuilt : Built (freeLoaded s) t cart) (hcart : Announced file.contents cart)
      (hactions : t.actions = .readNull :: .fopen :: s.actions)
      (htag : ∃ magic, tagMagic call file.contents cartbuffer.offset = .ok magic ∧ magic ≠ LIBALLOC_MAGIC)
      (code : Int) (s' : Loader)
      (hinstall : installed cartbuffer cart t = (code, s')) :
      Exit call s code s'

section Sections

theorem byteAt_of_lt {buffer : List U8} {i : Nat} (h : i < buffer.length) :
    byteAt buffer i = .ok (buffer.getD i 0) := by
  rw [byteAt, List.getD_eq_getElem?_getD, List.getElem?_eq_getElem h]
  rfl

theorem memcpy_some (b : Nat) (buffer : List U8) (i len : Nat) :
    memcpy (some b) buffer i len = if len = 0 ∨ i + len ≤ buffer.length then
      .ok ((buffer.drop i).take len) else .error .outOfBounds := by
  rw [memcpy, if_neg (Option.some_ne_none b)]
  by_cases hlen : len = 0
  · rw [if_pos hlen, if_pos (.inl hlen), hlen, List.take_zero]
  · rw [if_neg hlen]
    by_cases hfits : i + len ≤ buffer.length
    · rw [if_pos hfits, if_pos (.inr hfits)]
    · rw [if_neg hfits, if_neg (not_or.mpr ⟨hlen, hfits⟩)]

variable {call : LoadCall} (hgranted : ∀ kind, call.refused kind = false)

include hgranted

theorem malloc_granted (s : Loader) (kind : Kind) :
    s.malloc call.refused kind =
      (some s.heap.blocks.length, { s with heap := (s.heap.malloc false kind).2 }) := by
  rw [Loader.malloc, hgranted]
  rfl

theorem nesGetMapper_granted (mapperid : U8) (s : Loader) :
    ∃ mapper s', nesGetMapper call.refused mapperid s = .ok (mapper, s') := by
  rw [nesGetMapper, malloc_granted hgranted]
  by_cases hid : mapperid = 0
  · exact ⟨_, _, if_pos hid⟩
  · exact ⟨_, _, if_neg hid⟩

theorem buildCart_sections {contents : List U8} (hsize : announcedSize contents ≤ contents.length)
    (s : Loader) : ∃ cart s', buildCart call contents s = .ok (cart, chrStart contents, s') ∧
      cart.prg = (contents.drop (prgStart contents)).take (prgLength contents) ∧
      cart.chr = (contents.drop (chrStart contents)).take (chrLength contents) := by
  have hheader : 16 ≤ contents.length := by
    rw [announcedSize, chrStart, prgStart] at hsize
    omega
  have hprg : prgStart contents + prgLength contents ≤ contents.length :=
    (Nat.le_add_right _ _).trans hsize
  have hbyte : ∀ i < 16, byteAt contents i = .ok (contents.getD i 0) :=
    fun i hi => byteAt_of_lt (hi.trans_le hheader)
  simp only [buildCart, hbyte 4 (by decide), hbyte 5 (by decide), hbyte 6 (by decide),
    hbyte 7 (by decide), malloc_granted hgranted, bind, Except.bind]
  rw [prgStart, prgLength] at hprg
  rw [announcedSize, chrStart, prgStart, prgLength, chrLength] at hsize
  simp only [memcpy_some, if_pos (Or.inr hprg), if_pos (Or.inr hsize)]
  obtain ⟨mapper, s', hmapper⟩ := nesGetMapper_granted hgranted _ _
  rw [hmapper]
  exact ⟨_, _, rfl, rfl, rfl⟩

theorem nesLoadCart_reads {file : CartFile} (hopen : call.fopen = some file)
    (hstat : file.statres = 0) (hmagic : magic <+: file.contents)
    (hunused : strncmp file.contents 11 call.addressZero 4 = .ok true) (s : Loader) :
    ∃ cartbuffer t, nesLoadCart call s = loadInes call cartbuffer file.contents t := by
  simp only [nesLoadCart, hopen, malloc_granted hgranted, loadBuffer, strncmp_magic, if_pos hmagic,
    hunused, bind, Except.bind]
  exact ⟨_, _, if_neg (not_not_intro hstat)⟩

/-- A file that holds what its header announces, for a mapper that is known, up to the free
of the buffer. -/
theorem nesLoadCart_installs {file : CartFile} (hopen : call.fopen = some file)
    (hstat : file.statres = 0) (hmagic : magic <+: file.contents)
    (hunused : strncmp file.contents 11 call.addressZero 4 = .ok true)
    (hsize : announcedSize file.contents ≤ file.contents.length)
    (hmapper : mapperidOf (file.contents.getD 6 0) (file.contents.getD 7 0) = 0) (s : Loader) :
    ∃ cartbuffer cart t, nesLoadCart call s =
        installCart call file.contents ⟨cartbuffer, chrStart file.contents⟩ cart t ∧
      cart.mapper ≠ none ∧ Announced file.contents cart ∧
      cart.prg = (file.contents.drop (prgStart file.contents)).take (prgLength file.contents) ∧
      cart.chr = (file.contents.drop (chrStart file.contents)).take (chrLength file.contents) := by
  obtain ⟨cartbuffer, t, hload⟩ := nesLoadCart_reads hgranted hopen hstat hmagic hunused s
  obtain ⟨cart, t', hbuild, hprg, hchr⟩ := buildCart_sections hgranted hsize t
  obtain ⟨-, -, -, hcart⟩ := buildCart_ok hbuild
  have hsome : cart.mapper ≠ none := by
    rw [ne_eq, hcart.mapper, hcart.mapperId, not_not]
    exact hmapper
  refine ⟨cartbuffer, cart, t', ?_, hsome, hcart, hprg, hchr⟩
  rw [hload, loadInes, hbuild]
  rfl

/-- Such a file is accepted if free finds no magic number in front of its CHR data. -/
theorem nesLoadCart_accepts {file : CartFile} (hopen : call.fopen = some file)
    (hstat : file.statres = 0) (hmagic : magic <+: file.contents)
    (hunused : strncmp file.contents 11 call.addressZero 4 = .ok true)
    (hsize : announcedSize file.contents ≤ file.contents.length)
    (hmapper : mapperidOf (file.contents.getD 6 0) (file.contents.getD 7 0) = 0) {word : U32}
    (htag : tagMagic call file.contents (chrStart file.contents) = .ok word) (hword : word ≠ LIBALLOC_MAGIC)
    (s : Loader) : ∃ s' cart, nesLoadCart call s = .ok (ROM_OK, s') ∧ s'.nesLoadedCart = some cart ∧
      Announced file.contents cart ∧
      cart.prg = (file.contents.drop (prgStart file.contents)).take (prgLength file.contents) := by
  obtain ⟨cartbuffer, cart, t, hload, hsome, hcart, hprg, -⟩ :=
    nesLoadCart_installs hgranted hopen hstat hmagic hunused hsize hmapper s
  have hfst := (installed_fst ⟨cartbuffer, chrStart file.contents⟩ cart t).trans (if_neg hsome)
  rw [installCart_of_tag htag, if_neg hword] at hload
  exact ⟨_, cart, hload.trans (congrArg Except.ok (Prod.ext hfst rfl)), installed_nesLoadedCart _ cart t, hcart, hprg⟩

end Sections

theorem load_of_drop {bytes : List U8} {a : Nat} {b₀ b₁ b₂ b₃ : U8} {rest : List U8}
    (h : bytes.drop a = b₀ :: b₁ :: b₂ :: b₃ :: rest) :
    ByteWords.load (fun k => bytes.getD k 0) a = b₃ ++ b₂ ++ b₁ ++ b₀ := by
  have hbyte : ∀ i, bytes.getD (a + i) 0 = (b₀ :: b₁ :: b₂ :: b₃ :: rest).getD i 0 := fun i => by
    rw [← h, List.getD_eq_getElem?_getD, List.getD_eq_getElem?_getD, List.getElem?_drop]
  rw [ByteWords.load, hbyte 3, hbyte 2, hbyte 1]
  exact congrArg _ (hbyte 0)

/-- Against the empty string at address zero, one byte decides. -/
theorem strncmp_empty {buffer : List U8} {i : Nat} {addressZero : Nat → U8}
    (hbyte : byteAt buffer i = .ok 0) (hzero : addressZero 0 = 0) :
    strncmp buffer i addressZero 4 = .ok true := by
  rw [strncmp, hbyte]
  exact (if_neg (not_not_intro hzero.symm)).trans (if_pos rfl)

theorem freeLoaded_nesLoadedCart (s : Loader) : (freeLoaded s).nesLoadedCart = s.nesLoadedCart := by
  unfold freeLoaded
  split <;> rfl

theorem freeLoaded_actions (s : Loader) : (freeLoaded s).actions = s.actions := by
  unfold freeLoaded
  split <;> rfl

theorem nesLoadCart_exit {call : LoadCall} {s s' : Loader} {code : Int}
    (h : nesLoadCart call s = .ok (code, s')) : Exit call s code s' := by
  unfold nesLoadCart at h
  split at h
  · next hopen =>
      cases h
      exact .notFound hopen
  · next file hopen =>
      by_cases hstat : file.statres = 0
      · replace h := (if_neg (not_not_intro hstat)).symm.trans h
        rcases hm : ((freeLoaded s).act .fopen).malloc call.refused .cartbuffer with ⟨cartbuffer, t⟩
        obtain ⟨hgrow, hsame, hnew⟩ := malloc_ok hm
        have hfopen : ((freeLoaded s).act .fopen).actions = .fopen :: s.actions :=
          congrArg _ (freeLoaded_actions s)
        simp only [hm] at h
        cases cartbuffer with
        | none => cases h
        | some block =>
            obtain ⟨found, hstr, h⟩ := ok_of_bind h
            rw [strncmp_magic] at hstr
            by_cases hmagic : magic <+: file.contents
            · rw [if_pos hmagic] at hstr
              cases hstr
              obtain ⟨empty, -, h⟩ := ok_of_bind h
              cases empty with
              | false => cases h
              | true =>
                  obtain ⟨⟨cart, i, u⟩, hbuild, h⟩ := ok_of_bind h
                  obtain ⟨rfl, hacts, hbuilt, hcart⟩ := buildCart_ok hbuild
                  obtain ⟨htag, hinstall⟩ := installCart_ok h
                  have hbuffer := (hnew block rfl).2.1.trans_le hbuilt.grows.length
                  exact .read file hopen hstat hmagic u cart ⟨block, _⟩ hbuffer rfl
                    (hbuilt.after hgrow hsame.1) hcart
                    (hacts.trans (congrArg _ (hsame.2.trans hfopen))) htag code s' hinstall
            · rw [if_neg hmagic] at hstr
              split at hstr
              · cases hstr
              · next hdiffers =>
                cases hstr
                cases h
                exact .badMagic file hopen hstat hmagic hdiffers (hnew block rfl).2.2.2 _ hgrow
                  (hsame.1.trans (freeLoaded_nesLoadedCart s)) (hsame.2.trans hfopen)
      · replace h := (if_pos hstat).symm.trans h
        cases h
        exact .noStat file hopen hstat

section Marks

variable {call : LoadCall} {contents : List U8} {s : Loader}

theorem bind_ne {ε α β : Type} {e : ε} {x : Except ε α} {f : α → Except ε β} (hx : x ≠ .error e)
    (hf : ∀ a, f a ≠ .error e) : x >>= f ≠ .error e := by
  cases x with
  | error e' => exact fun h => hx (congrArg Except.error (Except.error.inj h))
  | ok a => exact hf a

theorem byteAt_ne (buffer : List U8) (i : Nat) : byteAt buffer i ≠ .error .invalidFree := by
  unfold byteAt
  split <;> exact nofun

theorem strncmp_ne (buffer : List U8) (i : Nat) (str : Nat → U8) (n : Nat) :
    strncmp buffer i str n ≠ .error .invalidFree := by
  induction n generalizing i str with
  | zero => exact nofun
  | succ n ih =>
      refine bind_ne (byteAt_ne buffer i) fun c => ?_
      split
      · exact nofun
      · split
        · exact nofun
        · exact ih _ _

theorem memcpy_ne (dst : Option Nat) (buffer : List U8) (i len : Nat) :
    memcpy dst buffer i len ≠ .error .invalidFree := by
  unfold memcpy
  split_ifs <;> exact nofun

theorem nesGetMapper_ne (refused : Kind → Bool) (mapperid : U8) (s : Loader) :
    nesGetMapper refused mapperid s ≠ .error .invalidFree := by
  unfold nesGetMapper
  dsimp only
  split_ifs
  · split <;> exact nofun
  · exact nofun

/-- Only free(cartbuffer) is given a pointer into a block. -/
theorem buildCart_ne : buildCart call contents s ≠ .error .invalidFree := by
  refine bind_ne (byteAt_ne _ _) fun mapper2 => bind_ne (byteAt_ne _ _) fun mapper1 => ?_
  dsimp only
  split
  · exact nofun
  · refine bind_ne (byteAt_ne _ _) fun prgRomChunks => bind_ne (memcpy_ne _ _ _ _) fun prg => ?_
    refine bind_ne (byteAt_ne _ _) fun chrRomChunks => bind_ne (memcpy_ne _ _ _ _) fun chr => ?_
    exact bind_ne (nesGetMapper_ne _ _ _) fun r => nofun

theorem marked_of_installCart {cartbuffer : Ptr} {cart : LoadedCart}
    (h : installCart call contents cartbuffer cart s = .error .invalidFree) :
    tagMagic call contents cartbuffer.offset = .ok LIBALLOC_MAGIC := by
  cases htag : tagMagic call contents cartbuffer.offset with
  | error e =>
      rw [installCart, freeCartbuffer, htag] at h
      obtain rfl : e = .invalidFree := Except.error.inj h
      unfold tagMagic at htag
      split_ifs at htag
      cases htag
  | ok magic =>
      rw [installCart_of_tag htag] at h
      split_ifs at h with hmagic
      rw [hmagic]

theorem nesLoadCart_invalidFree (h : nesLoadCart call s = .error .invalidFree) :
    ∃ file, call.fopen = some file ∧ file.statres = 0 ∧ magic <+: file.contents ∧ Marked call file.contents := by
  unfold nesLoadCart at h
  split at h
  · cases h
  · next file hopen =>
      by_cases hstat : file.statres = 0
      · replace h := (if_neg (not_not_intro hstat)).symm.trans h
        rcases hm : ((freeLoaded s).act .fopen).malloc call.refused .cartbuffer with ⟨cartbuffer, t⟩
        simp only [hm] at h
        cases cartbuffer with
        | none => cases h
        | some block =>
            by_cases hmagic : magic <+: file.contents
            · refine ⟨file, hopen, hstat, hmagic, ?_⟩
              by_contra hunmarked
              refine bind_ne (strncmp_ne _ _ _ _) (fun found => ?_) h
              cases found with
              | false => exact nofun
              | true =>
                  refine bind_ne (strncmp_ne _ _ _ _) fun empty => ?_
                  cases empty with
                  | false => exact nofun
                  | true =>
                      intro hload
                      cases hbuild : buildCart call file.contents (t.act .readNull) with
                      | error e =>
                          rw [if_pos rfl, loadInes, hbuild] at hload
                          have he : e = .invalidFree := Except.error.inj hload
                          exact buildCart_ne (hbuild.trans (congrArg Except.error he))
                      | ok r =>
                          obtain ⟨cart, i, u⟩ := r
                          obtain ⟨rfl, -⟩ := buildCart_ok hbuild
                          rw [if_pos rfl, loadInes, hbuild] at hload
                          exact hunmarked (marked_of_installCart hload)
            · obtain ⟨found, hstr⟩ : ∃ r, strncmp file.contents 0 identstr 3 = r := ⟨_, rfl⟩
              change loadBuffer call block file.contents t = .error .invalidFree at h
              rw [loadBuffer, hstr] at h
              rw [strncmp_magic, if_neg hmagic] at hstr
              split_ifs at hstr <;> subst hstr <;> cases h
      · replace h := (if_pos hstat).symm.trans h
        cases h

end Marks

theorem nesLoadCart_ok {call : LoadCall} {s s' : Loader} (h : nesLoadCart call s = .ok (ROM_OK, s')) :
    ∃ file ∈ call.fopen, ∃ cart, s'.nesLoadedCart = some cart ∧ cart.mapper = some .zero ∧
      Announced file.contents cart := by
  generalize hcode : ROM_OK = code at h
  cases nesLoadCart_exit h with
  | notFound | noStat | badMagic => exact absurd hcode (by decide)
  | read file hopen hstat hmagic t cart cartbuffer hbuffer hplace hbuilt hcart _ _ _ _ hinstall =>
      refine ⟨file, hopen, cart, ?_, ?_, hcart⟩
      · have hsame := installed_nesLoadedCart cartbuffer cart t
        rwa [hinstall] at hsame
      · have hfst := installed_fst cartbuffer cart t
        rw [hinstall, ← hcode] at hfst
        cases hmapper : cart.mapper with
        | none => exact absurd (hfst.trans (if_pos hmapper)) (by decide : ROM_OK ≠ ROM_MISSING_MAPPER)
        | some mapper =>
            cases mapper
            rfl

end MetalNes.NesCart
