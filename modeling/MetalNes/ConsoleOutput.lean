import MetalNes.GlyphDrawing

namespace MetalNes.ConsoleOutput

open LastWrite Spans Console ConsoleScroll GlyphDrawing

/-- A RAW_BMP of 16-bit pixels. -/
structure Logo where
  width : U32
  height : U32
  pixels : U32 → U16

/-- The rows and columns that console_draw_logo goes through. Its test is unsigned, so a
logo that is wider than the display has none. -/
def logoCells (d : Display) (logo : Logo) : List (Nat × Nat) :=
  let xpos := d.resWidth - logo.width
  List.range logo.height.toInt.toNat ×ˢ List.range (if xpos < d.resWidth then (d.resWidth - xpos).toNat else 0)

def consoleDrawLogo (d : Display) (logo : Logo) (fb : Memory) : Memory :=
  let xpos := d.resWidth - logo.width
  (logoCells d logo).foldl (fun fb (y, x) =>
    setPixel d fb (BitVec.ofNat 32 x + xpos) (BitVec.ofNat 32 y)
      ((logo.pixels (BitVec.ofNat 32 y * logo.width + BitVec.ofNat 32 x)).setWidth 32)) fb

/-- The statics of console.c, and the memory that it draws to. -/
structure Screen where
  fb : Memory
  xPos : U32
  consoleLogo : Option Logo

def drawLogo (d : Display) (consoleLogo : Option Logo) (fb : Memory) : Memory :=
  match consoleLogo with
  | none => fb
  | some logo => consoleDrawLogo d logo fb

def scrollScreen (d : Display) (s : Screen) : Screen :=
  { s with fb := drawLogo d s.consoleLogo (scroll d s.fb), xPos := 0 }

def newline : Fin 128 := 10

def consoleWrite (d : Display) (leftmost : U32) (s : Screen) (c : Fin 128) : Screen :=
  if c = newline then scrollScreen d s
  else
    let yPos := d.resHeight - 8
    let s := { s with fb := cells.foldl (drawCell d leftmost s.xPos yPos c) s.fb, xPos := s.xPos + 8 }
    if s.xPos ≥ d.resWidth - 8 then scrollScreen d s else s

def consoleCls (d : Display) (s : Screen) : Screen :=
  { s with fb := drawLogo d s.consoleLogo (memset s.fb 0 (d.resHeight * d.resWidth * 2)) }

def initConsole (d : Display) (s : Screen) : Screen := consoleCls d s

/-- Only the first logo is taken. -/
def consoleSetLogo (d : Display) (s : Screen) (bmp : Logo) : Screen :=
  match s.consoleLogo with
  | some _ => s
  | none => { s with consoleLogo := some bmp, fb := consoleDrawLogo d bmp s.fb }

/-- The _write and the putchar of stdio.c. -/
def write (d : Display) (leftmost : U32) (s : Screen) (fd : U32) (buffer : List (Fin 128)) : Screen × U32 :=
  (if fd.slt 3 then buffer.foldl (consoleWrite d leftmost) s else s, 0)

def putchar (d : Display) (leftmost : U32) (s : Screen) (c : Fin 128) : Screen × U32 :=
  (consoleWrite d leftmost s c, BitVec.ofNat 32 c)

inductive Op where
  | write (fd : U32) (buffer : List (Fin 128))
  | putchar (c : Fin 128)
  | setLogo (bmp : Logo)

def run (d : Display) (leftmost : U32) (s : Screen) : Op → Screen
  | .write fd buffer => (write d leftmost s fd buffer).1
  | .putchar c => (putchar d leftmost s c).1
  | .setLogo bmp => consoleSetLogo d s bmp

/-- What an operation prints. A descriptor from 3 on is not one of the console. -/
def Op.text : Op → List (Fin 128)
  | .write fd buffer => if fd.slt 3 then buffer else []
  | .putchar c => [c]
  | .setLogo _ => []

def printed (ops : List Op) : List (Fin 128) := ops.flatMap Op.text

section Logos

variable {d : Display} {logo : Logo} {fb : Memory}

def Logo.rows (logo : Logo) : Nat := logo.height.toInt.toNat

/-- The last eight rows stay free of the logo. -/
def Logo.Above (d : Display) (logo : Logo) : Prop := logo.rows + 8 ≤ d.resHeight.toNat

theorem mem_logoCells {x y : Nat} (h : (y, x) ∈ logoCells d logo) :
    y < logo.rows ∧ (d.resWidth - logo.width).toNat + x < d.resWidth.toNat := by
  rw [logoCells, List.mem_product, List.mem_range, List.mem_range] at h
  obtain ⟨hy, hx⟩ := h
  refine ⟨hy, ?_⟩
  split at hx
  case isTrue hlt =>
    rw [BitVec.toNat_sub_of_le (BitVec.le_of_lt hlt)] at hx
    omega
  case isFalse => exact absurd hx (Nat.not_lt_zero x)

theorem logo_pixel (x y : Nat) (xpos : U32) :
    element (BitVec.ofNat 32 y * d.resWidth + (BitVec.ofNat 32 x + xpos)) = pixel d (xpos.toNat + x) y := by
  have h := pixel_add (d := d) xpos 0 y x
  rwa [show (0 : U32) + BitVec.ofNat 32 y = BitVec.ofNat 32 y from BitVec.zero_add _, BitVec.add_comm xpos,
    show BitVec.toNat (0 : U32) = 0 from rfl, Nat.zero_add] at h

theorem consoleDrawLogo_apply {k : BitVec 31} (hk : ∀ x < d.resWidth.toNat, ∀ y < logo.rows, k ≠ pixel d x y) :
    consoleDrawLogo d logo fb k = fb k := by
  rw [consoleDrawLogo]
  refine List.foldlRecOn (motive := fun drawn : Memory => drawn k = fb k) _ _ rfl ?_
  rintro drawn hdrawn ⟨y, x⟩ hyx
  obtain ⟨hy, hx⟩ := mem_logoCells hyx
  change setPixel d drawn (BitVec.ofNat 32 x + (d.resWidth - logo.width)) (BitVec.ofNat 32 y) _ k = fb k
  rw [setPixel, logo_pixel, store, Function.update_of_ne (hk _ hx _ hy)]
  exact hdrawn

end Logos

/-- The words behind the framebuffer that no scroll reaches. -/
structure Untouched (d : Display) (k : BitVec 31) : Prop where
  behind : pixels d ≤ k.toNat
  uncleared : (scrollCleared d).toNat / 2 ≤ (k - element (scrollBottom d)).toNat

/-- The next glyph and the logo both fit. -/
structure Good (d : Display) (s : Screen) : Prop where
  cursor : s.xPos.toNat + 8 ≤ d.resWidth.toNat
  logo : ∀ logo ∈ s.consoleLogo, logo.Above d

section Frame

variable {d : Display} {leftmost : U32} {s : Screen} {c : Fin 128} {k : BitVec 31}

theorem Untouched.ne_pixel (h : Untouched d k) {x y : Nat} (hx : x < d.resWidth.toNat) (hy : y < d.resHeight.toNat) :
    k ≠ pixel d x y := by
  rintro rfl
  have hbehind := h.behind
  have hrow : (y + 1) * d.resWidth.toNat ≤ d.resHeight.toNat * d.resWidth.toNat := Nat.mul_le_mul_right _ hy
  rw [toNat_pixel hx hy, pixels, Nat.mul_comm] at hbehind
  rw [Nat.succ_mul] at hrow
  omega

theorem drawLogo_apply (h : Untouched d k) {consoleLogo : Option Logo} (hlogo : ∀ logo ∈ consoleLogo, logo.Above d)
    (fb : Memory) : drawLogo d consoleLogo fb k = fb k := by
  cases consoleLogo with
  | none => rfl
  | some logo =>
      have habove : logo.rows + 8 ≤ d.resHeight.toNat := hlogo logo rfl
      exact consoleDrawLogo_apply fun x hx y hy => h.ne_pixel hx (by omega)

theorem scroll_apply (hheight : 8 ≤ d.resHeight.toNat) (h : Untouched d k) (fb : Memory) : scroll d fb k = fb k := by
  have hcopied : ¬ (k - element 0).toNat < (scrollCopied d).toNat / 2 := by
    rw [toNat_scrollCopied hheight, Nat.mul_div_cancel_left _ Nat.zero_lt_two]
    exact Nat.not_lt_of_ge (by simpa [element] using h.behind)
  rw [scroll, memset, if_neg (Nat.not_lt_of_ge h.uncleared), memcpy, if_neg hcopied]

theorem scrollScreen_apply (hheight : 8 ≤ d.resHeight.toNat) (h : Untouched d k) (hs : Good d s) :
    (scrollScreen d s).fb k = s.fb k := by
  exact (drawLogo_apply h hs.logo _).trans (scroll_apply hheight h s.fb)

theorem Good.scrolled (hwidth : 8 ≤ d.resWidth.toNat) (hs : Good d s) : Good d (scrollScreen d s) :=
  ⟨by simpa [scrollScreen] using hwidth, hs.logo⟩

theorem toNat_yPos (hheight : 8 ≤ d.resHeight.toNat) : (d.resHeight - 8).toNat = d.resHeight.toNat - 8 :=
  BitVec.toNat_sub_of_le hheight

theorem Good.inside (hheight : 8 ≤ d.resHeight.toNat) (hs : Good d s) : CellInside d s.xPos (d.resHeight - 8) := by
  refine ⟨hs.cursor, ?_⟩
  rw [toNat_yPos hheight]
  omega

theorem glyph_apply (hheight : 8 ≤ d.resHeight.toNat) (hs : Good d s) (h : Untouched d k) :
    cells.foldl (drawCell d leftmost s.xPos (d.resHeight - 8) c) s.fb k = s.fb k := by
  obtain ⟨hx, hy⟩ := hs.inside hheight
  rw [drawCells_eq, undrawn]
  exact fun i hi j hj => h.ne_pixel (by omega) (by omega)

theorem room_behind (hs : Good d s) (hkeep : ¬ s.xPos + 8 ≥ d.resWidth - 8) :
    (s.xPos + 8).toNat + 8 ≤ d.resWidth.toNat := by
  have hlt := d.resWidth.isLt
  have hcursor := hs.cursor
  rw [ge_iff_le, BitVec.le_def, BitVec.toNat_sub_of_le (show 8 ≤ d.resWidth.toNat by omega), BitVec.toNat_add] at hkeep
  rw [BitVec.toNat_add]
  simp at hkeep ⊢
  omega

/-- A step keeps the screen good, and the words behind the framebuffer as they are. -/
structure Keeps (d : Display) (s s' : Screen) : Prop where
  good : Good d s'
  kept : ∀ k, Untouched d k → s'.fb k = s.fb k

theorem Keeps.refl (hs : Good d s) : Keeps d s s := ⟨hs, fun _ _ => rfl⟩

theorem Keeps.trans {s' s'' : Screen} (h : Keeps d s s') (h' : Keeps d s' s'') : Keeps d s s'' :=
  ⟨h'.good, fun k hk => (h'.kept k hk).trans (h.kept k hk)⟩

theorem consoleWrite_keeps (hwidth : 8 ≤ d.resWidth.toNat) (hheight : 8 ≤ d.resHeight.toNat) (hs : Good d s) :
    Keeps d s (consoleWrite d leftmost s c) := by
  rw [consoleWrite]
  split
  · exact ⟨hs.scrolled hwidth, fun k hk => scrollScreen_apply hheight hk hs⟩
  · have hglyph := fun k (hk : Untouched d k) => @glyph_apply d leftmost s c k hheight hs hk
    dsimp only
    split
    · exact ⟨⟨by simpa [scrollScreen] using hwidth, hs.logo⟩,
        fun k hk => ((drawLogo_apply hk hs.logo _).trans (scroll_apply hheight hk _)).trans (hglyph k hk)⟩
    case isFalse hkeep => exact ⟨⟨room_behind hs hkeep, hs.logo⟩, hglyph⟩

theorem foldl_keeps (hwidth : 8 ≤ d.resWidth.toNat) (hheight : 8 ≤ d.resHeight.toNat) (hs : Good d s)
    (buffer : List (Fin 128)) : Keeps d s (buffer.foldl (consoleWrite d leftmost) s) :=
  List.foldlRecOn buffer _ (.refl hs) fun _ h _ _ => h.trans (consoleWrite_keeps hwidth hheight h.good)

theorem consoleSetLogo_keeps (hs : Good d s) {bmp : Logo} (habove : bmp.Above d) :
    Keeps d s (consoleSetLogo d s bmp) := by
  rw [consoleSetLogo]
  split
  · exact .refl hs
  · have hlogo : ∀ logo ∈ some bmp, logo.Above d := fun logo hl => Option.some.inj hl ▸ habove
    exact ⟨⟨hs.cursor, hlogo⟩, fun k hk => drawLogo_apply hk hlogo s.fb⟩

theorem run_keeps (hwidth : 8 ≤ d.resWidth.toNat) (hheight : 8 ≤ d.resHeight.toNat) (hs : Good d s) {op : Op}
    (habove : ∀ bmp, op = .setLogo bmp → bmp.Above d) : Keeps d s (run d leftmost s op) := by
  cases op with
  | write fd buffer =>
      rw [run, write]
      split
      · exact foldl_keeps hwidth hheight hs buffer
      · exact .refl hs
  | putchar c => exact consoleWrite_keeps hwidth hheight hs
  | setLogo bmp => exact consoleSetLogo_keeps hs (habove bmp rfl)

theorem toNat_screenBytes (d : Display) : (d.resHeight * d.resWidth * 2).toNat = 2 * pixels d := by
  have hfits := d.fits
  rw [BitVec.toNat_mul, BitVec.toNat_mul, Nat.mod_mul_mod]
  rw [pixels, Nat.mul_comm 2, Nat.mul_comm d.resWidth.toNat] at *
  exact Nat.mod_eq_of_lt hfits

theorem initConsole_keeps (hwidth : 8 ≤ d.resWidth.toNat) (hx : s.xPos = 0) (hlogo : s.consoleLogo = none) :
    Keeps d s (initConsole d s) := by
  have hnone : ∀ logo ∈ s.consoleLogo, logo.Above d := by simp [hlogo]
  refine ⟨⟨?_, hnone⟩, fun k hk => (drawLogo_apply hk hnone _).trans ?_⟩
  · rw [initConsole, consoleCls, hx]
    simpa using hwidth
  · rw [memset, if_neg]
    rw [toNat_screenBytes, Nat.mul_div_cancel_left _ Nat.zero_lt_two]
    exact Nat.not_lt_of_ge (by simpa [element] using hk.behind)

end Frame

/-- From init_console on, whatever is printed and shown: behind the framebuffer, nothing
is changed but what Scroll clears at twice the offset. -/
theorem console_kept {d : Display} (hwidth : 8 ≤ d.resWidth.toNat) (hheight : 8 ≤ d.resHeight.toNat) (leftmost : U32)
    {s : Screen} (hx : s.xPos = 0) (hlogo : s.consoleLogo = none) (ops : List Op)
    (habove : ∀ bmp, Op.setLogo bmp ∈ ops → bmp.Above d) {k : BitVec 31} (hk : Untouched d k) :
    (ops.foldl (run d leftmost) (initConsole d s)).fb k = s.fb k := by
  have hstart := initConsole_keeps hwidth hx hlogo
  have hkeeps : Keeps d s (ops.foldl (run d leftmost) (initConsole d s)) := by
    refine List.foldlRecOn ops _ hstart fun s' h op hop => ?_
    exact h.trans (run_keeps hwidth hheight h.good fun bmp he => habove bmp (he ▸ hop))
  exact hkeeps.kept k hk

theorem console_kept_vga : ([Op.write 1 [72, 105], .putchar 10].foldl (run vga 0)
    (initConsole vga ⟨fun _ => 7, 0, none⟩)).fb 307200 = 7 :=
  console_kept (by decide) (by decide) 0 rfl rfl [.write 1 [72, 105], .putchar 10] (by simp) ⟨by decide, by decide⟩

end MetalNes.ConsoleOutput
