import MetalNes.ConsoleOutput

namespace MetalNes.ConsoleText

open LastWrite Console GlyphDrawing ConsoleOutput
open ConsoleScroll (vga)

/-- The line of text at the bottom, and what a character does to it. -/
def nextLine (d : Display) (shown : List (Fin 128)) (c : Fin 128) : List (Fin 128) :=
  if c = newline then []
  else if d.resWidth.toNat ≤ 8 * (shown.length + 2) then [] else shown ++ [c]

/-- The cursor is behind the line, and the line can be read in the last eight rows. -/
structure Shows (d : Display) (leftmost : U32) (s : Screen) (shown : List (Fin 128)) : Prop where
  cursor : s.xPos.toNat = 8 * shown.length
  room : shown = [] ∨ 8 * shown.length + 8 < d.resWidth.toNat
  drawn : ∀ k c, shown[k]? = some c → ∀ i < 8, ∀ j < 8,
    s.fb (pixel d (8 * k + j) (d.resHeight.toNat - 8 + i)) = colour (glyphBit leftmost (fontRow c i) j)

section Write

variable {d : Display} {leftmost : U32} {s : Screen} {shown : List (Fin 128)} {c : Fin 128}

theorem shows_nil (hx : s.xPos = 0) : Shows d leftmost s [] := by
  refine ⟨?_, Or.inl rfl, fun k c hk => ?_⟩
  · rw [hx]
    rfl
  · cases hk

theorem Shows.inside (h : Shows d leftmost s shown) (hwidth : 8 ≤ d.resWidth.toNat) (hheight : 8 ≤ d.resHeight.toNat) :
    CellInside d s.xPos (d.resHeight - 8) := by
  constructor
  · rw [h.cursor]
    rcases h.room with rfl | hroom
    · simpa using hwidth
    · omega
  · rw [toNat_yPos hheight]
    omega

theorem Shows.drawn_before (h : Shows d leftmost s shown) (hwidth : 8 ≤ d.resWidth.toNat)
    (hheight : 8 ≤ d.resHeight.toNat) {k i j : Nat} {c' : Fin 128} (hk : shown[k]? = some c') (hi : i < 8)
    (hj : j < 8) : cells.foldl (drawCell d leftmost s.xPos (d.resHeight - 8) c) s.fb
      (pixel d (8 * k + j) (d.resHeight.toNat - 8 + i)) = colour (glyphBit leftmost (fontRow c' i) j) := by
  have hlt : k < shown.length := (List.getElem?_eq_some_iff.mp hk).1
  obtain ⟨hx, hy⟩ := h.inside hwidth hheight
  rw [h.cursor] at hx
  rw [drawCells_eq, undrawn]
  · exact h.drawn k c' hk i hi j hj
  · intro i' hi' j' hj' heq
    rw [h.cursor, toNat_yPos hheight] at heq
    obtain ⟨hcolumn, -⟩ := pixel_injective (by omega) (by omega) (by omega) (by omega) heq
    omega

/-- The test for the end of the line, whose sum does not wrap behind a glyph on the display. -/
theorem wraps_iff (hwidth : 8 ≤ d.resWidth.toNat) (hcursor : s.xPos.toNat = 8 * shown.length)
    (hin : s.xPos.toNat + 8 ≤ d.resWidth.toNat) :
    s.xPos + 8 ≥ d.resWidth - 8 ↔ d.resWidth.toNat ≤ 8 * (shown.length + 2) := by
  have hlt := d.resWidth.isLt
  have hsum : (s.xPos + 8).toNat = s.xPos.toNat + 8 := by bv_omega
  rw [ge_iff_le, BitVec.le_def, hsum, BitVec.toNat_sub_of_le (show (8 : U32) ≤ d.resWidth from hwidth), hcursor]
  simp
  omega

theorem consoleWrite_shows (hwidth : 8 ≤ d.resWidth.toNat) (hheight : 8 ≤ d.resHeight.toNat)
    (h : Shows d leftmost s shown) : Shows d leftmost (consoleWrite d leftmost s c) (nextLine d shown c) := by
  have hin := (h.inside hwidth hheight).1
  have hsum : (s.xPos + 8).toNat = 8 * shown.length + 8 := by
    have hlt := d.resWidth.isLt
    have hcursor := h.cursor
    bv_omega
  rw [consoleWrite, nextLine]
  by_cases hnew : c = newline
  · rw [if_pos hnew, if_pos hnew]
    exact shows_nil rfl
  · rw [if_neg hnew, if_neg hnew]
    by_cases hfull : d.resWidth.toNat ≤ 8 * (shown.length + 2)
    · rw [if_pos hfull, if_pos ((wraps_iff hwidth h.cursor hin).mpr hfull)]
      exact shows_nil rfl
    · rw [if_neg hfull, if_neg (mt (wraps_iff hwidth h.cursor hin).mp hfull)]
      refine ⟨?_, Or.inr ?_, fun k c' hk i hi j hj => ?_⟩
      · rw [hsum, List.length_append, List.length_singleton, Nat.mul_succ]
      · rw [List.length_append, List.length_singleton]
        omega
      · rcases Nat.lt_or_ge k shown.length with hlt | hge
        · rw [List.getElem?_append_left hlt] at hk
          exact h.drawn_before hwidth hheight hk hi hj
        · rw [List.getElem?_append_right hge] at hk
          obtain ⟨hzero, hc⟩ := List.getElem?_eq_some_iff.mp hk
          rw [List.length_singleton] at hzero
          have hk0 : k = shown.length := by omega
          simp only [hk0, Nat.sub_self, List.getElem_cons_zero] at hc
          have hpixel : (glyphWrites d leftmost s.xPos (d.resHeight - 8) c).foldl store s.fb
              (pixel d (s.xPos.toNat + j) ((d.resHeight - 8).toNat + i)) = colour (glyphBit leftmost (fontRow c i) j) :=
            drawn_pixel (h.inside hwidth hheight) hi hj
          rw [h.cursor, toNat_yPos hheight] at hpixel
          rw [hk0, ← hc, drawCells_eq]
          exact hpixel

end Write

section Lines

variable {d : Display}

/-- How many characters a line takes: the one that fills it ends it. -/
def lineChars (d : Display) : Nat := max 1 ((d.resWidth.toNat + 7) / 8 - 1)

theorem nextLine_plain {shown : List (Fin 128)} {c : Fin 128} (hc : c ≠ newline) :
    nextLine d shown c = if lineChars d ≤ shown.length + 1 then [] else shown ++ [c] := by
  rw [nextLine, if_neg hc, lineChars]
  congr 1
  rw [eq_iff_iff]
  omega

/-- Without a newline the line is what is left behind the full lines. -/
theorem foldl_nextLine {str : List (Fin 128)} (hplain : newline ∉ str) :
    str.foldl (nextLine d) [] = str.drop (str.length / lineChars d * lineChars d) := by
  have hpos : 0 < lineChars d := Nat.lt_of_lt_of_le Nat.one_pos (Nat.le_max_left _ _)
  induction str using List.reverseRecOn with
  | nil => exact List.drop_nil.symm
  | append_singleton str c ih =>
      rw [List.mem_append, not_or, List.mem_singleton] at hplain
      have hdiv := Nat.div_add_mod' str.length (lineChars d)
      have hmod := Nat.mod_lt str.length hpos
      have hlength : (str.drop (str.length / lineChars d * lineChars d)).length = str.length % lineChars d := by
        rw [List.length_drop]
        omega
      rw [List.foldl_append, List.foldl_cons, List.foldl_nil, ih hplain.1, nextLine_plain (Ne.symm hplain.2), hlength,
        List.length_append, List.length_singleton]
      by_cases hfull : lineChars d ≤ str.length % lineChars d + 1
      · have hnext : (str.length + 1) / lineChars d * lineChars d = str.length + 1 := by
          refine Nat.div_mul_cancel ⟨str.length / lineChars d + 1, ?_⟩
          rw [Nat.mul_succ, Nat.mul_comm]
          omega
        rw [if_pos hfull, hnext, List.drop_eq_nil_of_le]
        simp
      · have hsame : (str.length + 1) / lineChars d = str.length / lineChars d := by
          refine Nat.div_eq_of_lt_le ?_ ?_
          · omega
          · rw [Nat.succ_mul]
            omega
        rw [if_neg hfull, hsame, List.drop_append_of_le_length (by omega)]

end Lines

section Rest

variable {d : Display} {leftmost : U32} {s : Screen} {fb : Memory} {shown text : List (Fin 128)} {c : Fin 128}
variable {x i : Nat}

/-- A display of at least 32 rows, in at most half of the address space. Scroll then copies to
the last eight rows what it never clears. -/
structure Roomy (d : Display) : Prop where
  wide : 8 ≤ d.resWidth.toNat
  high : 32 ≤ d.resHeight.toNat
  words : 2 * (d.resWidth.toNat * d.resHeight.toNat) ≤ 2 ^ 31

/-- The words sixteen rows below the last eight ones, which lie behind the framebuffer. -/
def behind (d : Display) (x i : Nat) : BitVec 31 := pixel d x (d.resHeight.toNat + 8 + i)

/-- What is in the last eight rows beside the line: nothing, as long as all of the text is in
it, and then what was behind the framebuffer. -/
def Rest (d : Display) (fb : Memory) (s : Screen) (shown text : List (Fin 128)) : Prop :=
  ∀ x, 8 * shown.length ≤ x → x < d.resWidth.toNat → ∀ i < 8,
    s.fb (pixel d x (d.resHeight.toNat - 8 + i)) = if text = shown then 0 else fb (behind d x i)

theorem Roomy.rows (h : Roomy d) : d.resWidth.toNat * 32 ≤ d.resWidth.toNat * d.resHeight.toNat :=
  Nat.mul_le_mul_left _ h.high

theorem toNat_behind (h : Roomy d) (hx : x < d.resWidth.toNat) (hi : i < 8) :
    (behind d x i).toNat = (d.resHeight.toNat + 8 + i) * d.resWidth.toNat + x := by
  have hrow : (d.resHeight.toNat + 8 + i + 1) * d.resWidth.toNat ≤ (d.resHeight.toNat + 16) * d.resWidth.toNat :=
    Nat.mul_le_mul_right _ (by omega)
  have hrows := h.rows
  have hwords := h.words
  rw [Nat.succ_mul] at hrow
  rw [Nat.add_mul d.resHeight.toNat 16, Nat.mul_comm d.resHeight.toNat] at hrow
  rw [behind, pixel, BitVec.toNat_ofNat, Nat.mod_eq_of_lt (by omega)]

theorem toNat_bottom (h : Roomy d) :
    (element (scrollBottom d)).toNat = 2 * (d.resWidth.toNat * d.resHeight.toNat) - 16 * d.resWidth.toNat ∧
      (scrollCleared d).toNat / 2 = 8 * d.resWidth.toNat := by
  have hheight : 8 ≤ d.resHeight.toNat := Nat.le_trans (by decide) h.high
  have hwide := h.wide
  have hwords := h.words
  have hcleared : (scrollCleared d).toNat = 16 * d.resWidth.toNat := ConsoleScroll.toNat_scrollSource hheight
  have hbottom := ConsoleScroll.toNat_scrollBottom hheight
  rw [Nat.mul_sub] at hbottom
  rw [ConsoleScroll.toNat_element, hbottom, hcleared]
  omega

/-- What lies in front of the words that Scroll clears, by less than it wraps around. -/
theorem uncleared (h : Roomy d) {k : BitVec 31}
    (hk : k.toNat < 2 * (d.resWidth.toNat * d.resHeight.toNat) - 16 * d.resWidth.toNat) :
    (scrollCleared d).toNat / 2 ≤ (k - element (scrollBottom d)).toNat := by
  obtain ⟨hbottom, hcleared⟩ := toNat_bottom h
  have hwords := h.words
  rw [hcleared, BitVec.toNat_sub, hbottom]
  omega

theorem behind_untouched (h : Roomy d) (hx : x < d.resWidth.toNat) (hi : i < 8) : Untouched d (behind d x i) := by
  have hnat := toNat_behind h hx hi
  have hrow : (d.resHeight.toNat + 8 + i + 1) * d.resWidth.toNat ≤ (d.resHeight.toNat + 16) * d.resWidth.toNat :=
    Nat.mul_le_mul_right _ (by omega)
  have hfront : d.resHeight.toNat * d.resWidth.toNat ≤ (d.resHeight.toNat + 8 + i) * d.resWidth.toNat :=
    Nat.mul_le_mul_right _ (by omega)
  have hrows := h.rows
  rw [Nat.succ_mul, Nat.add_mul d.resHeight.toNat 16] at hrow
  rw [Nat.mul_comm d.resHeight.toNat] at hrow hfront
  refine ⟨?_, uncleared h ?_⟩
  · rw [ConsoleScroll.pixels]
    omega
  · omega

theorem scroll_last (h : Roomy d) (hx : x < d.resWidth.toNat) (hi : i < 8) :
    scroll d fb (pixel d x (d.resHeight.toNat - 8 + i)) = fb (behind d x i) := by
  have hheight : 8 ≤ d.resHeight.toNat := Nat.le_trans (by decide) h.high
  have hy : d.resHeight.toNat - 8 + i < d.resHeight.toNat := by
    have hhigh := h.high
    omega
  have hnat := toNat_pixel hx hy
  have hrow : (d.resHeight.toNat - 8 + i + 1) * d.resWidth.toNat ≤ d.resHeight.toNat * d.resWidth.toNat :=
    Nat.mul_le_mul_right _ hy
  have hrows := h.rows
  rw [Nat.succ_mul, Nat.mul_comm d.resHeight.toNat] at hrow
  have hcleared := uncleared h (k := pixel d x (d.resHeight.toNat - 8 + i)) (by omega)
  have hzero : pixel d x (d.resHeight.toNat - 8 + i) - element 0 = pixel d x (d.resHeight.toNat - 8 + i) := sub_zero _
  have hcopied : (pixel d x (d.resHeight.toNat - 8 + i)).toNat < (scrollCopied d).toNat / 2 := by
    rw [ConsoleScroll.toNat_scrollCopied hheight, ConsoleScroll.pixels]
    omega
  have hsource : element (scrollSource d) + pixel d x (d.resHeight.toNat - 8 + i) = behind d x i := by
    have hhigh := h.high
    have hsum : d.resHeight.toNat + 8 + i = d.resHeight.toNat - 8 + i + 16 := by omega
    have hwords := h.words
    apply BitVec.eq_of_toNat_eq
    rw [BitVec.toNat_add, ConsoleScroll.toNat_element, ConsoleScroll.toNat_scrollSource hheight, hnat,
      toNat_behind h hx hi, hsum, Nat.add_mul (d.resHeight.toNat - 8 + i) 16]
    omega
  rw [scroll, memset, if_neg (Nat.not_lt_of_ge hcleared), memcpy, hzero, if_pos hcopied, hsource]

theorem drawLogo_last (hheight : 8 ≤ d.resHeight.toNat) {consoleLogo : Option Logo}
    (hlogo : ∀ logo ∈ consoleLogo, logo.Above d) (m : Memory) (hx : x < d.resWidth.toNat) (hi : i < 8) :
    drawLogo d consoleLogo m (pixel d x (d.resHeight.toNat - 8 + i)) = m (pixel d x (d.resHeight.toNat - 8 + i)) := by
  cases consoleLogo with
  | none => rfl
  | some logo =>
      have habove : logo.rows + 8 ≤ d.resHeight.toNat := hlogo logo rfl
      refine consoleDrawLogo_apply fun x' hx' y' hy' heq => ?_
      obtain ⟨-, hy⟩ := pixel_injective hx (by omega) hx' (by omega) heq
      omega

theorem scrollScreen_rest (h : Roomy d) (hlogo : ∀ logo ∈ s.consoleLogo, logo.Above d)
    (hkept : ∀ k, Untouched d k → s.fb k = fb k) (htext : text ≠ []) : Rest d fb (scrollScreen d s) [] text := by
  intro x _ hx i hi
  have hmoved : scroll d s.fb (pixel d x (d.resHeight.toNat - 8 + i)) = s.fb (behind d x i) := scroll_last h hx hi
  rw [if_neg htext, ← hkept _ (behind_untouched h hx hi), ← hmoved]
  exact drawLogo_last (Nat.le_trans (by decide) h.high) hlogo _ hx hi

theorem Rest.glyph (h : Rest d fb s shown text) (hheight : 8 ≤ d.resHeight.toNat) (hs : Shows d leftmost s shown)
    (hin : CellInside d s.xPos (d.resHeight - 8)) (hx : 8 * (shown.length + 1) ≤ x) (hwidth : x < d.resWidth.toNat)
    (hi : i < 8) : cells.foldl (drawCell d leftmost s.xPos (d.resHeight - 8) c) s.fb
      (pixel d x (d.resHeight.toNat - 8 + i)) = if text = shown then 0 else fb (behind d x i) := by
  obtain ⟨hcell, -⟩ := hin
  rw [← h x (by omega) hwidth i hi, drawCells_eq, undrawn]
  intro i' hi' j' hj' heq
  rw [hs.cursor, toNat_yPos hheight] at heq
  rw [hs.cursor] at hcell
  obtain ⟨hcolumn, -⟩ := pixel_injective hwidth (by omega) (by omega) (by omega) heq
  omega

/-- All that an operation keeps of the last eight rows, and what it needs for that. -/
structure Line (d : Display) (leftmost : U32) (fb : Memory) (s : Screen) (shown text : List (Fin 128)) : Prop where
  shows : Shows d leftmost s shown
  rest : Roomy d → Rest d fb s shown text
  good : Good d s
  kept : ∀ k, Untouched d k → s.fb k = fb k

theorem consoleWrite_rest (h : Roomy d) (hl : Line d leftmost fb s shown text) :
    Rest d fb (consoleWrite d leftmost s c) (nextLine d shown c) (text ++ [c]) := by
  have hheight : 8 ≤ d.resHeight.toNat := Nat.le_trans (by decide) h.high
  have hin := hl.good.inside hheight
  have htext : text ++ [c] ≠ [] := List.append_ne_nil_of_right_ne_nil _ (List.cons_ne_nil c [])
  have hglyph : ∀ k, Untouched d k → cells.foldl (drawCell d leftmost s.xPos (d.resHeight - 8) c) s.fb k = fb k :=
    fun k hk => (glyph_apply hheight hl.good hk).trans (hl.kept k hk)
  rw [consoleWrite, nextLine]
  by_cases hnew : c = newline
  · rw [if_pos hnew, if_pos hnew]
    exact scrollScreen_rest h hl.good.logo hl.kept htext
  · rw [if_neg hnew, if_neg hnew]
    have hwraps := wraps_iff h.wide hl.shows.cursor hin.1
    by_cases hfull : d.resWidth.toNat ≤ 8 * (shown.length + 2)
    · rw [if_pos hfull, if_pos (hwraps.mpr hfull)]
      exact scrollScreen_rest h hl.good.logo hglyph htext
    · rw [if_neg hfull, if_neg (mt hwraps.mp hfull)]
      intro x hx hwidth i hi
      rw [List.length_append, List.length_singleton] at hx
      refine ((hl.rest h).glyph hheight hl.shows hin hx hwidth hi).trans ?_
      simp

theorem consoleWrite_line (hwidth : 8 ≤ d.resWidth.toNat) (hheight : 8 ≤ d.resHeight.toNat)
    (hl : Line d leftmost fb s shown text) :
    Line d leftmost fb (consoleWrite d leftmost s c) (nextLine d shown c) (text ++ [c]) := by
  have hkeeps : Keeps d s (consoleWrite d leftmost s c) := consoleWrite_keeps hwidth hheight hl.good
  exact ⟨consoleWrite_shows hwidth hheight hl.shows, fun h => consoleWrite_rest h hl, hkeeps.good,
    fun k hk => (hkeeps.kept k hk).trans (hl.kept k hk)⟩

end Rest

section Runs

variable {d : Display} {leftmost : U32} {s : Screen} {fb : Memory} {shown text : List (Fin 128)}

theorem foldl_line (hwidth : 8 ≤ d.resWidth.toNat) (hheight : 8 ≤ d.resHeight.toNat)
    (h : Line d leftmost fb s shown text) (str : List (Fin 128)) :
    Line d leftmost fb (str.foldl (consoleWrite d leftmost) s) (str.foldl (nextLine d) shown) (text ++ str) := by
  induction str generalizing s shown text with
  | nil => simpa using h
  | cons c rest ih => simpa using ih (consoleWrite_line hwidth hheight h)

theorem consoleSetLogo_line (hwidth : 8 ≤ d.resWidth.toNat) (hheight : 8 ≤ d.resHeight.toNat) {bmp : Logo}
    (habove : bmp.Above d) (h : Line d leftmost fb s shown text) :
    Line d leftmost fb (consoleSetLogo d s bmp) shown text := by
  have hkeeps : Keeps d s (consoleSetLogo d s bmp) := consoleSetLogo_keeps h.good habove
  have hlast : ∀ x < d.resWidth.toNat, ∀ i < 8, (consoleSetLogo d s bmp).fb (pixel d x (d.resHeight.toNat - 8 + i)) =
      s.fb (pixel d x (d.resHeight.toNat - 8 + i)) := by
    intro x hx i hi
    rw [consoleSetLogo]
    split
    · rfl
    · have hlogo : ∀ logo ∈ some bmp, logo.Above d := fun logo hl => Option.some.inj hl ▸ habove
      exact drawLogo_last hheight hlogo s.fb hx hi
  have hcursor : (consoleSetLogo d s bmp).xPos = s.xPos := by
    rw [consoleSetLogo]
    split <;> rfl
  refine ⟨⟨?_, h.shows.room, fun k c hk i hi j hj => Eq.trans ?_ (h.shows.drawn k c hk i hi j hj)⟩,
    fun hroomy x hx hxw i hi => ?_, hkeeps.good, fun k hk => (hkeeps.kept k hk).trans (h.kept k hk)⟩
  · rw [hcursor, h.shows.cursor]
  · have hlt : k < shown.length := (List.getElem?_eq_some_iff.mp hk).1
    have hinside := (h.shows.inside hwidth hheight).1
    rw [h.shows.cursor] at hinside
    exact hlast _ (by omega) i hi
  · rw [hlast x hxw i hi, h.rest hroomy x hx hxw i hi]

theorem run_line (hwidth : 8 ≤ d.resWidth.toNat) (hheight : 8 ≤ d.resHeight.toNat) {op : Op}
    (habove : ∀ bmp, op = .setLogo bmp → bmp.Above d) (h : Line d leftmost fb s shown text) :
    Line d leftmost fb (run d leftmost s op) (op.text.foldl (nextLine d) shown) (text ++ op.text) := by
  cases op with
  | write fd buffer =>
      rw [run, write, Op.text]
      split
      · exact foldl_line hwidth hheight h buffer
      · simpa using h
  | putchar c => exact consoleWrite_line hwidth hheight h
  | setLogo bmp => simpa [Op.text, run] using consoleSetLogo_line hwidth hheight (habove bmp rfl) h

theorem ops_line (hwidth : 8 ≤ d.resWidth.toNat) (hheight : 8 ≤ d.resHeight.toNat) {ops : List Op}
    (habove : ∀ bmp, Op.setLogo bmp ∈ ops → bmp.Above d) (h : Line d leftmost fb s shown text) :
    Line d leftmost fb (ops.foldl (run d leftmost) s) ((printed ops).foldl (nextLine d) shown)
      (text ++ printed ops) := by
  induction ops generalizing s shown text with
  | nil => simpa [printed] using h
  | cons op rest ih =>
      rw [printed, List.flatMap_cons, List.foldl_append, ← List.append_assoc]
      refine ih (fun bmp hbmp => habove bmp (List.mem_cons_of_mem op hbmp)) (run_line hwidth hheight ?_ h)
      exact fun bmp he => habove bmp (he ▸ List.mem_cons_self)

/-- console_cls sets every pixel to 0, the last one too. -/
theorem initConsole_line (hwidth : 8 ≤ d.resWidth.toNat) (hheight : 8 ≤ d.resHeight.toNat) (hx : s.xPos = 0)
    (hlogo : s.consoleLogo = none) : Line d leftmost s.fb (initConsole d s) [] [] := by
  have hkeeps := initConsole_keeps hwidth hx hlogo
  refine ⟨shows_nil hx, fun _ x _ hxw i hi => ?_, hkeeps.good, hkeeps.kept⟩
  have hnone : ∀ logo ∈ s.consoleLogo, logo.Above d := by simp [hlogo]
  rw [if_pos rfl, initConsole, consoleCls]
  refine (drawLogo_last hheight hnone _ hxw hi).trans ?_
  have hrow : (d.resHeight.toNat - 8 + i + 1) * d.resWidth.toNat ≤ d.resHeight.toNat * d.resWidth.toNat :=
    Nat.mul_le_mul_right _ (by omega)
  rw [Nat.succ_mul, Nat.mul_comm d.resHeight.toNat] at hrow
  have hcleared : (pixel d x (d.resHeight.toNat - 8 + i) - element 0).toNat <
      (d.resHeight * d.resWidth * 2).toNat / 2 := by
    rw [toNat_screenBytes, ConsoleScroll.pixels, show element 0 = 0 from rfl, sub_zero,
      toNat_pixel hxw (by omega)]
    omega
  rw [memset, if_pos hcleared]

end Runs

/-- From init_console on, whatever is printed and shown: the last eight rows show what was
printed after the last line break, one glyph beside the other. Right of it they are clear
until the first line break, and then hold what was behind the framebuffer. -/
theorem printed_shows {d : Display} (hwidth : 8 ≤ d.resWidth.toNat) (hheight : 8 ≤ d.resHeight.toNat) (leftmost : U32)
    {s : Screen} (hx : s.xPos = 0) (hlogo : s.consoleLogo = none) (ops : List Op)
    (habove : ∀ bmp, Op.setLogo bmp ∈ ops → bmp.Above d) {before str : List (Fin 128)}
    (hprinted : printed ops = before ++ str) (hplain : newline ∉ str)
    (hbefore : before = [] ∨ before.getLast? = some newline) :
    Shows d leftmost (ops.foldl (run d leftmost) (initConsole d s))
        (str.drop (str.length / lineChars d * lineChars d)) ∧
      (Roomy d → Rest d s.fb (ops.foldl (run d leftmost) (initConsole d s))
        (str.drop (str.length / lineChars d * lineChars d)) (printed ops)) := by
  have h := ops_line hwidth hheight habove (@initConsole_line d leftmost s hwidth hheight hx hlogo)
  have hshown : (printed ops).foldl (nextLine d) [] = str.drop (str.length / lineChars d * lineChars d) := by
    rw [hprinted, List.foldl_append, ← foldl_nextLine hplain]
    rcases hbefore with rfl | hlast
    · rfl
    · obtain ⟨front, rfl⟩ := List.getLast?_eq_some_iff.mp hlast
      rw [List.foldl_append, List.foldl_cons, List.foldl_nil, nextLine, if_pos rfl]
  rw [hshown, List.nil_append] at h
  exact ⟨h.shows, h.rest⟩

/-- One line break: right of the H is what was behind the framebuffer. -/
theorem printed_shows_vga : Shows vga 0 ([Op.write 1 [65, 10], .write 7 [66], .putchar 72].foldl (run vga 0)
      (initConsole vga ⟨fun _ => 7, 0, none⟩)) [72] ∧
    ([Op.write 1 [65, 10], .write 7 [66], .putchar 72].foldl (run vga 0)
      (initConsole vga ⟨fun _ => 7, 0, none⟩)).fb (pixel vga 8 472) = 7 :=
  have hprinted : printed [.write 1 [65, 10], .write 7 [66], .putchar 72] = [65, 10] ++ [72] := rfl
  have hshown := printed_shows (by decide) (by decide) 0 (s := ⟨fun _ => 7, 0, none⟩) rfl rfl _ (by simp) hprinted
    (by decide) (Or.inr rfl)
  ⟨hshown.1, hshown.2 ⟨by decide, by decide, by decide⟩ 8 (by decide) (by decide) 0 (by decide)⟩

end MetalNes.ConsoleText
