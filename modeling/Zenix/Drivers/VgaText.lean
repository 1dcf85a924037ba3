import Mathlib.Data.List.GetD
import Zenix.Drivers.VgaLayers

/-!
# What a text looks like (kernel/drivers/vga/vga.c, kernel/drivers/vga/vga_font.h)

`vga_draw_string` sets the points of the bits that the font has for the characters, with
two by two points for a bit on wide screens.

Results:
1. `mem_vgaDrawChar`, `layer_vgaDrawString`: which points are set.
2. `lit_ext`: the characters from the space to the tilde look different.
3. `text_legible`: texts that give the same picture are the same up to spaces at the end.
-/

namespace Zenix
open ByteMemory Logged

/-! ## Characters -/

/-- The bit of the font at a row and a column of a character. -/
def Lit (c : Byte) (row col : Nat) : Prop := font8x8 c.toNat row &&& 0x80#8 >>> col ≠ 0#8

/-- The points of a character, from its upper left corner. -/
def InGlyph (screenWidth : Word) (c : Byte) (dx dy : Nat) : Prop :=
  c.toNat < 128 ∧ dx < charSide screenWidth ∧ dy < charSide screenWidth ∧
    Lit c (dy / charScale screenWidth) (dx / charScale screenWidth)

/-- The points of the characters of a text. -/
def InText (screenWidth x y : Word) (str : List Byte) (px py : Word) : Prop :=
  ∃ i ∈ List.range str.length,
    InGlyph screenWidth (str.getD i 0#8) (px - (x + BitVec.ofNat 32 (charSide screenWidth * i))).toNat
      (py - y).toNat

instance (screenWidth : Word) (c : Byte) (dx dy : Nat) : Decidable (InGlyph screenWidth c dx dy) := by
  unfold InGlyph Lit
  infer_instance

instance (screenWidth x y : Word) (str : List Byte) (px py : Word) :
    Decidable (InText screenWidth x y str px py) := by
  unfold InText
  infer_instance

section Text
variable {screenWidth x y color : Word}

theorem charScale_pos (screenWidth : Word) : 0 < charScale screenWidth := by
  unfold charScale
  split
  · decide
  · decide

/-- A cell of the font is `scale` points wide. -/
theorem sub_scaled_iff {a p : Word} {s : Nat} (hpos : 0 < s) (hs : s ≤ 2) (P : Nat → Prop) :
    (∃ k < 8, P k ∧ ∃ i < s, p = a + BitVec.ofNat 32 (k * s + i)) ↔
      (p - a).toNat < 8 * s ∧ P ((p - a).toNat / s) := by
  constructor
  · rintro ⟨k, hk, hP, i, hi, rfl⟩
    have hlt : k * s + i < 8 * s :=
      Nat.lt_of_lt_of_le (Nat.add_lt_add_left hi _)
        (by rw [← Nat.add_one_mul]; exact Nat.mul_le_mul_right s hk)
    have hoffset : (a + BitVec.ofNat 32 (k * s + i) - a).toNat = k * s + i := by
      rw [BitVec.add_comm, BitVec.add_sub_cancel, toNat_ofNat_of_lt (by omega)]
    rw [hoffset, Nat.add_comm, Nat.add_mul_div_right _ _ hpos, Nat.div_eq_of_lt hi, Nat.zero_add,
      Nat.add_comm]
    exact ⟨hlt, hP⟩
  · rintro ⟨hlt, hP⟩
    refine ⟨(p - a).toNat / s, Nat.div_lt_of_lt_mul (by rwa [Nat.mul_comm]), hP,
      (p - a).toNat % s, Nat.mod_lt _ hpos, ?_⟩
    rw [Nat.div_add_mod', BitVec.ofNat_toNat, BitVec.setWidth_eq, BitVec.add_comm,
      BitVec.sub_add_cancel]

theorem mem_vgaDrawChar {c : Byte} {p : PixelCall} :
    p ∈ (vgaDrawChar screenWidth x y c color).log ↔
      InGlyph screenWidth c (p.x - x).toNat (p.y - y).toNat ∧ p.color = color := by
  have hpos := charScale_pos screenWidth
  have hscale := charScale_le screenWidth
  unfold vgaDrawChar InGlyph charSide
  split
  next hlarge => exact iff_of_false List.not_mem_nil fun h => Nat.not_lt.mpr hlarge h.1.1
  next hsmall =>
    have hcell := sub_scaled_iff (a := y) (p := p.y) hpos hscale fun row =>
      (p.x - x).toNat < 8 * charScale screenWidth ∧
        Lit c row ((p.x - x).toNat / charScale screenWidth)
    rw [and_left_comm] at hcell
    rw [and_iff_right (Nat.lt_of_not_le hsmall), ← hcell]
    simp only [← sub_scaled_iff (a := x) (p := p.x) hpos hscale, log_forM, List.mem_flatMap,
      List.mem_range]
    constructor
    · rintro ⟨row, hrow, col, hcol, hp⟩
      split at hp
      next hlit =>
        simp only [log_forM, List.mem_flatMap, List.mem_range, mem_setPixel] at hp
        obtain ⟨sy, hsy, sx, hsx, rfl⟩ := hp
        exact ⟨⟨row, hrow, ⟨col, hcol, hlit, sx, hsx, rfl⟩, sy, hsy, rfl⟩, rfl⟩
      next => cases hp
    · rintro ⟨⟨row, hrow, ⟨col, hcol, hlit, sx, hsx, hx⟩, sy, hsy, hy⟩, hcolor⟩
      refine ⟨row, hrow, col, hcol, ?_⟩
      rw [if_pos (show font8x8 c.toNat row &&& 0x80#8 >>> col ≠ 0#8 from hlit)]
      simp only [log_forM, List.mem_flatMap, List.mem_range, mem_setPixel]
      exact ⟨sy, hsy, sx, hsx, by rw [← hx, ← hy, ← hcolor]⟩

/-- The characters after the first `k`. -/
theorem mem_drawChars (chars : List Byte) (k : Nat) {p : PixelCall} :
    p ∈ (chars.foldlM (fun offset c => do
      vgaDrawChar screenWidth (x + offset) y c color
      pure (offset + BitVec.ofNat 32 (charSide screenWidth)))
      (BitVec.ofNat 32 (charSide screenWidth * k))).log ↔
        ∃ i ∈ List.range chars.length, p ∈ (vgaDrawChar screenWidth
          (x + BitVec.ofNat 32 (charSide screenWidth * (k + i))) y (chars.getD i 0#8) color).log := by
  induction chars generalizing k with
  | nil => exact iff_of_false List.not_mem_nil fun ⟨_, hi, _⟩ => List.not_mem_nil hi
  | cons c chars ih =>
    have hnext : BitVec.ofNat 32 (charSide screenWidth * k) +
        BitVec.ofNat 32 (charSide screenWidth) = BitVec.ofNat 32 (charSide screenWidth * (k + 1)) := by
      rw [ofNat_add_ofNat, Nat.mul_succ]
    have hrest := ih (k + 1)
    rw [← hnext] at hrest
    rw [List.foldlM_cons, log_bind, List.mem_append, log_bind, List.mem_append]
    have hvalue : (do
        vgaDrawChar screenWidth (x + BitVec.ofNat 32 (charSide screenWidth * k)) y c color
        pure (BitVec.ofNat 32 (charSide screenWidth * k) +
          BitVec.ofNat 32 (charSide screenWidth)) : Logged PixelCall Word).value =
        BitVec.ofNat 32 (charSide screenWidth * k) + BitVec.ofNat 32 (charSide screenWidth) := rfl
    rw [hvalue, hrest, List.length_cons]
    constructor
    · rintro ((hp | hp) | ⟨i, hi, hp⟩)
      · exact ⟨0, List.mem_range.mpr (Nat.succ_pos _), hp⟩
      · cases hp
      · refine ⟨i + 1, List.mem_range.mpr (Nat.succ_lt_succ (List.mem_range.mp hi)), ?_⟩
        rw [Nat.add_comm i 1, ← Nat.add_assoc, Nat.add_comm 1 i, List.getD_cons_succ]
        exact hp
    · rintro ⟨i, hi, hp⟩
      cases i with
      | zero => exact .inl (.inl hp)
      | succ i =>
        rw [Nat.add_comm i 1, ← Nat.add_assoc, Nat.add_comm 1 i, List.getD_cons_succ] at hp
        exact .inr ⟨i, List.mem_range.mpr (Nat.lt_of_succ_lt_succ (List.mem_range.mp hi)), hp⟩

theorem layer_vgaDrawString {str : List Byte} (hnul : 0#8 ∉ str) :
    layer (vgaDrawString screenWidth x y str color) =
      Layer.flat (fun p => InText screenWidth x y str p.1 p.2) color := by
  have htext : (str.takeWhile fun c => c ≠ 0#8) = str :=
    List.takeWhile_eq_self_iff.mpr fun c hc => decide_eq_true fun heq => hnul (heq ▸ hc)
  refine layer_eq_flat fun p => ?_
  unfold vgaDrawString InText
  rw [htext, charW_eq]
  have hchars := @mem_drawChars screenWidth x y color str 0 p
  rw [Nat.mul_zero] at hchars
  simp only [hchars, Nat.zero_add, mem_vgaDrawChar]
  constructor
  · rintro ⟨i, hi, hp, hcolor⟩
    exact ⟨⟨i, hi, hp⟩, hcolor⟩
  · rintro ⟨⟨i, hi, hp⟩, hcolor⟩
    exact ⟨i, hi, hp, hcolor⟩

end Text

/-! ## Glyphs -/

/-- The characters from the space to the tilde. -/
def Printable (c : Byte) : Prop := 32 ≤ c.toNat ∧ c.toNat < 127

def glyph (c : Nat) : List Byte := (List.range 8).map (font8x8 c)

theorem glyphs_nodup : ((List.range' 32 95).map glyph).Nodup := by decide +kernel

theorem lit_iff {c : Byte} {row col : Nat} (hcol : col < 8) :
    Lit c row col ↔ (font8x8 c.toNat row).getLsbD (7 - col) = true := by
  have hmask : ∀ col : Fin 8, 0x80#8 >>> col.val = BitVec.twoPow 8 (7 - col) := by decide
  have hne : ∀ col : Fin 8, BitVec.twoPow 8 (7 - col) ≠ 0#8 := by decide
  rw [Lit, hmask ⟨col, hcol⟩, BitVec.and_twoPow]
  split
  next hbit => exact iff_of_true (hne ⟨col, hcol⟩) hbit
  next hbit => exact iff_of_false (fun h => h rfl) hbit

theorem lit_ext {c d : Byte} (hc : Printable c) (hd : Printable d)
    (h : ∀ row < 8, ∀ col < 8, Lit c row col ↔ Lit d row col) : c = d := by
  have hrows : ∀ row < 8, font8x8 c.toNat row = font8x8 d.toNat row := by
    intro row hrow
    apply BitVec.eq_of_getLsbD_eq
    intro i hi
    have hcol : 7 - i < 8 := by omega
    have hbit := h row hrow (7 - i) hcol
    rw [lit_iff hcol, lit_iff hcol, Nat.sub_sub_self (Nat.le_of_lt_succ hi)] at hbit
    exact Bool.eq_iff_iff.mpr hbit
  have hglyph : glyph c.toNat = glyph d.toNat :=
    List.map_congr_left fun row hrow => hrows row (List.mem_range.mp hrow)
  have hmem : ∀ {c : Byte}, Printable c → c.toNat ∈ List.range' 32 95 := fun h =>
    List.mem_range'_1.mpr h
  exact BitVec.eq_of_toNat_eq (List.inj_on_of_nodup_map glyphs_nodup (hmem hc) (hmem hd) hglyph)

theorem space_printable : Printable 0x20#8 := ⟨by decide, by decide⟩

theorem space_empty (screenWidth : Word) (dx dy : Nat) : ¬ InGlyph screenWidth 0x20#8 dx dy := by
  rintro ⟨_, _, hdy, hlit⟩
  have hrow : dy / charScale screenWidth < 8 :=
    Nat.div_lt_of_lt_mul (by rwa [Nat.mul_comm])
  have hblank : ∀ row : Fin 8, font8x8 0x20 row = 0#8 := by decide
  refine hlit ?_
  rw [show font8x8 (0x20#8 : Byte).toNat (dy / charScale screenWidth) = 0#8 from hblank ⟨_, hrow⟩]
  exact BitVec.zero_and

/-! ## Texts -/

section Legible
variable {screenWidth x y : Word} {text text' : List Byte}

theorem getD_printable (h : ∀ c ∈ text, Printable c) (i : Nat) :
    Printable (text.getD i 0x20#8) := by
  by_cases hi : i < text.length
  · rw [List.getD_eq_getElem _ _ hi]
    exact h _ (List.getElem_mem hi)
  · rw [List.getD_eq_default _ _ (Nat.le_of_not_lt hi)]
    exact space_printable

/-- A text is as if spaces followed it. -/
theorem inText_iff {px py : Word} :
    InText screenWidth x y text px py ↔
      ∃ i, InGlyph screenWidth (text.getD i 0x20#8)
        (px - (x + BitVec.ofNat 32 (charSide screenWidth * i))).toNat (py - y).toNat := by
  constructor
  · rintro ⟨i, hi, hglyph⟩
    have hlt := List.mem_range.mp hi
    rw [List.getD_eq_getElem _ _ hlt] at hglyph
    exact ⟨i, by rwa [List.getD_eq_getElem _ _ hlt]⟩
  · rintro ⟨i, hglyph⟩
    by_cases hlt : i < text.length
    · rw [List.getD_eq_getElem _ _ hlt] at hglyph
      exact ⟨i, List.mem_range.mpr hlt, by rwa [List.getD_eq_getElem _ _ hlt]⟩
    · rw [List.getD_eq_default _ _ (Nat.le_of_not_lt hlt)] at hglyph
      exact absurd hglyph (space_empty _ _ _)

theorem sub_cell_toNat {a b : Nat} (ha : a < 2 ^ 32) (hb : b < 2 ^ 32) :
    (x + BitVec.ofNat 32 a - (x + BitVec.ofNat 32 b)).toNat = (2 ^ 32 - b + a) % 2 ^ 32 := by
  rw [BitVec.toNat_sub, BitVec.toNat_add, BitVec.toNat_add, toNat_ofNat_of_lt ha,
    toNat_ofNat_of_lt hb]
  omega

/-- The point at a row and a column of the `i`-th character. -/
theorem inText_cell (htext : ∀ c ∈ text, Printable c) {k i row col : Nat} (hk : text.length ≤ k)
    (hi : i < k) (hfit : charSide screenWidth * k < 2 ^ 32) (hrow : row < 8) (hcol : col < 8) :
    InText screenWidth x y text
        (x + BitVec.ofNat 32 (charSide screenWidth * i + col * charScale screenWidth))
        (y + BitVec.ofNat 32 (row * charScale screenWidth)) ↔
      Lit (text.getD i 0x20#8) row col := by
  have hpos := charScale_pos screenWidth
  have hcell : ∀ {n : Nat}, n < 8 → n * charScale screenWidth < charSide screenWidth :=
    fun hn => Nat.mul_lt_mul_of_pos_right hn hpos
  have hend : ∀ {j : Nat}, j < k →
      charSide screenWidth * j + charSide screenWidth ≤ charSide screenWidth * k := by
    intro j hj
    rw [← Nat.mul_succ]
    exact Nat.mul_le_mul_left _ hj
  have hx := hcell hcol
  have hy : (y + BitVec.ofNat 32 (row * charScale screenWidth) - y).toNat =
      row * charScale screenWidth := by
    have hside := hcell hrow
    have hlast := hend hi
    rw [BitVec.add_comm, BitVec.add_sub_cancel, toNat_ofNat_of_lt (by omega)]
  have hsame : InGlyph screenWidth (text.getD i 0x20#8) (col * charScale screenWidth)
      (row * charScale screenWidth) ↔ Lit (text.getD i 0x20#8) row col := by
    have hchar := (getD_printable htext i).2
    rw [InGlyph, Nat.mul_div_cancel _ hpos, Nat.mul_div_cancel _ hpos]
    exact ⟨fun h => h.2.2.2, fun h => ⟨by omega, hx, hcell hrow, h⟩⟩
  have hown : (x + BitVec.ofNat 32 (charSide screenWidth * i + col * charScale screenWidth) -
      (x + BitVec.ofNat 32 (charSide screenWidth * i))).toNat = col * charScale screenWidth := by
    have hlast := hend hi
    rw [sub_cell_toNat (by omega) (by omega)]
    omega
  rw [inText_iff, hy, ← hsame]
  constructor
  · rintro ⟨j, hglyph⟩
    have hj : j < k := by
      by_contra hout
      rw [List.getD_eq_default _ _ (hk.trans (Nat.le_of_not_lt hout))] at hglyph
      exact space_empty _ _ _ hglyph
    rcases Nat.lt_trichotomy i j with hlt | rfl | hgt
    · have hleft := hend hi
      have hright := hend hj
      have hdist := Nat.mul_le_mul_left (charSide screenWidth) hlt
      have hrange := hglyph.2.1
      rw [Nat.mul_succ] at hdist
      rw [sub_cell_toNat (by omega) (by omega)] at hrange
      omega
    · rwa [hown] at hglyph
    · have hleft := hend hi
      have hright := hend hj
      have hdist := Nat.mul_le_mul_left (charSide screenWidth) hgt
      have hrange := hglyph.2.1
      rw [Nat.mul_succ] at hdist
      rw [sub_cell_toNat (by omega) (by omega)] at hrange
      omega
  · intro hglyph
    exact ⟨i, by rwa [hown]⟩

end Legible

/-! ## The picture -/

section Picture
variable {v : Vga} {n : Nat} {x y color px py : Word} {text text' : List Byte} {m : Mem}

theorem printable_noNul (h : ∀ c ∈ text, Printable c) : 0#8 ∉ text := by
  intro hnul
  have hlow := (h _ hnul).1
  cases hlow

/-- The text on the screen: the points of its characters have its colour, the others stay. -/
theorem vgaGetPixel_text (hv : v.Ready n) (hon : v.OnScreen px py) (h : ∀ c ∈ text, Printable c) :
    (vgaGetPixel v px py (drawOn v (vgaDrawString v.width x y text color) m)).toNat =
      if InText v.width x y text px py then color.toNat % 2 ^ (8 * n)
      else (vgaGetPixel v px py m).toNat := by
  rw [vgaGetPixel_layer hv hon, layer_vgaDrawString (printable_noNul h), Layer.flat]
  split
  · rfl
  · rfl

/-- The same picture has the same points. -/
theorem inText_congr (hv : v.Ready n) (hon : v.OnScreen px py) (htext : ∀ c ∈ text, Printable c)
    (htext' : ∀ c ∈ text', Printable c)
    (hback : (vgaGetPixel v px py m).toNat ≠ color.toNat % 2 ^ (8 * n))
    (hsame : vgaGetPixel v px py (drawOn v (vgaDrawString v.width x y text color) m) =
      vgaGetPixel v px py (drawOn v (vgaDrawString v.width x y text' color) m)) :
    InText v.width x y text px py ↔ InText v.width x y text' px py := by
  have hvalue := congrArg BitVec.toNat hsame
  rw [vgaGetPixel_text hv hon htext, vgaGetPixel_text hv hon htext'] at hvalue
  by_cases hin : InText v.width x y text px py
  · rw [if_pos hin] at hvalue
    refine iff_of_true hin (by_contra fun hout => ?_)
    rw [if_neg hout] at hvalue
    exact hback hvalue.symm
  · rw [if_neg hin] at hvalue
    refine iff_of_false hin fun hin' => ?_
    rw [if_pos hin'] at hvalue
    exact hback hvalue

theorem cell_onScreen {k i row col : Nat}
    (hwidth : x.toNat + charSide v.width * k ≤ v.width.toNat)
    (hheight : y.toNat + charSide v.width ≤ v.height.toNat) (hi : i < k) (hrow : row < 8)
    (hcol : col < 8) :
    ∃ px py, px = x + BitVec.ofNat 32 (charSide v.width * i + col * charScale v.width) ∧
      py = y + BitVec.ofNat 32 (row * charScale v.width) ∧ v.OnScreen px py ∧ x ≤ px ∧ y ≤ py := by
  have hcell : ∀ {n : Nat}, n < 8 → n * charScale v.width < charSide v.width :=
    fun hn => Nat.mul_lt_mul_of_pos_right hn (charScale_pos v.width)
  have hlast : charSide v.width * i + charSide v.width ≤ charSide v.width * k := by
    rw [← Nat.mul_succ]
    exact Nat.mul_le_mul_left _ hi
  have hx := hcell hcol
  have hy := hcell hrow
  have hscreen := v.width.isLt
  have hscreen' := v.height.isLt
  have hpx : (x + BitVec.ofNat 32 (charSide v.width * i + col * charScale v.width)).toNat =
      x.toNat + (charSide v.width * i + col * charScale v.width) := toNat_add_ofNat (by omega)
  have hpy : (y + BitVec.ofNat 32 (row * charScale v.width)).toNat =
      y.toNat + row * charScale v.width := toNat_add_ofNat (by omega)
  refine ⟨_, _, rfl, rfl, ?_⟩
  rw [Vga.OnScreen, BitVec.lt_def, BitVec.lt_def, BitVec.le_def, BitVec.le_def, hpx, hpy]
  exact ⟨⟨by omega, by omega⟩, Nat.le_add_right _ _, Nat.le_add_right _ _⟩

/-- On a background of other colours two printable texts that fit on the screen give the
same picture exactly when they are equal up to spaces at their ends. -/
theorem text_legible (hv : v.Ready n) (htext : ∀ c ∈ text, Printable c)
    (htext' : ∀ c ∈ text', Printable c)
    (hwidth : x.toNat + charSide v.width * max text.length text'.length ≤ v.width.toNat)
    (hheight : y.toNat + charSide v.width ≤ v.height.toNat)
    (hback : ∀ px py, v.OnScreen px py → x ≤ px → y ≤ py →
      (vgaGetPixel v px py m).toNat ≠ color.toNat % 2 ^ (8 * n)) :
    (∀ px py, v.OnScreen px py →
      vgaGetPixel v px py (drawOn v (vgaDrawString v.width x y text color) m) =
        vgaGetPixel v px py (drawOn v (vgaDrawString v.width x y text' color) m)) ↔
      ∀ i, text.getD i 0x20#8 = text'.getD i 0x20#8 := by
  have hlength := le_max_left text.length text'.length
  have hlength' := le_max_right text.length text'.length
  have hfit : charSide v.width * max text.length text'.length < 2 ^ 32 :=
    Nat.lt_of_le_of_lt ((Nat.le_add_left _ _).trans hwidth) v.width.isLt
  constructor
  · intro hsame i
    by_cases hi : i < max text.length text'.length
    · refine lit_ext (getD_printable htext i) (getD_printable htext' i) fun row hrow col hcol => ?_
      obtain ⟨px, py, hpx, hpy, hon, hx, hy⟩ := cell_onScreen hwidth hheight hi hrow hcol
      have hpoint := inText_congr hv hon htext htext' (hback px py hon hx hy) (hsame px py hon)
      rwa [hpx, hpy, inText_cell htext hlength hi hfit hrow hcol,
        inText_cell htext' hlength' hi hfit hrow hcol] at hpoint
    · rw [Nat.not_lt] at hi
      rw [List.getD_eq_default _ _ (hlength.trans hi), List.getD_eq_default _ _ (hlength'.trans hi)]
  · intro hsame px py hon
    apply BitVec.eq_of_toNat_eq
    have hpoints : InText v.width x y text px py ↔ InText v.width x y text' px py := by
      rw [inText_iff, inText_iff]
      exact exists_congr fun i => by rw [hsame]
    rw [vgaGetPixel_text hv hon htext, vgaGetPixel_text hv hon htext']
    simp only [hpoints]

end Picture

/-- A driver in the small mode. -/
def smallVga : Vga := ⟨smallMode, 320#32, 200#32, 0#32, 1#32⟩

theorem smallVga_ready : smallVga.Ready 1 :=
  ⟨by decide, rfl, by decide, rfl, by decide, by decide⟩

/-- Two letters look different. -/
theorem text_legible_letters :
    ¬ ∀ px py, smallVga.OnScreen px py →
      vgaGetPixel smallVga px py
          (drawOn smallVga (vgaDrawString 320#32 0#32 0#32 [0x41#8] 1#32) fun _ => 0#8) =
        vgaGetPixel smallVga px py
          (drawOn smallVga (vgaDrawString 320#32 0#32 0#32 [0x42#8] 1#32) fun _ => 0#8) := by
  have hletter : ∀ {b : Byte}, Printable b → ∀ c ∈ [b], Printable c := by
    intro b hb c hc
    rwa [List.mem_singleton.mp hc]
  have hblack : ∀ px py, smallVga.OnScreen px py →
      (vgaGetPixel smallVga px py fun _ => 0#8).toNat ≠ (1#32).toNat % 2 ^ (8 * 1) := by
    intro px py hon
    rw [vgaGetPixel_toNat smallVga_ready hon]
    decide
  intro hsame
  have heq := (text_legible smallVga_ready (hletter ⟨by decide, by decide⟩)
    (hletter ⟨by decide, by decide⟩) (by decide) (by decide)
    fun px py hon _ _ => hblack px py hon).mp hsame 0
  exact absurd heq (by decide)

end Zenix
