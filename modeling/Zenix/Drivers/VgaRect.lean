import Zenix.Drivers.VgaDraw

/-!
# Which pixels are painted? (kernel/drivers/vga/vga.c)

A drawing in one colour is known from its area: the points of the screen that get the
colour, whatever was there before.

Results:
1. `paints_iff`: the area of a drawing is made of the points that it calls `vga_set_pixel` for.
2. `fill_rect_paints`: `vga_fill_rect` paints its rectangle, also across the left and the
   upper edge of the screen.
3. `draw_rect_border_iff`: `vga_draw_rect` paints the border of its rectangle, unless only one
   of the sides is zero.
-/

namespace Zenix
open ByteMemory Logged

/-! ## Areas -/

/-- The calls give the colour to exactly the points of the area that are on the screen. -/
def Paints {α : Type} (v : Vga) (bits : Nat) (d : Logged PixelCall α) (color : Word)
    (area : Word → Word → Prop) : Prop :=
  ∀ m px py,
    (v.OnScreen px py ∧ area px py →
      (vgaGetPixel v px py (drawOn v d m)).toNat = color.toNat % 2 ^ bits) ∧
    (¬ (v.OnScreen px py ∧ area px py) →
      vgaGetPixel v px py (drawOn v d m) = vgaGetPixel v px py m)

section Areas
variable {v : Vga} {n : Nat} {α : Type} {d : Logged PixelCall α} {color px py : Word}
  {area : Word → Word → Prop}

/-- A pixel of the screen can have at least two values. -/
theorem exists_pixel_ne (hv : v.Ready n) (hon : v.OnScreen px py) (k : Nat) :
    ∃ m, (vgaGetPixel v px py m).toNat ≠ k := by
  have hbytes := hv.bytes
  have hlow : ∀ b : Byte, (vgaGetPixel v px py fun _ => b).toNat % 256 = b.toNat := by
    intro b
    have hbyte : ∀ j, bytesValue (fun _ => b) (j + 1) % 256 = b.toNat := by
      intro j
      induction j with
      | zero =>
        rw [bytesValue, bytesValue, Nat.mul_zero, Nat.pow_zero, Nat.zero_add, Nat.mul_one]
        exact Nat.mod_eq_of_lt b.isLt
      | succ j ih =>
        rw [bytesValue, Nat.mul_succ, Nat.pow_add, ← Nat.mul_assoc, Nat.add_mul_mod_self_right]
        exact ih
    obtain ⟨j, rfl⟩ := Nat.exists_eq_succ_of_ne_zero (Nat.ne_of_gt hbytes.1)
    rw [vgaGetPixel_toNat hv hon]
    exact hbyte j
  by_cases hk : k % 256 = 0
  · refine ⟨fun _ => 1#8, fun heq => ?_⟩
    have hone := hlow 1#8
    rw [heq, hk] at hone
    exact absurd hone (by decide)
  · refine ⟨fun _ => 0#8, fun heq => hk ?_⟩
    have hzero := hlow 0#8
    rwa [heq] at hzero

/-- A pixel for which a call in one colour is made has the colour. -/
theorem vgaGetPixel_drawOn_color (hv : v.Ready n) (hon : v.OnScreen px py)
    (hcolor : d.All fun p => p.color = color) (hcall : ∃ p ∈ d.log, p.x = px ∧ p.y = py) (m : Mem) :
    (vgaGetPixel v px py (drawOn v d m)).toNat = color.toNat % 2 ^ (8 * n) := by
  rw [vgaGetPixel_drawOn hv hon]
  split
  · next p hfind =>
    have hp : p ∈ d.log := List.mem_reverse.mp (List.mem_of_find?_eq_some hfind)
    rw [hcolor p hp]
  · next hnone =>
    obtain ⟨p, hp, hat⟩ := hcall
    have hno := List.find?_eq_none.mp hnone p (List.mem_reverse.mpr hp)
    exact absurd (decide_eq_true hat) hno

/-- The area is made of the points of the calls. -/
theorem paints_iff (hv : v.Ready n) (hcolor : d.All fun p => p.color = color) :
    Paints v (8 * n) d color area ↔
      ∀ px py, v.OnScreen px py → (area px py ↔ ∃ p ∈ d.log, p.x = px ∧ p.y = py) := by
  have hother : ∀ {px py}, (¬ ∃ p ∈ d.log, p.x = px ∧ p.y = py) → ∀ m,
      vgaGetPixel v px py (drawOn v d m) = vgaGetPixel v px py m := by
    intro px py hnone m
    exact vgaGetPixel_drawOn_other hv fun p hp hat => hnone ⟨p, hp, hat.1.symm, hat.2.symm⟩
  constructor
  · intro hpaints px py hon
    obtain ⟨m, hm⟩ := exists_pixel_ne hv hon (color.toNat % 2 ^ (8 * n))
    obtain ⟨hin, hout⟩ := hpaints m px py
    constructor
    · intro harea
      by_contra hnone
      have hkept := hin ⟨hon, harea⟩
      rw [hother hnone] at hkept
      exact hm hkept
    · intro hcall
      by_contra harea
      have hkept := hout fun h => harea h.2
      rw [← hkept] at hm
      exact hm (vgaGetPixel_drawOn_color hv hon hcolor hcall m)
  · intro harea m px py
    constructor
    · rintro ⟨hon, hat⟩
      exact vgaGetPixel_drawOn_color hv hon hcolor ((harea px py hon).mp hat) m
    · intro hnot
      by_cases hon : v.OnScreen px py
      · exact hother (fun hcall => hnot ⟨hon, (harea px py hon).mpr hcall⟩) m
      · rw [vgaGetPixel_off hon, vgaGetPixel_off hon]

/-- The same in the mode of a screen. -/
theorem paints_mode_iff {info : VbeModeInfo} {hp hp' : Heap} (hmode : info.Usable)
    (hinit : vgaInit info hp = some (v, hp')) (hcolor : d.All fun p => p.color = color) :
    Paints v info.bpp.toNat d color area ↔
      ∀ px py, v.OnScreen px py → (area px py ↔ ∃ p ∈ d.log, p.x = px ∧ p.y = py) := by
  obtain ⟨hinfo, _, _, n, hv⟩ := vgaInit_ready hmode hinit
  have hbits : info.bpp.toNat = 8 * n := hinfo ▸ hv.bits
  rw [hbits]
  exact paints_iff hv hcolor

end Areas

/-! ## Filled rectangles -/

section Rectangles
variable {x y w h color : Word}

theorem vgaFillRect_calls {px py : Word} :
    (∃ p ∈ (vgaFillRect x y w h color).log, p.x = px ∧ p.y = py) ↔ InRect x y w h px py := by
  constructor
  · rintro ⟨p, hp, rfl, rfl⟩
    exact (mem_vgaFillRect.mp hp).1
  · exact fun hin => ⟨⟨px, py, color⟩, mem_vgaFillRect.mpr ⟨hin, rfl⟩, rfl, rfl⟩

/-- A side that starts at a negative coordinate: what is left of it on the screen. -/
theorem sub_lt_of_neg {a n p : Word} (ha : a.toInt < 0) (hp : 0 ≤ p.toInt) :
    p - a < n ↔ p.toInt < a.toInt + n.toNat := by
  have hsub : ((p - a).toNat : Int) = p.toInt - a.toInt := by
    rw [BitVec.toInt_eq_toNat_cond] at ha hp ⊢
    rw [BitVec.toInt_eq_toNat_cond]
    have hlt := p.isLt
    have hlt' := a.isLt
    rw [BitVec.toNat_sub]
    split at ha <;> split at hp <;> omega
  rw [BitVec.lt_def]
  omega

end Rectangles

/-- In every usable mode `vga_fill_rect` paints the points of its rectangle, whose sides may
wrap around. A rectangle with a negative corner is cut at the edges of the screen. -/
theorem fill_rect_paints {info : VbeModeInfo} {hp hp' : Heap} {v : Vga} (hmode : info.Usable)
    (hinit : vgaInit info hp = some (v, hp')) (x y w h color : Word) :
    Paints v info.bpp.toNat (vgaFillRect x y w h color) color
        (fun px py => px - x < w ∧ py - y < h) ∧
      ∀ px py : Word, 0 ≤ px.toInt → 0 ≤ py.toInt →
        (x.toInt < 0 → (px - x < w ↔ px.toInt < x.toInt + w.toNat)) ∧
        (y.toInt < 0 → (py - y < h ↔ py.toInt < y.toInt + h.toNat)) := by
  have hcolor : (vgaFillRect x y w h color).All fun p => p.color = color :=
    fun p hp => (mem_vgaFillRect.mp hp).2
  refine ⟨(paints_mode_iff hmode hinit hcolor).mpr fun px py _ => vgaFillRect_calls.symm,
    fun px py hx hy => ?_⟩
  exact ⟨fun hneg => sub_lt_of_neg hneg hx, fun hneg => sub_lt_of_neg hneg hy⟩

/-- A rectangle that is four points wide and starts two points to the left of the screen. -/
theorem fill_rect_paints_cut : ∃ v h,
    vgaInit smallMode (heapInit fun _ => 0#8) = some (v, h) ∧
      ∀ m, (vgaGetPixel v 1#32 0#32
        (drawOn v (vgaFillRect 0xFFFFFFFE#32 0#32 4#32 1#32 7#32) m)).toNat = 7 := by
  obtain ⟨v, h, hinit⟩ := vgaInit_smallMode
  have hon : v.OnScreen 1#32 0#32 := (vgaInit_onScreen smallMode_usable hinit).mpr (by decide)
  refine ⟨v, h, hinit, fun m => ?_⟩
  have hpaints := fill_rect_paints smallMode_usable hinit 0xFFFFFFFE#32 0#32 4#32 1#32 7#32
  exact (hpaints.1 m 1#32 0#32).1 ⟨hon, by decide⟩

/-! ## Outlines -/

section Outlines
variable {x y w h color : Word}

theorem vgaDrawRect_calls {px py : Word} :
    (∃ p ∈ (vgaDrawRect x y w h color).log, p.x = px ∧ p.y = py) ↔ OnOutline x y w h px py := by
  constructor
  · rintro ⟨p, hp, rfl, rfl⟩
    exact (mem_vgaDrawRect.mp hp).1
  · exact fun hon => ⟨⟨px, py, color⟩, mem_vgaDrawRect.mpr ⟨hon, rfl⟩, rfl, rfl⟩

/-- The first or the last of the `n` points from `a`, which do not wrap around. -/
def AtEnd (a n p : Word) : Prop := p = a ∨ p.toNat + 1 = a.toNat + n.toNat

/-- One of the `n` points from `a`. -/
def InSpan (a n p : Word) : Prop := a.toNat ≤ p.toNat ∧ p.toNat < a.toNat + n.toNat

/-- The first or last row or column of the rectangle. -/
def OnBorder (x y w h px py : Word) : Prop :=
  (InSpan x w px ∧ InSpan y h py) ∧ (AtEnd x w px ∨ AtEnd y h py)

/-- A rectangle without columns that has rows is drawn as two columns, and this one is seen. -/
def StrayColumn (v : Vga) (x y w h : Word) : Prop :=
  w = 0#32 ∧ h ≠ 0#32 ∧ y < v.height ∧ (x < v.width ∨ x - 1#32 < v.width)

/-- The same for a rectangle without rows. -/
def StrayRow (v : Vga) (x y w h : Word) : Prop :=
  h = 0#32 ∧ w ≠ 0#32 ∧ x < v.width ∧ (y < v.height ∨ y - 1#32 < v.height)

theorem sub_lt_of_fit {a n p : Word} (hfit : a.toNat + n.toNat < 2 ^ 32) :
    p - a < n ↔ InSpan a n p := by
  unfold InSpan
  rw [BitVec.lt_def, BitVec.toNat_sub]
  have hlt := p.isLt
  omega

/-- The last point of a side that is not empty. -/
theorem atEnd_iff {a n p : Word} (hfit : a.toNat + n.toNat < 2 ^ 32) (hn : n ≠ 0#32) :
    AtEnd a n p ↔ p = a ∨ p = a + n - 1#32 := by
  have hpos : 0 < n.toNat := Nat.pos_of_ne_zero fun hzero => hn (BitVec.eq_of_toNat_eq hzero)
  have hlast : (a + n - 1#32).toNat = a.toNat + n.toNat - 1 := by
    have hend : (a + n).toNat = a.toNat + n.toNat := toNat_add_of_lt hfit
    rw [← hend]
    exact BitVec.toNat_sub_of_le (by rw [BitVec.le_def, hend]; exact Nat.le_trans hpos (by omega))
  refine or_congr Iff.rfl ?_
  rw [← BitVec.toNat_inj, hlast]
  omega

theorem InSpan.ne_zero {a n p : Word} (h : InSpan a n p) : n ≠ 0#32 := by
  rintro rfl
  exact absurd h.2 (Nat.not_lt.mpr h.1)

/-- The ends of a side that is not empty are on it. -/
theorem AtEnd.inSpan {a n p : Word} (h : AtEnd a n p) (hn : n ≠ 0#32) : InSpan a n p := by
  have hpos : 0 < n.toNat := Nat.pos_of_ne_zero fun hzero => hn (BitVec.eq_of_toNat_eq hzero)
  unfold InSpan
  rcases h with rfl | hlast
  · omega
  · omega

/-- The outline of a rectangle that is not empty is its border. -/
theorem onOutline_iff (hx : x.toNat + w.toNat < 2 ^ 32) (hy : y.toNat + h.toNat < 2 ^ 32)
    (hw : w ≠ 0#32) (hh : h ≠ 0#32) {px py : Word} :
    OnOutline x y w h px py ↔ OnBorder x y w h px py := by
  unfold OnOutline OnBorder
  rw [sub_lt_of_fit hx, sub_lt_of_fit hy, ← atEnd_iff hx hw, ← atEnd_iff hy hh]
  constructor
  · rintro (⟨hin, hend⟩ | ⟨hin, hend⟩)
    · exact ⟨⟨hin, hend.inSpan hh⟩, .inr hend⟩
    · exact ⟨⟨hend.inSpan hw, hin⟩, .inl hend⟩
  · rintro ⟨⟨hinX, hinY⟩, hend | hend⟩
    · exact .inr ⟨hinY, hend⟩
    · exact .inl ⟨hinX, hend⟩

/-- The two lines along a side that is not empty: when none of their points is seen. -/
theorem stray_iff {width height a b n : Word} (hfit : b.toNat + n.toNat < 2 ^ 32) (hn : n ≠ 0#32) :
    (∀ p q, p < width → q < height → ¬ (q - b < n ∧ (p = a ∨ p = a - 1#32))) ↔
      ¬ (b < height ∧ (a < width ∨ a - 1#32 < width)) := by
  have hfirst : b - b < n := by
    rw [BitVec.sub_self, BitVec.lt_def]
    exact Nat.pos_of_ne_zero fun hzero => hn (BitVec.eq_of_toNat_eq hzero)
  constructor
  · rintro hnone ⟨hb, ha | ha⟩
    · exact hnone a b ha hb ⟨hfirst, .inl rfl⟩
    · exact hnone (a - 1#32) b ha hb ⟨hfirst, .inr rfl⟩
  · rintro hstray p q hp hq ⟨hin, hline⟩
    have hb : b < height := Nat.lt_of_le_of_lt ((sub_lt_of_fit hfit).mp hin).1 hq
    rcases hline with rfl | rfl
    · exact hstray ⟨hb, .inl hp⟩
    · exact hstray ⟨hb, .inr hp⟩

theorem not_sub_lt_zero {a p : Word} : ¬ p - a < 0#32 := Nat.not_lt_zero _

/-- Nothing of the outline of an empty rectangle is seen exactly when no stray line is. -/
theorem empty_outline_iff (v : Vga) (hx : x.toNat + w.toNat < 2 ^ 32)
    (hy : y.toNat + h.toNat < 2 ^ 32) (hempty : w = 0#32 ∨ h = 0#32) :
    (∀ px py, v.OnScreen px py → ¬ OnOutline x y w h px py) ↔
      ¬ StrayColumn v x y w h ∧ ¬ StrayRow v x y w h := by
  unfold StrayColumn StrayRow OnOutline Vga.OnScreen
  by_cases hw : w = 0#32
  · by_cases hh : h = 0#32
    · subst hw hh
      refine iff_of_true (fun px py _ hon => ?_) ⟨fun hrow => hrow.2.1 rfl, fun hcol => hcol.2.1 rfl⟩
      exact hon.elim (fun h => not_sub_lt_zero h.1) fun h => not_sub_lt_zero h.1
    · subst hw
      have hrows := @stray_iff v.width v.height x y h hy hh
      rw [and_iff_left (fun hrow => hh hrow.1 : ¬ (h = 0#32 ∧ _)), and_iff_right rfl,
        and_iff_right hh, ← hrows, BitVec.add_zero]
      constructor
      · exact fun hnone p q hp hq hin => hnone p q ⟨hp, hq⟩ (.inr hin)
      · exact fun hnone p q hon hin =>
          hin.elim (fun h => not_sub_lt_zero h.1) fun h => hnone p q hon.1 hon.2 h
  · have hh : h = 0#32 := hempty.resolve_left hw
    subst hh
    have hcolumns := @stray_iff v.height v.width y x w hx hw
    rw [and_iff_right (fun hcol => hw hcol.1 : ¬ (w = 0#32 ∧ _)), and_iff_right rfl,
      and_iff_right hw, ← hcolumns, BitVec.add_zero]
    constructor
    · exact fun hnone p q hp hq hin => hnone q p ⟨hq, hp⟩ (.inl hin)
    · exact fun hnone p q hon hin =>
        hin.elim (fun h => hnone q p hon.2 hon.1 h) fun h => not_sub_lt_zero h.1

/-- The outline is drawn where the border is, on the screen, unless a stray line is seen. -/
theorem outline_border_iff (v : Vga) (hx : x.toNat + w.toNat < 2 ^ 32)
    (hy : y.toNat + h.toNat < 2 ^ 32) :
    (∀ px py, v.OnScreen px py → (OnBorder x y w h px py ↔ OnOutline x y w h px py)) ↔
      ¬ StrayColumn v x y w h ∧ ¬ StrayRow v x y w h := by
  by_cases hempty : w = 0#32 ∨ h = 0#32
  · rw [← empty_outline_iff v hx hy hempty]
    have hborder : ∀ px py, ¬ OnBorder x y w h px py := by
      rintro px py ⟨⟨hinX, hinY⟩, _⟩
      exact hempty.elim hinX.ne_zero hinY.ne_zero
    constructor
    · exact fun hiff px py hon hout => hborder px py ((hiff px py hon).mpr hout)
    · exact fun hnone px py hon => iff_of_false (hborder px py) (hnone px py hon)
  · rw [not_or] at hempty
    refine iff_of_true (fun px py _ => (onOutline_iff hx hy hempty.1 hempty.2).symm) ?_
    exact ⟨fun hcol => hempty.1 hcol.1, fun hrow => hempty.2 hrow.1⟩

end Outlines

/-- `vga_draw_rect` paints the border of a rectangle that does not wrap around exactly when it
is not one of those without columns or without rows whose stray lines are seen. -/
theorem draw_rect_border_iff {info : VbeModeInfo} {hp hp' : Heap} {v : Vga} (hmode : info.Usable)
    (hinit : vgaInit info hp = some (v, hp')) {x y w h : Word} (hx : x.toNat + w.toNat < 2 ^ 32)
    (hy : y.toNat + h.toNat < 2 ^ 32) (color : Word) :
    Paints v info.bpp.toNat (vgaDrawRect x y w h color) color (OnBorder x y w h) ↔
      ¬ StrayColumn v x y w h ∧ ¬ StrayRow v x y w h := by
  have hcolor : (vgaDrawRect x y w h color).All fun p => p.color = color :=
    fun p hp => (mem_vgaDrawRect.mp hp).2
  rw [paints_mode_iff hmode hinit hcolor, ← outline_border_iff v hx hy]
  simp only [vgaDrawRect_calls]

/-- A square of four points. -/
theorem draw_rect_border_square : ∃ v h,
    vgaInit smallMode (heapInit fun _ => 0#8) = some (v, h) ∧
      Paints v 8 (vgaDrawRect 3#32 3#32 2#32 2#32 7#32) 7#32 (OnBorder 3#32 3#32 2#32 2#32) := by
  obtain ⟨v, h, hinit⟩ := vgaInit_smallMode
  refine ⟨v, h, hinit, ?_⟩
  exact (draw_rect_border_iff smallMode_usable hinit (by decide) (by decide) 7#32).mpr
    ⟨fun hcol => absurd hcol.1 (by decide), fun hrow => absurd hrow.1 (by decide)⟩

/-- A rectangle without columns, three rows high: a pixel outside changes. -/
theorem draw_rect_stray : ∃ v h,
    vgaInit smallMode (heapInit fun _ => 0#8) = some (v, h) ∧
      (∀ px py, ¬ OnBorder 3#32 3#32 0#32 3#32 px py) ∧
      (vgaGetPixel v 2#32 3#32
        (drawOn v (vgaDrawRect 3#32 3#32 0#32 3#32 7#32) fun _ => 0#8)).toNat = 7 ∧
      (vgaGetPixel v 2#32 3#32 fun _ => 0#8).toNat = 0 ∧
      ¬ Paints v 8 (vgaDrawRect 3#32 3#32 0#32 3#32 7#32) 7#32 (OnBorder 3#32 3#32 0#32 3#32) := by
  obtain ⟨v, h, hinit⟩ := vgaInit_smallMode
  obtain ⟨hinfo, _, _, n, hv⟩ := vgaInit_ready smallMode_usable hinit
  have hbits : 8 = 8 * n := (congrArg (fun i => i.bpp.toNat) hinfo).symm.trans hv.bits
  obtain rfl : n = 1 := by omega
  have hon : v.OnScreen 2#32 3#32 := (vgaInit_onScreen smallMode_usable hinit).mpr (by decide)
  have hborder : ∀ px py, ¬ OnBorder 3#32 3#32 0#32 3#32 px py := fun px py hat => hat.1.1.ne_zero rfl
  have hcolor : (vgaDrawRect 3#32 3#32 0#32 3#32 7#32).All fun p => p.color = 7#32 :=
    fun p hp => (mem_vgaDrawRect.mp hp).2
  have hdrawn := vgaGetPixel_drawOn_color hv hon hcolor
    (vgaDrawRect_calls.mpr (.inr ⟨by decide, .inr (by decide)⟩)) fun _ => 0#8
  have hblack : (vgaGetPixel v 2#32 3#32 fun _ => 0#8).toNat = 0 := vgaGetPixel_toNat hv hon _
  refine ⟨v, h, hinit, hborder, hdrawn, hblack, fun hpaints => ?_⟩
  have hkept := (hpaints (fun _ => 0#8) 2#32 3#32).2 fun hat => hborder _ _ hat.2
  rw [hkept, hblack] at hdrawn
  exact absurd hdrawn (by decide)

end Zenix
