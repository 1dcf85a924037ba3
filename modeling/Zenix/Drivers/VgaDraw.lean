import Mathlib.Data.List.Induction
import Mathlib.Data.List.TakeWhile
import Zenix.Drivers.Vga
import Zenix.Drivers.VgaFont

/-!
# Rectangles and text (kernel/drivers/vga/vga.c)

The drawing functions call `vga_set_pixel` and nothing else, and which calls they make does
not depend on the picture. They are written here as computations that log these calls, and
`drawOn` makes the calls.

Results:
1. `vgaGetPixel_drawOn`: the last call for a pixel gives it its value.
2. `mem_vgaFillRect`: which pixels are filled, also when the coordinates wrap around.
3. `vgaDrawRect_all`, `vgaDrawString_all`: where outlines and text are drawn.
-/

namespace Zenix
open ByteMemory Logged

/-- A call of `vga_set_pixel`. -/
structure PixelCall where
  x : Word
  y : Word
  color : Word
deriving DecidableEq

/-! ## The functions -/

def setPixel (x y color : Word) : Logged PixelCall Unit := touch ⟨x, y, color⟩

def vgaFillRect (x y w h color : Word) : Logged PixelCall Unit :=
  (List.range h.toNat).forM fun dy =>
    (List.range w.toNat).forM fun dx =>
      setPixel (x + BitVec.ofNat 32 dx) (y + BitVec.ofNat 32 dy) color

def vgaDrawRect (x y w h color : Word) : Logged PixelCall Unit := do
  (List.range w.toNat).forM fun i => do
    setPixel (x + BitVec.ofNat 32 i) y color
    setPixel (x + BitVec.ofNat 32 i) (y + h - 1#32) color
  (List.range h.toNat).forM fun i => do
    setPixel x (y + BitVec.ofNat 32 i) color
    setPixel (x + w - 1#32) (y + BitVec.ofNat 32 i) color

/-- "Scale for higher resolutions". -/
def charScale (screenWidth : Word) : Nat := if 800#32 ≤ screenWidth then 2 else 1

def vgaDrawChar (screenWidth x y : Word) (c : Byte) (color : Word) : Logged PixelCall Unit :=
  if 128 ≤ c.toNat then pure ()
  else
    let scale := charScale screenWidth
    (List.range 8).forM fun row =>
      let bits := font8x8 c.toNat row
      (List.range 8).forM fun col =>
        if bits &&& 0x80#8 >>> col ≠ 0#8 then
          (List.range scale).forM fun sy =>
            (List.range scale).forM fun sx =>
              setPixel (x + BitVec.ofNat 32 (col * scale + sx))
                (y + BitVec.ofNat 32 (row * scale + sy)) color
        else pure ()

/-- `vga_draw_string` on the bytes that follow a pointer. -/
def vgaDrawString (screenWidth x y : Word) (str : List Byte) (color : Word) :
    Logged PixelCall Word :=
  let charW := if 800#32 ≤ screenWidth then 16#32 else 8#32
  (str.takeWhile fun c => c ≠ 0#8).foldlM (fun offset c => do
    vgaDrawChar screenWidth (x + offset) y c color
    pure (offset + charW)) 0#32

/-- The memory after the calls. -/
def drawOn {α : Type} (v : Vga) (d : Logged PixelCall α) (m : Mem) : Mem :=
  d.log.foldl (fun m p => (vgaSetPixel v p.x p.y p.color m).value) m

/-! ## What is drawn -/

/-- The points of a rectangle whose sides may wrap around. -/
def InRect (x y w h px py : Word) : Prop := px - x < w ∧ py - y < h

/-- The points of a side. -/
theorem sub_lt_iff {a n p : Word} : p - a < n ↔ ∃ i < n.toNat, p = a + BitVec.ofNat 32 i := by
  constructor
  · intro hlt
    refine ⟨(p - a).toNat, hlt, ?_⟩
    rw [BitVec.ofNat_toNat, BitVec.setWidth_eq, BitVec.add_comm, BitVec.sub_add_cancel]
  · rintro ⟨i, hi, rfl⟩
    have hlt := n.isLt
    rw [BitVec.add_comm, BitVec.add_sub_cancel, BitVec.lt_def, toNat_ofNat_of_lt (by omega)]
    exact hi

theorem inRect_iff {x y w h px py : Word} :
    InRect x y w h px py ↔
      (∃ i < w.toNat, px = x + BitVec.ofNat 32 i) ∧ ∃ j < h.toNat, py = y + BitVec.ofNat 32 j :=
  and_congr sub_lt_iff sub_lt_iff

section Calls
variable {x y w h color : Word}

theorem mem_setPixel {p : PixelCall} : p ∈ (setPixel x y color).log ↔ p = ⟨x, y, color⟩ :=
  List.mem_singleton

/-- A filled rectangle is made of the points in it. -/
theorem mem_vgaFillRect {p : PixelCall} :
    p ∈ (vgaFillRect x y w h color).log ↔ InRect x y w h p.x p.y ∧ p.color = color := by
  rw [inRect_iff]
  simp only [vgaFillRect, log_forM, List.mem_flatMap, mem_setPixel, List.mem_range]
  constructor
  · rintro ⟨j, hj, i, hi, rfl⟩
    exact ⟨⟨⟨i, hi, rfl⟩, j, hj, rfl⟩, rfl⟩
  · rintro ⟨⟨⟨i, hi, hx⟩, j, hj, hy⟩, hcolor⟩
    refine ⟨j, hj, i, hi, ?_⟩
    rw [← hx, ← hy, ← hcolor]

/-- The outline of a rectangle. When it is empty the last row or column is the one before
the first. -/
def OnOutline (x y w h px py : Word) : Prop :=
  (px - x < w ∧ (py = y ∨ py = y + h - 1#32)) ∨ (py - y < h ∧ (px = x ∨ px = x + w - 1#32))

theorem mem_vgaDrawRect {p : PixelCall} :
    p ∈ (vgaDrawRect x y w h color).log ↔ OnOutline x y w h p.x p.y ∧ p.color = color := by
  unfold OnOutline
  simp only [vgaDrawRect, log_bind, log_forM, List.mem_append, List.mem_flatMap, mem_setPixel,
    List.mem_range, sub_lt_iff]
  constructor
  · rintro (⟨i, hi, rfl | rfl⟩ | ⟨i, hi, rfl | rfl⟩)
    · exact ⟨.inl ⟨⟨i, hi, rfl⟩, .inl rfl⟩, rfl⟩
    · exact ⟨.inl ⟨⟨i, hi, rfl⟩, .inr rfl⟩, rfl⟩
    · exact ⟨.inr ⟨⟨i, hi, rfl⟩, .inl rfl⟩, rfl⟩
    · exact ⟨.inr ⟨⟨i, hi, rfl⟩, .inr rfl⟩, rfl⟩
  · obtain ⟨px, py, c⟩ := p
    rintro ⟨⟨⟨i, hi, rfl⟩, rfl | rfl⟩ | ⟨⟨i, hi, rfl⟩, rfl | rfl⟩, rfl⟩
    · exact .inl ⟨i, hi, .inl rfl⟩
    · exact .inl ⟨i, hi, .inr rfl⟩
    · exact .inr ⟨i, hi, .inl rfl⟩
    · exact .inr ⟨i, hi, .inr rfl⟩

end Calls

/-! ## Text -/

section Text
variable {screenWidth x y color : Word}

/-- The side of a character. -/
def charSide (screenWidth : Word) : Nat := 8 * charScale screenWidth

theorem charScale_le (screenWidth : Word) : charScale screenWidth ≤ 2 := by
  unfold charScale
  split
  · exact Nat.le_refl _
  · decide

theorem vgaDrawChar_all {c : Byte} :
    (vgaDrawChar screenWidth x y c color).All fun p =>
      (∃ i < charSide screenWidth, p.x = x + BitVec.ofNat 32 i) ∧
        ∃ j < charSide screenWidth, p.y = y + BitVec.ofNat 32 j := by
  have hside : ∀ {k s : Nat}, k < 8 → s < charScale screenWidth →
      k * charScale screenWidth + s < charSide screenWidth := by
    intro k s hk hs
    have hrow : (k + 1) * charScale screenWidth ≤ 8 * charScale screenWidth :=
      Nat.mul_le_mul_right _ hk
    rw [Nat.add_one_mul] at hrow
    exact Nat.lt_of_lt_of_le (Nat.add_lt_add_left hs _) hrow
  unfold vgaDrawChar
  split
  · exact all_pure _
  · refine all_forM.mpr fun row hrow => all_forM.mpr fun col hcol => ?_
    split
    · refine all_forM.mpr fun sy hsy => all_forM.mpr fun sx hsx => all_touch ?_
      exact ⟨⟨_, hside (List.mem_range.mp hcol) (List.mem_range.mp hsx), rfl⟩,
        _, hside (List.mem_range.mp hrow) (List.mem_range.mp hsy), rfl⟩
    · exact all_pure _

theorem charW_eq (screenWidth : Word) :
    (if 800#32 ≤ screenWidth then 16#32 else 8#32) = BitVec.ofNat 32 (charSide screenWidth) := by
  unfold charSide charScale
  split
  · rfl
  · rfl

/-- The characters after the first `k`. -/
theorem drawChars_all (chars : List Byte) (k : Nat) :
    (chars.foldlM (fun offset c => do
      vgaDrawChar screenWidth (x + offset) y c color
      pure (offset + BitVec.ofNat 32 (charSide screenWidth)))
      (BitVec.ofNat 32 (charSide screenWidth * k))).All fun p : PixelCall =>
        (∃ i < charSide screenWidth * (k + chars.length), p.x = x + BitVec.ofNat 32 i) ∧
          ∃ j < charSide screenWidth, p.y = y + BitVec.ofNat 32 j := by
  induction chars generalizing k with
  | nil => exact all_pure _
  | cons c chars ih =>
    have hnext : BitVec.ofNat 32 (charSide screenWidth * k) +
        BitVec.ofNat 32 (charSide screenWidth) = BitVec.ofNat 32 (charSide screenWidth * (k + 1)) := by
      rw [ofNat_add_ofNat, Nat.mul_succ]
    rw [List.foldlM_cons]
    refine All.bind (All.bind ?_ (all_pure _)) ?_
    · rintro p hp
      obtain ⟨⟨i, hi, hx⟩, hy⟩ := vgaDrawChar_all p hp
      have hin : charSide screenWidth * k + i < charSide screenWidth * (k + (c :: chars).length) :=
        Nat.lt_of_lt_of_le (Nat.add_lt_add_left hi _) (by
          rw [← Nat.mul_succ]
          exact Nat.mul_le_mul_left _ (by rw [List.length_cons]; omega))
      exact ⟨⟨_, hin, by rw [hx, BitVec.add_assoc, ofNat_add_ofNat]⟩, hy⟩
    · have hrest := ih (k + 1)
      rw [← hnext, Nat.add_right_comm, Nat.add_assoc, ← List.length_cons] at hrest
      exact hrest

/-- The characters stand side by side, however far that is. -/
theorem vgaDrawString_all {str : List Byte} (hnul : 0#8 ∉ str)
    (hlength : charSide screenWidth * str.length < 2 ^ 32) :
    (vgaDrawString screenWidth x y str color).All fun p =>
      InRect x y (BitVec.ofNat 32 (charSide screenWidth * str.length))
        (BitVec.ofNat 32 (charSide screenWidth)) p.x p.y := by
  have htext : (str.takeWhile fun c => c ≠ 0#8) = str :=
    List.takeWhile_eq_self_iff.mpr fun c hc => decide_eq_true fun heq => hnul (heq ▸ hc)
  have hside : charSide screenWidth < 2 ^ 32 :=
    Nat.lt_of_le_of_lt (Nat.mul_le_mul_left 8 (charScale_le screenWidth)) (by decide)
  unfold vgaDrawString
  rw [htext, charW_eq]
  intro p hp
  have hpoint := drawChars_all str 0 p hp
  rw [Nat.zero_add] at hpoint
  rw [inRect_iff, toNat_ofNat_of_lt hlength, toNat_ofNat_of_lt hside]
  exact hpoint

end Text

/-! ## The picture -/

section Picture
variable {v : Vga} {n : Nat} {px py : Word} {m : Mem} {α : Type}

/-- What the pixel is after the calls: the last one for it decides. -/
theorem vgaGetPixel_drawOn (hv : v.Ready n) (hon : v.OnScreen px py) (d : Logged PixelCall α) :
    (vgaGetPixel v px py (drawOn v d m)).toNat =
      match d.log.reverse.find? fun p => p.x = px ∧ p.y = py with
      | some p => p.color.toNat % 2 ^ (8 * n)
      | none => (vgaGetPixel v px py m).toNat := by
  unfold drawOn
  induction d.log using List.reverseRecOn with
  | nil => rfl
  | append_singleton calls p ih =>
    rw [List.foldl_concat, List.reverse_concat, List.find?_cons]
    by_cases hp : p.x = px ∧ p.y = py
    · obtain ⟨rfl, rfl⟩ := hp
      simp only [and_self, decide_true]
      exact vgaGetPixel_set hv hon
    · rw [vgaGetPixel_set_ne hv fun hsame => hp ⟨hsame.1.symm, hsame.2.symm⟩, ih]
      simp only [hp, decide_false]

/-- A pixel for which no call is made stays. -/
theorem vgaGetPixel_drawOn_other (hv : v.Ready n) {d : Logged PixelCall α}
    (hd : d.All fun p => ¬ (px = p.x ∧ py = p.y)) :
    vgaGetPixel v px py (drawOn v d m) = vgaGetPixel v px py m := by
  unfold drawOn
  unfold All at hd
  generalize d.log = calls at hd ⊢
  induction calls using List.reverseRecOn with
  | nil => rfl
  | append_singleton calls p ih =>
    rw [List.foldl_concat, vgaGetPixel_set_ne hv (hd p (List.mem_append_right _ List.mem_cons_self))]
    exact ih fun q hq => hd q (List.mem_append_left _ hq)

end Picture

end Zenix
