import Mathlib.Data.List.Range
import Zenix.Drivers.VgaDraw
import Zenix.Lib.Rounding

/-!
# Lines (kernel/drivers/vga/vga.c, kernel/drivers/video/gop_fb.c)

Both line functions choose a number of steps from the differences of the coordinates and
advance by fractions, here without rounding errors. They compare the differences with their
signs, so that the larger one is not always the longer one.

Results:
1. `lineLoop_log`: the points of a line are an interpolation of its ends.
2. `connects_iff`: a line of `n` steps has no gaps exactly when neither coordinate has further
   to go.
3. `line_connects_iff`: which lines the two functions draw without gaps up to their end.
-/

namespace Zenix
open ByteMemory Logged

/-- `(uint32_t)x` of a `float`. -/
def toUint32 (x : ℚ) : Word := BitVec.ofInt 32 (truncate x)

/-- `for (int i = 0; i <= steps; i++)` with the rounds that are left. The calls are those of
`vga_set_pixel` or `gop_putpixel`. -/
def lineLoop (xinc yinc : ℚ) (color : Word) : Nat → ℚ → ℚ → Logged PixelCall Unit
  | 0, _, _ => pure ()
  | left + 1, x, y => do
      setPixel (toUint32 x) (toUint32 y) color
      lineLoop xinc yinc color left (x + xinc) (y + yinc)

/-- The `steps` of `vga_draw_line`. -/
def vgaSteps (dx dy : Word) : Word :=
  if dy.slt dx then (if (0#32).slt dx then dx else -dx) else (if (0#32).slt dy then dy else -dy)

/-- The increments of a line without steps are not used. -/
def vgaDrawLine (x1 y1 x2 y2 color : Word) : Logged PixelCall Unit :=
  let dx := x2 - x1
  let dy := y2 - y1
  let steps := vgaSteps dx dy
  let xinc : ℚ := dx.toInt / steps.toInt
  let yinc : ℚ := dy.toInt / steps.toInt
  lineLoop xinc yinc color (steps.toInt + 1).toNat x1.toNat y1.toNat

/-- The `steps` of `gop_draw_line`. -/
def gopSteps (dx dy : Word) : Word :=
  let steps := if dy.slt dx then dx else dy
  let steps := if steps.slt 0#32 then -steps else steps
  if steps = 0#32 then 1#32 else steps

def gopDrawLine (x1 y1 x2 y2 color : Word) : Logged PixelCall Unit :=
  let dx := x2 - x1
  let dy := y2 - y1
  let steps := gopSteps dx dy
  let xInc : ℚ := dx.toInt / steps.toInt
  let yInc : ℚ := dy.toInt / steps.toInt
  lineLoop xInc yInc color (steps.toInt + 1).toNat x1.toNat y1.toNat

/-! ## The property -/

/-- The points of the calls, in order. -/
def visited (d : Logged PixelCall Unit) : List (Word × Word) := d.log.map fun p => (p.x, p.y)

/-- Neither coordinate differs by more than one. -/
def Adjacent (p q : Word × Word) : Prop :=
  |(q.1.toNat : ℤ) - p.1.toNat| ≤ 1 ∧ |(q.2.toNat : ℤ) - p.2.toNat| ≤ 1

/-- The points lead from the one to the other without gaps. -/
structure Connects (points : List (Word × Word)) (first last : Word × Word) : Prop where
  first : points.head? = some first
  last : points.getLast? = some last
  gapless : points.IsChain Adjacent

/-! ## Points -/

theorem lineLoop_log (xinc yinc : ℚ) (color : Word) (left : Nat) (x y : ℚ) :
    (lineLoop xinc yinc color left x y).log =
      (List.range left).map fun i : ℕ =>
        ⟨toUint32 (x + i * xinc), toUint32 (y + i * yinc), color⟩ := by
  induction left generalizing x y with
  | zero => rfl
  | succ left ih =>
    have hnext : ∀ (z inc : ℚ) (i : ℕ), z + inc + i * inc = z + (i + 1 : ℕ) * inc := by
      intro z inc i
      push_cast
      ring
    rw [lineLoop, log_bind, ih, List.range_succ_eq_map, List.map_cons, List.map_map]
    simp only [hnext, Nat.cast_zero, zero_mul, add_zero]
    rfl

theorem toUint32_toNat {x : ℚ} (hx : 0 ≤ x) (hmax : x ≤ (2 ^ 32 - 1 : ℤ)) :
    ((toUint32 x).toNat : ℤ) = ⌊x⌋ := by
  have hlow : 0 ≤ ⌊x⌋ := Int.floor_nonneg.mpr hx
  have hhigh : ⌊x⌋ ≤ 2 ^ 32 - 1 := by
    have hfloor := Int.floor_mono hmax
    rwa [Int.floor_intCast] at hfloor
  rw [toUint32, truncate_of_nonneg hx, BitVec.toNat_ofInt]
  omega

/-! ## Lines of `n` steps -/

section Steps
variable {a b c e : Word} {n : ℕ}

/-- A coordinate of a line from `a` to `b`. -/
def along (a b : Word) (n i : ℕ) : Word := toUint32 (interpolate a.toNat (b.toNat - a.toNat) n i)

theorem along_toNat (hn : 0 < n) {i : ℕ} (hi : i ≤ n) :
    ((along a b n i).toNat : ℤ) = ⌊interpolate a.toNat (b.toNat - a.toNat) n i⌋ := by
  have ha := a.isLt
  have hb := b.isLt
  refine toUint32_toNat (interpolate_nonneg hn hi (by omega) (by omega)) ?_
  exact interpolate_le hn hi (by omega) (by omega)

theorem along_zero : along a b n 0 = a := by
  apply BitVec.eq_of_toNat_eq
  have ha := a.isLt
  have hstart : ((along a b n 0).toNat : ℤ) = a.toNat := by
    have hmax : ((a.toNat : ℤ) : ℚ) ≤ (2 ^ 32 - 1 : ℤ) := Int.cast_le.mpr (by omega)
    rw [along, interpolate_zero, toUint32_toNat (by positivity) hmax, Int.floor_intCast]
  exact_mod_cast hstart

theorem along_last (hn : 0 < n) : along a b n n = b := by
  apply BitVec.eq_of_toNat_eq
  have hend := along_toNat (a := a) (b := b) hn (Nat.le_refl n)
  rw [interpolate_last hn, Int.floor_intCast, add_sub_cancel] at hend
  exact_mod_cast hend

/-- One coordinate of a line has no gaps. -/
theorem along_gapless_iff (hn : 0 < n) :
    (∀ i < n, |((along a b n (i + 1)).toNat : ℤ) - (along a b n i).toNat| ≤ 1) ↔
      |(b.toNat : ℤ) - a.toNat| ≤ n := by
  rw [← gapless_iff hn]
  refine forall₂_congr fun i hi => ?_
  rw [along_toNat hn hi, along_toNat hn (Nat.le_of_lt hi)]

/-- A line of `n` steps reaches its end without gaps when neither coordinate has further to
go. -/
theorem connects_iff :
    Connects ((List.range (n + 1)).map fun i => (along a b n i, along c e n i)) (a, c) (b, e) ↔
      |(b.toNat : ℤ) - a.toNat| ≤ n ∧ |(e.toNat : ℤ) - c.toNat| ≤ n := by
  rcases Nat.eq_zero_or_pos n with rfl | hn
  · have hpoint : (List.range (0 + 1)).map (fun i => (along a b 0 i, along c e 0 i)) = [(a, c)] := by
      rw [List.range_one, List.map_singleton, along_zero, along_zero]
    rw [hpoint, Nat.cast_zero, abs_nonpos_iff, abs_nonpos_iff, sub_eq_zero, sub_eq_zero,
      Nat.cast_inj, Nat.cast_inj, BitVec.toNat_inj, BitVec.toNat_inj]
    constructor
    · intro hline
      have hlast := Option.some.inj hline.last
      exact ⟨(congrArg Prod.fst hlast).symm, (congrArg Prod.snd hlast).symm⟩
    · rintro ⟨rfl, rfl⟩
      exact ⟨rfl, rfl, .singleton _⟩
  have hgapless : ((List.range (n + 1)).map fun i => (along a b n i, along c e n i)).IsChain
      Adjacent ↔ |(b.toNat : ℤ) - a.toNat| ≤ n ∧ |(e.toNat : ℤ) - c.toNat| ≤ n := by
    rw [List.isChain_map, List.isChain_range_succ, ← along_gapless_iff hn, ← along_gapless_iff hn]
    exact forall₂_and
  constructor
  · exact fun hline => hgapless.mp hline.gapless
  · intro hsteps
    refine ⟨?_, ?_, hgapless.mpr hsteps⟩
    · rw [List.range_succ_eq_map, List.map_cons, List.head?_cons, along_zero, along_zero]
    · rw [List.range_succ, List.map_append, List.map_singleton, List.getLast?_concat, along_last hn,
        along_last hn]

end Steps

/-! ## The number of steps -/

theorem toInt_sub_of_lt {a b : Word} (ha : a.toNat < 2 ^ 15) (hb : b.toNat < 2 ^ 15) :
    (b - a).toInt = b.toNat - a.toNat := by
  rw [BitVec.toInt_eq_toNat_bmod, BitVec.toNat_sub, Int.bmod_def]
  push_cast
  omega

theorem toInt_neg_of_lt {d : Word} (hmin : -2 ^ 31 < d.toInt) : (-d).toInt = -d.toInt := by
  have hmax := d.toInt_lt
  rw [BitVec.toInt_neg, Int.bmod_def]
  omega

theorem slt_zero_iff {d : Word} : d.slt 0#32 ↔ d.toInt < 0 := BitVec.slt_iff_toInt_lt

theorem zero_slt_iff {d : Word} : (0#32).slt d ↔ 0 < d.toInt := BitVec.slt_iff_toInt_lt

theorem vgaSteps_toInt {dx dy : Word} (hx : -2 ^ 31 < dx.toInt) (hy : -2 ^ 31 < dy.toInt) :
    (vgaSteps dx dy).toInt =
      (if dy.toInt < dx.toInt then dx.toInt.natAbs else dy.toInt.natAbs : ℕ) := by
  have habs : ∀ {d : Word}, -2 ^ 31 < d.toInt →
      (if (0#32).slt d then d else -d).toInt = d.toInt.natAbs := by
    intro d hmin
    rw [apply_ite BitVec.toInt, toInt_neg_of_lt hmin, if_congr zero_slt_iff rfl rfl]
    omega
  unfold vgaSteps
  rw [apply_ite BitVec.toInt, habs hx, habs hy, if_congr BitVec.slt_iff_toInt_lt rfl rfl]
  exact (apply_ite Nat.cast _ _ _).symm

theorem gopSteps_toInt {dx dy : Word} (hx : -2 ^ 31 < dx.toInt) (hy : -2 ^ 31 < dy.toInt) :
    (gopSteps dx dy).toInt = (max 1 (max dx.toInt dy.toInt).natAbs : ℕ) := by
  obtain ⟨m, hm, hmax⟩ : ∃ m : Word, m = (if dy.slt dx then dx else dy) ∧
      m.toInt = max dx.toInt dy.toInt := by
    refine ⟨_, rfl, ?_⟩
    rw [apply_ite BitVec.toInt, if_congr BitVec.slt_iff_toInt_lt rfl rfl]
    omega
  have habs : (if m.slt 0#32 then -m else m).toInt = m.toInt.natAbs := by
    rw [apply_ite BitVec.toInt, toInt_neg_of_lt (by omega), if_congr slt_zero_iff rfl rfl]
    omega
  have hzero : ∀ d : Word, d = 0#32 ↔ d.toInt = 0 := fun d => BitVec.toInt_inj.symm
  unfold gopSteps
  dsimp only
  rw [← hm, apply_ite BitVec.toInt, if_congr (hzero _) rfl rfl, habs, hmax]
  have hone : (1#32).toInt = 1 := rfl
  omega

/-- The points of a line whose increments are equal parts of the two ways. -/
theorem lineLoop_visited {x1 y1 x2 y2 : Word} (hx1 : x1.toNat < 2 ^ 15) (hy1 : y1.toNat < 2 ^ 15)
    (hx2 : x2.toNat < 2 ^ 15) (hy2 : y2.toNat < 2 ^ 15) {steps : Word} {n : ℕ}
    (hsteps : steps.toInt = n) (color : Word) :
    visited (lineLoop ((x2 - x1).toInt / steps.toInt) ((y2 - y1).toInt / steps.toInt) color
      (steps.toInt + 1).toNat x1.toNat y1.toNat) =
      (List.range (n + 1)).map fun i => (along x1 x2 n i, along y1 y2 n i) := by
  have hrounds : (steps.toInt + 1).toNat = n + 1 := by omega
  rw [visited, lineLoop_log, List.map_map, hrounds, hsteps, toInt_sub_of_lt hx1 hx2,
    toInt_sub_of_lt hy1 hy2]
  refine List.map_congr_left fun i _ => ?_
  simp only [Function.comp_apply, along, interpolate, Int.cast_natCast]

/-! ## The two functions -/

section Lines
variable {x1 y1 x2 y2 : Word} (hx1 : x1.toNat < 2 ^ 15) (hy1 : y1.toNat < 2 ^ 15)
  (hx2 : x2.toNat < 2 ^ 15) (hy2 : y2.toNat < 2 ^ 15) (color : Word)
include hx1 hy1 hx2 hy2

/-- A line of `n` steps with such increments. -/
theorem lineLoop_connects_iff {steps : Word} {n : ℕ} (hsteps : steps.toInt = n) :
    Connects (visited (lineLoop ((x2 - x1).toInt / steps.toInt) ((y2 - y1).toInt / steps.toInt) color
        (steps.toInt + 1).toNat x1.toNat y1.toNat)) (x1, y1) (x2, y2) ↔
      (x2 - x1).toInt.natAbs ≤ n ∧ (y2 - y1).toInt.natAbs ≤ n := by
  rw [lineLoop_visited hx1 hy1 hx2 hy2 hsteps, connects_iff, toInt_sub_of_lt hx1 hx2,
    toInt_sub_of_lt hy1 hy2, Int.abs_eq_natAbs, Int.abs_eq_natAbs, Nat.cast_le, Nat.cast_le]

theorem vgaDrawLine_connects_iff :
    Connects (visited (vgaDrawLine x1 y1 x2 y2 color)) (x1, y1) (x2, y2) ↔
      x1.toNat + y1.toNat ≤ x2.toNat + y2.toNat ∨ x2.toNat + y1.toNat = x1.toNat + y2.toNat := by
  have hdx := toInt_sub_of_lt hx1 hx2
  have hdy := toInt_sub_of_lt hy1 hy2
  have hsteps := @vgaSteps_toInt (x2 - x1) (y2 - y1) (by omega) (by omega)
  unfold vgaDrawLine
  dsimp only
  rw [lineLoop_connects_iff hx1 hy1 hx2 hy2 color hsteps]
  split <;> omega

theorem gopDrawLine_connects_iff :
    Connects (visited (gopDrawLine x1 y1 x2 y2 color)) (x1, y1) (x2, y2) ↔
      (x1.toNat + y1.toNat ≤ x2.toNat + y2.toNat ∨ x2.toNat + y1.toNat = x1.toNat + y2.toNat) ∨
        (x1 = x2 ∧ y1.toNat = y2.toNat + 1) ∨ y1 = y2 ∧ x1.toNat = x2.toNat + 1 := by
  have hdx := toInt_sub_of_lt hx1 hx2
  have hdy := toInt_sub_of_lt hy1 hy2
  have hsteps := @gopSteps_toInt (x2 - x1) (y2 - y1) (by omega) (by omega)
  unfold gopDrawLine
  dsimp only
  rw [lineLoop_connects_iff hx1 hy1 hx2 hy2 color hsteps, ← BitVec.toNat_inj, ← BitVec.toNat_inj]
  omega

end Lines

/-- Between points below `2 ^ 15`, both functions draw a line to its end without gaps exactly
when the coordinates do not decrease in total or change by the same number. `gop_draw_line`
also draws the lines of one step to the left or upwards. -/
theorem line_connects_iff {x1 y1 x2 y2 : Word} (hx1 : x1.toNat < 2 ^ 15) (hy1 : y1.toNat < 2 ^ 15)
    (hx2 : x2.toNat < 2 ^ 15) (hy2 : y2.toNat < 2 ^ 15) (color : Word) :
    (Connects (visited (vgaDrawLine x1 y1 x2 y2 color)) (x1, y1) (x2, y2) ∧
        Connects (visited (gopDrawLine x1 y1 x2 y2 color)) (x1, y1) (x2, y2) ↔
      x1.toNat + y1.toNat ≤ x2.toNat + y2.toNat ∨ x2.toNat + y1.toNat = x1.toNat + y2.toNat) ∧
    (Connects (visited (vgaDrawLine x1 y1 x2 y2 color)) (x1, y1) (x2, y2) ↔
      x1.toNat + y1.toNat ≤ x2.toNat + y2.toNat ∨ x2.toNat + y1.toNat = x1.toNat + y2.toNat) ∧
    (Connects (visited (gopDrawLine x1 y1 x2 y2 color)) (x1, y1) (x2, y2) ↔
      (x1.toNat + y1.toNat ≤ x2.toNat + y2.toNat ∨ x2.toNat + y1.toNat = x1.toNat + y2.toNat) ∨
        (x1 = x2 ∧ y1.toNat = y2.toNat + 1) ∨ y1 = y2 ∧ x1.toNat = x2.toNat + 1) := by
  have hvga := vgaDrawLine_connects_iff hx1 hy1 hx2 hy2 color
  have hgop := gopDrawLine_connects_iff hx1 hy1 hx2 hy2 color
  refine ⟨?_, hvga, hgop⟩
  rw [hvga, hgop]
  exact and_iff_left_of_imp .inl

/-- A line to the right and upwards. -/
theorem line_connects_right :
    Connects (visited (vgaDrawLine 2#32 4#32 7#32 3#32 0#32)) (2#32, 4#32) (7#32, 3#32) :=
  ((line_connects_iff (by decide) (by decide) (by decide) (by decide) 0#32).2.1).mpr (by decide)

/-- A line of five points to the left, which `vga_draw_line` does not draw, and one of five
points upwards, in which `gop_draw_line` leaves a gap. -/
theorem line_disconnects :
    ¬ Connects (visited (vgaDrawLine 5#32 0#32 0#32 0#32 0#32)) (5#32, 0#32) (0#32, 0#32) ∧
      ¬ Connects (visited (gopDrawLine 0#32 5#32 0#32 0#32 0#32)) (0#32, 5#32) (0#32, 0#32) := by
  constructor
  · rw [vgaDrawLine_connects_iff (by decide) (by decide) (by decide) (by decide)]
    decide
  · rw [gopDrawLine_connects_iff (by decide) (by decide) (by decide) (by decide)]
    decide

end Zenix
