import Mathlib.Tactic.Linarith
import Mathlib.Tactic.Ring
import Zenix.Drivers.VgaDraw

/-!
# Circles (kernel/drivers/vga/vga.c)

`vga_draw_circle` follows one octant of the circle and plots each point eight times. `err`
is meant to be `x * x + y * y - r * r`, but both updates add two too much, so that `x`
becomes smaller too early.

Results:
1. `circleStates_error`: what `err` is.
2. `circle_no_overflow`: the `int`s do not overflow for radii below `2 ^ 14`.
3. `circle_nearest_iff`: the loop ends, and only the circles of radius 1 and 4 have the points
   that are nearest to the circle.
-/

namespace Zenix
open ByteMemory Logged

/-! ## The function -/

/-- The variables of the loop. The `int`s are unbounded. -/
structure CircleState where
  x : Int
  y : Int
  err : Int

/-- The loop after the eight calls. -/
def circleStep (s : CircleState) : CircleState :=
  let y := s.y + 1
  let err := s.err + (1 + 2 * y)
  if 2 * (err - s.x) + 1 > 0 then
    let x := s.x - 1
    ⟨x, y, err + (1 - 2 * x)⟩
  else ⟨s.x, y, err⟩

theorem circleStep_decreases {s : CircleState} (h : s.y ≤ s.x) :
    ((circleStep s).x - (circleStep s).y + 1).toNat < (s.x - s.y + 1).toNat := by
  unfold circleStep
  dsimp only
  split
  · dsimp only
    omega
  · dsimp only
    omega

/-- The states in which the loop makes its calls, `while (x >= y)`. -/
def circleStates (s : CircleState) : List CircleState :=
  if s.y ≤ s.x then s :: circleStates (circleStep s) else []
termination_by (s.x - s.y + 1).toNat
decreasing_by exact circleStep_decreases ‹_›

/-- The eight calls for one point of the octant. -/
def plotOctants (cx cy color : Word) (s : CircleState) : Logged PixelCall Unit := do
  let x := BitVec.ofInt 32 s.x
  let y := BitVec.ofInt 32 s.y
  setPixel (cx + x) (cy + y) color
  setPixel (cx + y) (cy + x) color
  setPixel (cx - y) (cy + x) color
  setPixel (cx - x) (cy + y) color
  setPixel (cx - x) (cy - y) color
  setPixel (cx - y) (cy - x) color
  setPixel (cx + y) (cy - x) color
  setPixel (cx + x) (cy - y) color

/-- The states of `vga_draw_circle`. -/
def circleOctant (radius : Word) : List CircleState := circleStates ⟨radius.toInt, 0, 0⟩

def vgaDrawCircle (cx cy radius color : Word) : Logged PixelCall Unit :=
  (circleOctant radius).forM (plotOctants cx cy color)

/-! ## The property -/

/-- `x` is a whole number that is nearest to `sqrt (r * r - y * y)`. -/
def Nearest (r : Int) (s : CircleState) : Prop :=
  (2 * s.x - 1) ^ 2 + 4 * s.y ^ 2 ≤ 4 * r ^ 2 ∧ 4 * r ^ 2 ≤ (2 * s.x + 1) ^ 2 + 4 * s.y ^ 2

instance (r : Int) (s : CircleState) : Decidable (Nearest r s) :=
  inferInstanceAs (Decidable (_ ∧ _))

/-! ## The error term -/

section Error
variable {r : Int} {s t : CircleState}

/-- What `err` is after `y` steps, `r - x` of which have made `x` smaller. -/
structure CircleState.Tracks (s : CircleState) (r : Int) : Prop where
  y_nonneg : 0 ≤ s.y
  x_le : s.x ≤ r
  err : s.err = s.x ^ 2 + s.y ^ 2 - r ^ 2 + 2 * (s.y + (r - s.x))

theorem CircleState.Tracks.step (h : s.Tracks r) : (circleStep s).Tracks r := by
  have hy := h.y_nonneg
  have hx := h.x_le
  have herr := h.err
  unfold circleStep
  dsimp only
  split
  · refine ⟨Int.le_add_one hy, by dsimp only; omega, ?_⟩
    dsimp only
    rw [herr]
    ring
  · refine ⟨Int.le_add_one hy, hx, ?_⟩
    dsimp only
    rw [herr]
    ring

theorem circleStates_of_le (h : s.y ≤ s.x) :
    circleStates s = s :: circleStates (circleStep s) := by
  rw [circleStates, if_pos h]

theorem circleStates_of_lt (h : s.x < s.y) : circleStates s = [] := by
  rw [circleStates, if_neg (Int.not_le.mpr h)]

theorem start_tracks (r : Int) : CircleState.Tracks ⟨r, 0, 0⟩ r :=
  ⟨Int.le_refl 0, Int.le_refl r, by ring⟩

/-- Every state of the loop. -/
theorem circleStates_error (h : s.Tracks r) (ht : t ∈ circleStates s) : t.Tracks r ∧ t.y ≤ t.x := by
  fun_induction circleStates s with
  | case1 s hle ih =>
    rcases List.mem_cons.mp ht with rfl | hlater
    · exact ⟨h, hle⟩
    · exact ih h.step hlater
  | case2 s hlt => exact absurd ht List.not_mem_nil

/-- Every round makes `x - y` smaller. -/
theorem circleStates_length (s : CircleState) :
    (circleStates s).length ≤ (s.x - s.y + 1).toNat := by
  fun_induction circleStates s with
  | case1 s hle ih =>
    have hdecreases := circleStep_decreases hle
    rw [List.length_cons]
    omega
  | case2 s hlt => exact Nat.zero_le _

/-- `x` becomes smaller when the error, which counts the steps twice, has reached it. -/
theorem CircleState.Tracks.step_cases (h : s.Tracks r) :
    (circleStep s).y = s.y + 1 ∧
      ((circleStep s).x = s.x - 1 ∧
          s.x ≤ s.x ^ 2 + (s.y + 1) ^ 2 - r ^ 2 + 2 * (s.y + 1 + (r - s.x)) ∨
        (circleStep s).x = s.x ∧
          s.x ^ 2 + (s.y + 1) ^ 2 - r ^ 2 + 2 * (s.y + 1 + (r - s.x)) < s.x) := by
  have herr : s.err + (1 + 2 * (s.y + 1)) =
      s.x ^ 2 + (s.y + 1) ^ 2 - r ^ 2 + 2 * (s.y + 1 + (r - s.x)) := by
    rw [h.err]
    ring
  unfold circleStep
  dsimp only
  rw [herr]
  split
  · next hsmaller => exact ⟨rfl, .inl ⟨rfl, by omega⟩⟩
  · next hsame => exact ⟨rfl, .inr ⟨rfl, by omega⟩⟩

/-- No `int` overflows in the rounds of a circle with a radius below `2 ^ 14`. -/
theorem circle_no_overflow (hr : 0 ≤ r ∧ r < 2 ^ 14) (hs : s ∈ circleStates ⟨r, 0, 0⟩) :
    let y := s.y + 1
    let err := s.err + (1 + 2 * y)
    ∀ v ∈ [s.x, s.y, s.err, y, err, 2 * (err - s.x) + 1, s.x - 1, err + (1 - 2 * (s.x - 1))],
      -2 ^ 31 ≤ v ∧ v < 2 ^ 31 := by
  obtain ⟨⟨hy, hx, herr⟩, hloop⟩ := circleStates_error (start_tracks r) hs
  have hxx : s.x ^ 2 ≤ r ^ 2 := by nlinarith
  have hyy : s.y ^ 2 ≤ r ^ 2 := by nlinarith
  have hrr : r ^ 2 < 2 ^ 28 := by nlinarith
  have hxpos : 0 ≤ s.x ^ 2 := sq_nonneg _
  have hypos : 0 ≤ s.y ^ 2 := sq_nonneg _
  intro y err v hv
  simp only [y, err, List.mem_cons, List.not_mem_nil, or_false] at hv
  rcases hv with rfl | rfl | rfl | rfl | rfl | rfl | rfl | rfl <;> omega

end Error

/-! ## The first two times that `x` becomes smaller -/

section Smaller
variable {r : Int} {s : CircleState}

/-- The first time is when `y` is the root of the radius, rounded down. -/
theorem first_smaller (h : s.Tracks r) (hx : s.x = r) (hy : (s.y + 1) ^ 2 ≤ r) :
    ∃ t : CircleState, t.Tracks r ∧ t.x = r - 1 ∧ t.y ^ 2 ≤ r ∧ r < (t.y + 1) ^ 2 ∧
      circleStates t ⊆ circleStates s := by
  fun_induction circleStates s with
  | case1 s hle ih =>
    obtain ⟨hstep, hcases⟩ := h.step_cases
    rw [hx] at hcases
    rcases hcases with ⟨hsmaller, hreached⟩ | ⟨hsame, hbelow⟩
    · refine ⟨circleStep s, h.step, hsmaller, hstep ▸ hy, ?_, List.subset_cons_self _ _⟩
      rw [hstep]
      nlinarith
    · obtain ⟨t, ht, htx, hroot, hnext, hsub⟩ := ih h.step hsame (by rw [hstep]; nlinarith)
      exact ⟨t, ht, htx, hroot, hnext, List.subset_cons_of_subset _ hsub⟩
  | case2 s hlt =>
    have hnonneg := h.y_nonneg
    exact absurd hlt (by nlinarith)

/-- The second time is before `y * y` has reached `3 * r - 2`. -/
theorem second_smaller (h : s.Tracks r) (hx : s.x = r - 1) (hr : 0 ≤ r)
    (hy : (s.y + 1) ^ 2 ≤ 3 * r - 3) :
    ∃ t : CircleState, t.Tracks r ∧ t.x = r - 2 ∧ t.y ^ 2 ≤ 3 * r - 3 ∧
      circleStates t ⊆ circleStates s := by
  fun_induction circleStates s with
  | case1 s hle ih =>
    obtain ⟨hstep, hcases⟩ := h.step_cases
    rw [hx] at hcases
    rcases hcases with ⟨hsmaller, hreached⟩ | ⟨hsame, hbelow⟩
    · exact ⟨circleStep s, h.step, by rw [hsmaller]; ring, hstep ▸ hy, List.subset_cons_self _ _⟩
    · obtain ⟨t, ht, htx, hroot, hsub⟩ := ih h.step hsame (by rw [hstep]; nlinarith)
      exact ⟨t, ht, htx, hroot, List.subset_cons_of_subset _ hsub⟩
  | case2 s hlt =>
    have hnonneg := h.y_nonneg
    exact absurd hlt (by nlinarith)

end Smaller

/-! ## The property of a radius -/

theorem mem_circleStates {s : CircleState} (h : s.y ≤ s.x) : s ∈ circleStates s := by
  rw [circleStates_of_le h]
  exact List.mem_cons_self

/-- In every other circle one of the first two points with a smaller `x` is too far inside. -/
theorem exists_not_nearest {r : Int} (hr : 2 ≤ r) (hfour : r ≠ 4) :
    ∃ s ∈ circleStates ⟨r, 0, 0⟩, ¬ Nearest r s := by
  have hone : ((0 : Int) + 1) ^ 2 ≤ r := by omega
  obtain ⟨t, ht, htx, hroot, _, hsub⟩ := first_smaller (start_tracks r) rfl hone
  have hnonneg := ht.y_nonneg
  by_cases hsquare : t.y ^ 2 = r
  · have hthree : 3 ≤ t.y := by
      by_contra hsmall
      obtain hy | hy | hy : t.y = 0 ∨ t.y = 1 ∨ t.y = 2 := by omega
      all_goals rw [hy] at hsquare; omega
    have hnine : 9 ≤ r := by nlinarith
    obtain ⟨u, hu, hux, hroot', hsub'⟩ := second_smaller ht htx (by omega) (by nlinarith)
    have hle : u.y ≤ u.x := by
      by_contra hgt
      have hgt' : r - 1 ≤ u.y := by omega
      nlinarith
    refine ⟨u, hsub (hsub' (mem_circleStates hle)), fun hnearest => ?_⟩
    have hinside := hnearest.2
    rw [hux] at hinside
    nlinarith
  · have hlt : t.y ^ 2 < r := lt_of_le_of_ne hroot hsquare
    have hle : t.y ≤ t.x := by
      by_contra hgt
      have hgt' : r ≤ t.y := by omega
      nlinarith
    refine ⟨t, hsub (mem_circleStates hle), fun hnearest => ?_⟩
    have hinside := hnearest.2
    rw [htx] at hinside
    nlinarith

theorem circleStates_one : circleStates ⟨1, 0, 0⟩ = [⟨1, 0, 0⟩] := by
  have hstep : circleStep ⟨1, 0, 0⟩ = ⟨0, 1, 4⟩ := rfl
  rw [circleStates_of_le (by decide), hstep, circleStates_of_lt (by decide)]

theorem circleStates_four : circleStates ⟨4, 0, 0⟩ = [⟨4, 0, 0⟩, ⟨4, 1, 3⟩, ⟨3, 2, 3⟩] := by
  have hstep₀ : circleStep ⟨4, 0, 0⟩ = ⟨4, 1, 3⟩ := rfl
  have hstep₁ : circleStep ⟨4, 1, 3⟩ = ⟨3, 2, 3⟩ := rfl
  have hstep₂ : circleStep ⟨3, 2, 3⟩ = ⟨2, 3, 7⟩ := rfl
  rw [circleStates_of_le (by decide), hstep₀, circleStates_of_le (by decide), hstep₁,
    circleStates_of_le (by decide), hstep₂, circleStates_of_lt (by decide)]

/-- The loop ends for every radius; all its points are nearest to the circle exactly for the
radii 1 and 4. -/
theorem circle_nearest_iff {radius : Word} (hpos : 1 ≤ radius.toNat) (hmax : radius.toNat < 2 ^ 14) :
    ((circleOctant radius).length ≤ radius.toNat + 1 ∧
        ∀ s ∈ circleOctant radius, Nearest radius.toNat s) ↔
      radius.toNat = 1 ∨ radius.toNat = 4 := by
  have hint : radius.toInt = radius.toNat := BitVec.toInt_eq_toNat_of_lt (by omega)
  have hlength := circleStates_length ⟨radius.toInt, 0, 0⟩
  unfold circleOctant
  rw [hint] at hlength ⊢
  rw [and_iff_right (by dsimp only at hlength; omega)]
  constructor
  · intro hnearest
    by_contra hother
    obtain ⟨s, hs, hfar⟩ := exists_not_nearest (r := radius.toNat) (by omega) (by omega)
    exact hfar (hnearest s hs)
  · rintro (hone | hfour)
    · rw [hone, Nat.cast_one, circleStates_one]
      decide
    · rw [hfour, Nat.cast_ofNat, circleStates_four]
      decide

theorem circle_nearest_four :
    (circleOctant 4#32).length ≤ 5 ∧ ∀ s ∈ circleOctant 4#32, Nearest 4 s :=
  (@circle_nearest_iff 4#32 (by decide) (by decide)).mpr (.inr rfl)

/-- The circle of radius 5 has the point (4, 2), and 4 is not the nearest number to the root
of 21. -/
theorem circle_inside : ⟨4, 2, 1⟩ ∈ circleOctant 5#32 ∧ ¬ Nearest 5 ⟨4, 2, 1⟩ := by
  have hstep₀ : circleStep ⟨5, 0, 0⟩ = ⟨5, 1, 3⟩ := rfl
  have hstep₁ : circleStep ⟨5, 1, 3⟩ = ⟨4, 2, 1⟩ := rfl
  have hint : (5#32).toInt = 5 := rfl
  refine ⟨?_, by decide⟩
  rw [circleOctant, hint, circleStates_of_le (by decide), hstep₀, circleStates_of_le (by decide),
    hstep₁]
  exact List.mem_cons_of_mem _ (List.mem_cons_of_mem _ (mem_circleStates (by decide)))

end Zenix
