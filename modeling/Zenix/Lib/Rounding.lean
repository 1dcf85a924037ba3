import Mathlib.Algebra.Order.Archimedean.Basic
import Mathlib.Algebra.Order.Round
import Mathlib.Data.Rat.Floor
import Mathlib.Tactic.Linarith
import Mathlib.Tactic.FieldSimp
import Mathlib.Tactic.Ring

/-!
# Rounded rationals

Rounding toward zero, and equal steps from a value to another one whose values in between are
rounded down.

Results:
1. `truncate_of_nonneg`: rounding toward zero.
2. `interpolate_last`, `interpolate_nonneg`, `interpolate_le`: the steps end at the second value
   and stay between the two.
3. `gapless_iff`: rounded values in a row differ by at most one exactly when there are at least
   as many steps as the two values are apart.
-/

def truncate (x : ℚ) : ℤ := if 0 ≤ x then ⌊x⌋ else ⌈x⌉

theorem truncate_of_nonneg {x : ℚ} (h : 0 ≤ x) : truncate x = ⌊x⌋ := if_pos h

theorem truncate_neg (x : ℚ) : truncate (-x) = -truncate x := by
  rcases lt_trichotomy x 0 with hneg | rfl | hpos
  · rw [truncate, truncate, if_pos (neg_nonneg.mpr hneg.le), if_neg (not_le.mpr hneg),
      Int.floor_neg]
  · simp [truncate]
  · rw [truncate, truncate, if_neg (not_le.mpr (neg_lt_zero.mpr hpos)), if_pos hpos.le,
      Int.ceil_neg]

/-! ## Interpolation -/

/-- After `i` of `n` steps from `a` to `a + d`. -/
def interpolate (a d : ℤ) (n i : ℕ) : ℚ := a + i * ((d : ℚ) / n)

section Interpolate
variable {a d : ℤ} {n i : ℕ}

@[simp] theorem interpolate_zero : interpolate a d n 0 = a := by simp [interpolate]

theorem interpolate_succ : interpolate a d n (i + 1) = interpolate a d n i + d / n := by
  unfold interpolate
  push_cast
  ring

theorem interpolate_last (hn : 0 < n) : interpolate a d n n = (a + d : ℤ) := by
  have hne : (n : ℚ) ≠ 0 := Nat.cast_ne_zero.mpr (Nat.ne_of_gt hn)
  unfold interpolate
  rw [mul_div_cancel₀ _ hne]
  push_cast
  rfl

/-- A point of the way as a mean of its ends. -/
theorem interpolate_mean (hn : 0 < n) :
    interpolate a d n i = (a * (n - i) + (a + d : ℤ) * i) / n := by
  have hne : (n : ℚ) ≠ 0 := Nat.cast_ne_zero.mpr (Nat.ne_of_gt hn)
  unfold interpolate
  field_simp
  push_cast
  ring

theorem interpolate_nonneg (hn : 0 < n) (hi : i ≤ n) (ha : 0 ≤ a) (hd : 0 ≤ a + d) :
    0 ≤ interpolate a d n i := by
  have hleft : (0 : ℚ) ≤ n - i := sub_nonneg.mpr (Nat.cast_le.mpr hi)
  have ha' : (0 : ℚ) ≤ a := Int.cast_nonneg ha
  have hd' : (0 : ℚ) ≤ (a + d : ℤ) := Int.cast_nonneg hd
  rw [interpolate_mean hn]
  positivity

theorem interpolate_le {b : ℤ} (hn : 0 < n) (hi : i ≤ n) (ha : a ≤ b) (hd : a + d ≤ b) :
    interpolate a d n i ≤ b := by
  have hback : interpolate a d n i = b - interpolate (b - a) (-d) n i := by
    unfold interpolate
    push_cast
    ring
  have hrest := interpolate_nonneg (a := b - a) (d := -d) hn hi (by linarith) (by linarith)
  rw [hback]
  exact sub_le_self _ hrest

end Interpolate

/-! ## Gaps -/

/-- Values at most one apart are at most one apart when they are rounded down. -/
theorem floor_step {x y : ℚ} (h : |y - x| ≤ 1) : |⌊y⌋ - ⌊x⌋| ≤ 1 := by
  rw [abs_le] at h ⊢
  have hup : ⌊y⌋ ≤ ⌊x⌋ + 1 := by
    rw [← Int.floor_add_one]
    exact Int.floor_mono (by linarith)
  have hdown : ⌊x⌋ ≤ ⌊y⌋ + 1 := by
    rw [← Int.floor_add_one]
    exact Int.floor_mono (by linarith)
  constructor <;> linarith

/-- Steps of at most one lead at most as far as there are steps. -/
theorem abs_sub_le_steps {f : ℕ → ℤ} {n : ℕ} (h : ∀ i < n, |f (i + 1) - f i| ≤ 1) :
    |f n - f 0| ≤ n := by
  induction n with
  | zero => simp
  | succ n ih =>
    have hbefore := ih fun i hi => h i (Nat.lt_succ_of_lt hi)
    have hlast := h n (Nat.lt_succ_self n)
    have htriangle := abs_sub_le (f (n + 1)) (f n) (f 0)
    push_cast
    linarith

/-- The rounded values have no gap exactly when the steps are at most one. -/
theorem gapless_iff {a d : ℤ} {n : ℕ} (hn : 0 < n) :
    (∀ i < n, |⌊interpolate a d n (i + 1)⌋ - ⌊interpolate a d n i⌋| ≤ 1) ↔ |d| ≤ n := by
  constructor
  · intro hgapless
    have hway := abs_sub_le_steps (f := fun i => ⌊interpolate a d n i⌋) hgapless
    rw [interpolate_last hn, interpolate_zero, Int.floor_intCast, Int.floor_intCast,
      add_sub_cancel_left] at hway
    exact hway
  · intro hd i _
    refine floor_step ?_
    have hpos : (0 : ℚ) < n := Nat.cast_pos.mpr hn
    rw [interpolate_succ, add_sub_cancel_left, abs_div, Nat.abs_cast, div_le_one hpos]
    exact_mod_cast hd
