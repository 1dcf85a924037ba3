import Mathlib.Data.Nat.ModEq

/-!
# Rows at a fixed stride

A rectangle of `w` columns and `h` rows is stored row after row, `q` elements
apart, in a store of `n` elements whose indices wrap around. Element `(x, y)` has
the index `(y * q + x) % n`.

Results:
1. `strided_lt`: where rows that fit into the stride end.
2. `strided_injective_iff`: when no two elements share an index.
3. `walk_low`: rows that all start in the lower half of the store do not go around
   it.
-/

/-- The rows do not meet: the start of a row is at a distance of at least `w`
from the start of every other one, in both directions around the store. -/
structure RowsApart (n q w h : Nat) : Prop where
  width : w ≤ n
  apart : ∀ d, 0 < d → d < h → w ≤ d * q % n ∧ d * q % n + w ≤ n

theorem strided_lt {q w h x y : Nat} (hfit : w ≤ q) (hx : x < w) (hy : y < h) :
    y * q + x < h * q := by
  have hrow : (y + 1) * q ≤ h * q := Nat.mul_le_mul_right q hy
  rw [Nat.add_one_mul] at hrow
  omega

/-- Rows that fit into the stride, in a store that holds them all. -/
theorem rowsApart_of_fit {n q w h : Nat} (hh : 0 < h) (hfit : w ≤ q) (hroom : h * q ≤ n) :
    RowsApart n q w h := by
  have hone : 1 * q ≤ h * q := Nat.mul_le_mul_right q hh
  refine ⟨by omega, fun d hd hlt => ?_⟩
  have hrow : (d + 1) * q ≤ h * q := Nat.mul_le_mul_right q hlt
  have hstart : 1 * q ≤ d * q := Nat.mul_le_mul_right q hd
  rw [Nat.add_one_mul] at hrow
  cases Nat.lt_or_ge (d * q) n with
  | inl h =>
    rw [Nat.mod_eq_of_lt h]
    omega
  | inr h =>
    -- then the stride is zero, and there is nothing in a row
    have hzero : q = 0 := by omega
    rw [hzero, Nat.mul_zero, Nat.zero_mod]
    omega

/-- Two elements of different rows have different indices. -/
theorem RowsApart.ne_of_lt {n q w h x x' y y' : Nat} (hr : RowsApart n q w h) (hx : x < w)
    (hx' : x' < w) (hy : y < y') (hy' : y' < h) : (y * q + x) % n ≠ (y' * q + x') % n := by
  obtain ⟨d, rfl⟩ := Nat.exists_eq_add_of_lt hy
  obtain ⟨hlo, hhi⟩ := hr.apart (d + 1) (by omega) (by omega)
  intro heq
  have hsplit : (y + d + 1) * q + x' = y * q + ((d + 1) * q + x') := by
    rw [Nat.add_assoc, Nat.add_mul, Nat.add_assoc]
  rw [hsplit] at heq
  have hmod : x % n = ((d + 1) * q + x') % n := Nat.ModEq.add_left_cancel' (y * q) heq
  have hw := hr.width
  rw [Nat.add_mod, Nat.mod_eq_of_lt (show x < n by omega),
    Nat.mod_eq_of_lt (show x' < n by omega), Nat.mod_eq_of_lt (by omega)] at hmod
  omega

/-- No two elements share an index exactly when the rows do not meet. -/
theorem strided_injective_iff {n q w h : Nat} (hn : 0 < n) (hh : 0 < h) :
    (∀ x y x' y', x < w → y < h → x' < w → y' < h → (y * q + x) % n = (y' * q + x') % n →
      x = x' ∧ y = y') ↔ RowsApart n q w h := by
  constructor
  · intro hinj
    refine ⟨?_, fun d hd hlt => ⟨?_, ?_⟩⟩
    · by_contra hwide
      have hclash := hinj n 0 0 0 (by omega) hh (by omega) hh
        (by rw [Nat.zero_mul, Nat.zero_add, Nat.mod_self, Nat.zero_mod])
      omega
    · -- the element of row 0 below the start of row `d`
      by_contra hnear
      have hclash := hinj 0 d (d * q % n) 0 (by omega) hlt (by omega) hh
        (by rw [Nat.add_zero, Nat.zero_mul, Nat.zero_add, Nat.mod_mod])
      omega
    · -- the element of row `d` that wraps around to the start of row 0
      by_contra hnear
      have hr : d * q % n < n := Nat.mod_lt _ hn
      have hsum : (d * q + (n - d * q % n)) % n = 0 := by
        have hdiv := Nat.div_add_mod (d * q) n
        have hmul : d * q + (n - d * q % n) = n * (d * q / n + 1) := by
          rw [Nat.mul_add_one]
          omega
        rw [hmul, Nat.mul_mod_right]
      have hclash := hinj (n - d * q % n) d 0 0 (by omega) hlt (by omega) hh
        (by rw [hsum, Nat.zero_mul, Nat.zero_add, Nat.zero_mod])
      omega
  · intro hr x y x' y' hx hy hx' hy' heq
    rcases Nat.lt_trichotomy y y' with hlt | rfl | hgt
    · exact absurd heq (hr.ne_of_lt hx hx' hlt hy')
    · have hmod : x % n = x' % n := Nat.ModEq.add_left_cancel' (y * q) heq
      have hw := hr.width
      rw [Nat.mod_eq_of_lt (by omega), Nat.mod_eq_of_lt (by omega)] at hmod
      exact ⟨hmod, rfl⟩
    · exact absurd heq.symm (hr.ne_of_lt hx' hx hgt hy)

/-- A walk around a ring of `n` in steps of `s` that never leaves `[0, l]` does
not go around the ring: it ends `k * s` above its start, or `k * (n - s)` below
it. -/
theorem walk_low {n l f s k : Nat} (hl : 2 * l < n) (hs : s < n)
    (hlow : ∀ y ≤ k, (f + y * s) % n ≤ l) (hf : f < n) :
    f + k * s ≤ l ∨ (k * (n - s) ≤ f ∧ (f + k * s) % n = f - k * (n - s)) := by
  have hstart := hlow 0 (Nat.zero_le k)
  rw [Nat.zero_mul, Nat.add_zero, Nat.mod_eq_of_lt hf] at hstart
  cases Nat.lt_or_ge (n - s) s with
  | inr hup =>
    -- a step upwards is at most half the ring
    left
    induction k with
    | zero => omega
    | succ k ih =>
      have hk := ih fun y hy => hlow y (Nat.le_succ_of_le hy)
      have hnext := hlow (k + 1) (Nat.le_refl _)
      rw [Nat.add_one_mul] at hnext ⊢
      rw [Nat.mod_eq_of_lt (by omega)] at hnext
      exact hnext
  | inl hdown =>
    -- a step of more than half the ring is one of `n - s` downwards
    right
    induction k with
    | zero =>
      rw [Nat.zero_mul, Nat.zero_mul, Nat.add_zero, Nat.sub_zero]
      exact ⟨Nat.zero_le f, Nat.mod_eq_of_lt hf⟩
    | succ k ih =>
      obtain ⟨hk, _⟩ := ih fun y hy => hlow y (Nat.le_succ_of_le hy)
      have hnext := hlow (k + 1) (Nat.le_refl _)
      have hback : k * (n - s) + k * s = k * n := by
        rw [← Nat.mul_add, Nat.sub_add_cancel hs.le]
      have hsplit : f + (k + 1) * s = (f - k * (n - s) + s) + k * n := by
        rw [Nat.add_one_mul]
        omega
      rw [hsplit, Nat.add_mul_mod_self_right] at hnext ⊢
      rw [Nat.add_one_mul]
      have hroom : k * (n - s) + (n - s) ≤ f := by
        by_contra hout
        rw [Nat.mod_eq_of_lt (by omega)] at hnext
        omega
      refine ⟨hroom, ?_⟩
      have hwrap : f - k * (n - s) + s = f - (k * (n - s) + (n - s)) + n := by omega
      rw [hwrap, Nat.add_mod_right, Nat.mod_eq_of_lt (by omega)]
