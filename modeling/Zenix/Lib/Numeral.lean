import Mathlib.Algebra.Order.Floor.Semiring
import Mathlib.Data.Nat.Digits.Lemmas
import Zenix.Lib.Rounding

/-!
# Decimal numerals

A numeral is a sign, digits and further digits behind a point. It is spelled in ASCII with at
least one digit in front of the point, and without a point where no digit follows.

Results:
1. `digitsValue_digits`: the digits of a natural number have its value.
2. `digitsValue_fractionDigits`: so have those of a fraction, up to rounding down.
3. `ofRat_value`: every rational has a numeral, up to rounding toward zero.
-/

/-- The number that the digits write, the highest one first. -/
def digitsValue (ds : List ℕ) : ℕ := ds.foldl (fun n d => n * 10 + d) 0

theorem digitsValue_foldl (ds : List ℕ) (n : ℕ) :
    ds.foldl (fun n d => n * 10 + d) n = n * 10 ^ ds.length + digitsValue ds := by
  induction ds generalizing n with
  | nil => simp [digitsValue]
  | cons d ds ih =>
    rw [digitsValue, List.foldl_cons, List.foldl_cons, ih, ih (0 * 10 + d), List.length_cons]
    ring

theorem digitsValue_cons (d : ℕ) (ds : List ℕ) :
    digitsValue (d :: ds) = d * 10 ^ ds.length + digitsValue ds := by
  rw [digitsValue, List.foldl_cons, digitsValue_foldl, Nat.zero_mul, Nat.zero_add]

theorem digitsValue_digits (n : ℕ) : digitsValue (Nat.digits 10 n).reverse = n := by
  conv_rhs => rw [← Nat.ofDigits_digits 10 n, Nat.ofDigits_eq_foldr]
  rw [digitsValue, List.foldl_reverse]
  congr 1
  funext d n
  rw [Nat.cast_id, Nat.mul_comm, Nat.add_comm]

/-! ## Fractions -/

/-- The first `n` decimals of a fraction. -/
def fractionDigits : ℕ → ℚ → List ℕ
  | 0, _ => []
  | n + 1, x => ⌊x * 10⌋₊ :: fractionDigits n (x * 10 - ⌊x * 10⌋₊)

section Fraction
variable {x : ℚ}

theorem fractionDigits_length (n : ℕ) (x : ℚ) : (fractionDigits n x).length = n := by
  induction n generalizing x with
  | zero => rfl
  | succ n ih => rw [fractionDigits, List.length_cons, ih]

theorem fraction_rest (h : 0 ≤ x) : 0 ≤ x - ⌊x⌋₊ ∧ x - ⌊x⌋₊ < 1 := by
  have hle := Nat.floor_le h
  have hlt := Nat.lt_floor_add_one x
  constructor <;> linarith

theorem fractionDigits_lt (n : ℕ) (h0 : 0 ≤ x) (h1 : x < 1) : ∀ d ∈ fractionDigits n x, d < 10 := by
  induction n generalizing x with
  | zero => exact fun d hd => absurd hd List.not_mem_nil
  | succ n ih =>
    intro d hd
    rcases List.mem_cons.mp hd with rfl | hd
    · rw [Nat.floor_lt (by positivity)]
      norm_num
      linarith
    · obtain ⟨hrest0, hrest1⟩ := fraction_rest (mul_nonneg h0 (by norm_num : (0 : ℚ) ≤ 10))
      exact ih hrest0 hrest1 d hd

theorem digitsValue_fractionDigits (n : ℕ) (h0 : 0 ≤ x) (h1 : x < 1) :
    digitsValue (fractionDigits n x) = ⌊x * 10 ^ n⌋₊ := by
  induction n generalizing x with
  | zero =>
    rw [pow_zero, mul_one, Nat.floor_eq_zero.mpr h1]
    rfl
  | succ n ih =>
    obtain ⟨hrest0, hrest1⟩ := fraction_rest (mul_nonneg h0 (by norm_num : (0 : ℚ) ≤ 10))
    have hsplit : x * 10 ^ (n + 1) =
        (x * 10 - ⌊x * 10⌋₊) * 10 ^ n + (⌊x * 10⌋₊ * 10 ^ n : ℕ) := by
      push_cast
      ring
    rw [fractionDigits, digitsValue_cons, fractionDigits_length, ih hrest0 hrest1, hsplit,
      Nat.floor_add_natCast (by positivity), Nat.add_comm]

end Fraction

/-! ## Rounding at a decimal place -/

/-- Rounded toward zero to `n` decimals. -/
def truncateTo (n : ℕ) (x : ℚ) : ℚ := truncate (x * 10 ^ n) / 10 ^ n

theorem truncateTo_neg (n : ℕ) (x : ℚ) : truncateTo n (-x) = -truncateTo n x := by
  rw [truncateTo, truncateTo, neg_mul, truncate_neg, Int.cast_neg, neg_div]

theorem truncateTo_of_nonneg (n : ℕ) {x : ℚ} (h : 0 ≤ x) :
    truncateTo n x = ⌊x⌋₊ + (⌊(x - ⌊x⌋₊) * 10 ^ n⌋₊ : ℚ) / 10 ^ n := by
  obtain ⟨hrest, _⟩ := fraction_rest h
  have hsplit : x * 10 ^ n = (x - ⌊x⌋₊) * 10 ^ n + (⌊x⌋₊ * 10 ^ n : ℕ) := by
    push_cast
    ring
  rw [truncateTo, truncate_of_nonneg (by positivity), ← Int.natCast_floor_eq_floor (by positivity),
    hsplit, Nat.floor_add_natCast (by positivity)]
  push_cast
  field_simp
  ring

/-! ## Numerals -/

structure Numeral where
  negative : Bool
  integer : List ℕ
  fraction : List ℕ
  integer_ne_nil : integer ≠ []
  integer_lt : ∀ d ∈ integer, d < 10
  fraction_lt : ∀ d ∈ fraction, d < 10

namespace Numeral

def digitChar (d : ℕ) : BitVec 8 := BitVec.ofNat 8 (0x30 + d)

/-- The numeral without its sign. -/
def spellUnsigned (q : Numeral) : List (BitVec 8) :=
  q.integer.map digitChar ++ if q.fraction = [] then [] else 0x2E#8 :: q.fraction.map digitChar

def spell (q : Numeral) : List (BitVec 8) :=
  if q.negative then 0x2D#8 :: q.spellUnsigned else q.spellUnsigned

def magnitude (q : Numeral) : ℚ :=
  digitsValue q.integer + (digitsValue q.fraction : ℚ) / 10 ^ q.fraction.length

def value (q : Numeral) : ℚ := if q.negative then -q.magnitude else q.magnitude

theorem digitChar_digit {d : ℕ} (h : d < 10) :
    0x30#8 ≤ digitChar d ∧ digitChar d ≤ 0x39#8 ∧ (digitChar d - 0x30#8).toNat = d := by
  have hdigits : ∀ d < 10,
      0x30#8 ≤ digitChar d ∧ digitChar d ≤ 0x39#8 ∧ (digitChar d - 0x30#8).toNat = d := by decide
  exact hdigits d h

/-- The first character behind the sign is a digit. -/
theorem spellUnsigned_head (q : Numeral) :
    ∃ d rest, d < 10 ∧ q.spellUnsigned = digitChar d :: rest := by
  obtain ⟨d, ds, hdigits⟩ := List.exists_cons_of_ne_nil q.integer_ne_nil
  have hlt : d < 10 := q.integer_lt d (hdigits ▸ List.mem_cons_self)
  rw [spellUnsigned, hdigits]
  exact ⟨d, _, hlt, rfl⟩

/-- The numeral of `n + x` with `k` decimals; without them when `x` is zero. -/
def ofParts (negative : Bool) (n k : ℕ) (x : Set.Ico (0 : ℚ) 1) : Numeral where
  negative := negative
  integer := if n = 0 then [0] else (Nat.digits 10 n).reverse
  fraction := if 0 < x.val then fractionDigits k x else []
  integer_ne_nil := by
    split
    · exact List.cons_ne_nil _ _
    · next hn => simpa [Nat.digits_ne_nil_iff_ne_zero] using hn
  integer_lt := by
    intro d hd
    split at hd
    · rw [List.mem_singleton.mp hd]
      decide
    · exact Nat.digits_lt_base (by decide) (List.mem_reverse.mp hd)
  fraction_lt := by
    intro d hd
    split at hd
    · exact fractionDigits_lt k x.2.1 x.2.2 d hd
    · exact absurd hd List.not_mem_nil

theorem ofParts_magnitude (negative : Bool) (n k : ℕ) (x : Set.Ico (0 : ℚ) 1) :
    (ofParts negative n k x).magnitude = n + (⌊x.val * 10 ^ k⌋₊ : ℚ) / 10 ^ k := by
  have hinteger : digitsValue (ofParts negative n k x).integer = n := by
    show digitsValue (if n = 0 then [0] else (Nat.digits 10 n).reverse) = n
    split
    · next hn => rw [hn]; rfl
    · exact digitsValue_digits n
  have hfraction : (digitsValue (ofParts negative n k x).fraction : ℚ) /
      10 ^ (ofParts negative n k x).fraction.length = (⌊x.val * 10 ^ k⌋₊ : ℚ) / 10 ^ k := by
    show (digitsValue (if 0 < x.val then fractionDigits k x else []) : ℚ) /
      10 ^ (if 0 < x.val then fractionDigits k x else []).length = _
    split
    · rw [digitsValue_fractionDigits k x.2.1 x.2.2, fractionDigits_length]
    · next hx =>
      have hzero : x.val = 0 := le_antisymm (not_lt.mp hx) x.2.1
      rw [hzero]
      simp [digitsValue]
  rw [magnitude, hinteger, hfraction]

theorem ofParts_fraction_length (negative : Bool) (n k : ℕ) (x : Set.Ico (0 : ℚ) 1) :
    (ofParts negative n k x).fraction.length ≤ k := by
  show (if 0 < x.val then fractionDigits k x else []).length ≤ k
  split
  · rw [fractionDigits_length]
  · exact Nat.zero_le k

/-- The numeral of `x` with `k` decimals, rounded toward zero. -/
def ofRat (negative : Bool) (k : ℕ) (x : ℚ) (h : 0 ≤ x) : Numeral :=
  ofParts negative ⌊x⌋₊ k ⟨x - ⌊x⌋₊, fraction_rest h⟩

theorem ofRat_fraction_length (negative : Bool) (k : ℕ) {x : ℚ} (h : 0 ≤ x) :
    (ofRat negative k x h).fraction.length ≤ k :=
  ofParts_fraction_length ..

theorem ofRat_value (negative : Bool) (k : ℕ) {x : ℚ} (h : 0 ≤ x) :
    (ofRat negative k x h).value = truncateTo k (if negative then -x else x) := by
  have hmagnitude : (ofRat negative k x h).magnitude = truncateTo k x := by
    rw [ofRat, ofParts_magnitude, truncateTo_of_nonneg k h]
  have hvalue : (ofRat negative k x h).value =
      if negative then -truncateTo k x else truncateTo k x := by
    rw [← hmagnitude]
    rfl
  rw [hvalue]
  split
  · exact (truncateTo_neg k x).symm
  · rfl

/-- A spelled numeral has no terminator in it. -/
theorem spell_ne_zero (q : Numeral) : ∀ ch ∈ q.spell, ch ≠ 0#8 := by
  have hdigits : ∀ ds : List ℕ, (∀ d ∈ ds, d < 10) → ∀ ch ∈ ds.map digitChar, ch ≠ 0#8 := by
    intro ds hds ch hch
    obtain ⟨d, hd, rfl⟩ := List.mem_map.mp hch
    obtain ⟨hlow, _⟩ := digitChar_digit (hds d hd)
    rintro hzero
    rw [hzero] at hlow
    exact absurd hlow (by decide)
  have hunsigned : ∀ ch ∈ q.spellUnsigned, ch ≠ 0#8 := by
    intro ch hch
    rcases List.mem_append.mp hch with hch | hch
    · exact hdigits _ q.integer_lt ch hch
    · split at hch
      · exact absurd hch List.not_mem_nil
      · rcases List.mem_cons.mp hch with rfl | hch
        · decide
        · exact hdigits _ q.fraction_lt ch hch
  intro ch hch
  unfold spell at hch
  split at hch
  · rcases List.mem_cons.mp hch with rfl | hch
    · decide
    · exact hunsigned ch hch
  · exact hunsigned ch hch

end Numeral
