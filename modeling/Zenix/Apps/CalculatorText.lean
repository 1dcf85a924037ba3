import Zenix.Apps.CalculatorDisplay
import Zenix.Lib.Numeral

/-!
# The numbers that the calculator displays (kernel/apps/calculator/calculator_app.c)

`simple_ftoa` and `simple_atof` over the rationals, where `(int)` rounds toward zero and gives
the least `int` for what has no place in one.

The sign is that of the integer part, so a number between -1 and 0 has none. An integer part
that does not fit leaves the sign of the least `int` and no digit.

Results:
1. `simpleAtof_spell`: `simple_atof` reads a numeral with at most nine decimals.
2. `ftoaUnsigned_ofParts`: what `simple_ftoa` writes behind the sign.
3. `calculatorExecute_displayedText`: the text is what the calculator displays.
4. `result_shown_iff`: exactly when it is a numeral of the number, up to two decimals.
-/

namespace Zenix
open ByteMemory Logged

/-- Doubles as exact rationals. -/
def exactDoubles : DoubleOps ℚ where
  ofInt w := w.toInt
  toInt x :=
    if -2147483648 ≤ truncate x ∧ truncate x < 2147483648 then BitVec.ofInt 32 (truncate x)
    else 0x80000000#32
  neg x := -x
  add x y := x + y
  sub x y := x - y
  mul x y := x * y
  div x y := x / y
  gt x y := decide (y < x)
  ne x y := decide (x ≠ y)

@[simp] theorem exact_ofInt (w : Word) : exactDoubles.ofInt w = w.toInt := rfl
@[simp] theorem exact_neg (x : ℚ) : exactDoubles.neg x = -x := rfl
@[simp] theorem exact_add (x y : ℚ) : exactDoubles.add x y = x + y := rfl
@[simp] theorem exact_sub (x y : ℚ) : exactDoubles.sub x y = x - y := rfl
@[simp] theorem exact_mul (x y : ℚ) : exactDoubles.mul x y = x * y := rfl
@[simp] theorem exact_div (x y : ℚ) : exactDoubles.div x y = x / y := rfl
@[simp] theorem exact_gt (x y : ℚ) : exactDoubles.gt x y = true ↔ y < x := decide_eq_true_iff

/-! ## Reading -/

section Reading

theorem isDigit_digitChar {d : ℕ} (h : d < 10) : isDigit (Numeral.digitChar d) := by
  obtain ⟨hlow, hhigh, _⟩ := Numeral.digitChar_digit h
  simp [isDigit, hlow, hhigh]

theorem atof_digit {d : ℕ} (h : d < 10) :
    exactDoubles.ofInt ((Numeral.digitChar d - 0x30#8).setWidth 32) = d := by
  obtain ⟨_, _, hvalue⟩ := Numeral.digitChar_digit h
  have hword : ((Numeral.digitChar d - 0x30#8).setWidth 32).toInt = d := by
    rw [BitVec.toInt_eq_toNat_of_lt (by rw [BitVec.toNat_setWidth, hvalue]; omega),
      BitVec.toNat_setWidth, hvalue, Nat.mod_eq_of_lt (by omega)]
  rw [exact_ofInt, hword, Int.cast_natCast]

/-- Digits in front of the point. -/
theorem atofStep_integer {ds : List ℕ} (hds : ∀ d ∈ ds, d < 10) (st : AtofState ℚ)
    (hin : st.inFraction = false) :
    (ds.map Numeral.digitChar).foldl (atofStep exactDoubles) st =
      { st with result := st.result * 10 ^ ds.length + digitsValue ds } := by
  induction ds generalizing st with
  | nil => simp [digitsValue]
  | cons d ds ih =>
    have hd : d < 10 := hds d List.mem_cons_self
    have hstep : atofStep exactDoubles st (Numeral.digitChar d) =
        { st with result := st.result * 10 + d } := by
      unfold atofStep
      rw [if_pos (isDigit_digitChar hd), if_neg (by simp [hin]), atof_digit hd]
      rfl
    have hrest := ih (fun e he => hds e (List.mem_cons_of_mem _ he))
      { st with result := st.result * 10 + d } hin
    rw [List.map_cons, List.foldl_cons, hstep, hrest, digitsValue_cons, List.length_cons]
    congr 1
    push_cast
    ring

/-- Digits behind the point. -/
theorem atofStep_fraction {ds : List ℕ} (hds : ∀ d ∈ ds, d < 10) (st : AtofState ℚ)
    (hin : st.inFraction = true) :
    (ds.map Numeral.digitChar).foldl (atofStep exactDoubles) st =
      { st with
        fraction := st.fraction * 10 ^ ds.length + digitsValue ds
        divisor := st.divisor * 10#32 ^ ds.length } := by
  induction ds generalizing st with
  | nil => simp [digitsValue]
  | cons d ds ih =>
    have hd : d < 10 := hds d List.mem_cons_self
    have hstep : atofStep exactDoubles st (Numeral.digitChar d) =
        { st with divisor := st.divisor * 10#32, fraction := st.fraction * 10 + d } := by
      unfold atofStep
      rw [if_pos (isDigit_digitChar hd), if_pos hin, atof_digit hd]
      rfl
    have hrest := ih (fun e he => hds e (List.mem_cons_of_mem _ he))
      { st with divisor := st.divisor * 10#32, fraction := st.fraction * 10 + d } hin
    rw [List.map_cons, List.foldl_cons, hstep, hrest, digitsValue_cons, List.length_cons]
    congr 1
    · push_cast
      ring
    · dsimp only
      rw [BitVec.pow_succ, BitVec.mul_assoc, BitVec.mul_comm 10#32]

/-- The divisor is a power of ten as long as it fits. -/
theorem divisor_toInt {n : ℕ} (h : n ≤ 9) : (10#32 ^ n).toInt = 10 ^ n := by
  have hpowers : ∀ n ≤ 9, (10#32 ^ n).toInt = 10 ^ n := by decide
  exact hpowers n h

theorem atofUnsigned_spell {q : Numeral} (h : q.fraction.length ≤ 9) :
    atofUnsigned exactDoubles q.spellUnsigned = q.magnitude := by
  unfold atofUnsigned Numeral.spellUnsigned Numeral.magnitude
  rw [List.foldl_append, atofStep_integer q.integer_lt _ rfl]
  split
  · next hnone => simp [hnone, digitsValue]
  · have hpoint : ∀ st : AtofState ℚ,
        atofStep exactDoubles st 0x2E#8 = { st with inFraction := true } := fun _ => rfl
    rw [List.foldl_cons, hpoint, atofStep_fraction q.fraction_lt _ rfl]
    simp [divisor_toInt h]

theorem simpleAtof_spell {q : Numeral} (h : q.fraction.length ≤ 9) :
    simpleAtof exactDoubles q.spell = q.value := by
  unfold simpleAtof Numeral.spell Numeral.value
  split
  · rw [if_pos (List.head?_cons ..), List.tail_cons, atofUnsigned_spell h]
    rfl
  · obtain ⟨d, rest, hd, hhead⟩ := q.spellUnsigned_head
    have hsign : q.spellUnsigned.head? ≠ some 0x2D#8 := by
      rw [hhead, List.head?_cons, Ne, Option.some_inj]
      intro heq
      exact absurd (heq ▸ isDigit_digitChar hd) (by decide)
    rw [if_neg hsign, atofUnsigned_spell h]

end Reading

/-! ## Writing -/

section Writing

theorem toInt_ofNat_of_lt {n : ℕ} (h : n < 2147483648) : (BitVec.ofNat 32 n).toInt = n := by
  have hnat : (BitVec.ofNat 32 n).toNat = n := by
    rw [BitVec.toNat_ofNat, Nat.mod_eq_of_lt (by omega)]
  rw [BitVec.toInt_eq_toNat_of_lt (by omega), hnat]

variable {x : ℚ}

/-- `(int)` of a number that fits, by its sign. -/
theorem exact_toInt (h0 : 0 ≤ x) (h1 : x < 2147483648) :
    exactDoubles.toInt x = BitVec.ofNat 32 ⌊x⌋₊ ∧
      exactDoubles.toInt (-x) = -BitVec.ofNat 32 ⌊x⌋₊ := by
  have hfloor : truncate x = (⌊x⌋₊ : ℤ) := by
    rw [truncate_of_nonneg h0, Int.natCast_floor_eq_floor h0]
  have hlt : ⌊x⌋₊ < 2147483648 := (Nat.floor_lt h0).mpr (by exact_mod_cast h1)
  have hneg := truncate_neg x
  rw [hfloor] at hneg
  constructor
  · show (if -2147483648 ≤ truncate x ∧ truncate x < 2147483648 then BitVec.ofInt 32 (truncate x)
      else 0x80000000#32) = _
    rw [hfloor, if_pos (by omega), BitVec.ofInt_natCast]
  · show (if -2147483648 ≤ truncate (-x) ∧ truncate (-x) < 2147483648 then
      BitVec.ofInt 32 (truncate (-x)) else 0x80000000#32) = _
    rw [hneg, if_pos (by omega), BitVec.ofInt_neg, BitVec.ofInt_natCast]

theorem ftoaFraction_eq (n : ℕ) (h0 : 0 ≤ x) (h1 : x < 1) :
    ftoaFraction exactDoubles n x = (fractionDigits n x).map Numeral.digitChar := by
  induction n generalizing x with
  | zero => rfl
  | succ n ih =>
    have hten : exactDoubles.mul x (exactDoubles.ofInt 10#32) = x * 10 := rfl
    have hpos : 0 ≤ x * 10 := by positivity
    have hlt : ⌊x * 10⌋₊ < 10 := (Nat.floor_lt hpos).mpr (by push_cast; linarith)
    obtain ⟨hdigit, _⟩ := exact_toInt hpos (by linarith)
    have hvalue : exactDoubles.ofInt (BitVec.ofNat 32 ⌊x * 10⌋₊) = ⌊x * 10⌋₊ := by
      rw [exact_ofInt, toInt_ofNat_of_lt (by omega), Int.cast_natCast]
    have hchar : (0x30#32 + BitVec.ofNat 32 ⌊x * 10⌋₊).setWidth 8 =
        Numeral.digitChar ⌊x * 10⌋₊ := by
      unfold Numeral.digitChar
      bv_omega
    obtain ⟨hrest0, hrest1⟩ := fraction_rest hpos
    rw [ftoaFraction, fractionDigits, List.map_cons, hten, hdigit, hvalue, hchar, exact_sub,
      ih hrest0 hrest1]

theorem ftoaUnsigned_ofParts (negative : Bool) {n : ℕ} (hn : n < 2147483648)
    (x : Set.Ico (0 : ℚ) 1) :
    ftoaUnsigned exactDoubles (BitVec.ofNat 32 n) x.val 2 =
      (Numeral.ofParts negative n 2 x).spellUnsigned := by
  have hzero : BitVec.ofNat 32 n = 0#32 ↔ n = 0 := by bv_omega
  unfold ftoaUnsigned Numeral.spellUnsigned
  congr 1
  · show _ = (if n = 0 then [0] else (Nat.digits 10 n).reverse).map Numeral.digitChar
    by_cases hn0 : n = 0
    · rw [if_pos (hzero.mpr hn0), if_pos hn0]
      rfl
    · rw [if_neg (hzero.not.mpr hn0), if_neg hn0, toInt_ofNat_of_lt hn, Int.toNat_natCast,
        decDigits_eq, List.map_reverse]
      rfl
  · show _ = if (if 0 < x.val then fractionDigits 2 x.val else []) = [] then []
      else 0x2E#8 :: (if 0 < x.val then fractionDigits 2 x.val else []).map Numeral.digitChar
    have hgt : exactDoubles.gt x.val (exactDoubles.ofInt 0#32) = true ↔ 0 < x.val := exact_gt _ _
    have hsome : fractionDigits 2 x.val ≠ [] := List.cons_ne_nil _ _
    by_cases hx : 0 < x.val
    · rw [if_pos ⟨by decide, hgt.mpr hx⟩, if_pos hx, if_neg hsome, ftoaFraction_eq 2 x.2.1 x.2.2]
    · rw [if_neg fun h => hx (hgt.mp h.2), if_neg hx, if_pos rfl]

/-- `simple_ftoa` of a number that is not negative. -/
theorem simpleFtoa_nonneg (h0 : 0 ≤ x) (h1 : x < 2147483648) :
    simpleFtoa exactDoubles x 2 = (Numeral.ofRat false 2 x h0).spell ++ [0#8] := by
  have hlt : ⌊x⌋₊ < 2147483648 := (Nat.floor_lt h0).mpr (by exact_mod_cast h1)
  have hint := toInt_ofNat_of_lt hlt
  have hsign : (BitVec.ofNat 32 ⌊x⌋₊).slt 0#32 = false := by
    simp [BitVec.slt, hint]
  have hfrac : exactDoubles.sub x (exactDoubles.ofInt (BitVec.ofNat 32 ⌊x⌋₊)) = x - ⌊x⌋₊ := by
    rw [exact_sub, exact_ofInt, hint, Int.cast_natCast]
  unfold simpleFtoa
  dsimp only
  rw [(exact_toInt h0 h1).1, hsign, if_neg Bool.false_ne_true, hfrac]
  exact congrArg (· ++ [0#8]) (ftoaUnsigned_ofParts false hlt ⟨x - ⌊x⌋₊, fraction_rest h0⟩)

/-- `simple_ftoa` of a number that is at most -1. -/
theorem simpleFtoa_neg (h0 : 1 ≤ x) (h1 : x < 2147483648) :
    simpleFtoa exactDoubles (-x) 2 =
      (Numeral.ofRat true 2 x (le_trans zero_le_one h0)).spell ++ [0#8] := by
  have hpos : 0 ≤ x := le_trans zero_le_one h0
  have hlt : ⌊x⌋₊ < 2147483648 := (Nat.floor_lt hpos).mpr (by exact_mod_cast h1)
  have hone : 1 ≤ ⌊x⌋₊ := (Nat.one_le_floor_iff x).mpr h0
  have hint : (-BitVec.ofNat 32 ⌊x⌋₊).toInt = -⌊x⌋₊ := by
    rw [BitVec.toInt_neg, toInt_ofNat_of_lt hlt]
    exact Int.bmod_eq_of_le (by omega) (by omega)
  have hsign : (-BitVec.ofNat 32 ⌊x⌋₊).slt 0#32 = true := by
    simp [BitVec.slt, hint]
    omega
  have hfrac : exactDoubles.neg (exactDoubles.sub (-x)
      (exactDoubles.ofInt (-BitVec.ofNat 32 ⌊x⌋₊))) = x - ⌊x⌋₊ := by
    rw [exact_neg, exact_sub, exact_ofInt, hint]
    push_cast
    ring
  unfold simpleFtoa
  dsimp only
  rw [(exact_toInt hpos h1).2, hsign, if_pos rfl, hfrac, BitVec.neg_neg]
  exact congrArg (fun text => 0x2D#8 :: text ++ [0#8])
    (ftoaUnsigned_ofParts true hlt ⟨x - ⌊x⌋₊, fraction_rest hpos⟩)

/-- `simple_ftoa` of a number between -1 and 0: the sign and the decimals are lost. -/
theorem simpleFtoa_small (h0 : -1 < x) (h1 : x < 0) :
    simpleFtoa exactDoubles x 2 = [0x30#8, 0#8] := by
  have hint : exactDoubles.toInt x = 0#32 := by
    have hfloor : ⌊-x⌋₊ = 0 := Nat.floor_eq_zero.mpr (by linarith)
    have htoInt := (exact_toInt (x := -x) (by linarith) (by linarith)).2
    rw [neg_neg, hfloor] at htoInt
    exact htoInt
  have hgt : ¬ exactDoubles.gt (exactDoubles.sub x (exactDoubles.ofInt 0#32))
      (exactDoubles.ofInt 0#32) = true := by
    rw [exact_gt]
    simpa using h1.le
  unfold simpleFtoa ftoaUnsigned
  dsimp only
  rw [hint, if_neg (by decide), if_pos rfl, if_neg fun h => hgt h.2]
  rfl

/-- An integer part that does not fit in an `int` is the least `int`. -/
theorem exact_toInt_overflow (h : x ≤ -2147483648 ∨ 2147483648 ≤ x) :
    exactDoubles.toInt x = 0x80000000#32 := by
  show (if -2147483648 ≤ truncate x ∧ truncate x < 2147483648 then BitVec.ofInt 32 (truncate x)
    else 0x80000000#32) = _
  split
  · next hfits =>
    rcases h with hneg | hpos
    · have hle : truncate x ≤ -2147483648 := by
        have hceil : truncate x = ⌈x⌉ := if_neg (by linarith)
        rw [hceil, Int.ceil_le]
        exact_mod_cast hneg
      rw [le_antisymm hle hfits.1]
      rfl
    · have hge : 2147483648 ≤ truncate x := by
        rw [truncate_of_nonneg (by linarith), Int.le_floor]
        exact_mod_cast hpos
      exact absurd hfits.2 (not_lt.mpr hge)
  · rfl

/-- No digit follows the sign of the least `int`. -/
theorem simpleFtoa_overflow (h : x ≤ -2147483648 ∨ 2147483648 ≤ x) :
    ∃ ch rest, simpleFtoa exactDoubles x 2 = 0x2D#8 :: ch :: rest ∧ isDigit ch = false := by
  have hdigits : decDigits (-0x80000000#32).toInt.toNat = [] := by
    rw [show (-0x80000000#32).toInt.toNat = 0 by decide, decDigits, if_pos rfl]
  unfold simpleFtoa ftoaUnsigned
  dsimp only
  rw [exact_toInt_overflow h, if_pos (by decide), if_neg (by decide), hdigits]
  split
  · exact ⟨_, _, rfl, by decide⟩
  · exact ⟨_, _, rfl, by decide⟩

end Writing

/-! ## The property -/

/-- The string that `simple_ftoa` leaves in the display. -/
def displayedText (v : ℚ) : List Byte := (simpleFtoa exactDoubles v 2).takeWhile fun ch => ch ≠ 0#8

/-- It is what the calculator displays after an operation. -/
theorem calculatorExecute_displayedText {c : CalculatorEntry ℚ} (hoperation : c.operation ≠ 0#8) :
    (calculatorExecute exactDoubles c).value.text =
      displayedText (calculatorExecute exactDoubles c).value.storedValue :=
  calculatorExecute_text hoperation

/-- The text is a numeral, and `simple_atof` reads the number from it, up to two decimals. -/
structure ShownCorrectly (v : ℚ) : Prop where
  numeral : ∃ q : Numeral, displayedText v = q.spell
  value : simpleAtof exactDoubles (displayedText v) = truncateTo 2 v

theorem shownCorrectly_of_spell {v : ℚ} {q : Numeral} (hfraction : q.fraction.length ≤ 9)
    (hvalue : q.value = truncateTo 2 v)
    (h : simpleFtoa exactDoubles v 2 = q.spell ++ [0#8]) : ShownCorrectly v := by
  have htext : displayedText v = q.spell := by
    unfold displayedText
    rw [h, List.takeWhile_append_of_pos fun ch hch => decide_eq_true (q.spell_ne_zero ch hch),
      List.takeWhile_cons_of_neg (by simp), List.append_nil]
  exact ⟨⟨q, htext⟩, by rw [htext, simpleAtof_spell hfraction, hvalue]⟩

/-- A sign without a digit behind it is no numeral. -/
theorem takeWhile_ne_spell {ch : Byte} (hch : isDigit ch = false) (rest : List Byte) (q : Numeral) :
    (0x2D#8 :: ch :: rest).takeWhile (fun ch => ch ≠ 0#8) ≠ q.spell := by
  obtain ⟨d, rest', hd, hhead⟩ := q.spellUnsigned_head
  have hdigit := isDigit_digitChar hd
  rw [List.takeWhile_cons_of_pos (by decide), Numeral.spell, hhead]
  intro h
  split at h
  · have htail := (List.cons.inj h).2
    rw [List.takeWhile_cons] at htail
    split at htail
    · rw [← (List.cons.inj htail).1, hch] at hdigit
      exact Bool.false_ne_true hdigit
    · exact absurd htail.symm (List.cons_ne_nil _ _)
  · rw [← (List.cons.inj h).1] at hdigit
    exact absurd hdigit (by decide)

theorem shownCorrectly_small {v : ℚ} (h0 : -1 < v) (h1 : v < 0) :
    ShownCorrectly v ↔ -1 / 100 < v := by
  have htext : displayedText v = [0x30#8] := by
    rw [displayedText, simpleFtoa_small h0 h1]
    rfl
  have hvalue : simpleAtof exactDoubles [0x30#8] = 0 := by decide +kernel
  have hceil : truncate (v * 10 ^ 2) = ⌈v * 10 ^ 2⌉ := if_neg (by linarith)
  have hzero : truncateTo 2 v = 0 ↔ -1 / 100 < v := by
    rw [truncateTo, hceil, div_eq_zero_iff, Int.cast_eq_zero, Int.ceil_eq_zero_iff]
    constructor
    · rintro (h | h)
      · linarith [h.1]
      · norm_num at h
    · intro h
      exact .inl ⟨by linarith, by linarith⟩
  rw [← hzero]
  constructor
  · rintro ⟨_, h⟩
    rw [← h, htext, hvalue]
  · intro h
    refine ⟨⟨Numeral.ofParts false 0 2 ⟨0, by simp⟩, ?_⟩, by rw [htext, hvalue, h]⟩
    rw [htext]
    decide +kernel

/-- `simple_ftoa` shows a number up to two decimals exactly when the number has a place in
an `int` and is not between -1 and -0.01, where it would lose its sign and all of its
decimals. -/
theorem result_shown_iff (v : ℚ) :
    ShownCorrectly v ↔
      (-2147483648 < v ∧ v < 2147483648) ∧ ¬ (-1 < v ∧ v ≤ -1 / 100) := by
  by_cases hfits : -2147483648 < v ∧ v < 2147483648
  · rw [and_iff_right hfits]
    rcases le_or_gt 0 v with hnonneg | hneg
    · refine iff_of_true ?_ fun h => by linarith [h.2]
      have hdecimals := Numeral.ofRat_fraction_length false 2 hnonneg
      exact shownCorrectly_of_spell (Nat.le_trans hdecimals (by decide))
        (Numeral.ofRat_value false 2 hnonneg) (simpleFtoa_nonneg hnonneg hfits.2)
    · rcases lt_or_ge (-1) v with hsmall | hone
      · rw [shownCorrectly_small hsmall hneg, and_iff_right hsmall, not_le]
      · refine iff_of_true ?_ fun h => by linarith [h.1]
        have hpos : 0 ≤ -v := by linarith
        have hdecimals := Numeral.ofRat_fraction_length true 2 hpos
        have hvalue := Numeral.ofRat_value true 2 hpos
        have hwritten := simpleFtoa_neg (x := -v) (by linarith) (by linarith [hfits.1])
        rw [neg_neg] at hwritten
        rw [if_pos rfl, neg_neg] at hvalue
        exact shownCorrectly_of_spell (Nat.le_trans hdecimals (by decide)) hvalue hwritten
  · refine iff_of_false ?_ fun h => hfits h.1
    have hout : v ≤ -2147483648 ∨ 2147483648 ≤ v := by
      by_contra hin
      rw [not_or, not_le, not_le] at hin
      exact hfits hin
    obtain ⟨ch, rest, hwritten, hch⟩ := simpleFtoa_overflow hout
    rintro ⟨⟨q, hq⟩, _⟩
    rw [displayedText, hwritten] at hq
    exact takeWhile_ne_spell hch rest q hq

/-- The buttons `0 . 5 - 1 =` store -1/2 and display `0`. -/
theorem result_loses_sign :
    let c : CalculatorEntry ℚ := ⟨fun _ => 0#8, 0, 0, 0, 0#8, true⟩
    let c' := (clearEntry exactDoubles c >>= pressButtons
      ([12, 13, 5, 11, 8, 16].map fun buttonId => (exactDoubles, buttonId))).value
    c'.storedValue = -1 / 2 ∧ c'.text = [0x30#8] ∧ displayedText (-1 / 2) = [0x30#8] ∧
      simpleAtof exactDoubles [0x30#8] = 0 ∧ truncateTo 2 (-1 / 2) = -1 / 2 ∧
      ¬ ShownCorrectly (-1 / 2) := by
  have hrun : let c : CalculatorEntry ℚ := ⟨fun _ => 0#8, 0, 0, 0, 0#8, true⟩
      let c' := (clearEntry exactDoubles c >>= pressButtons
        ([12, 13, 5, 11, 8, 16].map fun buttonId => (exactDoubles, buttonId))).value
      c'.storedValue = -1 / 2 ∧ c'.text = [0x30#8] := by decide +kernel
  refine ⟨hrun.1, hrun.2, by decide +kernel, by decide +kernel, by decide +kernel, fun h => ?_⟩
  have hsmall := (shownCorrectly_small (v := -1 / 2) (by norm_num) (by norm_num)).mp h
  norm_num at hsmall

end Zenix
