import Zenix.Drivers.VgaRect

/-!
# Filled circles (kernel/drivers/vga/vga.c)

`vga_fill_circle` goes through a square of offsets and mirrors every one that lies in the
circle into the four quadrants. Squares and sums are those of a `uint32_t`.

Results:
1. `forUpTo_spec`: what a loop up to a bound calls. `forUpTo_max`: with the largest bound
   it never ends.
2. `mul_self_exact`, `add_squares_exact`: the squares up to 46340 and their sums do not overflow.
3. `fill_circle_paints`: the pixels are those at the integer points of the disc.
-/

namespace Zenix
open ByteMemory Logged

/-! ## The function -/

/-- The values of a `uint32_t`, and the tests that a loop over them needs at most. -/
def maxRounds : Nat := 4294967296

/-- `for (uint32_t i = ...; i <= r; i++)` from `i` on. `none` is a loop that has not ended. -/
def forUpTo (r : Word) (body : Word → Option (Logged PixelCall Unit)) :
    Nat → Word → Option (Logged PixelCall Unit)
  | 0, _ => none
  | fuel + 1, i =>
      if i ≤ r then do
        let first ← body i
        let rest ← forUpTo r body fuel (i + 1#32)
        some (first >>= fun _ => rest)
      else some (pure ())

/-- The four calls for one offset. -/
def plotQuadrants (cx cy color x y : Word) : Logged PixelCall Unit := do
  setPixel (cx + x) (cy + y) color
  setPixel (cx - x) (cy + y) color
  setPixel (cx + x) (cy - y) color
  setPixel (cx - x) (cy - y) color

/-- The inner loop, over `x`. -/
def fillCircleRow (cx cy r color y : Word) : Option (Logged PixelCall Unit) :=
  forUpTo r (fun x =>
    some (if x * x + y * y ≤ r * r then plotQuadrants cx cy color x y else pure ()))
    maxRounds 0#32

def vgaFillCircle (cx cy r color : Word) : Option (Logged PixelCall Unit) :=
  forUpTo r (fillCircleRow cx cy r color) maxRounds 0#32

/-! ## The property -/

/-- The integer points around `(cx, cy)`, at a distance of at most `r`. -/
def InDisc (cx cy r px py : Word) : Prop :=
  ∃ a b : Int, a ^ 2 + b ^ 2 ≤ r.toNat ^ 2 ∧
    px = cx + BitVec.ofInt 32 a ∧ py = cy + BitVec.ofInt 32 b

/-! ## The loops -/

section Loops
variable {r : Word} {body : Word → Option (Logged PixelCall Unit)}

/-- The bound of a loop that ends is not the largest value. -/
theorem forUpTo_max (fuel : Nat) (i : Word) : forUpTo (BitVec.allOnes 32) body fuel i = none := by
  have hle : ∀ j : Word, j ≤ BitVec.allOnes 32 := fun j =>
    BitVec.le_def.mpr (Nat.le_of_lt_succ j.isLt)
  induction fuel generalizing i with
  | zero => rfl
  | succ fuel ih =>
    rw [forUpTo, if_pos (hle i), ih]
    cases body i with
    | none => rfl
    | some _ => rfl

/-- The calls of a loop are those of its rounds. -/
theorem forUpTo_spec {calls : Word → PixelCall → Prop} {fuel : Nat} (hr : r.toNat + 1 < 2 ^ 32)
    (hbody : ∀ i, i ≤ r → ∃ d, body i = some d ∧ ∀ p, p ∈ d.log ↔ calls i p)
    {i : Word} (hfuel : r.toNat + 1 - i.toNat < fuel) :
    ∃ d, forUpTo r body fuel i = some d ∧
      ∀ p, p ∈ d.log ↔ ∃ j, (i ≤ j ∧ j ≤ r) ∧ calls j p := by
  induction fuel generalizing i with
  | zero => exact absurd hfuel (Nat.not_lt_zero _)
  | succ fuel ih =>
    rw [forUpTo]
    by_cases hle : i ≤ r
    · have hbelow : i.toNat ≤ r.toNat := hle
      have hnext : (i + 1#32).toNat = i.toNat + 1 :=
        toNat_add_of_lt (Nat.lt_of_le_of_lt (Nat.add_le_add_right hbelow 1) hr)
      obtain ⟨first, hfirst, hcalls⟩ := hbody i hle
      obtain ⟨rest, hrest, hlater⟩ := ih (i := i + 1#32) (by omega)
      rw [if_pos hle, hfirst, hrest]
      refine ⟨_, rfl, fun p => ?_⟩
      rw [log_bind, List.mem_append, hcalls, hlater]
      constructor
      · rintro (hp | ⟨j, ⟨hij, hjr⟩, hp⟩)
        · exact ⟨i, ⟨BitVec.le_refl i, hle⟩, hp⟩
        · rw [BitVec.le_def, hnext] at hij
          exact ⟨j, ⟨Nat.le_of_succ_le hij, hjr⟩, hp⟩
      · rintro ⟨j, ⟨hij, hjr⟩, hp⟩
        rcases Nat.eq_or_lt_of_le (BitVec.le_def.mp hij) with heq | hlt
        · obtain rfl := BitVec.eq_of_toNat_eq heq
          exact .inl hp
        · exact .inr ⟨j, ⟨by rw [BitVec.le_def, hnext]; exact hlt, hjr⟩, hp⟩
    · refine ⟨_, by rw [if_neg hle], fun p => iff_of_false List.not_mem_nil ?_⟩
      rintro ⟨j, ⟨hij, hjr⟩, _⟩
      exact hle (Nat.le_trans hij hjr)

theorem mem_plotQuadrants {cx cy color x y : Word} {p : PixelCall} :
    p ∈ (plotQuadrants cx cy color x y).log ↔
      ((p.x = cx + x ∨ p.x = cx - x) ∧ (p.y = cy + y ∨ p.y = cy - y)) ∧ p.color = color := by
  obtain ⟨px, py, c⟩ := p
  simp only [plotQuadrants, log_bind, List.mem_append, mem_setPixel, PixelCall.mk.injEq]
  constructor
  · rintro (⟨hx, hy, hc⟩ | ⟨hx, hy, hc⟩ | ⟨hx, hy, hc⟩ | ⟨hx, hy, hc⟩)
    · exact ⟨⟨.inl hx, .inl hy⟩, hc⟩
    · exact ⟨⟨.inr hx, .inl hy⟩, hc⟩
    · exact ⟨⟨.inl hx, .inr hy⟩, hc⟩
    · exact ⟨⟨.inr hx, .inr hy⟩, hc⟩
  · rintro ⟨⟨hx | hx, hy | hy⟩, hc⟩
    · exact .inl ⟨hx, hy, hc⟩
    · exact .inr (.inr (.inl ⟨hx, hy, hc⟩))
    · exact .inr (.inl ⟨hx, hy, hc⟩)
    · exact .inr (.inr (.inr ⟨hx, hy, hc⟩))

end Loops

section Calls
variable {r : Word} (hr : r.toNat + 1 < 2 ^ 32) (cx cy color : Word)
include hr

theorem fillCircleRow_spec (y : Word) :
    ∃ d, fillCircleRow cx cy r color y = some d ∧ ∀ p, p ∈ d.log ↔
      ∃ x, (0#32 ≤ x ∧ x ≤ r) ∧ x * x + y * y ≤ r * r ∧
        ((p.x = cx + x ∨ p.x = cx - x) ∧ (p.y = cy + y ∨ p.y = cy - y)) ∧ p.color = color := by
  refine forUpTo_spec hr (fun x _ => ⟨_, rfl, fun p => ?_⟩) hr
  split
  · next hin => rw [mem_plotQuadrants, and_iff_right hin]
  · next hout => exact iff_of_false List.not_mem_nil fun h => hout h.1

/-- The calls of `vga_fill_circle`, which ends for every radius but the largest one. -/
theorem vgaFillCircle_spec :
    ∃ d, vgaFillCircle cx cy r color = some d ∧ ∀ p, p ∈ d.log ↔
      (∃ x y, (x ≤ r ∧ y ≤ r) ∧ x * x + y * y ≤ r * r ∧
        (p.x = cx + x ∨ p.x = cx - x) ∧ (p.y = cy + y ∨ p.y = cy - y)) ∧ p.color = color := by
  have hfuel : r.toNat + 1 - (0#32).toNat < maxRounds := hr
  obtain ⟨d, hd, hcalls⟩ := forUpTo_spec hr (fun y _ => fillCircleRow_spec hr cx cy color y) hfuel
  refine ⟨d, hd, fun p => (hcalls p).trans ?_⟩
  constructor
  · rintro ⟨y, ⟨_, hy⟩, x, ⟨_, hx⟩, hin, hat, hcolor⟩
    exact ⟨⟨x, y, ⟨hx, hy⟩, hin, hat⟩, hcolor⟩
  · rintro ⟨⟨x, y, ⟨hx, hy⟩, hin, hat⟩, hcolor⟩
    exact ⟨y, ⟨Nat.zero_le _, hy⟩, x, ⟨Nat.zero_le _, hx⟩, hin, hat, hcolor⟩

end Calls

/-! ## The squares -/

section Squares
variable {r x y : Word}

/-- The squares of values up to a bound are at most the square of the bound. -/
theorem sq_le_of_le {n : Nat} (hx : x ≤ r) (hr : r.toNat ≤ n) : x.toNat ^ 2 ≤ n ^ 2 :=
  Nat.pow_le_pow_left (Nat.le_trans hx hr) 2

/-- 46340 is the last number whose square is below `2 ^ 31`. -/
theorem mul_self_exact (hr : r.toNat ≤ 46340) (hx : x ≤ r) : (x * x).toNat = x.toNat ^ 2 := by
  have hsq : x.toNat ^ 2 ≤ 46340 ^ 2 := sq_le_of_le hx hr
  rw [BitVec.toNat_mul, ← Nat.pow_two]
  exact Nat.mod_eq_of_lt (by omega)

theorem add_squares_exact (hr : r.toNat ≤ 46340) (hx : x ≤ r) (hy : y ≤ r) :
    (x * x + y * y).toNat = x.toNat ^ 2 + y.toNat ^ 2 := by
  have hx2 : x.toNat ^ 2 ≤ 46340 ^ 2 := sq_le_of_le hx hr
  have hy2 : y.toNat ^ 2 ≤ 46340 ^ 2 := sq_le_of_le hy hr
  have hsum : (x * x).toNat + (y * y).toNat = x.toNat ^ 2 + y.toNat ^ 2 := by
    rw [mul_self_exact hr hx, mul_self_exact hr hy]
  rw [← hsum]
  exact toNat_add_of_lt (by rw [hsum]; omega)

/-- The comparison is that of the numbers. -/
theorem inCircle_iff (hr : r.toNat ≤ 46340) (hx : x ≤ r) (hy : y ≤ r) :
    x * x + y * y ≤ r * r ↔ x.toNat ^ 2 + y.toNat ^ 2 ≤ r.toNat ^ 2 := by
  rw [BitVec.le_def, add_squares_exact hr hx hy, mul_self_exact hr (BitVec.le_refl r)]

end Squares

/-! ## The quadrants -/

section Quadrants
variable {cx cy r px py : Word}

/-- An offset and its mirror image are the two whole numbers of that size. -/
theorem mirror_iff {c p x : Word} :
    (p = c + x ∨ p = c - x) ↔ ∃ a : Int, a.natAbs = x.toNat ∧ p = c + BitVec.ofInt 32 a := by
  have hplus : BitVec.ofInt 32 x.toNat = x := by
    rw [BitVec.ofInt_natCast, BitVec.ofNat_toNat, BitVec.setWidth_eq]
  have hminus : c + BitVec.ofInt 32 (-x.toNat) = c - x := by
    rw [BitVec.ofInt_neg, hplus, BitVec.sub_eq_add_neg]
  constructor
  · rintro (rfl | rfl)
    · exact ⟨x.toNat, Int.natAbs_natCast _, by rw [hplus]⟩
    · exact ⟨-x.toNat, by rw [Int.natAbs_neg, Int.natAbs_natCast], hminus.symm⟩
  · rintro ⟨a, ha, rfl⟩
    rcases Int.natAbs_eq_iff.mp ha with rfl | rfl
    · exact .inl (by rw [hplus])
    · exact .inr hminus

/-- The disc in terms of the offsets of one quadrant. -/
theorem inDisc_iff :
    InDisc cx cy r px py ↔
      ∃ x y, (x ≤ r ∧ y ≤ r) ∧ x.toNat ^ 2 + y.toNat ^ 2 ≤ r.toNat ^ 2 ∧
        (px = cx + x ∨ px = cx - x) ∧ (py = cy + y ∨ py = cy - y) := by
  have hsize : ∀ a b : Int,
      a ^ 2 + b ^ 2 ≤ r.toNat ^ 2 ↔ a.natAbs ^ 2 + b.natAbs ^ 2 ≤ r.toNat ^ 2 := by
    intro a b
    rw [← Int.natAbs_sq a, ← Int.natAbs_sq b]
    norm_cast
  simp only [mirror_iff]
  constructor
  · rintro ⟨a, b, hin, hx, hy⟩
    rw [hsize] at hin
    -- neither offset is larger than the radius
    have ha : a.natAbs ≤ r.toNat :=
      (Nat.pow_le_pow_iff_left (by decide)).mp (Nat.le_trans (Nat.le_add_right _ _) hin)
    have hb : b.natAbs ≤ r.toNat :=
      (Nat.pow_le_pow_iff_left (by decide)).mp (Nat.le_trans (Nat.le_add_left _ _) hin)
    have hword : ∀ n, n ≤ r.toNat → (BitVec.ofNat 32 n).toNat = n :=
      fun n hn => toNat_ofNat_of_lt (Nat.lt_of_le_of_lt hn r.isLt)
    refine ⟨BitVec.ofNat 32 a.natAbs, BitVec.ofNat 32 b.natAbs, ?_, ?_, ?_, ?_⟩
    · rw [BitVec.le_def, BitVec.le_def, hword _ ha, hword _ hb]
      exact ⟨ha, hb⟩
    · rw [hword _ ha, hword _ hb]
      exact hin
    · exact ⟨a, (hword _ ha).symm, hx⟩
    · exact ⟨b, (hword _ hb).symm, hy⟩
  · rintro ⟨x, y, _, hin, ⟨a, ha, hx⟩, b, hb, hy⟩
    refine ⟨a, b, (hsize a b).mpr ?_, hx, hy⟩
    rw [ha, hb]
    exact hin

end Quadrants

/-- In every usable mode and for every radius up to 46340 `vga_fill_circle` ends, computes with
exact squares and paints the pixels of the disc, which may wrap around. -/
theorem fill_circle_paints {info : VbeModeInfo} {hp hp' : Heap} {v : Vga} (hmode : info.Usable)
    (hinit : vgaInit info hp = some (v, hp')) (cx cy : Word) {r : Word} (hr : r.toNat ≤ 46340)
    (color : Word) :
    ∃ d, vgaFillCircle cx cy r color = some d ∧
      (∀ x, x ≤ r → (x * x).toNat = x.toNat ^ 2) ∧
      (∀ x y, x ≤ r → y ≤ r → (x * x + y * y).toNat = x.toNat ^ 2 + y.toNat ^ 2) ∧
      Paints v info.bpp.toNat d color (InDisc cx cy r) := by
  obtain ⟨d, hd, hcalls⟩ := vgaFillCircle_spec (r := r) (by omega) cx cy color
  have hcolor : d.All fun p => p.color = color := fun p hp => ((hcalls p).mp hp).2
  refine ⟨d, hd, fun x hx => mul_self_exact hr hx, fun x y hx hy => add_squares_exact hr hx hy, ?_⟩
  rw [paints_mode_iff hmode hinit hcolor]
  intro px py _
  rw [inDisc_iff]
  constructor
  · rintro ⟨x, y, ⟨hx, hy⟩, hin, hat⟩
    have hcompare : x * x + y * y ≤ r * r := (inCircle_iff hr hx hy).mpr hin
    have hcall : ⟨px, py, color⟩ ∈ d.log := (hcalls _).mpr ⟨⟨x, y, ⟨hx, hy⟩, hcompare, hat⟩, rfl⟩
    exact ⟨_, hcall, rfl, rfl⟩
  · rintro ⟨p, hp, rfl, rfl⟩
    obtain ⟨⟨x, y, ⟨hx, hy⟩, hin, hat⟩, _⟩ := (hcalls p).mp hp
    exact ⟨x, y, ⟨hx, hy⟩, (inCircle_iff hr hx hy).mp hin, hat⟩

/-- A circle whose centre is one point to the left of the screen. -/
theorem fill_circle_paints_cut : ∃ v h d,
    vgaInit smallMode (heapInit fun _ => 0#8) = some (v, h) ∧
      vgaFillCircle 0xFFFFFFFF#32 0#32 2#32 7#32 = some d ∧
      ∀ m, (vgaGetPixel v 1#32 0#32 (drawOn v d m)).toNat = 7 := by
  obtain ⟨v, h, hinit⟩ := vgaInit_smallMode
  have hon : v.OnScreen 1#32 0#32 := (vgaInit_onScreen smallMode_usable hinit).mpr (by decide)
  obtain ⟨d, hd, _, _, hpaints⟩ :=
    fill_circle_paints smallMode_usable hinit 0xFFFFFFFF#32 0#32 (r := 2#32) (by decide) 7#32
  have hin : InDisc 0xFFFFFFFF#32 0#32 2#32 1#32 0#32 := ⟨2, 0, by decide, by decide, by decide⟩
  exact ⟨v, h, d, hinit, hd, fun m => (hpaints m 1#32 0#32).1 ⟨hon, hin⟩⟩

end Zenix
