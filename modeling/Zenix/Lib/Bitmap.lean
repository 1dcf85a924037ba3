import Zenix.Lib.Memory

/-!
# Bitmaps in memory

A bitmap is an array of 32-bit words at `base`; bit `i` is bit `i % 32` of word
`i / 32`. Indices are 32-bit, so the array never overlaps itself, wherever it is
placed and even when it wraps around the address space.

Results:
1. `bitAt_setBit`, `bitAt_clearBit`: the updates change the named bit only.
2. `and_mask_ne_zero`: the usual test reads the bit.
3. `bitAt_congr`: a bit depends on its word only.
-/

namespace Bitmap
open ByteMemory

/-- The address of the word that holds bit `i`. -/
def wordAddr (base i : Word) : Word := base + 4#32 * (i / 32#32)

/-- `1 << (i % 32)`. -/
def mask (i : Word) : Word := 1#32 <<< (i % 32#32).toNat

def bitAt (m : Mem) (base i : Word) : Bool := (load32 m (wordAddr base i)).getLsbD (i.toNat % 32)

def setBit (m : Mem) (base i : Word) : Mem :=
  store32 m (wordAddr base i) (load32 m (wordAddr base i) ||| mask i)

def clearBit (m : Mem) (base i : Word) : Mem :=
  store32 m (wordAddr base i) (load32 m (wordAddr base i) &&& ~~~mask i)

/-! ## Masks -/

theorem getLsbD_mask (i : Word) {k : Nat} (hk : k < 32) :
    (mask i).getLsbD k = decide (k = i.toNat % 32) := by
  rw [mask, BitVec.toNat_umod, show (32#32).toNat = 32 from rfl, BitVec.getLsbD_shiftLeft]
  have hone : (1#32).getLsbD (k - i.toNat % 32) = decide (k - i.toNat % 32 = 0) := by
    rw [BitVec.getLsbD_one]
    simp
  rw [hone, Bool.eq_iff_iff]
  simp only [Bool.and_eq_true, Bool.not_eq_true', decide_eq_true_eq, decide_eq_false_iff_not]
  omega

theorem and_mask_ne_zero {m : Mem} {base i : Word} :
    load32 m (wordAddr base i) &&& mask i ≠ 0#32 ↔ bitAt m base i = true := by
  have hlt : i.toNat % 32 < 32 := Nat.mod_lt _ (by decide)
  constructor
  · intro h
    -- some bit survives the mask, and the mask has only this one
    by_contra hbit
    refine h (BitVec.eq_of_getLsbD_eq fun k hk => ?_)
    rw [BitVec.getLsbD_and, getLsbD_mask i hk, BitVec.getLsbD_zero]
    rcases Decidable.em (k = i.toNat % 32) with rfl | hne
    · rw [bitAt, Bool.not_eq_true] at hbit
      rw [hbit, Bool.false_and]
    · rw [decide_eq_false hne, Bool.and_false]
  · intro h heq
    have hk := congrArg (fun w : Word => w.getLsbD (i.toNat % 32)) heq
    simp only [BitVec.getLsbD_and, getLsbD_mask i hlt, decide_true, Bool.and_true,
      BitVec.getLsbD_zero] at hk
    rw [bitAt, hk] at h
    cases h

/-! ## Updates -/

/-- The offset of the word that holds bit `k`. -/
theorem wordOffset_toNat (k : Word) : (4#32 * (k / 32#32)).toNat = 4 * (k.toNat / 32) := by
  have hk := k.isLt
  rw [BitVec.toNat_mul, BitVec.toNat_udiv]
  show 4 * (k.toNat / 32) % 2 ^ 32 = 4 * (k.toNat / 32)
  omega

theorem wordAddr_eq_iff {base i j : Word} :
    wordAddr base i = wordAddr base j ↔ i.toNat / 32 = j.toNat / 32 := by
  rw [wordAddr, wordAddr, BitVec.add_right_inj, ← BitVec.toNat_inj, wordOffset_toNat, wordOffset_toNat]
  omega

/-- Different words of the array do not overlap. -/
theorem wordAddr_apart {base i j : Word} (h : i.toNat / 32 ≠ j.toNat / 32) :
    4 ≤ (wordAddr base j - wordAddr base i).toNat := by
  have hi := i.isLt
  have hj := j.isLt
  have hsub : wordAddr base j - wordAddr base i = 4#32 * (j / 32#32) - 4#32 * (i / 32#32) := by
    rw [wordAddr, wordAddr]
    bv_omega
  rw [hsub, BitVec.toNat_sub, wordOffset_toNat, wordOffset_toNat]
  omega

/-- A store to the word of bit `i`, seen from bit `j`. -/
theorem bitAt_store {m : Mem} {base i j v : Word} :
    bitAt (store32 m (wordAddr base i) v) base j =
      if i.toNat / 32 = j.toNat / 32 then v.getLsbD (j.toNat % 32) else bitAt m base j := by
  rw [bitAt]
  split
  · next h => rw [wordAddr_eq_iff.mpr h, load32_store32_same]
  · next h =>
    rw [load32_store32_ne (wordAddr_apart h) (wordAddr_apart (Ne.symm h)), bitAt]

theorem eq_iff_word_bit {i j : Word} :
    j = i ↔ i.toNat / 32 = j.toNat / 32 ∧ j.toNat % 32 = i.toNat % 32 := by
  rw [← BitVec.toNat_inj]
  omega

theorem bitAt_setBit (m : Mem) (base i j : Word) :
    bitAt (setBit m base i) base j = (decide (j = i) || bitAt m base j) := by
  rw [setBit, bitAt_store]
  have hlt : j.toNat % 32 < 32 := Nat.mod_lt _ (by decide)
  simp only [eq_iff_word_bit, Bool.decide_and]
  split
  · next h =>
    rw [BitVec.getLsbD_or, getLsbD_mask i hlt, wordAddr_eq_iff.mpr h, decide_eq_true h,
      Bool.true_and, Bool.or_comm, bitAt]
  · next h => rw [decide_eq_false h, Bool.false_and, Bool.false_or]

theorem bitAt_clearBit (m : Mem) (base i j : Word) :
    bitAt (clearBit m base i) base j = (!decide (j = i) && bitAt m base j) := by
  rw [clearBit, bitAt_store]
  have hlt : j.toNat % 32 < 32 := Nat.mod_lt _ (by decide)
  simp only [eq_iff_word_bit, Bool.decide_and]
  split
  · next h =>
    rw [BitVec.getLsbD_and, BitVec.getLsbD_not, getLsbD_mask i hlt, wordAddr_eq_iff.mpr h,
      decide_eq_true h, decide_eq_true hlt, Bool.true_and, Bool.true_and, Bool.and_comm, bitAt]
  · next h => rw [decide_eq_false h, Bool.false_and, Bool.not_false, Bool.true_and]

theorem bitAt_congr {m m' : Mem} {base i : Word} {lo hi : Nat} (h : SameOn m m' lo hi)
    (hlo : lo ≤ (wordAddr base i).toNat) (hhi : (wordAddr base i).toNat + 4 ≤ hi)
    (hmax : hi ≤ 2 ^ 32) : bitAt m' base i = bitAt m base i := by
  rw [bitAt, bitAt, load32_congr h hlo hhi hmax]

end Bitmap
