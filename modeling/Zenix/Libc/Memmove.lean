import Zenix.Libc

/-!
# Moving memory (lib/libc/string.c)

`memmove` copies in place, one byte at a time. It copies upwards when the destination is
below the source and downwards otherwise, so that no byte of the source is overwritten
before it has been read.

Results:
1. `copyForward_apply`, `copyBackward_apply`: what each direction leaves at the destination.
2. `memmove_moves`: the destination has the bytes of the source, whatever the overlap.
-/

namespace Zenix
open ByteMemory

/-- `for (uint32_t i = 0; i < n; i++) d[i] = s[i];` -/
def copyForward (dest src : Word) (n : Nat) (m : Mem) : Mem :=
  fill m dest (fun i m => m (src + BitVec.ofNat 32 i)) n

/-- `for (uint32_t i = n; i > 0; i--) d[i - 1] = s[i - 1];` -/
def copyBackward (dest src : Word) : Nat → Mem → Mem
  | 0, m => m
  | i + 1, m =>
      copyBackward dest src i (store8 m (dest + BitVec.ofNat 32 i) (m (src + BitVec.ofNat 32 i)))

/-- `memmove`, with the pointer that it returns. -/
def memmove (dest src n : Word) (m : Mem) : Word × Mem :=
  (dest, if dest < src then copyForward dest src n.toNat m else copyBackward dest src n.toNat m)

section Directions
variable {m : Mem} {dest src : Word} {n i : Nat}

/-- Two offsets of ranges that do not wrap around. -/
theorem add_ofNat_lt {a b : Word} {j : Nat} (hb : b.toNat + j < 2 ^ 32)
    (h : a.toNat + i < b.toNat + j) : a + BitVec.ofNat 32 i ≠ b + BitVec.ofNat 32 j := by
  intro heq
  have haddr := congrArg BitVec.toNat heq
  rw [toNat_add_ofNat hb, toNat_add_ofNat (by omega)] at haddr
  omega

/-- Upwards: round `i` reads above everything that the earlier rounds have written. -/
theorem copyForward_apply (hlt : dest.toNat < src.toNat) (hsrc : src.toNat + n ≤ 2 ^ 32)
    (hi : i < n) :
    copyForward dest src n m (dest + BitVec.ofNat 32 i) = m (src + BitVec.ofNat 32 i) := by
  have hunread : fill m dest (fun i m => m (src + BitVec.ofNat 32 i)) i (src + BitVec.ofNat 32 i) =
      m (src + BitVec.ofNat 32 i) :=
    fill_other fun j hj => (add_ofNat_lt (by omega) (by omega)).symm
  exact (fill_apply (by omega) hi).trans hunread

theorem copyForward_sameOff (hdest : dest.toNat + n ≤ 2 ^ 32) :
    SameOff m (copyForward dest src n m) dest.toNat (dest.toNat + n) :=
  fill_sameOff hdest

theorem copyBackward_sameOff {k : Nat} (hk : n ≤ k) (hdest : dest.toNat + k ≤ 2 ^ 32) :
    SameOff m (copyBackward dest src n m) dest.toNat (dest.toNat + k) := by
  induction n generalizing m with
  | zero => exact SameOff.refl _ _ _
  | succ n ih => exact (store8_at_sameOff hk hdest).trans (ih (Nat.le_of_succ_le hk))

/-- Downwards: the rounds that are left read below everything that has been written. -/
theorem copyBackward_apply (hle : src.toNat ≤ dest.toNat) (hdest : dest.toNat + n ≤ 2 ^ 32)
    (hi : i < n) :
    copyBackward dest src n m (dest + BitVec.ofNat 32 i) = m (src + BitVec.ofNat 32 i) := by
  induction n generalizing m with
  | zero => exact absurd hi (Nat.not_lt_zero i)
  | succ n ih =>
    rw [copyBackward]
    rcases Nat.lt_succ_iff_lt_or_eq.mp hi with hlt | rfl
    · rw [ih (by omega) hlt]
      exact store8_ne (add_ofNat_lt (by omega) (by omega))
    · have haddr : (dest + BitVec.ofNat 32 i).toNat = dest.toNat + i := toNat_add_ofNat (by omega)
      have hkept : ∀ m', copyBackward dest src i m' (dest + BitVec.ofNat 32 i) =
          m' (dest + BitVec.ofNat 32 i) := fun m' =>
        copyBackward_sameOff (Nat.le_refl i) (by omega) _ (Or.inr (Nat.le_of_eq haddr.symm))
      rw [hkept, store8_same]

end Directions

/-- The bytes that were at `src` are at `dest`, and no other byte has changed. -/
theorem memmove_moves (m : Mem) (dest src n : Word) (hdest : dest.toNat + n.toNat ≤ 2 ^ 32)
    (hsrc : src.toNat + n.toNat ≤ 2 ^ 32) :
    (memmove dest src n m).1 = dest ∧
      (∀ i < n.toNat, (memmove dest src n m).2 (dest + BitVec.ofNat 32 i) =
        m (src + BitVec.ofNat 32 i)) ∧
      SameOff m (memmove dest src n m).2 dest.toNat (dest.toNat + n.toNat) := by
  unfold memmove
  dsimp only
  split
  · next hlt =>
    exact ⟨rfl, fun i hi => copyForward_apply hlt hsrc hi, copyForward_sameOff hdest⟩
  · next hle =>
    rw [BitVec.lt_def, Nat.not_lt] at hle
    exact ⟨rfl, fun i hi => copyBackward_apply hle hdest hi,
      copyBackward_sameOff (Nat.le_refl _) hdest⟩

/-- Three bytes are moved up by one, to the end of memory. -/
theorem memmove_moves_overlap :
    (memmove 0xFFFFFFFD#32 0xFFFFFFFC#32 3#32 fun a => a.setWidth 8).2 0xFFFFFFFF#32 = 0xFE#8 :=
  (memmove_moves (fun a => a.setWidth 8) 0xFFFFFFFD#32 0xFFFFFFFC#32 3#32 (by decide)
    (by decide)).2.1 2 (by decide)

end Zenix
