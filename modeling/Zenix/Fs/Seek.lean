import Zenix.Fs.VfsComplete

/-!
# Moving in an open file

`vfs_seek` adds a signed displacement to an unsigned position and then tests for the
upper end of the file only. A position below zero has wrapped to one above the end.

Results:
1. `seek_clamps_iff`: the new position is the integer one, clamped to the file, exactly
   when the integer one is not negative or the file is empty.
2. `seek_before_start`: one byte back from the start of a file leads to its end.
-/

namespace Zenix.VfsComplete
open ByteMemory

/-! ## The property -/

/-- Where `whence` counts from. -/
def seekBase (current length whence : Word) : Option Word :=
  if whence = SEEK_SET then some 0#32
  else if whence = SEEK_CUR then some current
  else if whence = SEEK_END then some length
  else none

/-- The position `x` clamped to a file of `length` bytes. -/
def intoFile (length : Nat) (x : Int) : Int := max 0 (min x length)

section Seek
variable {W : Type} (nodeAt : W → Word → FsNode W)

/-- The open descriptors have a node shorter than `2^31` bytes and a position in it. -/
def SeeksFile (fd : Word) (s : Vfs W) : Prop :=
  ∀ i, openSlot s.fdTable fd = some i → (s.fdTable i).node ≠ 0#32 ∧
    (s.fdTable i).offset ≤ (nodeAt s.world (s.fdTable i).node).length ∧
    (nodeAt s.world (s.fdTable i).node).length.toNat < 2 ^ 31

/-- The call fails and changes nothing when there is no open file or no such `whence`.
Otherwise it moves to the integer sum of base and displacement, clamped to the file, and
returns it. -/
def SeekClamps (fd offset whence : Word) (s : Vfs W) : Prop :=
  match openSlot s.fdTable fd with
  | none => vfsSeek nodeAt fd offset whence s = (-1#32, s)
  | some i =>
      let length := (nodeAt s.world (s.fdTable i).node).length
      match seekBase (s.fdTable i).offset length whence with
      | none => vfsSeek nodeAt fd offset whence s = (-1#32, s)
      | some base =>
          ∃ target : Word, (target.toNat : Int) = intoFile length.toNat (base.toNat + offset.toInt) ∧
            vfsSeek nodeAt fd offset whence s = (target, { s with
              fdTable := Function.update s.fdTable i { s.fdTable i with offset := target } })

/-- The call fails, or it asks for a position that is not negative, or the file is
empty. -/
def SeeksForward (fd offset whence : Word) (s : Vfs W) : Prop :=
  ∀ i base, openSlot s.fdTable fd = some i →
    seekBase (s.fdTable i).offset (nodeAt s.world (s.fdTable i).node).length whence = some base →
    0 ≤ (base.toNat : Int) + offset.toInt ∨ (nodeAt s.world (s.fdTable i).node).length = 0#32

end Seek

/-! ## The arithmetic -/

/-- The sum in 32 bits, cut off at the end of the file. -/
theorem cut_eq_iff {base length : Word} (offset : Word) (hb : base ≤ length) (hl : length.toNat < 2 ^ 31) :
    (((if length < base + offset then length else base + offset).toNat : Nat) : Int) =
        intoFile length.toNat (base.toNat + offset.toInt) ↔
      0 ≤ (base.toNat : Int) + offset.toInt ∨ length = 0#32 := by
  have hb' : base.toNat ≤ length.toNat := hb
  have hoff := offset.isLt
  have hsum : (base + offset).toNat = (base.toNat + offset.toNat) % 2 ^ 32 := BitVec.toNat_add _ _
  have hint := BitVec.toInt_eq_toNat_cond offset
  have hzero : length = 0#32 ↔ length.toNat = 0 := by
    rw [← BitVec.toNat_inj]
    rfl
  have hlt : length < base + offset ↔ length.toNat < (base + offset).toNat := BitVec.lt_def
  rw [intoFile, hzero, apply_ite BitVec.toNat]
  simp only [hlt]
  -- a displacement from 2^31 on counts as negative
  cases Nat.lt_or_ge (2 * offset.toNat) (2 ^ 32) with
  | inl hpos =>
    rw [if_pos hpos] at hint
    rw [Nat.mod_eq_of_lt (by omega)] at hsum
    rw [hsum, hint]
    split <;> omega
  | inr hneg =>
    rw [if_neg (by omega)] at hint
    rw [hint]
    cases Nat.lt_or_ge (base.toNat + offset.toNat) (2 ^ 32) with
    | inl hbelow =>
      -- below the start: the sum is above the end
      rw [Nat.mod_eq_of_lt hbelow] at hsum
      rw [hsum, if_pos (by omega)]
      omega
    | inr hwrap =>
      rw [show (base + offset).toNat = base.toNat + offset.toNat - 2 ^ 32 by omega,
        if_neg (by omega)]
      omega

theorem seekTarget_eq (current length offset whence : Word) :
    seekTarget current length offset whence =
      (seekBase current length whence).map fun base => base + offset := by
  unfold seekTarget seekBase
  split
  · rw [Option.map_some, BitVec.zero_add]
  · split
    · rfl
    · split <;> rfl

theorem seekBase_le {current length whence base : Word} (hc : current ≤ length)
    (h : seekBase current length whence = some base) : base ≤ length := by
  unfold seekBase at h
  split at h
  · cases h
    exact Nat.zero_le _
  · split at h
    · cases h
      exact hc
    · split at h
      · cases h
        exact BitVec.le_refl _
      · cases h

/-! ## The call -/

section Call
variable {W : Type} {nodeAt : W → Word → FsNode W} {fd offset whence : Word} {s : Vfs W}

/-- For every open descriptor with a position inside a file shorter than `2^31` bytes, and
for every other descriptor: the call clamps to the file exactly when it does not ask for
a position before the start of a file that is not empty. -/
theorem seek_clamps_iff (hfile : SeeksFile nodeAt fd s) :
    SeekClamps nodeAt fd offset whence s ↔ SeeksForward nodeAt fd offset whence s := by
  unfold SeekClamps SeeksForward
  cases hslot : openSlot s.fdTable fd with
  | none =>
    refine iff_of_true ?_ fun i base h => absurd h (by simp)
    rw [vfsSeek, hslot]
  | some i =>
    obtain ⟨hnode, hcur, hlen⟩ := hfile i hslot
    dsimp only
    have hcall := vfsSeek.eq_1 nodeAt fd offset whence s
    rw [hslot] at hcall
    dsimp only at hcall
    rw [if_neg hnode, seekTarget_eq] at hcall
    cases hbase : seekBase (s.fdTable i).offset (nodeAt s.world (s.fdTable i).node).length whence with
    | none =>
      rw [hbase] at hcall
      refine iff_of_true hcall fun j base hj hb => ?_
      cases hj
      rw [hbase] at hb
      cases hb
    | some base =>
      rw [hbase, Option.map_some] at hcall
      dsimp only at hcall ⊢
      have hcut := cut_eq_iff offset (seekBase_le hcur hbase) hlen
      constructor
      · rintro ⟨target, htarget, hcall'⟩ j base' hj hb
        cases hj
        rw [hbase] at hb
        cases hb
        have heq := congrArg Prod.fst (hcall.symm.trans hcall')
        dsimp only at heq
        rw [← heq] at htarget
        exact hcut.mp htarget
      · intro hforward
        exact ⟨_, hcut.mpr (hforward i base rfl hbase), hcall⟩

end Call

/-! ## One file -/

/-- Every node is a file of ten bytes. -/
def tenBytes : Unit → Word → FsNode Unit :=
  fun _ _ => ⟨10#32, none, none, none, none, none, none, none, none⟩

/-- Every descriptor is at the start of such a file. -/
def atStart : Vfs Unit := ⟨1#32, fun _ => ⟨1#32, 0#32, 0#32, true⟩, ()⟩

theorem atStart_seeksFile : SeeksFile tenBytes 0#32 atStart := by
  have hfile : (1#32 : Word) ≠ 0#32 ∧ (0#32 : Word) ≤ 10#32 ∧ (10#32 : Word).toNat < 2 ^ 31 := by
    decide
  exact fun _ _ => hfile

theorem seek_clamps_iff_forward :
    SeekClamps tenBytes 0#32 4#32 SEEK_CUR atStart ↔ SeeksForward tenBytes 0#32 4#32 SEEK_CUR atStart :=
  seek_clamps_iff atStart_seeksFile

/-- One byte before the start: the call moves to the end and returns 10, not 0. -/
theorem seek_before_start :
    SeeksFile tenBytes 0#32 atStart ∧
      (vfsSeek tenBytes 0#32 (-1#32) SEEK_SET atStart).1 = 10#32 ∧
      ¬ SeekClamps tenBytes 0#32 (-1#32) SEEK_SET atStart := by
  have hcall : (vfsSeek tenBytes 0#32 (-1#32) SEEK_SET atStart).1 = 10#32 := by decide
  refine ⟨atStart_seeksFile, hcall, ?_⟩
  rintro ⟨target, htarget, hseek⟩
  rw [hseek] at hcall
  dsimp only at hcall
  rw [hcall] at htarget
  exact absurd htarget (by decide)

end Zenix.VfsComplete
