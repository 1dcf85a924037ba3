import Mathlib.Data.List.GetD
import Zenix.Lib.Memory

/-!
# Byte strings and their image in memory

A file format is a list of bytes; a program reads it where it has been placed in
memory. `wordAt bs k` is the little-endian word at offset `k` of the list and
`ImageAt m a bs` says that memory holds the list from address `a` on, wrapping at
`2^32`.

Results:
1. `wordAt_le32`: a word that was written is read back.
2. `ImageAt.load32`: words of the list are words of memory.
-/

namespace ByteMemory

/-- The four bytes of a word, low byte first. -/
def le32 (v : Word) : List Byte :=
  [v.extractLsb' 0 8, v.extractLsb' 8 8, v.extractLsb' 16 8, v.extractLsb' 24 8]

/-- The byte at offset `k`; zero behind the end. -/
def byteAt (bs : List Byte) (k : Nat) : Byte := bs.getD k 0#8

def wordAt (bs : List Byte) (k : Nat) : Word :=
  byteAt bs (k + 3) ++ byteAt bs (k + 2) ++ byteAt bs (k + 1) ++ byteAt bs k

/-- The bytes `bs` stand at `a`. -/
def ImageAt (m : Mem) (a : Word) (bs : List Byte) : Prop :=
  ∀ k, k < bs.length → m (a + BitVec.ofNat 32 k) = byteAt bs k

/-! ## Lists of bytes -/

@[simp] theorem length_le32 (v : Word) : (le32 v).length = 4 := rfl

theorem byteAt_append_left {xs ys : List Byte} {k : Nat} (h : k < xs.length) :
    byteAt (xs ++ ys) k = byteAt xs k :=
  List.getD_append xs ys 0#8 k h

theorem byteAt_append_right {xs ys : List Byte} {k : Nat} (h : xs.length ≤ k) :
    byteAt (xs ++ ys) k = byteAt ys (k - xs.length) :=
  List.getD_append_right xs ys 0#8 k h

theorem wordAt_append_left {xs ys : List Byte} {k : Nat} (h : k + 4 ≤ xs.length) :
    wordAt (xs ++ ys) k = wordAt xs k := by
  simp only [wordAt]
  rw [byteAt_append_left, byteAt_append_left, byteAt_append_left, byteAt_append_left] <;> omega

theorem wordAt_append_right {xs ys : List Byte} {k : Nat} (h : xs.length ≤ k) :
    wordAt (xs ++ ys) k = wordAt ys (k - xs.length) := by
  have hsub : ∀ j, k + j - xs.length = k - xs.length + j := fun j => by omega
  simp only [wordAt]
  rw [byteAt_append_right h, byteAt_append_right, byteAt_append_right, byteAt_append_right, hsub,
    hsub, hsub] <;> omega

@[simp] theorem wordAt_le32 (v : Word) : wordAt (le32 v) 0 = v := extract_append v

theorem toNat_wordAt (bs : List Byte) (k : Nat) :
    (wordAt bs k).toNat = (byteAt bs k).toNat + (byteAt bs (k + 1)).toNat * 2 ^ 8 +
      (byteAt bs (k + 2)).toNat * 2 ^ 16 + (byteAt bs (k + 3)).toNat * 2 ^ 24 := by
  rw [wordAt, toNat_append_byte, toNat_append_byte, toNat_append_byte]
  omega

/-! ## Lists in memory -/

theorem ImageAt.load32 {m : Mem} {a : Word} {bs : List Byte} (h : ImageAt m a bs) {k : Nat}
    (hk : k + 4 ≤ bs.length) : load32 m (a + BitVec.ofNat 32 k) = wordAt bs k := by
  have hnext : ∀ j, a + BitVec.ofNat 32 k + BitVec.ofNat 32 j = a + BitVec.ofNat 32 (k + j) := by
    intro j
    rw [BitVec.add_assoc, ofNat_add_ofNat]
  have hload : ByteMemory.load32 m (a + BitVec.ofNat 32 k) =
      m (a + BitVec.ofNat 32 k + BitVec.ofNat 32 3) ++ m (a + BitVec.ofNat 32 k + BitVec.ofNat 32 2) ++
        m (a + BitVec.ofNat 32 k + BitVec.ofNat 32 1) ++ m (a + BitVec.ofNat 32 k) := rfl
  rw [hload, wordAt, hnext, hnext, hnext, h _ (by omega), h _ (by omega), h _ (by omega),
    h _ (by omega)]

theorem ImageAt.congr {m m' : Mem} {a : Word} {bs : List Byte} (h : ImageAt m a bs)
    (hm : ∀ k, k < bs.length → m' (a + BitVec.ofNat 32 k) = m (a + BitVec.ofNat 32 k)) :
    ImageAt m' a bs :=
  fun k hk => (hm k hk).trans (h k hk)

/-- Memory that holds `bs` at `a` and is zero elsewhere. -/
def memOf (a : Word) (bs : List Byte) : Mem := fun x => byteAt bs (x - a).toNat

theorem memOf_imageAt {a : Word} {bs : List Byte} (h : bs.length ≤ 2 ^ 32) :
    ImageAt (memOf a bs) a bs := by
  intro k hk
  rw [memOf, BitVec.add_comm, BitVec.add_sub_cancel, toNat_ofNat_of_lt (by omega)]

end ByteMemory
