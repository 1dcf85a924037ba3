import Zenix.Fs.InitrdReadBack

/-!
# The bounds of `initrd_read`

The size of a read is cut down when `offset + size` lies behind the end of the file. The
sum is one of 32 bits; where it wraps around it lies in front of the end, and the size
stays what the caller has asked for.

Results:
1. `read_inside_iff`: a read stays inside the file exactly when it is refused before that
   test or the sum does not wrap around.
2. `read_leaves_file`: the image of a file of one byte, and a read of `2^32 - 1` bytes.
-/

namespace Zenix
open ByteMemory

/-! ## The property -/

/-- `file_headers[node->inode].length`. -/
def fileLengthOf (node : Word) (s : Initrd) : Word :=
  headerLength s.heap.mem (s.fileHeaders + nodeInode s.heap.mem node * sizeofFileHeader)

/-- The count is at most the size, the bytes counted lie in the file, and no memory outside
of the first `size` bytes of the buffer is written. -/
structure ReadsInside (node offset size buffer : Word) (s : Initrd) : Prop where
  count : (initrdRead node offset size buffer s).1.toNat ≤ size.toNat
  inFile : (initrdRead node offset size buffer s).1 ≠ 0#32 →
    offset.toNat + (initrdRead node offset size buffer s).1.toNat ≤ (fileLengthOf node s).toNat
  writes : ∀ x, (∀ j, j < size.toNat → x ≠ buffer + BitVec.ofNat 32 j) →
    (initrdRead node offset size buffer s).2.heap.mem x = s.heap.mem x

/-- The call returns before it looks at the size. -/
def ReadRefused (node offset buffer : Word) (s : Initrd) : Prop :=
  node = 0#32 ∨ buffer = 0#32 ∨ s.nrootNodes ≤ nodeInode s.heap.mem node ∨
    fileLengthOf node s < offset

/-! ## The call -/

section Read
variable {node offset size buffer : Word} {s : Initrd}

theorem initrdRead_refused (size : Word) (h : ReadRefused node offset buffer s) :
    initrdRead node offset size buffer s = (0#32, s) := by
  unfold initrdRead
  dsimp only
  rcases Decidable.em (node = 0#32 ∨ buffer = 0#32) with hnull | hnull
  · rw [if_pos hnull]
  · rw [if_neg hnull]
    rw [not_or] at hnull
    split
    · rfl
    · next hinode => exact if_pos (((h.resolve_left hnull.1).resolve_left hnull.2).resolve_left hinode)

/-- What the call does when it is not refused, for some place that it copies from. -/
theorem initrdRead_served (size : Word) (h : ¬ ReadRefused node offset buffer s) :
    ∃ src, initrdRead node offset size buffer s =
      let k := if fileLengthOf node s < offset + size then fileLengthOf node s - offset else size
      (k, s.withMem (memcpy s.heap.mem buffer src k.toNat)) := by
  simp only [ReadRefused, not_or] at h
  obtain ⟨hnode, hbuffer, hinode, hoffset⟩ := h
  refine ⟨headerOffset s.heap.mem
    (s.fileHeaders + nodeInode s.heap.mem node * sizeofFileHeader) + offset, ?_⟩
  unfold initrdRead
  dsimp only
  rw [if_neg (not_or.mpr ⟨hnode, hbuffer⟩), if_neg hinode]
  exact if_neg hoffset

/-- The copy writes the bytes that are counted. -/
theorem initrdRead_writes {x : Word}
    (hcount : (initrdRead node offset size buffer s).1.toNat ≤ size.toNat)
    (hx : ∀ j, j < size.toNat → x ≠ buffer + BitVec.ofNat 32 j) :
    (initrdRead node offset size buffer s).2.heap.mem x = s.heap.mem x := by
  rcases Classical.em (ReadRefused node offset buffer s) with href | hserved
  · rw [initrdRead_refused size href]
  · obtain ⟨src, hread⟩ := initrdRead_served size hserved
    rw [hread] at hcount ⊢
    exact memcpy_other fun j hj => hx j (Nat.lt_of_lt_of_le hj hcount)

/-- A sum that wraps around is less than the offset, so the size is not cut down. -/
theorem initrdRead_wraps (h : ¬ ReadRefused node offset buffer s)
    (hwrap : 2 ^ 32 ≤ offset.toNat + size.toNat) :
    (initrdRead node offset size buffer s).1 = size := by
  obtain ⟨src, hread⟩ := initrdRead_served size h
  have hoffset : offset.toNat ≤ (fileLengthOf node s).toNat :=
    Nat.not_lt.mp fun hlt => h (Or.inr (Or.inr (Or.inr hlt)))
  have hsmall : ¬ fileLengthOf node s < offset + size := by
    have hsize := size.isLt
    rw [BitVec.lt_def, BitVec.toNat_add]
    omega
  rw [hread]
  exact if_neg hsmall

/-- A sum that fits is compared with the length. -/
theorem initrdRead_fits (h : ¬ ReadRefused node offset buffer s)
    (hfits : offset.toNat + size.toNat < 2 ^ 32) :
    (initrdRead node offset size buffer s).1.toNat ≤ size.toNat ∧
      offset.toNat + (initrdRead node offset size buffer s).1.toNat ≤
        (fileLengthOf node s).toNat := by
  obtain ⟨src, hread⟩ := initrdRead_served size h
  have hoffset : offset.toNat ≤ (fileLengthOf node s).toNat :=
    Nat.not_lt.mp fun hlt => h (Or.inr (Or.inr (Or.inr hlt)))
  have hsum : (offset + size).toNat = offset.toNat + size.toNat := by
    rw [BitVec.toNat_add, Nat.mod_eq_of_lt hfits]
  rw [hread]
  dsimp only
  split
  · next hlt =>
    rw [BitVec.lt_def, hsum] at hlt
    rw [BitVec.toNat_sub_of_le hoffset]
    omega
  · next hge =>
    rw [BitVec.lt_def, hsum] at hge
    omega

/-- For every node, header, offset and size: the read stays inside the file if and only if
it is refused, or offset and size add up to less than `2^32`. -/
theorem read_inside_iff (node offset size buffer : Word) (s : Initrd) :
    ReadsInside node offset size buffer s ↔
      ReadRefused node offset buffer s ∨ offset.toNat + size.toNat < 2 ^ 32 := by
  rcases Classical.em (ReadRefused node offset buffer s) with href | hserved
  · have hread := initrdRead_refused size href
    refine iff_of_true ⟨?_, fun hne => ?_, fun x _ => ?_⟩ (Or.inl href)
    · rw [hread]
      exact Nat.zero_le _
    · rw [hread] at hne
      exact absurd rfl hne
    · rw [hread]
  · rw [or_iff_right hserved]
    constructor
    · intro hinside
      refine Nat.not_le.mp fun hwrap => ?_
      have hcount := initrdRead_wraps hserved hwrap
      have hpos : size ≠ 0#32 := by
        rintro rfl
        have hoff := offset.isLt
        rw [show (0#32 : Word).toNat = 0 from rfl] at hwrap
        omega
      have hend := hinside.inFile (by rw [hcount]; exact hpos)
      rw [hcount] at hend
      have hlength := (fileLengthOf node s).isLt
      omega
    · intro hfits
      obtain ⟨hcount, hend⟩ := initrdRead_fits hserved hfits
      exact ⟨hcount, fun _ => hend, fun x hx => initrdRead_writes hcount hx⟩

end Read

/-! ## A read that wraps around -/

/-- The image with one file of one byte is accepted. A read of `2^32 - 1` bytes from the end
of the file is granted in full. -/
theorem read_leaves_file :
    ∃ root t, initrdInit exampleSymbols 0x1000000#32 (freshInitrd 0x1000000#32 packedImage) =
        some (root, t) ∧ root ≠ 0#32 ∧ fileLengthOf (fileNode t.rootNodes 0) t = 1#32 ∧
      (initrdRead (fileNode t.rootNodes 0) 1#32 0xFFFFFFFF#32 0x2000000#32 t).1 = 0xFFFFFFFF#32 ∧
      ¬ ReadsInside (fileNode t.rootNodes 0) 1#32 0xFFFFFFFF#32 0x2000000#32 t := by
  obtain ⟨root, t, hinit, hroot, r, d, k, hmounted⟩ := packedImage_mounted
  obtain ⟨hnode, _, hlength⟩ := hmounted.undisturbed (i := 0) (by decide) (Undisturbed.refl _ _ _)
    (by decide)
  have hlen : fileLengthOf (fileNode t.rootNodes 0) t = 1#32 := by
    rw [fileLengthOf, hnode.inode, hlength]
    decide
  have hserved : ¬ ReadRefused (fileNode t.rootNodes 0) 1#32 0x2000000#32 t := by
    obtain ⟨_, hlo, _⟩ := hmounted.fileNode_fits (i := 0) (by rw [hmounted.count]; decide)
    rintro (hzero | hzero | hinode | hbehind)
    · rw [hzero] at hlo
      exact absurd hlo (by decide)
    · exact absurd hzero (by decide)
    · rw [hnode.inode, hmounted.count] at hinode
      exact absurd hinode (by decide)
    · rw [hlen] at hbehind
      exact absurd hbehind (by decide)
  obtain ⟨src, hread⟩ := initrdRead_served 0xFFFFFFFF#32 hserved
  have hcount : (initrdRead (fileNode t.rootNodes 0) 1#32 0xFFFFFFFF#32 0x2000000#32 t).1 =
      0xFFFFFFFF#32 := by
    rw [hread]
    dsimp only
    rw [hlen, if_neg (by decide)]
  refine ⟨root, t, hinit, hroot, hlen, hcount, fun hinside => ?_⟩
  have hend := hinside.inFile (by rw [hcount]; decide)
  rw [hcount, hlen] at hend
  exact absurd hend (by decide)

end Zenix
