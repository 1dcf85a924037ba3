import Zenix.Fs.InitrdLoad

/-!
# Reading a file of the initrd

`initrd_init` stores `location + foffset` in each node, but `initrd_read` takes the
offset in the header for an address: it copies from the low end of memory. It looks at the
header that stands in memory at the time of the read; the image has been written over where it
stands in memory that the heap has handed out.

Results:
1. `initrdRead_eq`: what a read of a mounted file returns and copies.
2. `reads_back_iff`: it is the file's data exactly when the header still grants as many bytes
   and low memory happens to hold them.
3. `memoryAgrees_image`: the same for an image that has not been written over.
4. `read_copies_low_memory`: the first byte of a file is read as zero.
-/

namespace Zenix
open ByteMemory FirstFit

/-! ## The property -/

/-- An image with one to ten packed headers whose ranges lie inside the image. -/
structure PackedImage (img : List Byte) : Prop where
  nonempty : 1 ≤ (countOf img).toNat
  atMost : (countOf img).toNat ≤ 10
  headers : 4 + 73 * (countOf img).toNat ≤ img.length
  ranges : ∀ i, i < (countOf img).toNat →
    (offsetOf img i).toNat + (lengthOf img i).toNat ≤ img.length

/-- How many bytes a read at `offset` returns. -/
def readCount (img : List Byte) (i : Nat) (offset size : Word) : Nat :=
  min size.toNat ((lengthOf img i).toNat - offset.toNat)

/-- `node->read(node, offset, size, buffer)` on the node of file `i` returns the
number of bytes and copies them, and nothing else, from the image to `buffer`. -/
def ReadsBack (sym : InitrdSymbols) (img : List Byte) (i : Nat) (offset size buffer : Word)
    (s : Initrd) : Prop :=
  ∃ k s', callRead sym (fileNode s.rootNodes i) offset size buffer s = some (k, s') ∧
    k.toNat = readCount img i offset size ∧
    (∀ j, j < readCount img i offset size → s'.heap.mem (buffer + BitVec.ofNat 32 j) =
      byteAt img ((offsetOf img i).toNat + offset.toNat + j)) ∧
    ∀ x, (∀ j, j < readCount img i offset size → x ≠ buffer + BitVec.ofNat 32 j) →
      s'.heap.mem x = s.heap.mem x

/-- Since `t` neither the statics nor the node table have changed. -/
structure TableKept (t s : Initrd) : Prop where
  rootNodes : s.rootNodes = t.rootNodes
  nrootNodes : s.nrootNodes = t.nrootNodes
  fileHeaders : s.fileHeaders = t.fileHeaders
  table : SameOn t.heap.mem s.heap.mem t.rootNodes.toNat
    (t.rootNodes.toNat + 172 * t.nrootNodes.toNat)

theorem TableKept.refl (t : Initrd) : TableKept t t := ⟨rfl, rfl, rfl, SameOn.refl _ _ _⟩

/-- And the image has not changed either. -/
structure Undisturbed (img : List Byte) (location : Word) (t s : Initrd) : Prop
    extends TableKept t s where
  image : ∀ k, k < img.length →
    s.heap.mem (location + BitVec.ofNat 32 k) = t.heap.mem (location + BitVec.ofNat 32 k)

theorem Undisturbed.refl (img : List Byte) (location : Word) (t : Initrd) :
    Undisturbed img location t t :=
  ⟨TableKept.refl t, fun _ _ => rfl⟩

/-- How many bytes the header `fh` that stands in memory grants. -/
def grantedCount (m : Mem) (fh offset size : Word) : Nat :=
  min size.toNat ((headerLength m fh).toNat - offset.toNat)

/-- The bytes that the code copies are those of the file: either there is no buffer and nothing
to be read, or there is one, the header that stands in memory grants as many bytes as that of
the image, and the memory at its offset, taken as an address, holds them. Where the buffer
starts behind the source, the copy repeats its beginning. -/
def MemoryAgrees (location : Word) (img : List Byte) (i : Nat) (offset size buffer : Word)
    (m : Mem) : Prop :=
  (buffer = 0#32 ∧ readCount img i offset size = 0) ∨
    (buffer ≠ 0#32 ∧
      grantedCount m (fileHeaderAt location i) offset size = readCount img i offset size ∧
      ∀ j, j < readCount img i offset size →
        m (headerOffset m (fileHeaderAt location i) + offset + BitVec.ofNat 32
          (j % (buffer - (headerOffset m (fileHeaderAt location i) + offset)).toNat)) =
            byteAt img ((offsetOf img i).toNat + offset.toNat + j))

/-! ## The call -/

section Call
variable {sym : InitrdSymbols} {location root : Word} {img : List Byte} {bs : List Block}
  {s₀ t s : Initrd} {r d k : Block} {i : Nat} {offset size buffer : Word}

/-- The node that a read uses is that of the file. -/
theorem TreeBuilt.nodeKept (h : TreeBuilt sym location bs s₀ t root r d k) (hs : TableKept t s)
    (hi : i < t.nrootNodes.toNat) :
    ∃ length impl, FileNode sym s.heap.mem (fileNode s.rootNodes i) (BitVec.ofNat 32 i) length
      impl := by
  obtain ⟨haddr, _, hfit⟩ := h.fileNode_fits hi
  obtain ⟨⟨length, impl, hnode⟩, _⟩ := h.served hi
  rw [hs.rootNodes]
  exact ⟨length, impl, hnode.congr (hs.table.mono (by omega) (by omega)) hfit⟩

/-- The header is where `initrd_init` has found it. -/
theorem TreeBuilt.header_eq (h : TreeBuilt sym location bs s₀ t root r d k) (hs : TableKept t s)
    (i : Nat) :
    s.fileHeaders + BitVec.ofNat 32 i * sizeofFileHeader = fileHeaderAt location i := by
  rw [hs.fileHeaders, h.headers, fileHeaderAt]

/-- The header of a file, where the image stands. -/
theorem headerFields {m : Mem} (himage : ImageAt m location img)
    (hlen : 4 + 73 * (countOf img).toNat ≤ img.length) (hi : i < (countOf img).toNat) :
    headerOffset m (fileHeaderAt location i) = offsetOf img i ∧
      headerLength m (fileHeaderAt location i) = lengthOf img i := by
  constructor
  · have hload := himage.load32 (k := 4 + 73 * i + 65) (by omega)
    rwa [← fileHeaderAt_add] at hload
  · have hload := himage.load32 (k := 4 + 73 * i + 69) (by omega)
    rwa [← fileHeaderAt_add] at hload

/-- The node and the header that a read uses are those of the file. -/
theorem Mounted.undisturbed (h : Mounted sym location img bs s₀ t root r d k)
    (hlen : 4 + 73 * (countOf img).toNat ≤ img.length) (hs : Undisturbed img location t s)
    (hi : i < (countOf img).toNat) :
    FileNode sym s.heap.mem (fileNode s.rootNodes i) (BitVec.ofNat 32 i) (lengthOf img i)
      (location + offsetOf img i) ∧
    headerOffset s.heap.mem (s.fileHeaders + BitVec.ofNat 32 i * sizeofFileHeader) =
      offsetOf img i ∧
    headerLength s.heap.mem (s.fileHeaders + BitVec.ofNat 32 i * sizeofFileHeader) =
      lengthOf img i := by
  have hcount : t.nrootNodes.toNat = (countOf img).toNat := by rw [h.count]
  obtain ⟨haddr, _, hfit⟩ := h.fileNode_fits (hcount ▸ hi)
  rw [h.header_eq hs.toTableKept]
  refine ⟨?_, headerFields (h.placed.image.congr hs.image) hlen hi⟩
  rw [hs.rootNodes]
  exact (h.files i hi).congr (hs.table.mono (by omega) (by omega)) hfit

/-- The size after the two tests of `initrd_read`. -/
theorem grantedCount_eq (m : Mem) (fh : Word) (hsize : offset.toNat + size.toNat < 2 ^ 32)
    (hoffset : ¬ headerLength m fh < offset) :
    (if headerLength m fh < offset + size then headerLength m fh - offset else size) =
      BitVec.ofNat 32 (grantedCount m fh offset size) := by
  have hcount : grantedCount m fh offset size < 2 ^ 32 :=
    Nat.lt_of_le_of_lt (Nat.min_le_left _ _) size.isLt
  apply BitVec.eq_of_toNat_eq
  rw [toNat_ofNat_of_lt hcount, grantedCount]
  have hsum : (offset + size).toNat = offset.toNat + size.toNat := toNat_add_of_lt hsize
  have hle : offset ≤ headerLength m fh := BitVec.not_lt.mp hoffset
  split
  · next hlt =>
    rw [BitVec.lt_def, hsum] at hlt
    rw [BitVec.toNat_sub_of_le hle]
    omega
  · next hge =>
    rw [BitVec.not_lt, BitVec.le_def, hsum] at hge
    omega

/-- What `initrd_read` does on a mounted file: it copies what the header grants, from the offset
itself. -/
theorem initrdRead_eq (i : Nat) (offset size buffer : Word)
    (h : TreeBuilt sym location bs s₀ t root r d k) (hs : TableKept t s)
    (hi : i < t.nrootNodes.toNat) (hsize : offset.toNat + size.toNat < 2 ^ 32) :
    callRead sym (fileNode s.rootNodes i) offset size buffer s =
      some (if buffer = 0#32 then (0#32, s)
        else (BitVec.ofNat 32 (grantedCount s.heap.mem (fileHeaderAt location i) offset size),
          s.withMem (memcpy s.heap.mem buffer
            (headerOffset s.heap.mem (fileHeaderAt location i) + offset)
            (grantedCount s.heap.mem (fileHeaderAt location i) offset size)))) := by
  obtain ⟨length, impl, hnode⟩ := h.nodeKept hs hi
  have hnull : fileNode s.rootNodes i ≠ 0#32 := by
    obtain ⟨_, hlo, _⟩ := h.fileNode_fits hi
    rw [hs.rootNodes]
    intro h0
    rw [h0] at hlo
    exact absurd hlo (by decide)
  have hinode : ¬ s.nrootNodes ≤ nodeInode s.heap.mem (fileNode s.rootNodes i) := by
    have hi32 : (BitVec.ofNat 32 i).toNat = i := toNat_ofNat_of_lt (by omega)
    rw [hnode.inode, hs.nrootNodes, BitVec.not_le, BitVec.lt_def, hi32]
    exact hi
  have hcount : grantedCount s.heap.mem (fileHeaderAt location i) offset size < 2 ^ 32 :=
    Nat.lt_of_le_of_lt (Nat.min_le_left _ _) size.isLt
  rw [callRead, if_pos hnode.read, initrdRead]
  by_cases hbuffer : buffer = 0#32
  · rw [if_pos (Or.inr hbuffer), if_pos hbuffer]
  · rw [if_neg (not_or.mpr ⟨hnull, hbuffer⟩), if_neg hinode, hnode.inode, h.header_eq hs,
      if_neg hbuffer]
    dsimp only
    split
    next hbehind =>
      -- behind the end nothing is granted, and nothing copied
      have hzero : grantedCount s.heap.mem (fileHeaderAt location i) offset size = 0 := by
        rw [BitVec.lt_def] at hbehind
        rw [grantedCount]
        omega
      rw [hzero]
      rfl
    next hoffset =>
      rw [grantedCount_eq s.heap.mem (fileHeaderAt location i) hsize hoffset,
        toNat_ofNat_of_lt hcount]

/-- For every packed image that `initrd_init` has accepted, wherever it stands, every later state
in which the statics and the node table are as the call has left them, and every read window:
the read returns the file's data exactly when there is none to be read and no buffer, or the
header in memory still grants it and low memory holds it. -/
theorem reads_back_iff (ho : Owns s₀.heap bs) (himage : ImageAt s₀.heap.mem location img)
    (himg : PackedImage img) (hinit : initrdInit sym location s₀ = some (root, t))
    (hroot : root ≠ 0#32) (hs : TableKept t s) (hi : i < (countOf img).toNat)
    (hsize : offset.toNat + size.toNat < 2 ^ 32) :
    ReadsBack sym img i offset size buffer s ↔
      MemoryAgrees location img i offset size buffer s.heap.mem := by
  rcases initrdInit_built ho hinit with hnull | ⟨r, d, k, hbuilt⟩
  · exact absurd hnull hroot
  have hstored : t.nrootNodes = countOf img :=
    hbuilt.stored.trans (imageAt_count himage (Nat.le_of_add_right_le himg.headers))
  have hcall := initrdRead_eq i offset size buffer hbuilt hs (hstored ▸ hi) hsize
  have hcount : grantedCount s.heap.mem (fileHeaderAt location i) offset size < 2 ^ 32 :=
    Nat.lt_of_le_of_lt (Nat.min_le_left _ _) size.isLt
  cases Decidable.em (buffer = 0#32) with
  | inl hbuffer =>
    rw [if_pos hbuffer] at hcall
    constructor
    · rintro ⟨k, s', hcall', hk, _⟩
      cases hcall.symm.trans hcall'
      exact Or.inl ⟨hbuffer, hk.symm⟩
    · rintro (⟨_, hzero⟩ | ⟨hne, _⟩)
      · exact ⟨_, _, hcall, hzero.symm, fun j hj => absurd hj (by omega), fun _ _ => rfl⟩
      · exact absurd hbuffer hne
  | inr hbuffer =>
    rw [if_neg hbuffer] at hcall
    constructor
    · rintro ⟨k, s', hcall', hk, hcopied, _⟩
      cases hcall.symm.trans hcall'
      rw [toNat_ofNat_of_lt hcount] at hk
      refine Or.inr ⟨hbuffer, hk, fun j hj => ?_⟩
      exact (memcpy_apply _ _ _ (by omega) (hk ▸ hj)).symm.trans (hcopied j hj)
    · rintro (⟨hnull, _⟩ | ⟨_, hgranted, hbytes⟩)
      · exact absurd hnull hbuffer
      · rw [hgranted] at hcall hcount
        refine ⟨_, _, hcall, toNat_ofNat_of_lt hcount, fun j hj => ?_, fun x hx => memcpy_other hx⟩
        exact (memcpy_apply _ _ _ (by omega) hj).trans (hbytes j hj)

/-- Where the image stands as it was loaded, nothing is to be copied, or there is a buffer and
the memory at the offset of the file, taken as an address, holds the bytes of the file. -/
theorem memoryAgrees_image {m : Mem} (himage : ImageAt m location img)
    (hlen : 4 + 73 * (countOf img).toNat ≤ img.length) (hi : i < (countOf img).toNat) :
    MemoryAgrees location img i offset size buffer m ↔
      readCount img i offset size = 0 ∨ buffer ≠ 0#32 ∧ ∀ j, j < readCount img i offset size →
        m (offsetOf img i + offset +
          BitVec.ofNat 32 (j % (buffer - (offsetOf img i + offset)).toNat)) =
            byteAt img ((offsetOf img i).toNat + offset.toNat + j) := by
  obtain ⟨hoff, hlength⟩ := headerFields himage hlen hi
  have hgranted : grantedCount m (fileHeaderAt location i) offset size =
      readCount img i offset size := by
    rw [grantedCount, hlength, readCount]
  rw [MemoryAgrees, hoff]
  constructor
  · rintro (⟨_, hzero⟩ | ⟨hne, _, hbytes⟩)
    · exact Or.inl hzero
    · exact Or.inr ⟨hne, hbytes⟩
  · rintro (hzero | ⟨hne, hbytes⟩)
    · rcases Decidable.em (buffer = 0#32) with hnull | hne
      · exact Or.inl ⟨hnull, hzero⟩
      · exact Or.inr ⟨hne, hgranted, fun j hj => absurd hj (by omega)⟩
    · exact Or.inr ⟨hne, hgranted, hbytes⟩

end Call

/-! ## One byte -/

/-- A packed image with one file, the byte 0x41. -/
def packedImage : List Byte :=
  le32 1#32 ++ (0xBF#8 :: List.replicate 64 0#8) ++ le32 77#32 ++ le32 1#32 ++ [0x41#8]

theorem packedImage_packed : PackedImage packedImage := by
  have hcount : (countOf packedImage).toNat = 1 := by decide
  refine ⟨by decide, by decide, by decide, fun i hi => ?_⟩
  obtain rfl : i = 0 := by omega
  decide

theorem packedImage_placed :
    Placed packedImage 0x1000000#32 (freshInitrd 0x1000000#32 packedImage).heap.mem [] :=
  freshInitrd_placed (by decide) (by decide)

theorem packedImage_accepted :
    ∃ root t, initrdInit exampleSymbols 0x1000000#32 (freshInitrd 0x1000000#32 packedImage) =
      some (root, t) ∧ root ≠ 0#32 := by
  have hcount := packedImage_placed.count (by decide)
  exact initrdInit_fresh _ _ rfl (by decide) (by rw [hcount]; decide)

/-- The root of the image, with what its mount means. -/
theorem packedImage_mounted :
    ∃ root t, initrdInit exampleSymbols 0x1000000#32 (freshInitrd 0x1000000#32 packedImage) =
        some (root, t) ∧ root ≠ 0#32 ∧
      ∃ r d k, Mounted exampleSymbols 0x1000000#32 packedImage []
        (freshInitrd 0x1000000#32 packedImage) t root r d k := by
  obtain ⟨root, t, hinit, hroot⟩ := packedImage_accepted
  rcases initrdInit_cases (heapInit_owns _) packedImage_placed (by decide) hinit with
    hnull | hmounted
  · exact absurd hnull hroot
  · exact ⟨root, t, hinit, hroot, hmounted⟩

theorem reads_back_iff_packed :
    ∃ root t, initrdInit exampleSymbols 0x1000000#32 (freshInitrd 0x1000000#32 packedImage) =
        some (root, t) ∧
      (ReadsBack exampleSymbols packedImage 0 0#32 1#32 0x2000000#32 t ↔
        MemoryAgrees 0x1000000#32 packedImage 0 0#32 1#32 0x2000000#32 t.heap.mem) := by
  obtain ⟨root, t, hinit, hroot⟩ := packedImage_accepted
  exact ⟨root, t, hinit, reads_back_iff (heapInit_owns _) packedImage_placed.image packedImage_packed
    hinit hroot (TableKept.refl t) (by decide) (by decide)⟩

/-- The image is accepted; reading the file returns one byte, and it is the zero at
address 77, not the 0x41 at offset 77 of the image. -/
theorem read_copies_low_memory :
    ∃ root t, initrdInit exampleSymbols 0x1000000#32 (freshInitrd 0x1000000#32 packedImage) =
        some (root, t) ∧ root ≠ 0#32 ∧
      (∃ s, callRead exampleSymbols (fileNode t.rootNodes 0) 0#32 1#32 0x2000000#32 t = some (1#32, s) ∧
        s.heap.mem 0x2000000#32 = 0#8) ∧
      ¬ ReadsBack exampleSymbols packedImage 0 0#32 1#32 0x2000000#32 t := by
  obtain ⟨root, t, hinit, hroot, r, d, k, hmounted⟩ := packedImage_mounted
  have hcall := initrdRead_eq 0 0#32 1#32 0x2000000#32 hmounted.toTreeBuilt (TableKept.refl t)
    (by rw [hmounted.count]; decide) (by decide)
  obtain ⟨hoff, hlength⟩ := headerFields (i := 0) hmounted.placed.image (by decide) (by decide)
  rw [if_neg (by decide), grantedCount, hoff, hlength,
    show min (1#32 : Word).toNat ((lengthOf packedImage 0).toNat - (0#32 : Word).toNat) = 1 by decide,
    show offsetOf packedImage 0 + 0#32 = 77#32 by decide] at hcall
  have hbyte : memcpy t.heap.mem 0x2000000#32 77#32 1 0x2000000#32 = 0#8 := by
    have hcopy := memcpy_apply t.heap.mem 0x2000000#32 77#32 (n := 1) (j := 0) (by decide) (by decide)
    rw [BitVec.add_zero, Nat.zero_mod, BitVec.add_zero] at hcopy
    have hkept := hmounted.kept 77#32 (Or.inl (by decide))
    have hfresh : (freshInitrd 0x1000000#32 packedImage).heap.mem 77#32 = 0#8 :=
      (heapInit_sameOff _ _ (by decide)).trans (by decide)
    exact hcopy.trans (hkept.trans hfresh)
  refine ⟨root, t, hinit, hroot, ⟨_, hcall, hbyte⟩, ?_⟩
  rintro ⟨k', s', hcall', _, hcopied, _⟩
  cases hcall.symm.trans hcall'
  have hread := hcopied 0 (by decide)
  rw [BitVec.add_zero] at hread
  exact absurd (hbyte.symm.trans hread) (by decide)

end Zenix
