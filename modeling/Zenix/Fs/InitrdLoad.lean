import Zenix.Fs.Initrd
import Zenix.Mm.HeapClient

/-!
# What `initrd_init` builds

The call may overwrite the image: nothing keeps it out of the memory that the heap hands out.
The nodes are there in any case; what is in them is known from an image that stands in memory
which the heap leaves alone.

Results:
1. `initFileNodes_filled`: the loop fills in one node per header.
2. `initFileNodes_fields`, `initFileNodes_name`: with the fields and the names of the image,
   when the table is not over it.
3. `initrdInit_outcome`: the returns of the call and the state at each of them.
4. `initrdInit_built`: a call returns NULL, or the three allocations are blocks of their own
   and hold the nodes.
5. `TreeBuilt.mounted`, `initrdInit_cases`: the nodes describe the image.
6. `initrdInit_total`: the call returns.
7. `initrdInit_fresh`: it succeeds on a fresh heap.
-/

namespace Zenix
open ByteMemory FirstFit

/-! ## The image, as the kernel reads it -/

/-- `nfiles`. -/
def countOf (img : List Byte) : Word := wordAt img 0

/-- Offset and length of file `i`, from headers that are 73 bytes apart. -/
def offsetOf (img : List Byte) (i : Nat) : Word := wordAt img (4 + 73 * i + 65)
def lengthOf (img : List Byte) (i : Nat) : Word := wordAt img (4 + 73 * i + 69)

/-- The name of file `i`: at most 63 bytes of the 64 in the header. -/
def fileName (img : List Byte) (i : Nat) : List Byte :=
  cstring (fun k => byteAt img (4 + 73 * i + (1 + k))) 63

/-- The image stands at `location`, in memory that the heap leaves alone. -/
structure Placed (img : List Byte) (location : Word) (m : Mem) (bs : List Block) : Prop where
  image : ImageAt m location img
  outside : ∀ k, k < img.length → ClientByte bs (location + BitVec.ofNat 32 k)

theorem Placed.kept {img : List Byte} {location : Word} {m m' : Mem} {bs : List Block}
    (h : Placed img location m bs) (hk : Kept bs m m') : Placed img location m' bs :=
  ⟨h.image.congr fun k hlt => hk _ (h.outside k hlt), h.outside⟩

/-- What `initrd_init` reads first. -/
theorem imageAt_count {img : List Byte} {location : Word} {m : Mem} (h : ImageAt m location img)
    (hlen : 4 ≤ img.length) : fourBytes m location = countOf img := by
  have hload := h.load32 (k := 0) (by omega)
  rw [BitVec.add_zero] at hload
  rw [fourBytes_eq, hload, countOf]

theorem Placed.count {img : List Byte} {location : Word} {m : Mem} {bs : List Block}
    (h : Placed img location m bs) (hlen : 4 ≤ img.length) :
    fourBytes m location = countOf img :=
  imageAt_count h.image hlen

/-! ## One node -/

section Node
variable {m : Mem} {p : Word} (hp : p.toNat + 172 ≤ 2 ^ 32)
include hp

theorem setNodeField_sameOff {v : Word} {k : Nat} (hk : k + 4 ≤ 172) :
    SameOff m (store32 m (p + BitVec.ofNat 32 k) v) p.toNat (p.toNat + 172) :=
  (store32_field_sameOff hk hp).mono (by omega) (by omega)

theorem initRootNode_sameOff (sym : InitrdSymbols) :
    SameOff m (initRootNode sym m p) p.toNat (p.toNat + 172) := by
  have hname : ∀ m : Mem, SameOff m
      (strcpyLiteral m p [0x69#8, 0x6E#8, 0x69#8, 0x74#8, 0x72#8, 0x64#8]) p.toNat (p.toNat + 172) :=
    fun m => (strcpyLiteral_sameOff (by simp only [List.length_cons, List.length_nil]; omega)).mono
      (Nat.le_refl _) (by simp only [List.length_cons, List.length_nil]; omega)
  exact ((((memset_sameOff hp).trans (hname _)).trans
    (setNodeField_sameOff hp (k := 128) (by decide))).trans
    (setNodeField_sameOff hp (k := 160) (by decide))).trans
    (setNodeField_sameOff hp (k := 164) (by decide))

theorem initDevNode_sameOff : SameOff m (initDevNode m p) p.toNat (p.toNat + 172) := by
  have hname : ∀ m : Mem, SameOff m (strcpyLiteral m p [0x64#8, 0x65#8, 0x76#8]) p.toNat
      (p.toNat + 172) :=
    fun m => (strcpyLiteral_sameOff (by simp only [List.length_cons, List.length_nil]; omega)).mono
      (Nat.le_refl _) (by simp only [List.length_cons, List.length_nil]; omega)
  exact ((memset_sameOff hp).trans (hname _)).trans
    (setNodeField_sameOff hp (k := 128) (by decide))

variable (sym : InitrdSymbols) (location fh i : Word)

theorem initFileNode_sameOff :
    SameOff m (initFileNode sym location fh p i m) p.toNat (p.toNat + 172) := by
  have hname : SameOff m (strncpy m p (headerName fh) 63) p.toNat (p.toNat + 172) :=
    (strncpy_sameOff (by omega)).mono (Nat.le_refl _) (by omega)
  have hnul : (p + 63#32).toNat = p.toNat + 63 := toNat_add_ofNat (by omega)
  have hend : SameOff (strncpy m p (headerName fh) 63)
      (store8 (strncpy m p (headerName fh) 63) (p + 63#32) 0#8) p.toNat (p.toNat + 172) :=
    (store8_sameOff _ _ _).mono (by omega) (by omega)
  exact ((((((hname.trans hend).trans (setNodeField_sameOff hp (k := 128) (by decide))).trans
    (setNodeField_sameOff hp (k := 144) (by decide))).trans
    (setNodeField_sameOff hp (k := 132) (by decide))).trans
    (setNodeField_sameOff hp (k := 136) (by decide))).trans
    (setNodeField_sameOff hp (k := 140) (by decide)))

end Node

/-- The node of file `i`. -/
structure FileNode (sym : InitrdSymbols) (m : Mem) (node i length impl : Word) : Prop where
  flags : nodeFlags m node = FS_FILE
  inode : nodeInode m node = i
  length : nodeLength m node = length
  impl : nodeImpl m node = impl
  read : nodeRead m node = sym.read

theorem initFileNode_fields (sym : InitrdSymbols) (m : Mem) (location fh node i : Word) :
    FileNode sym (initFileNode sym location fh node i m) node i (load32 m (fh + 69#32))
      (location + load32 m (fh + 65#32)) := by
  have hfar : ∀ (m : Mem) (j k : Nat) (v : Word), (j + 4 ≤ k ∨ k + 4 ≤ j) → j ≤ 168 → k ≤ 168 →
      load32 (store32 m (node + BitVec.ofNat 32 k) v) (node + BitVec.ofNat 32 j) =
        load32 m (node + BitVec.ofNat 32 j) := by
    intro m j k v hjk hj hk
    apply load32_store32_ne <;> bv_omega
  simp only [initFileNode, setFlags, setRead, setInode, setLength, setImpl, fourBytes_eq]
  refine ⟨?_, ?_, ?_, ?_, ?_⟩
  · rw [nodeFlags, hfar _ 128 140, hfar _ 128 136, hfar _ 128 132, hfar _ 128 144,
      load32_store32_same] <;> omega
  · rw [nodeInode, hfar _ 132 140, hfar _ 132 136, load32_store32_same] <;> omega
  · rw [nodeLength, hfar _ 136 140, load32_store32_same] <;> omega
  · rw [nodeImpl, load32_store32_same]
  · rw [nodeRead, hfar _ 144 140, hfar _ 144 136, hfar _ 144 132, load32_store32_same] <;> omega

/-- The name is written first, and the fields lie behind it. -/
theorem initFileNode_nameBytes {m : Mem} {node : Word} (hp : node.toNat + 172 ≤ 2 ^ 32)
    (sym : InitrdSymbols) (location fh i : Word) {k : Nat} (hk : k < 64) :
    initFileNode sym location fh node i m (node + BitVec.ofNat 32 k) =
      store8 (strncpy m node (headerName fh) 63) (node + BitVec.ofNat 32 63) 0#8
        (node + BitVec.ofNat 32 k) := by
  have hfield : ∀ (m : Mem) (j : Nat) (v : Word), 128 ≤ j → j + 4 ≤ 172 →
      store32 m (node + BitVec.ofNat 32 j) v (node + BitVec.ofNat 32 k) =
        m (node + BitVec.ofNat 32 k) := by
    intro m j v hj hj'
    have hk' : (node + BitVec.ofNat 32 k).toNat = node.toNat + k := toNat_add_ofNat (by omega)
    exact store32_field_sameOff hj' hp _ (by omega)
  simp only [initFileNode, setFlags, setRead, setInode, setLength, setImpl]
  rw [hfield _ 140, hfield _ 136, hfield _ 132, hfield _ 144, hfield _ 128] <;> omega

theorem initFileNode_end {m : Mem} {node : Word} (hp : node.toNat + 172 ≤ 2 ^ 32)
    (sym : InitrdSymbols) (location fh i : Word) :
    initFileNode sym location fh node i m (node + BitVec.ofNat 32 63) = 0#8 := by
  rw [initFileNode_nameBytes hp sym location fh i (by decide), store8_same]

/-- The name of the node, where the header lies elsewhere. -/
theorem initFileNode_name {m : Mem} {node : Word} (hp : node.toNat + 172 ≤ 2 ^ 32) (sym : InitrdSymbols)
    (location fh i : Word) (hapart : ∀ a b, a < 63 → b < 63 →
      headerName fh + BitVec.ofNat 32 a ≠ node + BitVec.ofNat 32 b) :
    NameIs (initFileNode sym location fh node i m) node
      (cstring (fun k => m (headerName fh + BitVec.ofNat 32 k)) 63) := by
  refine nameIs_cstring (fun k hk => ?_) (initFileNode_end hp sym location fh i)
  rw [initFileNode_nameBytes hp sym location fh i (by omega), store8_ne,
    strncpy_apply hk (by decide) hapart]
  rw [Ne, add_ofNat_inj (by omega) (by decide)]
  omega

theorem FileNode.congr {sym : InitrdSymbols} {m m' : Mem} {node i length impl : Word}
    (h : FileNode sym m node i length impl) (hon : SameOn m m' node.toNat (node.toNat + 172))
    (hp : node.toNat + 172 ≤ 2 ^ 32) : FileNode sym m' node i length impl := by
  have hload : ∀ k, k + 4 ≤ 172 →
      load32 m' (node + BitVec.ofNat 32 k) = load32 m (node + BitVec.ofNat 32 k) :=
    fun k hk => load32_record_congr hon hk hp
  exact ⟨(hload 128 (by decide)).trans h.flags, (hload 132 (by decide)).trans h.inode,
    (hload 136 (by decide)).trans h.length, (hload 140 (by decide)).trans h.impl,
    (hload 144 (by decide)).trans h.read⟩

/-! ## The node table -/

section Table
variable {sym : InitrdSymbols} {location nodes : Word} {m : Mem}

theorem fileNode_toNat {i : Nat} (h : nodes.toNat + 172 * (i + 1) ≤ 2 ^ 32) :
    (fileNode nodes i).toNat = nodes.toNat + 172 * i := by
  have hi : (BitVec.ofNat 32 i).toNat = i := toNat_ofNat_of_lt (by omega)
  rw [fileNode, sizeofFsNode, BitVec.toNat_add, BitVec.toNat_mul, hi]
  simp only [BitVec.toNat_ofNat]
  omega

/-- A field of header `i` in the image. -/
theorem fileHeaderAt_add (location : Word) (i k : Nat) :
    fileHeaderAt location i + BitVec.ofNat 32 k = location + BitVec.ofNat 32 (4 + 73 * i + k) := by
  rw [fileHeaderAt, sizeofInitrdHeader, sizeofFileHeader, ← BitVec.ofNat_mul, BitVec.add_assoc,
    BitVec.add_assoc, ofNat_add_ofNat, ofNat_add_ofNat]
  congr 2
  omega

theorem initFileNodes_sameOff (sym : InitrdSymbols) (location : Word) {n : Nat}
    (h : nodes.toNat + 172 * n ≤ 2 ^ 32) :
    SameOff m (initFileNodes sym location nodes n m) nodes.toNat (nodes.toNat + 172 * n) := by
  induction n with
  | zero => exact SameOff.refl _ _ _
  | succ n ih =>
    have haddr := fileNode_toNat h
    have hlast := initFileNode_sameOff (m := initFileNodes sym location nodes n m)
      (p := fileNode nodes n) (by omega) sym location (fileHeaderAt location n) (BitVec.ofNat 32 n)
    exact ((ih (by omega)).mono (Nat.le_refl _) (by omega)).trans (hlast.mono (by omega) (by omega))

/-- The rounds behind round `i` leave its node alone. -/
theorem initFileNodes_node (sym : InitrdSymbols) (location : Word) {n i : Nat}
    (h : nodes.toNat + 172 * n ≤ 2 ^ 32) (hi : i < n) :
    SameOn (initFileNodes sym location nodes (i + 1) m) (initFileNodes sym location nodes n m)
      (fileNode nodes i).toNat ((fileNode nodes i).toNat + 172) := by
  induction n with
  | zero => exact absurd hi (Nat.not_lt_zero i)
  | succ n ih =>
    rcases Nat.lt_succ_iff_lt_or_eq.mp hi with hlt | rfl
    · have haddr := fileNode_toNat h
      have hiaddr : (fileNode nodes i).toNat = nodes.toNat + 172 * i := fileNode_toNat (by omega)
      have hlast := initFileNode_sameOff (m := initFileNodes sym location nodes n m)
        (p := fileNode nodes n) (by omega) sym location (fileHeaderAt location n)
        (BitVec.ofNat 32 n)
      exact (ih (by omega) hlt).trans (hlast.sameOn (by omega))
    · exact SameOn.refl _ _ _

/-- Whatever the headers are by then, each node is that of a file, with the name ended. -/
theorem initFileNodes_filled (sym : InitrdSymbols) (location : Word) (m : Mem) {n i : Nat}
    (h : nodes.toNat + 172 * n ≤ 2 ^ 32) (hi : i < n) :
    (∃ length impl, FileNode sym (initFileNodes sym location nodes n m) (fileNode nodes i)
      (BitVec.ofNat 32 i) length impl) ∧
      initFileNodes sym location nodes n m (fileNode nodes i + BitVec.ofNat 32 63) = 0#8 := by
  have haddr : (fileNode nodes i).toNat = nodes.toNat + 172 * i := fileNode_toNat (by omega)
  have hfit : (fileNode nodes i).toNat + 172 ≤ 2 ^ 32 := by omega
  have hkept := initFileNodes_node (m := m) sym location h hi
  refine ⟨⟨_, _, (initFileNode_fields sym _ location _ _ _).congr hkept hfit⟩, ?_⟩
  have hend : (fileNode nodes i + BitVec.ofNat 32 63).toNat = (fileNode nodes i).toNat + 63 :=
    toNat_add_ofNat (by omega)
  exact (hkept _ (by omega) (by omega)).trans (initFileNode_end hfit sym _ _ _)

section Rounds
variable {img : List Byte} {n : Nat} (h : nodes.toNat + 172 * n ≤ 2 ^ 32)
  (himg : ImageAt m location img) (hlen : 4 + 73 * n ≤ img.length)
  (hoff : ∀ k, k < img.length → (location + BitVec.ofNat 32 k).toNat < nodes.toNat ∨
    nodes.toNat + 172 * n ≤ (location + BitVec.ofNat 32 k).toNat)
include h himg hoff

/-- The rounds leave the image alone. -/
theorem initFileNodes_image (sym : InitrdSymbols) {i : Nat} (hi : i ≤ n) :
    ImageAt (initFileNodes sym location nodes i m) location img := by
  have hsame : SameOff m (initFileNodes sym location nodes i m) _ _ :=
    initFileNodes_sameOff sym location (by omega)
  exact himg.congr fun k hk => hsame _ (by have hk' := hoff k hk; omega)

include hlen

/-- After `n` rounds the first `n` nodes describe the first `n` headers. -/
theorem initFileNodes_fields (i : Nat) (hi : i < n) :
    FileNode sym (initFileNodes sym location nodes n m) (fileNode nodes i) (BitVec.ofNat 32 i)
      (lengthOf img i) (location + offsetOf img i) := by
  have haddr : (fileNode nodes i).toNat = nodes.toNat + 172 * i := fileNode_toNat (by omega)
  have himg' := initFileNodes_image h himg hoff sym (Nat.le_of_lt hi)
  have hfields := initFileNode_fields sym (initFileNodes sym location nodes i m) location
    (fileHeaderAt location i) (fileNode nodes i) (BitVec.ofNat 32 i)
  rw [fileHeaderAt_add location i 69, fileHeaderAt_add location i 65, himg'.load32 (by omega),
    himg'.load32 (by omega)] at hfields
  exact hfields.congr (initFileNodes_node sym location h hi) (by omega)

/-- And they have the names that are stored there. -/
theorem initFileNodes_name (sym : InitrdSymbols) {i : Nat} (hi : i < n) :
    NameIs (initFileNodes sym location nodes n m) (fileNode nodes i) (fileName img i) := by
  have haddr : (fileNode nodes i).toNat = nodes.toNat + 172 * i := fileNode_toNat (by omega)
  have himg' := initFileNodes_image h himg hoff sym (Nat.le_of_lt hi)
  have hsrc : ∀ k, headerName (fileHeaderAt location i) + BitVec.ofNat 32 k =
      location + BitVec.ofNat 32 (4 + 73 * i + (1 + k)) := by
    intro k
    rw [← fileHeaderAt_add, headerName, BitVec.add_assoc, ← ofNat_add_ofNat]
  have hfit : (fileNode nodes i).toNat + 172 ≤ 2 ^ 32 := by omega
  have hname := initFileNode_name (m := initFileNodes sym location nodes i m) hfit sym location
    (fileHeaderAt location i) (BitVec.ofNat 32 i) fun a b ha hb heq => by
      have hba : (fileNode nodes i + BitVec.ofNat 32 b).toNat = (fileNode nodes i).toNat + b :=
        toNat_add_ofNat (by omega)
      have hout := hoff (4 + 73 * i + (1 + a)) (by omega)
      rw [← hsrc, heq] at hout
      omega
  have hbytes : ∀ k, k < 63 → initFileNodes sym location nodes i m
      (headerName (fileHeaderAt location i) + BitVec.ofNat 32 k) =
        byteAt img (4 + 73 * i + (1 + k)) := by
    intro k hk
    rw [hsrc, himg' _ (by omega)]
  rw [cstring_congr hbytes] at hname
  refine hname.congr fun k hk => ?_
  have hshort := cstring_length_le (fun k => byteAt img (4 + 73 * i + (1 + k))) 63
  have hka : (fileNode nodes i + BitVec.ofNat 32 k).toNat = (fileNode nodes i).toNat + k :=
    toNat_add_ofNat (by omega)
  exact initFileNodes_node sym location h hi _ (by omega) (by omega)

end Rounds

end Table

/-! ## The ways through the call -/

/-- The location and the number of files pass the checks. -/
structure CheckedCount (location : Word) (s : Initrd) (n : Word) : Prop where
  high : ¬ location < 0x100000#32
  count : fourBytes s.heap.mem location = n
  range : ¬ (n = 0#32 ∨ 10#32 < n)

/-- The returns of `initrd_init`, with the state at each of them. -/
inductive InitOutcome (sym : InitrdSymbols) (location : Word) (s : Initrd) : Word → Initrd → Prop
  | low : location < 0x100000#32 → InitOutcome sym location s 0#32 s
  | badCount {n : Word} : ¬ location < 0x100000#32 → fourBytes s.heap.mem location = n →
      n = 0#32 ∨ 10#32 < n → InitOutcome sym location s 0#32 { s with nrootNodes := n }
  | noRoot {n : Word} {h₁ : Heap} : CheckedCount location s n →
      kmalloc sizeofFsNode s.heap = some (0#32, h₁) →
      InitOutcome sym location s 0#32 { s with heap := h₁, nrootNodes := n, initrdRoot := 0#32 }
  | noDev {n root : Word} {h₁ h₂ h₃ : Heap} : CheckedCount location s n →
      kmalloc sizeofFsNode s.heap = some (root, h₁) → root ≠ 0#32 →
      kmalloc sizeofFsNode { h₁ with mem := initRootNode sym h₁.mem root } = some (0#32, h₂) →
      kfree root h₂ = some h₃ →
      InitOutcome sym location s 0#32
        { s with heap := h₃, nrootNodes := n, initrdRoot := root, initrdDev := 0#32 }
  | noNodes {n root dev : Word} {h₁ h₂ h₃ h₄ h₅ : Heap} : CheckedCount location s n →
      kmalloc sizeofFsNode s.heap = some (root, h₁) → root ≠ 0#32 →
      kmalloc sizeofFsNode { h₁ with mem := initRootNode sym h₁.mem root } = some (dev, h₂) →
      dev ≠ 0#32 →
      kmalloc (sizeofFsNode * n) { h₂ with mem := initDevNode h₂.mem dev } = some (0#32, h₃) →
      kfree dev h₃ = some h₄ → kfree root h₄ = some h₅ →
      InitOutcome sym location s 0#32
        { s with
          heap := h₅, nrootNodes := n, initrdRoot := root, initrdDev := dev, rootNodes := 0#32 }
  | done {n root dev nodes : Word} {h₁ h₂ h₃ : Heap} : CheckedCount location s n →
      kmalloc sizeofFsNode s.heap = some (root, h₁) → root ≠ 0#32 →
      kmalloc sizeofFsNode { h₁ with mem := initRootNode sym h₁.mem root } = some (dev, h₂) →
      dev ≠ 0#32 →
      kmalloc (sizeofFsNode * n) { h₂ with mem := initDevNode h₂.mem dev } = some (nodes, h₃) →
      nodes ≠ 0#32 →
      InitOutcome sym location s root
        { heap :=
            { h₃ with
              mem := initFileNodes sym location nodes n.toNat
                (memset h₃.mem nodes 0#8 (sizeofFsNode * n).toNat) }
          initrdRoot := root
          initrdDev := dev
          rootNodes := nodes
          nrootNodes := n
          fileHeaders := location + sizeofInitrdHeader }

theorem initrdInit_outcome {sym : InitrdSymbols} {location root : Word} {s t : Initrd}
    (h : initrdInit sym location s = some (root, t)) : InitOutcome sym location s root t := by
  unfold initrdInit at h
  split at h
  · next hlow =>
    cases h
    exact .low hlow
  · next hlow =>
    dsimp only at h
    split at h
    · next hbad =>
      cases h
      exact .badCount hlow rfl hbad
    · next hgood =>
      have hok : CheckedCount location s (fourBytes s.heap.mem location) := ⟨hlow, rfl, hgood⟩
      obtain ⟨⟨p, h₁⟩, hk₁, h⟩ := Option.bind_eq_some_iff.mp h
      dsimp only at h
      split at h
      · next hp =>
        cases h
        subst hp
        exact .noRoot hok hk₁
      · next hp =>
        obtain ⟨⟨q, h₂⟩, hk₂, h⟩ := Option.bind_eq_some_iff.mp h
        dsimp only [Initrd.withMem] at h hk₂
        split at h
        · next hq =>
          obtain ⟨h₃, hf, heq⟩ := Option.map_eq_some_iff.mp h
          cases heq
          subst hq
          exact .noDev hok hk₁ hp hk₂ hf
        · next hq =>
          obtain ⟨⟨u, h₃⟩, hk₃, h⟩ := Option.bind_eq_some_iff.mp h
          dsimp only at h hk₃
          split at h
          · next hu =>
            obtain ⟨h₄, hf, h⟩ := Option.bind_eq_some_iff.mp h
            obtain ⟨h₅, hf', heq⟩ := Option.map_eq_some_iff.mp h
            cases heq
            subst hu
            exact .noNodes hok hk₁ hp hk₂ hq hk₃ hf hf'
          · next hu =>
            cases h
            exact .done hok hk₁ hp hk₂ hq hk₃ hu

/-! ## The call -/

/-- What a successful call of `initrd_init` has built: the root node, the node of "dev" and the
node table, in the payloads of the blocks `r`, `d` and `k`. -/
structure TreeBuilt (sym : InitrdSymbols) (location : Word) (bs : List Block) (s t : Initrd)
    (root : Word) (r d k : Block) : Prop where
  isPayload : root = payload r
  owns : Owns t.heap (k :: d :: r :: bs)
  kept : Kept bs s.heap.mem t.heap.mem
  initrdRoot : t.initrdRoot = payload r
  initrdDev : t.initrdDev = payload d
  table : t.rootNodes = payload k
  headers : t.fileHeaders = location + sizeofInitrdHeader
  stored : t.nrootNodes = fourBytes s.heap.mem location
  atMost : t.nrootNodes.toNat ≤ 10
  rootRoom : 172 ≤ r.size
  devRoom : 172 ≤ d.size
  room : 172 * t.nrootNodes.toNat ≤ k.size
  /-- The nodes of the directories are as they were filled in. -/
  rootNode : ∃ m, SameOn (initRootNode sym m (payload r)) t.heap.mem (payload r).toNat
    ((payload r).toNat + 172)
  devNode : ∃ m, SameOn (initDevNode m (payload d)) t.heap.mem (payload d).toNat
    ((payload d).toNat + 172)
  /-- The memory is as the loop has left it. -/
  filled : ∃ m, Kept bs s.heap.mem m ∧
    t.heap.mem = initFileNodes sym location t.rootNodes t.nrootNodes.toNat m

/-- The nodes of the files describe the image. -/
structure Mounted (sym : InitrdSymbols) (location : Word) (img : List Byte) (bs : List Block)
    (s t : Initrd) (root : Word) (r d k : Block) : Prop
    extends TreeBuilt sym location bs s t root r d k where
  placed : Placed img location t.heap.mem bs
  count : t.nrootNodes = countOf img
  files : ∀ i, i < (countOf img).toNat → FileNode sym t.heap.mem (fileNode t.rootNodes i)
    (BitVec.ofNat 32 i) (lengthOf img i) (location + offsetOf img i)
  names : ∀ i, i < (countOf img).toNat →
    NameIs t.heap.mem (fileNode t.rootNodes i) (fileName img i)

section Built
variable {sym : InitrdSymbols} {location root : Word} {bs : List Block} {s t : Initrd}
  {r d k : Block}

/-- The table fits. -/
theorem TreeBuilt.table_fits (h : TreeBuilt sym location bs s t root r d k) :
    0x400000 ≤ t.rootNodes.toNat ∧ t.rootNodes.toNat + 172 * t.nrootNodes.toNat ≤ 2 ^ 32 := by
  have hpay := h.owns.payload_toNat List.mem_cons_self
  have hbd := h.owns.bounds List.mem_cons_self
  have hroom := h.room
  rw [h.table]
  omega

theorem TreeBuilt.fileNode_fits (h : TreeBuilt sym location bs s t root r d k) {i : Nat}
    (hi : i < t.nrootNodes.toNat) :
    (fileNode t.rootNodes i).toNat = t.rootNodes.toNat + 172 * i ∧
      0x400000 ≤ (fileNode t.rootNodes i).toNat ∧ (fileNode t.rootNodes i).toNat + 172 ≤ 2 ^ 32 := by
  obtain ⟨hlo, hfit⟩ := h.table_fits
  have haddr : (fileNode t.rootNodes i).toNat = t.rootNodes.toNat + 172 * i :=
    fileNode_toNat (by omega)
  omega

/-- The nodes of the files, with whatever has been in their headers. -/
theorem TreeBuilt.served (h : TreeBuilt sym location bs s t root r d k) {i : Nat}
    (hi : i < t.nrootNodes.toNat) :
    (∃ length impl, FileNode sym t.heap.mem (fileNode t.rootNodes i) (BitVec.ofNat 32 i) length
      impl) ∧ t.heap.mem (fileNode t.rootNodes i + BitVec.ofNat 32 63) = 0#8 := by
  obtain ⟨m, _, hmem⟩ := h.filled
  rw [hmem]
  exact initFileNodes_filled sym location m h.table_fits.2 hi

/-- An image that the heap leaves alone is what the nodes describe. -/
theorem TreeBuilt.mounted {img : List Byte} (h : TreeBuilt sym location bs s t root r d k)
    (hp : Placed img location s.heap.mem bs) (hlen : 4 + 73 * (countOf img).toNat ≤ img.length) :
    Mounted sym location img bs s t root r d k := by
  have hcount : t.nrootNodes = countOf img := h.stored.trans (hp.count (by omega))
  obtain ⟨m, hkept, hmem⟩ := h.filled
  have hfit := h.table_fits.2
  have hnew : k ∉ d :: r :: bs := (List.nodup_cons.mp h.owns.nodup).1
  have hsub : ∀ b ∈ bs, b ∈ d :: r :: bs :=
    fun b hb => List.mem_cons_of_mem _ (List.mem_cons_of_mem _ hb)
  have hout := fun j hj =>
    clientByte_off_payload h.owns hnew h.room ((hp.outside j hj).mono hsub)
  rw [← h.table] at hout
  rw [hcount] at hmem hfit hout
  refine ⟨h, hp.kept h.kept, hcount, fun i hi => ?_, fun i hi => ?_⟩
  · rw [hmem]
    exact initFileNodes_fields hfit (hp.kept hkept).image hlen hout i hi
  · rw [hmem]
    exact initFileNodes_name hfit (hp.kept hkept).image hlen hout sym hi

end Built

section Call
variable {sym : InitrdSymbols} {location : Word} {img : List Byte} {s : Initrd} {bs : List Block}

theorem nodeTable_size {n : Word} (hn : n.toNat ≤ 10) : (sizeofFsNode * n).toNat = 172 * n.toNat := by
  rw [sizeofFsNode, BitVec.toNat_mul, BitVec.toNat_ofNat]
  omega

/-- The table of the files is cleared, and filled in. -/
theorem fillTable_owns {h : Heap} {k : Block} {n : Word} (ho : Owns h (k :: bs)) (hnew : k ∉ bs)
    (hn : n.toNat ≤ 10) (hroom : 172 * n.toNat ≤ k.size) (sym : InitrdSymbols) (location : Word) :
    let cleared := memset h.mem (payload k) 0#8 (sizeofFsNode * n).toNat
    let filled := initFileNodes sym location (payload k) n.toNat cleared
    Kept bs h.mem cleared ∧ Owns { h with mem := filled } (k :: bs) ∧ Kept bs h.mem filled := by
  intro cleared filled
  have hpay := ho.payload_toNat List.mem_cons_self
  have hbounds := ho.bounds List.mem_cons_self
  have hfits : (payload k).toNat + 172 * n.toNat ≤ 2 ^ 32 := by omega
  have hclear : SameOff h.mem cleared (payload k).toNat ((payload k).toNat + 172 * n.toNat) :=
    nodeTable_size hn ▸ memset_sameOff (by rwa [nodeTable_size hn])
  have hfill := initFileNodes_sameOff (m := cleared) sym location hfits
  exact ⟨(ho.writePayload hnew hroom hclear).2, ho.writePayload hnew hroom (hclear.trans hfill)⟩

/-- A call returns NULL, or it has built all its nodes. -/
theorem initrdInit_built {root : Word} {t : Initrd} (ho : Owns s.heap bs)
    (h : initrdInit sym location s = some (root, t)) :
    root = 0#32 ∨ ∃ r d k, TreeBuilt sym location bs s t root r d k := by
  cases initrdInit_outcome h with
  | low _ => exact Or.inl rfl
  | badCount _ _ _ => exact Or.inl rfl
  | noRoot _ _ => exact Or.inl rfl
  | noDev _ _ _ _ _ => exact Or.inl rfl
  | noNodes _ _ _ _ _ _ _ _ => exact Or.inl rfl
  | @done n root dev nodes h₁ h₂ h₃ hok hk₁ hr hk₂ hd hk₃ hk =>
    have hrange := hok.range
    rw [not_or, BitVec.not_lt] at hrange
    have hten : n.toNat ≤ 10 := hrange.2
    have hpos : n.toNat ≠ 0 := fun h0 => hrange.1 (BitVec.eq_of_toNat_eq h0)
    rcases ho.kmallocFill (by decide) (fun m p hp => initRootNode_sameOff hp sym) hk₁ with
      ⟨hnull, _⟩ | ⟨r, _, rfl, hrsize, _, ho₁, hkept₁⟩
    · exact absurd hnull hr
    rcases ho₁.kmallocFill (by decide) (fun m p hp => initDevNode_sameOff hp) hk₂ with
      ⟨hnull, _⟩ | ⟨d, _, rfl, hdsize, _, ho₂, hkept₂⟩
    · exact absurd hnull hd
    rcases ho₂.kmalloc hk₃ with ⟨hnull, _⟩ | ⟨k, _, rfl, hksize, hkbs, ho₃, hkept₃⟩
    · exact absurd hnull hk
    rw [nodeTable_size hten] at hksize
    replace hksize := hksize (by omega)
    have hr_sub : ∀ b ∈ bs, b ∈ r :: bs := fun b hb => List.mem_cons_of_mem _ hb
    have hd_sub : ∀ b ∈ r :: bs, b ∈ d :: r :: bs := fun b hb => List.mem_cons_of_mem _ hb
    have hall_sub : ∀ b ∈ bs, b ∈ d :: r :: bs := fun b hb => hd_sub b (hr_sub b hb)
    have hkept : Kept bs s.heap.mem h₃.mem :=
      (hkept₁.trans (hkept₂.mono hr_sub)).trans (hkept₃.mono hall_sub)
    obtain ⟨hcleared, ho₄, hkept₄⟩ := fillTable_owns ho₃ hkbs hten hksize sym location
    have hrpay := ho₁.payload_toNat List.mem_cons_self
    have hdpay := ho₂.payload_toNat List.mem_cons_self
    have hroom : sizeofFsNode.toNat = 172 := rfl
    -- the nodes of the directories, from the time they were filled in
    have hroot := ((hkept₂.trans (hkept₃.mono hd_sub)).trans (hkept₄.mono hd_sub)).sameOn
      (List.mem_cons_self (a := r))
    have hdev := (hkept₃.trans hkept₄).sameOn (List.mem_cons_self (a := d))
    exact Or.inr ⟨r, d, k,
      { isPayload := rfl
        owns := ho₄
        kept := hkept.trans (hkept₄.mono hall_sub)
        initrdRoot := rfl
        initrdDev := rfl
        table := rfl
        headers := rfl
        stored := hok.count.symm
        atMost := hten
        rootRoom := by omega
        devRoom := by omega
        room := hksize
        rootNode := ⟨_, hroot.mono (by omega) (by omega)⟩
        devNode := ⟨_, hdev.mono (by omega) (by omega)⟩
        filled := ⟨_, hkept.trans (hcleared.mono hall_sub), rfl⟩ }⟩

/-- When the image is left alone, they describe it. -/
theorem initrdInit_cases {root : Word} {t : Initrd} (ho : Owns s.heap bs)
    (hp : Placed img location s.heap.mem bs)
    (hlen : 4 + 73 * (countOf img).toNat ≤ img.length)
    (h : initrdInit sym location s = some (root, t)) :
    root = 0#32 ∨ ∃ r d k, Mounted sym location img bs s t root r d k :=
  (initrdInit_built ho h).imp_right fun ⟨r, d, k, hbuilt⟩ => ⟨r, d, k, hbuilt.mounted hp hlen⟩

/-- Whatever the image holds, the call returns. -/
theorem initrdInit_total (ho : Owns s.heap bs) (sym : InitrdSymbols) (location : Word) :
    ∃ root t, initrdInit sym location s = some (root, t) := by
  unfold initrdInit
  split
  · exact ⟨_, _, rfl⟩
  · dsimp only
    split
    · exact ⟨_, _, rfl⟩
    · obtain ⟨p, h₁, hk₁⟩ := ho.kmalloc_total sizeofFsNode
      rw [hk₁, Option.bind_some]
      dsimp only
      rcases ho.kmallocFill (by decide) (fun m p hp => initRootNode_sameOff hp sym) hk₁ with
        ⟨rfl, rfl⟩ | ⟨r, hr, rfl, _, _, ho₁, _⟩
      · exact ⟨_, _, if_pos rfl⟩
      · rw [if_neg hr]
        obtain ⟨q, h₂, hk₂⟩ := ho₁.kmalloc_total sizeofFsNode
        dsimp only [Initrd.withMem]
        rw [hk₂, Option.bind_some]
        dsimp only
        rcases ho₁.kmallocFill (by decide) (fun m p hp => initDevNode_sameOff hp) hk₂ with
          ⟨rfl, rfl⟩ | ⟨d, hd, rfl, _, _, ho₂, _⟩
        · obtain ⟨h₃, hfree, _⟩ := ho₁.kfree List.mem_cons_self
          rw [if_pos rfl, hfree]
          exact ⟨_, _, rfl⟩
        · rw [if_neg hd]
          obtain ⟨u, h₃, hk₃⟩ := ho₂.kmalloc_total (sizeofFsNode * fourBytes s.heap.mem location)
          rw [hk₃, Option.bind_some]
          dsimp only
          rcases ho₂.kmalloc hk₃ with ⟨rfl, rfl⟩ | ⟨k, hk, _⟩
          · obtain ⟨h₄, hfree, ho₄, _⟩ := ho₂.kfree List.mem_cons_self
            rw [List.erase_cons_head] at ho₄
            obtain ⟨h₅, hfree', _⟩ := ho₄.kfree List.mem_cons_self
            rw [if_pos rfl, hfree, Option.bind_some, hfree']
            exact ⟨_, _, rfl⟩
          · rw [if_neg hk]
            exact ⟨_, _, rfl⟩

end Call

/-! ## Enough heap -/

/-- The fresh heap has room for the root node, the node of "dev" and ten files. -/
theorem initrdInit_fresh (sym : InitrdSymbols) (location : Word) {s : Initrd} {m : Mem}
    (hs : s.heap = heapInit m) (hL : 0x100000#32 ≤ location)
    (hcount : fourBytes s.heap.mem location ≠ 0#32 ∧ fourBytes s.heap.mem location ≤ 10#32) :
    ∃ root t, initrdInit sym location s = some (root, t) ∧ root ≠ 0#32 := by
  have hfit : ∀ i : Fin 10, firstFit (alignSize (sizeofFsNode * BitVec.ofNat 32 (i + 1))).toNat
      ([⟨172, true⟩, ⟨172, true⟩] ++ [⟨4193924, false⟩]) =
        some ([⟨172, true⟩, ⟨172, true⟩], ⟨4193924, false⟩, []) := by decide
  have hsplit : ∀ i : Fin 10, (sizeofFsNode * BitVec.ofNat 32 (i + 1)) ≠ 0#32 ∧
      (alignSize (sizeofFsNode * BitVec.ofNat 32 (i + 1))).toNat + 12 + 4 < 4193924 := by decide
  obtain ⟨h0, h10⟩ := hcount
  have h0' : (fourBytes s.heap.mem location).toNat ≠ 0 := fun h => h0 (BitVec.eq_of_toNat_eq h)
  have h10' : (fourBytes s.heap.mem location).toNat ≤ 10 := h10
  obtain ⟨i, hi⟩ : ∃ i : Fin 10, fourBytes s.heap.mem location = BitVec.ofNat 32 (i + 1) :=
    ⟨⟨(fourBytes s.heap.mem location).toNat - 1, by omega⟩, by
      rw [Nat.sub_add_cancel (by omega), BitVec.ofNat_toNat, BitVec.setWidth_eq]⟩
  have hfresh : Represents s.heap ([] ++ [freshChunk]) := by
    rw [hs]
    exact heapInit_represents m
  obtain ⟨p, h₁, hk₁, hp, hpfit, hw₁⟩ := kmalloc_last [] hfresh (n := sizeofFsNode) (by decide)
    (by decide) (by decide)
  obtain ⟨q, h₂, hk₂, hq, hqfit, hw₂⟩ := kmalloc_last [⟨172, true⟩]
    (hw₁ _ (initRootNode_sameOff hpfit sym)) (n := sizeofFsNode) (by decide) (by decide) (by decide)
  obtain ⟨u, h₃, hk₃, hu, _, _⟩ := kmalloc_last [⟨172, true⟩, ⟨172, true⟩]
    (hw₂ _ (initDevNode_sameOff hqfit)) (hsplit i).1 (hfit i) (hsplit i).2
  rw [← hi] at hk₃
  rw [initrdInit, if_neg (BitVec.not_lt.mpr hL)]
  dsimp only
  rw [if_neg (not_or.mpr ⟨h0, BitVec.not_lt.mpr h10⟩), hk₁, Option.bind_some]
  dsimp only [Initrd.withMem]
  rw [if_neg hp, hk₂, Option.bind_some]
  dsimp only
  rw [if_neg hq, hk₃, Option.bind_some]
  dsimp only
  rw [if_neg hu]
  exact ⟨_, _, rfl, hp⟩

def exampleSymbols : InitrdSymbols := ⟨0x101000#32, 0x102000#32, 0x103000#32⟩

/-- The state before the call on an image at `location`: fresh heap, cleared
statics. -/
def freshInitrd (location : Word) (img : List Byte) : Initrd where
  heap := heapInit (memOf location img)
  initrdRoot := 0#32
  initrdDev := 0#32
  rootNodes := 0#32
  nrootNodes := 0#32
  fileHeaders := 0#32

theorem freshInitrd_placed {location : Word} {img : List Byte} (hlo : 0x800000 ≤ location.toNat)
    (hhi : location.toNat + img.length ≤ 2 ^ 32) :
    Placed img location (freshInitrd location img).heap.mem [] := by
  have haddr : ∀ k, k < img.length → (location + BitVec.ofNat 32 k).toNat = location.toNat + k :=
    fun k hk => toNat_add_ofNat (by omega)
  refine ⟨(memOf_imageAt (by omega)).congr fun k hk => heapInit_sameOff _ _ ?_, fun k hk => ?_⟩
  · have hk' := haddr k hk
    omega
  · have hk' := haddr k hk
    exact Or.inr (Or.inl (by omega))

end Zenix
