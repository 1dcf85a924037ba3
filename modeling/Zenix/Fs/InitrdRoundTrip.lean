import Zenix.Fs.InitrdLoad
import Zenix.Tools.Mkinitrd

/-!
# The initrd tool and the kernel

The tool writes headers of 76 bytes, the kernel reads headers of 73 bytes. The
kernel's offset of the first file starts in the tool's padding, and its high byte
is the low byte of the offset that the tool has written.

Results:
1. `round_trip_never`: no image of the tool is read back.
2. `one_file_misread`: the node of an image with one file of one byte.
-/

namespace Zenix
open ByteMemory FirstFit

/-! ## The property -/

/-- The node table has one node per file, in order, with the name, the length and
the address of the data of the file. -/
structure NodesAreFiles (openFile : List Byte → Option (List Byte)) (names : List (List Byte))
    (location : Word) (t : Initrd) : Prop where
  count : t.nrootNodes = BitVec.ofNat 32 names.length
  name : ∀ i name, names[i]? = some name → NameIs t.heap.mem (fileNode t.rootNodes i) name
  length : ∀ i name data, names[i]? = some name → openFile name = some data →
    nodeLength t.heap.mem (fileNode t.rootNodes i) = fileLength data
  impl : ∀ i name, names[i]? = some name →
    nodeImpl t.heap.mem (fileNode t.rootNodes i) =
      location + BitVec.ofNat 32 (dataOffset openFile names i)

/-- `initrd_init` has succeeded and its node table is the list of files. -/
def RoundTrip (openFile : List Byte → Option (List Byte)) (names : List (List Byte))
    (location : Word) (result : Option (Word × Initrd)) : Prop :=
  ∃ root t, result = some (root, t) ∧ root ≠ 0#32 ∧ NodesAreFiles openFile names location t

/-! ## The first header -/

section FirstHeader
variable {openFile : List Byte → Option (List Byte)} {pad : Nat → Fin 3 → Byte}
  {names : List (List Byte)} {img : List Byte}

/-- What the kernel takes for the offset of the first file is not its offset: the
one is at least `2^24`, the other below. -/
theorem mkinitrd_offset_ne (himg : mkinitrd openFile pad names = some img) (hne : names ≠ [])
    (hmax : names.length ≤ 10) :
    offsetOf img 0 ≠ BitVec.ofNat 32 (dataOffset openFile names 0) := by
  intro heq
  have hpos : 0 < names.length := List.length_pos_of_ne_nil hne
  have hstart : (BitVec.ofNat 32 (4 + names.length * 76)).toNat = 4 + names.length * 76 :=
    toNat_ofNat_of_lt (by omega)
  have hwritten : (wordAt img 72).toNat = 4 + names.length * 76 := by
    rw [mkinitrd_firstOffset himg hne]
    exact hstart
  have hread : (wordAt img 69).toNat = 4 + names.length * 76 := by
    rw [show wordAt img 69 = offsetOf img 0 from rfl, heq]
    exact hstart
  rw [toNat_wordAt] at hwritten hread
  simp only [Nat.reduceAdd] at hwritten hread
  -- the low byte of what was written is the high byte of what is read
  have hlow : (byteAt img 72).toNat = (4 + names.length * 76) % 256 := by omega
  have hhigh : (byteAt img 72).toNat = 0 := by omega
  omega

/-- The table that the kernel has built from an image of the tool is wrong. -/
theorem Mounted.not_nodesAreFiles {sym : InitrdSymbols} {location root : Word} {bs : List Block}
    {s t : Initrd} {r d k : Block} (h : Mounted sym location img bs s t root r d k)
    (himg : mkinitrd openFile pad names = some img) (hne : names ≠ []) (hmax : names.length ≤ 10) :
    ¬ NodesAreFiles openFile names location t := by
  intro hnodes
  have hpos : 0 < names.length := List.length_pos_of_ne_nil hne
  have hcount : (countOf img).toNat = names.length := by
    rw [countOf, mkinitrd_count himg]
    exact toNat_ofNat_of_lt (by omega)
  obtain ⟨name, hname⟩ : ∃ name, names[0]? = some name := ⟨_, List.getElem?_eq_getElem hpos⟩
  have himpl := (h.files 0 (by omega)).impl.symm.trans (hnodes.impl 0 name hname)
  exact mkinitrd_offset_ne himg hne hmax ((BitVec.add_right_inj _).mp himpl)

/-- For every list of one to ten files, every padding and every place of the
image: either the call fails, or the first node does not point to the first file. -/
theorem round_trip_never {sym : InitrdSymbols} {location : Word} {s : Initrd} {bs : List Block}
    (himg : mkinitrd openFile pad names = some img) (hne : names ≠ []) (hmax : names.length ≤ 10)
    (ho : Owns s.heap bs) (hp : Placed img location s.heap.mem bs) :
    ¬ RoundTrip openFile names location (initrdInit sym location s) := by
  rintro ⟨root, t, hinit, hroot, hnodes⟩
  have hcount : (countOf img).toNat = names.length := by
    rw [countOf, mkinitrd_count himg]
    exact toNat_ofNat_of_lt (by omega)
  have hlen : 4 + names.length * 76 ≤ img.length := mkinitrd_length himg
  rcases initrdInit_cases ho hp (by omega) hinit with hnull | ⟨r, d, k, hmounted⟩
  · exact hroot hnull
  · exact hmounted.not_nodesAreFiles himg hne hmax hnodes

end FirstHeader

/-! ## One file -/

/-- The file "a" with the byte 0x41, and its image. -/
def oneFile : List Byte → Option (List Byte) := fun _ => some [0x41#8]

def oneFileImage : List Byte :=
  le32 1#32 ++ fileHeader (fun _ => 0#8) [0x61#8] 80#32 1#32 ++ [0x41#8]

theorem mkinitrd_oneFile :
    mkinitrd oneFile (fun _ _ => 0#8) [[0x61#8]] = some oneFileImage := by decide

theorem round_trip_never_oneFile :
    ¬ RoundTrip oneFile [[0x61#8]] 0x1000000#32
      (initrdInit exampleSymbols 0x1000000#32 (freshInitrd 0x1000000#32 oneFileImage)) :=
  round_trip_never mkinitrd_oneFile (by decide) (by decide) (heapInit_owns _)
    (freshInitrd_placed (by decide) (by decide))

/-- The call succeeds; the node of the file has the length `0x1000000` and points to
`0x51000000`. The data is one byte at `0x1000050`. -/
theorem one_file_misread :
    mkinitrd oneFile (fun _ _ => 0#8) [[0x61#8]] = some oneFileImage ∧
    (∃ root t,
      initrdInit exampleSymbols 0x1000000#32 (freshInitrd 0x1000000#32 oneFileImage) =
        some (root, t) ∧ root ≠ 0#32 ∧
      nodeLength t.heap.mem (fileNode t.rootNodes 0) = 0x1000000#32 ∧
      nodeImpl t.heap.mem (fileNode t.rootNodes 0) = 0x51000000#32) ∧
    ¬ RoundTrip oneFile [[0x61#8]] 0x1000000#32
      (initrdInit exampleSymbols 0x1000000#32 (freshInitrd 0x1000000#32 oneFileImage)) := by
  have hplaced : Placed oneFileImage 0x1000000#32
      (freshInitrd 0x1000000#32 oneFileImage).heap.mem [] :=
    freshInitrd_placed (by decide) (by decide)
  have hcount := hplaced.count (by decide)
  obtain ⟨root, t, hinit, hroot⟩ := initrdInit_fresh exampleSymbols 0x1000000#32
    (s := freshInitrd 0x1000000#32 oneFileImage) rfl (by decide) (by rw [hcount]; decide)
  rcases initrdInit_cases (heapInit_owns _) hplaced (by decide) hinit with hnull | ⟨r, d, k, hmounted⟩
  · exact absurd hnull hroot
  · have hfile := hmounted.files 0 (by decide)
    refine ⟨mkinitrd_oneFile, ⟨root, t, hinit, hroot, hfile.length.trans (by decide),
      hfile.impl.trans (by decide)⟩, ?_⟩
    rintro ⟨root', t', hinit', _, hnodes⟩
    cases hinit.symm.trans hinit'
    exact hmounted.not_nodesAreFiles mkinitrd_oneFile (by decide) (by decide) hnodes

end Zenix
