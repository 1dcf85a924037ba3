import Zenix.Lib.ByteImage

/-!
# The initrd tool (tools/mkinitrd.c)

The tool writes its `initrd_file_header_t` with `fwrite`. The struct is not
packed, so a header takes 76 bytes: magic, name, three bytes of padding, offset
and length. The padding is whatever the stack held (`pad`).

Results:
1. `mkinitrd_length`: how long the image is at least.
2. `mkinitrd_count`, `mkinitrd_firstOffset`: where the tool has put the count and the
   offset of the first file.
3. `mkinitrd_data`: where it has put the data of each file.
-/

namespace Zenix
open ByteMemory

/-- `sizeof(initrd_header_t)` and `sizeof(initrd_file_header_t)` on the host. -/
def hostHeaderSize : Nat := 4
def hostFileHeaderSize : Nat := 76

/-- `char name[64]` after `strncpy(name, argv[i + 2], 63)` and `name[63] = '\0'`. -/
def nameField (name : List Byte) : List Byte := (name ++ List.replicate 63 0#8).take 63 ++ [0#8]

/-- The bytes of the host's `initrd_file_header_t`. -/
def fileHeader (pad : Fin 3 → Byte) (name : List Byte) (offset length : Word) : List Byte :=
  0xBF#8 :: (nameField name ++ [pad 0, pad 1, pad 2] ++ le32 offset ++ le32 length)

/-- `uint32_t length = ftell(f)` at the end of the file. -/
def fileLength (data : List Byte) : Word := BitVec.ofNat 32 data.length

/-- "Write file headers", from the `i`-th file on. `openFile` is `fopen` for
reading; a file that cannot be opened ends the program. -/
def writeFileHeaders (openFile : List Byte → Option (List Byte)) (pad : Nat → Fin 3 → Byte) :
    Nat → Word → List (List Byte) → Option (List Byte)
  | _, _, [] => some []
  | i, offset, name :: names =>
      (openFile name).bind fun data =>
        (writeFileHeaders openFile pad (i + 1) (offset + fileLength data) names).map fun rest =>
          fileHeader (pad i) name offset (fileLength data) ++ rest

/-- "Write file data". -/
def writeFileData (openFile : List Byte → Option (List Byte)) : List (List Byte) → List Byte
  | [] => []
  | name :: names =>
      match openFile name with
      | none => writeFileData openFile names
      | some data => data.take (fileLength data).toNat ++ writeFileData openFile names

/-- The output of `mkinitrd <output> names...`; `none` when the program ends with
an error. -/
def mkinitrd (openFile : List Byte → Option (List Byte)) (pad : Nat → Fin 3 → Byte)
    (names : List (List Byte)) : Option (List Byte) :=
  let nfiles := names.length
  let offset := BitVec.ofNat 32 (hostHeaderSize + nfiles * hostFileHeaderSize)
  (writeFileHeaders openFile pad 0 offset names).map fun headers =>
    le32 (BitVec.ofNat 32 nfiles) ++ headers ++ writeFileData openFile names

/-- The bytes of data of the files. -/
def dataSize (openFile : List Byte → Option (List Byte)) : List (List Byte) → Nat
  | [] => 0
  | name :: names => ((openFile name).getD []).length + dataSize openFile names

/-- Where the data of file `i` starts in the image. -/
def dataOffset (openFile : List Byte → Option (List Byte)) (names : List (List Byte)) (i : Nat) :
    Nat :=
  hostHeaderSize + names.length * hostFileHeaderSize + dataSize openFile (names.take i)

/-! ## The layout of the image -/

section Layout
variable {openFile : List Byte → Option (List Byte)} {pad : Nat → Fin 3 → Byte}

theorem length_nameField (name : List Byte) : (nameField name).length = 64 := by
  simp [nameField]

theorem length_fileHeader (pad : Fin 3 → Byte) (name : List Byte) (offset length : Word) :
    (fileHeader pad name offset length).length = hostFileHeaderSize := by
  simp [fileHeader, length_nameField, hostFileHeaderSize]

/-- The offset follows the padding. -/
theorem fileHeader_offset (pad : Fin 3 → Byte) (name : List Byte) (offset length : Word) :
    wordAt (fileHeader pad name offset length) 68 = offset := by
  have hpre : (0xBF#8 :: (nameField name ++ [pad 0, pad 1, pad 2])).length = 68 := by
    simp [length_nameField]
  have hsplit : fileHeader pad name offset length =
      0xBF#8 :: (nameField name ++ [pad 0, pad 1, pad 2]) ++ (le32 offset ++ le32 length) := by
    simp only [fileHeader, List.cons_append, List.append_assoc]
  rw [hsplit, wordAt_append_right (by omega), hpre, wordAt_append_left (Nat.le_refl _),
    wordAt_le32]

theorem writeFileHeaders_length {names : List (List Byte)} {i : Nat} {offset : Word}
    {headers : List Byte} (h : writeFileHeaders openFile pad i offset names = some headers) :
    headers.length = names.length * hostFileHeaderSize := by
  induction names generalizing i offset headers with
  | nil =>
    cases h
    rfl
  | cons name names ih =>
    obtain ⟨data, _, h⟩ := Option.bind_eq_some_iff.mp h
    obtain ⟨rest, hrest, rfl⟩ := Option.map_eq_some_iff.mp h
    rw [List.length_append, length_fileHeader, ih hrest, List.length_cons, Nat.succ_mul,
      Nat.add_comm]

/-- The data of the files follow each other. -/
theorem writeFileData_data {names : List (List Byte)} {i : Nat} {name data : List Byte}
    (hfit : ∀ n ∈ names, ∀ d, openFile n = some d → d.length < 2 ^ 32) (hi : names[i]? = some name)
    (hdata : openFile name = some data) {k : Nat} (hk : k < data.length) :
    byteAt (writeFileData openFile names) (dataSize openFile (names.take i) + k) = byteAt data k := by
  induction names generalizing i with
  | nil => cases hi
  | cons first names ih =>
    have hwhole : ∀ d, openFile first = some d → d.take (fileLength d).toNat = d := by
      intro d hd
      have hlt := hfit first List.mem_cons_self d hd
      rw [fileLength, toNat_ofNat_of_lt hlt, List.take_length]
    cases i with
    | zero =>
      cases hi
      rw [writeFileData, hdata, List.take_zero, dataSize, Nat.zero_add]
      dsimp only
      rw [hwhole data hdata, byteAt_append_left hk]
    | succ i =>
      have hrest := ih (fun n hn => hfit n (List.mem_cons_of_mem _ hn)) hi
      rw [writeFileData, List.take_succ_cons, dataSize]
      cases hfirst : openFile first with
      | none =>
        rw [Option.getD_none, List.length_nil, Nat.zero_add]
        exact hrest
      | some d =>
        rw [Option.getD_some]
        dsimp only
        rw [hwhole d hfirst, byteAt_append_right (by omega), Nat.add_assoc, Nat.add_sub_cancel_left]
        exact hrest

variable {names : List (List Byte)} {img : List Byte}

theorem mkinitrd_length (h : mkinitrd openFile pad names = some img) :
    hostHeaderSize + names.length * hostFileHeaderSize ≤ img.length := by
  obtain ⟨headers, hheaders, rfl⟩ := Option.map_eq_some_iff.mp h
  rw [List.length_append, List.length_append, length_le32, writeFileHeaders_length hheaders]
  exact Nat.le_add_right _ _

theorem mkinitrd_count (h : mkinitrd openFile pad names = some img) :
    wordAt img 0 = BitVec.ofNat 32 names.length := by
  obtain ⟨headers, _, rfl⟩ := Option.map_eq_some_iff.mp h
  rw [List.append_assoc, wordAt_append_left (Nat.le_refl _), wordAt_le32]

/-- The offset of the first file stands 72 bytes into the image. -/
theorem mkinitrd_firstOffset (h : mkinitrd openFile pad names = some img) (hne : names ≠ []) :
    wordAt img 72 = BitVec.ofNat 32 (hostHeaderSize + names.length * hostFileHeaderSize) := by
  cases names with
  | nil => exact absurd rfl hne
  | cons name names =>
    obtain ⟨headers, hheaders, rfl⟩ := Option.map_eq_some_iff.mp h
    obtain ⟨data, _, hheaders⟩ := Option.bind_eq_some_iff.mp hheaders
    obtain ⟨rest, _, rfl⟩ := Option.map_eq_some_iff.mp hheaders
    have hlen : ∀ offset length, (fileHeader (pad 0) name offset length).length = 76 :=
      length_fileHeader (pad 0) name
    have hfour : ∀ v, (le32 v).length = 4 := length_le32
    rw [List.append_assoc, wordAt_append_right (by rw [hfour]; decide), List.append_assoc,
      wordAt_append_left (by rw [hlen, hfour]; decide), hfour]
    exact fileHeader_offset _ _ _ _

/-- The data of file `i` starts at `dataOffset`. -/
theorem mkinitrd_data (h : mkinitrd openFile pad names = some img) {i : Nat} {name data : List Byte}
    (hfit : ∀ n ∈ names, ∀ d, openFile n = some d → d.length < 2 ^ 32) (hi : names[i]? = some name)
    (hdata : openFile name = some data) {k : Nat} (hk : k < data.length) :
    byteAt img (dataOffset openFile names i + k) = byteAt data k := by
  obtain ⟨headers, hheaders, rfl⟩ := Option.map_eq_some_iff.mp h
  have hlen := writeFileHeaders_length hheaders
  rw [dataOffset, hostHeaderSize, byteAt_append_right, List.length_append, length_le32, hlen]
  · rw [Nat.add_assoc, Nat.add_sub_cancel_left]
    exact writeFileData_data hfit hi hdata hk
  · rw [List.length_append, length_le32, hlen]
    omega

end Layout

end Zenix
