import Mathlib.Logic.Function.Basic
import Zenix.Lib.AccessLog
import Zenix.Lib.Memory

/-!
# The virtual file system (kernel/fs/vfs_complete.c)

A node is a pointer to an `fs_node_t`. Its callbacks are code of a file system,
so they are arbitrary functions on `W`, the rest of the machine. They do not call
back into this file: `vfs_root` and `fd_table` are not in `W`. `nodeAt w p` is
the record that `p` points to when the rest of the machine is `w`.

A path is the list of the bytes before its terminator. The functions log the
callbacks they invoke, with their arguments.

Results:
1. `resolveFrom_rounds`: the loop over the components of a path comes to its end.
-/

namespace Zenix.VfsComplete
open ByteMemory

def MAX_FILENAME : Nat := 128
def MAX_PATH : Nat := 256
def MAX_OPEN_FILES : Nat := 256

def SEEK_SET : Word := 0#32
def SEEK_CUR : Word := 1#32
def SEEK_END : Word := 2#32

/-- The character `/`. -/
def slash : Byte := 0x2F#8

/-- The fields of `fs_node_t` that the functions read. A function pointer is
`none` when it is NULL. -/
structure FsNode (W : Type) where
  length : Word
  readFn : Option (Word → Word → Word → Word → W → Word × W)
  writeFn : Option (Word → Word → Word → Word → W → Word × W)
  openFn : Option (Word → W → W)
  closeFn : Option (Word → W → W)
  finddirFn : Option (Word → List Byte → W → Word × W)
  createFn : Option (Word → List Byte → Word → W → Word × W)
  mkdirFn : Option (Word → List Byte → Word → W → Word × W)
  unlinkFn : Option (Word → List Byte → W → Word × W)

/-- An invocation of a callback. `read` and `write` carry the count returned. -/
inductive Callback where
  | finddir (node : Word) (name : List Byte)
  | openNode (node : Word)
  | closeNode (node : Word)
  | read (node offset size buffer count : Word)
  | write (node offset size buffer count : Word)
  | create (node : Word) (name : List Byte) (flags : Word)
  | mkdir (node : Word) (name : List Byte) (mode : Word)
  | unlink (node : Word) (name : List Byte)
  deriving DecidableEq

/-- `file_descriptor_t`. -/
structure FileDescriptor where
  node : Word
  offset : Word
  flags : Word
  inUse : Bool

abbrev FdTable := Fin MAX_OPEN_FILES → FileDescriptor

/-- `vfs_root`, `fd_table` and the rest of the machine. -/
structure Vfs (W : Type) where
  root : Word
  fdTable : FdTable
  world : W

section Functions
variable {W : Type} (nodeAt : W → Word → FsNode W)

def vfsInit (s : Vfs W) : Vfs W := { s with fdTable := fun _ => ⟨0#32, 0#32, 0#32, false⟩ }

/-- The descriptor of slot `i`. -/
def fdOf (i : Fin MAX_OPEN_FILES) : Word := BitVec.ofNat 32 i

/-- The first slot that is not in use, or `none` for -1. -/
def allocFd (table : FdTable) : Option (Fin MAX_OPEN_FILES × FdTable) :=
  match (List.finRange MAX_OPEN_FILES).find? fun i => !(table i).inUse with
  | some i => some (i, Function.update table i { table i with inUse := true })
  | none => none

/-! ## Path resolution -/

/-- Moves up to `n` characters before the next `/` into the component. -/
def takeComponent : Nat → List Byte → List Byte × List Byte
  | 0, path => ([], path)
  | _ + 1, [] => ([], [])
  | n + 1, c :: path =>
      if c = slash then ([], c :: path)
      else
        let r := takeComponent n path
        (c :: r.1, r.2)

/-- `if (*path == '/') path++`. -/
def skipSlash : List Byte → List Byte
  | [] => []
  | c :: path => if c = slash then path else c :: path

/-- The loop `while (*path)` for at most `n` rounds; every round takes a
character, so the length of the path is enough. -/
def resolveFrom : Nat → List Byte → Word → W → Logged Callback (Word × W)
  | 0, _, current, w => pure (current, w)
  | _ + 1, [], current, w => pure (current, w)
  | n + 1, c :: path, current, w =>
      let r := takeComponent (MAX_FILENAME - 1) (c :: path)
      match (nodeAt w current).finddirFn with
      | none => pure (0#32, w)
      | some finddir => do
          Logged.touch (.finddir current r.1)
          let found := finddir current r.1 w
          if found.1 = 0#32 then pure (0#32, found.2)
          else resolveFrom n (skipSlash r.2) found.1 found.2

theorem takeComponent_length (n : Nat) (path : List Byte) :
    (takeComponent n path).2.length ≤ path.length := by
  induction n generalizing path with
  | zero => exact Nat.le_refl _
  | succ n ih =>
    cases path with
    | nil => exact Nat.le_refl _
    | cons c path =>
      unfold takeComponent
      split
      · exact Nat.le_refl _
      · exact Nat.le_succ_of_le (ih path)

theorem skipSlash_length (path : List Byte) : (skipSlash path).length ≤ path.length := by
  cases path with
  | nil => exact Nat.le_refl _
  | cons c path =>
    rw [skipSlash]
    split
    · exact Nat.le_succ _
    · exact Nat.le_refl _

/-- Every round of the loop consumes a character. -/
theorem skipSlash_takeComponent_length (n : Nat) (c : Byte) (path : List Byte) :
    (skipSlash (takeComponent (n + 1) (c :: path)).2).length ≤ path.length := by
  rw [takeComponent]
  split
  · next h =>
    rw [skipSlash, if_pos h]
  · exact Nat.le_trans (skipSlash_length _) (takeComponent_length n path)

/-- The bound on the rounds is never what ends the loop. -/
theorem resolveFrom_rounds {n m : Nat} {path : List Byte} {current : Word} {w : W}
    (hn : path.length ≤ n) (hm : path.length ≤ m) :
    resolveFrom nodeAt n path current w = resolveFrom nodeAt m path current w := by
  induction n generalizing m path current w with
  | zero =>
    obtain rfl := List.eq_nil_of_length_eq_zero (Nat.le_zero.mp hn)
    cases m with
    | zero => rfl
    | succ m => rfl
  | succ n ih =>
    cases path with
    | nil =>
      cases m with
      | zero => rfl
      | succ m => rfl
    | cons c path =>
      cases m with
      | zero => exact absurd hm (Nat.not_succ_le_zero _)
      | succ m =>
        have hlen : (skipSlash (takeComponent (MAX_FILENAME - 1) (c :: path)).2).length ≤
            path.length := skipSlash_takeComponent_length (MAX_FILENAME - 2) c path
        unfold resolveFrom
        cases (nodeAt w current).finddirFn with
        | none => rfl
        | some finddir =>
          dsimp only
          rw [ih (Nat.le_trans hlen (Nat.le_of_succ_le_succ hn))
            (Nat.le_trans hlen (Nat.le_of_succ_le_succ hm))]

def vfsResolvePath (root : Word) (path : List Byte) (w : W) : Logged Callback (Word × W) :=
  if root = 0#32 then pure (0#32, w)
  else if path = [slash] then pure (root, w)
  else resolveFrom nodeAt (skipSlash path).length (skipSlash path) root w

/-! ## Open files -/

/-- `if (node->f) node->f(node);`. -/
def notify (f : Option (Word → W → W)) (c : Word → Callback) (node : Word) (w : W) :
    Logged Callback W :=
  match f with
  | none => pure w
  | some f => do
      Logged.touch (c node)
      pure (f node w)

def vfsOpen (path : List Byte) (flags : Word) (s : Vfs W) : Logged Callback (Word × Vfs W) := do
  let r ← vfsResolvePath nodeAt s.root path s.world
  if r.1 = 0#32 then pure (-1#32, { s with world := r.2 })
  else
    match allocFd s.fdTable with
    | none => pure (-1#32, { s with world := r.2 })
    | some (i, table) => do
        let table := Function.update table i { table i with node := r.1, offset := 0#32, flags := flags }
        let w ← notify (nodeAt r.2 r.1).openFn .openNode r.1 r.2
        pure (fdOf i, { s with fdTable := table, world := w })

/-- The slot of `fd`, unless `fd < 0 || fd >= MAX_OPEN_FILES || !fd_table[fd].in_use`. -/
def openSlot (table : FdTable) (fd : Word) : Option (Fin MAX_OPEN_FILES) :=
  if fd.slt 0#32 then none
  else if h : fd.toNat < MAX_OPEN_FILES then
    if (table ⟨fd.toNat, h⟩).inUse then some ⟨fd.toNat, h⟩ else none
  else none

def vfsClose (fd : Word) (s : Vfs W) : Logged Callback (Vfs W) :=
  match openSlot s.fdTable fd with
  | none => pure s
  | some i => do
      let node := (s.fdTable i).node
      let w ←
        if node = 0#32 then pure s.world
        else notify (nodeAt s.world node).closeFn .closeNode node s.world
      pure { s with
        fdTable := Function.update s.fdTable i { s.fdTable i with inUse := false, node := 0#32 }
        world := w }

/-- The common text of `vfs_read` and `vfs_write`. -/
def transfer (func : FsNode W → Option (Word → Word → Word → Word → W → Word × W))
    (c : Word → Word → Word → Word → Word → Callback) (fd buffer size : Word) (s : Vfs W) :
    Logged Callback (Word × Vfs W) :=
  match openSlot s.fdTable fd with
  | none => pure (-1#32, s)
  | some i =>
      let node := (s.fdTable i).node
      if node = 0#32 then pure (-1#32, s)
      else
        match func (nodeAt s.world node) with
        | none => pure (-1#32, s)
        | some f => do
            let offset := (s.fdTable i).offset
            let r := f node offset size buffer s.world
            Logged.touch (c node offset size buffer r.1)
            pure (r.1, { s with
              fdTable := Function.update s.fdTable i { s.fdTable i with offset := offset + r.1 }
              world := r.2 })

def vfsRead : Word → Word → Word → Vfs W → Logged Callback (Word × Vfs W) :=
  transfer nodeAt FsNode.readFn .read

def vfsWrite : Word → Word → Word → Vfs W → Logged Callback (Word × Vfs W) :=
  transfer nodeAt FsNode.writeFn .write

/-- The `switch` of `vfs_seek`. -/
def seekTarget (current length offset whence : Word) : Option Word :=
  if whence = SEEK_SET then some offset
  else if whence = SEEK_CUR then some (current + offset)
  else if whence = SEEK_END then some (length + offset)
  else none

def vfsSeek (fd offset whence : Word) (s : Vfs W) : Word × Vfs W :=
  match openSlot s.fdTable fd with
  | none => (-1#32, s)
  | some i =>
      let node := (s.fdTable i).node
      if node = 0#32 then (-1#32, s)
      else
        let length := (nodeAt s.world node).length
        match seekTarget (s.fdTable i).offset length offset whence with
        | none => (-1#32, s)
        | some target =>
            let newOffset := if length < target then length else target
            (newOffset, { s with
              fdTable := Function.update s.fdTable i { s.fdTable i with offset := newOffset } })

/-! ## Operations on the parent directory -/

/-- The loop that finds the last `/`: `i` is the index of the character looked
at, `last` the one found so far. -/
def lastSlashFrom : List Byte → Nat → Option Nat → Option Nat
  | [], _, last => last
  | c :: path, i, last => lastSlashFrom path (i + 1) (if c = slash then some i else last)

def lastSlash (path : List Byte) : Option Nat := lastSlashFrom path 0 none

/-- The text copied into `dir_path`. -/
def dirPath (path : List Byte) (k : Nat) : List Byte :=
  path.take (if MAX_PATH ≤ k then MAX_PATH - 1 else k)

/-- `if (!dir || !dir->f) return -1; return dir->f(dir, name);`. -/
def callIn (func : FsNode W → Option (Word → List Byte → W → Word × W))
    (c : Word → List Byte → Callback) (dir : Word) (name : List Byte) (w : W) :
    Logged Callback (Word × W) :=
  if dir = 0#32 then pure (-1#32, w)
  else
    match func (nodeAt w dir) with
    | none => pure (-1#32, w)
    | some f => do
        Logged.touch (c dir name)
        pure (f dir name w)

/-- The common text of `vfs_create`, `vfs_mkdir` and `vfs_unlink`. -/
def inParent (func : FsNode W → Option (Word → List Byte → W → Word × W))
    (c : Word → List Byte → Callback) (path : List Byte) (s : Vfs W) :
    Logged Callback (Word × Vfs W) :=
  match lastSlash path with
  | none => do
      let r ← callIn nodeAt func c s.root path s.world
      pure (r.1, { s with world := r.2 })
  | some k => do
      let dir ← vfsResolvePath nodeAt s.root (dirPath path k) s.world
      let r ← callIn nodeAt func c dir.1 (path.drop (k + 1)) dir.2
      pure (r.1, { s with world := r.2 })

def vfsCreate (path : List Byte) (flags : Word) : Vfs W → Logged Callback (Word × Vfs W) :=
  inParent nodeAt (fun n => n.createFn.map fun f node name => f node name flags)
    (fun node name => .create node name flags) path

def vfsMkdir (path : List Byte) (mode : Word) : Vfs W → Logged Callback (Word × Vfs W) :=
  inParent nodeAt (fun n => n.mkdirFn.map fun f node name => f node name mode)
    (fun node name => .mkdir node name mode) path

def vfsUnlink (path : List Byte) : Vfs W → Logged Callback (Word × Vfs W) :=
  inParent nodeAt FsNode.unlinkFn .unlink path

end Functions

/-! ## Calls -/

inductive VfsCall where
  | openPath (path : List Byte) (flags : Word)
  | close (fd : Word)
  | read (fd buffer size : Word)
  | write (fd buffer size : Word)
  | seek (fd offset whence : Word)

/-- What a call returns (nothing for `vfs_close`) and the state after it. -/
def VfsCall.exec {W : Type} (nodeAt : W → Word → FsNode W) :
    VfsCall → Vfs W → Logged Callback (Option Word × Vfs W)
  | .openPath path flags, s => do
      let r ← vfsOpen nodeAt path flags s
      pure (some r.1, r.2)
  | .close fd, s => do
      let s ← vfsClose nodeAt fd s
      pure (none, s)
  | .read fd buffer size, s => do
      let r ← vfsRead nodeAt fd buffer size s
      pure (some r.1, r.2)
  | .write fd buffer size, s => do
      let r ← vfsWrite nodeAt fd buffer size s
      pure (some r.1, r.2)
  | .seek fd offset whence, s => do
      let r := vfsSeek nodeAt fd offset whence s
      pure (some r.1, r.2)

end Zenix.VfsComplete
