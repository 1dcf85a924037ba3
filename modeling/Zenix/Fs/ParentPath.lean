import Zenix.Fs.VfsComplete

/-!
# The directory that a path names

`vfs_create`, `vfs_mkdir` and `vfs_unlink` cut the path at its last `/`, but the
directory part goes through a buffer of 256 bytes, and what does not fit is cut
off before it is resolved.

Results:
1. `inParent_splits`: the directory and the name that the code works with.
2. `parent_law_iff`: the operation acts in the directory that the path names, or
   not at all, exactly when cutting the directory text off does not matter.
3. `unlink_in_other_directory`: with a directory text of 257 bytes it does.
-/

namespace Zenix.VfsComplete
open ByteMemory

/-- The path is the text `dir`, a last `/` and the text `name`; without a `/` it
is all name. -/
def Splits (path dir name : List Byte) : Prop :=
  (slash ∉ path ∧ dir = [] ∧ name = path) ∨ (path = dir ++ slash :: name ∧ slash ∉ name)

/-- The three operations with their second argument. -/
inductive ParentOp where
  | create (flags : Word)
  | mkdir (mode : Word)
  | unlink

section Functions
variable {W : Type} (nodeAt : W → Word → FsNode W)

def ParentOp.exec (op : ParentOp) (path : List Byte) (s : Vfs W) :
    Logged Callback (Word × Vfs W) :=
  match op with
  | .create flags => vfsCreate nodeAt path flags s
  | .mkdir mode => vfsMkdir nodeAt path mode s
  | .unlink => vfsUnlink nodeAt path s

/-- The callback of a node that the operation is for. -/
def ParentOp.func (op : ParentOp) (n : FsNode W) :
    Option (Word → List Byte → W → Word × W) :=
  match op with
  | .create flags => n.createFn.map fun f node name => f node name flags
  | .mkdir mode => n.mkdirFn.map fun f node name => f node name mode
  | .unlink => n.unlinkFn

def ParentOp.callback (op : ParentOp) (node : Word) (name : List Byte) : Callback :=
  match op with
  | .create flags => .create node name flags
  | .mkdir mode => .mkdir node name mode
  | .unlink => .unlink node name

/-- The callback changes a directory. -/
def Callback.IsUpdate : Callback → Prop
  | .create _ _ _ => True
  | .mkdir _ _ _ => True
  | .unlink _ _ => True
  | _ => False

/-- The node that a directory text resolves to and the machine after that. -/
def directory (s : Vfs W) (dir : List Byte) : Word × W :=
  (vfsResolvePath nodeAt s.root dir s.world).value

/-- The directory does not exist or has no callback for the operation. -/
def ParentOp.Absent (op : ParentOp) (d : Word × W) : Prop :=
  d.1 = 0#32 ∨ op.func (nodeAt d.2 d.1) = none

/-- The callback is invoked on the directory that the path names, with the name
that the path ends in; without such a directory or callback nothing is called
and -1 is returned. -/
def ParentLaw (op : ParentOp) (path : List Byte) (s : Vfs W) : Prop :=
  ∀ dir name, Splits path dir name →
    (∀ c ∈ (op.exec nodeAt path s).log, c.IsUpdate →
      c = op.callback (directory nodeAt s dir).1 name) ∧
    (op.Absent nodeAt (directory nodeAt s dir) →
      (op.exec nodeAt path s).value.1 = -1#32 ∧
        ∀ c ∈ (op.exec nodeAt path s).log, ¬ c.IsUpdate)

/-- The directory text fits into the buffer; or what fits of it names no
directory with such a callback; or it names the same directory, which has it. -/
def TruncationHarmless (op : ParentOp) (path : List Byte) (s : Vfs W) : Prop :=
  ∀ dir name, Splits path dir name →
    dir.length < MAX_PATH ∨
      op.Absent nodeAt (directory nodeAt s (dir.take (MAX_PATH - 1))) ∨
      ((directory nodeAt s (dir.take (MAX_PATH - 1))).1 = (directory nodeAt s dir).1 ∧
        ¬ op.Absent nodeAt (directory nodeAt s dir))

end Functions

/-! ## The last slash -/

theorem exists_splits (path : List Byte) : ∃ dir name, Splits path dir name := by
  induction path with
  | nil => exact ⟨[], [], Or.inl ⟨List.not_mem_nil, rfl, rfl⟩⟩
  | cons c path ih =>
    obtain ⟨dir, name, ⟨hno, _, _⟩ | ⟨hpath, hname⟩⟩ := ih
    · rcases Decidable.em (c = slash) with rfl | hc
      · exact ⟨[], path, Or.inr ⟨rfl, hno⟩⟩
      · refine ⟨[], c :: path, Or.inl ⟨?_, rfl, rfl⟩⟩
        rw [List.mem_cons, not_or]
        exact ⟨Ne.symm hc, hno⟩
    · exact ⟨c :: dir, name, Or.inr ⟨by rw [hpath, List.cons_append], hname⟩⟩

theorem lastSlashFrom_of_notMem {path : List Byte} {i : Nat} {last : Option Nat}
    (h : slash ∉ path) : lastSlashFrom path i last = last := by
  induction path generalizing i with
  | nil => rfl
  | cons c path ih =>
    rw [List.mem_cons, not_or] at h
    rw [lastSlashFrom, if_neg (Ne.symm h.1), ih h.2]

theorem lastSlashFrom_append {dir name : List Byte} {i : Nat} {last : Option Nat}
    (h : slash ∉ name) :
    lastSlashFrom (dir ++ slash :: name) i last = some (i + dir.length) := by
  induction dir generalizing i last with
  | nil =>
    rw [List.nil_append, lastSlashFrom, if_pos rfl, lastSlashFrom_of_notMem h]
    rfl
  | cons c dir ih =>
    rw [List.cons_append, lastSlashFrom, ih, List.length_cons]
    congr 1
    omega

theorem dirPath_append (dir rest : List Byte) :
    dirPath (dir ++ rest) dir.length =
      if MAX_PATH ≤ dir.length then dir.take (MAX_PATH - 1) else dir := by
  unfold dirPath
  split
  · next h => exact List.take_append_of_le_length (Nat.le_trans (Nat.sub_le _ _) h)
  · exact List.take_left' rfl

section Functions
variable {W : Type} (nodeAt : W → Word → FsNode W) {s : Vfs W}

/-! ## What the operations call -/

theorem resolveFrom_log (n : Nat) (path : List Byte) (current : Word) (w : W) :
    ∀ c ∈ (resolveFrom nodeAt n path current w).log, ¬ c.IsUpdate := by
  induction n generalizing path current w with
  | zero => exact fun c h => absurd h List.not_mem_nil
  | succ n ih =>
    cases path with
    | nil => exact fun c h => absurd h List.not_mem_nil
    | cons ch path =>
      unfold resolveFrom
      cases (nodeAt w current).finddirFn with
      | none => exact fun c h => absurd h List.not_mem_nil
      | some finddir =>
        intro c hc
        dsimp only at hc
        rcases List.mem_cons.mp hc with rfl | hc
        · exact id
        · split at hc
          · exact absurd hc List.not_mem_nil
          · exact ih _ _ _ c hc

theorem vfsResolvePath_log (root : Word) (path : List Byte) (w : W) :
    ∀ c ∈ (vfsResolvePath nodeAt root path w).log, ¬ c.IsUpdate := by
  unfold vfsResolvePath
  split
  · exact fun c h => absurd h List.not_mem_nil
  · split
    · exact fun c h => absurd h List.not_mem_nil
    · exact resolveFrom_log nodeAt _ _ _ _

/-- The empty text is the root. -/
theorem directory_nil (s : Vfs W) : directory nodeAt s [] = (s.root, s.world) := by
  unfold directory vfsResolvePath
  split
  · next h => rw [h]; rfl
  · rfl

theorem ParentOp.exec_eq (op : ParentOp) (path : List Byte) (s : Vfs W) :
    op.exec nodeAt path s = inParent nodeAt op.func op.callback path s := by
  cases op with
  | create flags => rfl
  | mkdir mode => rfl
  | unlink => rfl

theorem ParentOp.callback_isUpdate (op : ParentOp) (node : Word) (name : List Byte) :
    (op.callback node name).IsUpdate := by
  cases op with
  | create flags => trivial
  | mkdir mode => trivial
  | unlink => trivial

theorem ParentOp.callback_node {op : ParentOp} {node node' : Word} {name name' : List Byte}
    (h : op.callback node name = op.callback node' name') : node = node' := by
  cases op with
  | create flags => cases h; rfl
  | mkdir mode => cases h; rfl
  | unlink => cases h; rfl

theorem callIn_cases (op : ParentOp) (d : Word × W) (name : List Byte) :
    (op.Absent nodeAt d ∧
        callIn nodeAt op.func op.callback d.1 name d.2 = pure (-1#32, d.2)) ∨
      (¬ op.Absent nodeAt d ∧
        (callIn nodeAt op.func op.callback d.1 name d.2).log = [op.callback d.1 name]) := by
  unfold callIn ParentOp.Absent
  split
  · next h => exact Or.inl ⟨Or.inl h, rfl⟩
  · next h =>
    cases hf : op.func (nodeAt d.2 d.1) with
    | none => exact Or.inl ⟨Or.inr rfl, rfl⟩
    | some f =>
      refine Or.inr ⟨?_, rfl⟩
      rintro (h' | h')
      · exact h h'
      · cases h'

/-- The directory text that the code resolves. -/
def resolvedText (dir : List Byte) : List Byte :=
  if MAX_PATH ≤ dir.length then dir.take (MAX_PATH - 1) else dir

/-- The code works in the directory of the text that fits, with the name that the
path ends in. -/
theorem inParent_splits {path dir name : List Byte} (h : Splits path dir name) (op : ParentOp)
    (s : Vfs W) :
    ∃ pre : List Callback, (∀ c ∈ pre, ¬ c.IsUpdate) ∧
      (op.exec nodeAt path s).log = pre ++
        (callIn nodeAt op.func op.callback (directory nodeAt s (resolvedText dir)).1 name
          (directory nodeAt s (resolvedText dir)).2).log ∧
      (op.exec nodeAt path s).value.1 =
        (callIn nodeAt op.func op.callback (directory nodeAt s (resolvedText dir)).1 name
          (directory nodeAt s (resolvedText dir)).2).value.1 := by
  rw [ParentOp.exec_eq nodeAt]
  unfold inParent lastSlash
  rcases h with ⟨hno, rfl, rfl⟩ | ⟨rfl, hname⟩
  · have htext : resolvedText [] = [] := rfl
    rw [lastSlashFrom_of_notMem hno, htext, directory_nil nodeAt]
    refine ⟨[], fun c hc => absurd hc List.not_mem_nil, ?_, rfl⟩
    rw [Logged.log_bind, Logged.log_pure, List.append_nil]
    rfl
  · have hdrop : (dir ++ slash :: name).drop (dir.length + 1) = name := by
      rw [← List.drop_drop, List.drop_left]
      rfl
    rw [lastSlashFrom_append hname, Nat.zero_add]
    dsimp only
    rw [dirPath_append, hdrop]
    refine ⟨(vfsResolvePath nodeAt s.root (resolvedText dir) s.world).log,
      vfsResolvePath_log nodeAt _ _ _, ?_, rfl⟩
    rw [Logged.log_bind, Logged.log_bind, Logged.log_pure, List.append_nil]
    rfl

/-- What an operation does, in terms of the directory of the text that fits. -/
theorem exec_cases {path dir name : List Byte} (h : Splits path dir name) (op : ParentOp)
    (s : Vfs W) :
    (op.Absent nodeAt (directory nodeAt s (resolvedText dir)) ∧
        (op.exec nodeAt path s).value.1 = -1#32 ∧
        ∀ c ∈ (op.exec nodeAt path s).log, ¬ c.IsUpdate) ∨
      (¬ op.Absent nodeAt (directory nodeAt s (resolvedText dir)) ∧
        ∀ c, c.IsUpdate → (c ∈ (op.exec nodeAt path s).log ↔
          c = op.callback (directory nodeAt s (resolvedText dir)).1 name)) := by
  obtain ⟨pre, hpre, hlog, hvalue⟩ := inParent_splits nodeAt h op s
  rcases callIn_cases nodeAt op (directory nodeAt s (resolvedText dir)) name with
    ⟨habsent, hcall⟩ | ⟨hpresent, hcall⟩
  · rw [hcall] at hlog hvalue
    refine Or.inl ⟨habsent, hvalue, ?_⟩
    rw [hlog, Logged.log_pure, List.append_nil]
    exact hpre
  · refine Or.inr ⟨hpresent, fun c hc => ?_⟩
    rw [hlog, hcall, List.mem_append, List.mem_singleton]
    exact or_iff_right fun hin => hpre c hin hc

/-- The law for one way to split the path. -/
theorem split_law_iff {path dir name : List Byte} (h : Splits path dir name) (op : ParentOp)
    (s : Vfs W) :
    ((∀ c ∈ (op.exec nodeAt path s).log, c.IsUpdate →
          c = op.callback (directory nodeAt s dir).1 name) ∧
        (op.Absent nodeAt (directory nodeAt s dir) →
          (op.exec nodeAt path s).value.1 = -1#32 ∧
            ∀ c ∈ (op.exec nodeAt path s).log, ¬ c.IsUpdate)) ↔
      op.Absent nodeAt (directory nodeAt s (resolvedText dir)) ∨
        ((directory nodeAt s (resolvedText dir)).1 = (directory nodeAt s dir).1 ∧
          ¬ op.Absent nodeAt (directory nodeAt s dir)) := by
  rcases exec_cases nodeAt h op s with
    ⟨habsent, hvalue, hnone⟩ | ⟨hpresent, hlog⟩
  · exact iff_of_true ⟨fun c hc hup => absurd hup (hnone c hc), fun _ => ⟨hvalue, hnone⟩⟩
      (Or.inl habsent)
  · have hup := op.callback_isUpdate (directory nodeAt s (resolvedText dir)).1 name
    have hin := (hlog _ hup).mpr rfl
    rw [or_iff_right hpresent]
    constructor
    · rintro ⟨hsame, habsent⟩
      exact ⟨ParentOp.callback_node (hsame _ hin hup), fun h => (habsent h).2 _ hin hup⟩
    · rintro ⟨hnode, hthere⟩
      refine ⟨fun c hc hcup => ?_, fun h => absurd h hthere⟩
      rw [(hlog c hcup).mp hc, hnode]

end Functions

/-- On every file system and for every path, the operation follows the path if
and only if cutting its directory text off at 255 bytes does no harm. -/
theorem parent_law_iff {W : Type} (nodeAt : W → Word → FsNode W) (op : ParentOp)
    (path : List Byte) (s : Vfs W) :
    ParentLaw nodeAt op path s ↔ TruncationHarmless nodeAt op path s := by
  refine forall_congr' fun dir => forall_congr' fun name => forall_congr' fun h => ?_
  rw [split_law_iff nodeAt h]
  unfold resolvedText
  rcases Nat.lt_or_ge dir.length MAX_PATH with hlt | hge
  · rw [if_neg (Nat.not_le.mpr hlt)]
    refine iff_of_true ?_ (Or.inl hlt)
    rcases Classical.em (op.Absent nodeAt (directory nodeAt s dir)) with h | h
    · exact Or.inl h
    · exact Or.inr ⟨rfl, h⟩
  · rw [if_pos hge]
    exact (or_iff_right (Nat.not_lt.mpr hge)).symm

/-! ## A path that is too long -/

/-- A tree of four directories: 1 is the root, 2 is its entry `x..x` (127 times),
3 the same in 2, and 4 the entry `b` of 3. -/
def deepTree (_ : Unit) (node : Word) : FsNode Unit where
  length := 0#32
  readFn := none
  writeFn := none
  openFn := none
  closeFn := none
  finddirFn := some fun dir name w =>
    (if name = List.replicate 127 0x78#8 ∧ (dir = 1#32 ∨ dir = 2#32) then dir + 1#32
      else if name = [0x62#8] ∧ dir = 3#32 then 4#32 else 0#32, w)
  createFn := none
  mkdirFn := none
  unlinkFn := if node = 0#32 then none else some fun _ _ w => (0#32, w)

/-- `x..x/x..x/b`. -/
def deepDir : List Byte :=
  List.replicate 127 0x78#8 ++ slash :: List.replicate 127 0x78#8 ++ [slash, 0x62#8]

def deepVfs : Vfs Unit := ⟨1#32, fun _ => ⟨0#32, 0#32, 0#32, false⟩, ()⟩

/-- `vfs_unlink("x..x/x..x/b/f")` deletes `f` in `x..x/x..x`. -/
theorem unlink_in_other_directory :
    ¬ ParentLaw deepTree .unlink (deepDir ++ slash :: [0x66#8]) deepVfs := by
  intro h
  have hlaw := (h deepDir [0x66#8] (Or.inr ⟨rfl, by decide⟩)).1
    (.unlink 3#32 [0x66#8]) (by decide +kernel) trivial
  have hnode : (directory deepTree deepVfs deepDir).1 = 4#32 := by decide +kernel
  rw [hnode] at hlaw
  cases hlaw

end Zenix.VfsComplete
