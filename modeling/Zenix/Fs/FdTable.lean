import Mathlib.Tactic.Common
import Mathlib.Algebra.Ring.Nat
import Zenix.Fs.VfsComplete
import Zenix.Lib.Transition

/-!
# The descriptor table as a partial map

`FdStep` is the abstract component: a partial map from descriptors to a node, a
position and flags, and what one call may do to it. It knows of the file system
only what a path resolves to and how long a node is.

Results:
1. `FdStep.positionLaw`: the position of an open file is determined by the
   history of the calls.
2. `FdStep.transfer_offset`: that position is what a read or a write is given.
-/

namespace Zenix.VfsComplete
open ByteMemory

/-! ## The abstract component -/

structure OpenFile where
  node : Word
  offset : Word
  flags : Word

abbrev FdMap := Fin MAX_OPEN_FILES → Option OpenFile

/-- No open file has the descriptor `fd`. -/
def Outside (m : FdMap) (fd : Word) : Prop := ∀ i, fd = fdOf i → m i = none

/-- The file system as a call finds it. -/
structure FdEnv where
  resolve : List Byte → Word
  length : Word → Word

/-- A call, what it returned and the callbacks it invoked. -/
structure VfsEvent where
  call : VfsCall
  result : Option Word
  log : List Callback

/-- The descriptor that a call is given. -/
def VfsCall.fd : VfsCall → Option Word
  | .openPath _ _ => none
  | .close fd => some fd
  | .read fd _ _ => some fd
  | .write fd _ _ => some fd
  | .seek fd _ _ => some fd

/-- What a call returns when it fails. -/
def VfsCall.failure : VfsCall → Option Word
  | .close _ => none
  | _ => some (-1#32)

/-- The position that a seek moves to: never behind the end of the file. -/
def clamp (length target : Word) : Word := if length < target then length else target

/-- What one call may do to the map. -/
inductive FdStep (env : FdEnv) (m : FdMap) : VfsEvent → FdMap → Prop
  | openFail {path : List Byte} {flags : Word} {log : List Callback} :
      (env.resolve path = 0#32 ∨ ∀ i, m i ≠ none) →
      FdStep env m ⟨.openPath path flags, some (-1#32), log⟩ m
  | opened {path : List Byte} {flags : Word} {log : List Callback} {i : Fin MAX_OPEN_FILES} :
      env.resolve path ≠ 0#32 → m i = none → (∀ j, j < i → m j ≠ none) →
      FdStep env m ⟨.openPath path flags, some (fdOf i), log⟩
        (Function.update m i (some ⟨env.resolve path, 0#32, flags⟩))
  | outside {call : VfsCall} {fd : Word} : call.fd = some fd → Outside m fd →
      FdStep env m ⟨call, call.failure, []⟩ m
  | closed {i : Fin MAX_OPEN_FILES} {file : OpenFile} {log : List Callback} : m i = some file →
      (∀ c ∈ log, c = .closeNode file.node) →
      FdStep env m ⟨.close (fdOf i), none, log⟩ (Function.update m i none)
  | readNone {i : Fin MAX_OPEN_FILES} {file : OpenFile} {buffer size : Word} : m i = some file →
      FdStep env m ⟨.read (fdOf i) buffer size, some (-1#32), []⟩ m
  | read {i : Fin MAX_OPEN_FILES} {file : OpenFile} {buffer size count : Word} : m i = some file →
      FdStep env m
        ⟨.read (fdOf i) buffer size, some count, [.read file.node file.offset size buffer count]⟩
        (Function.update m i (some { file with offset := file.offset + count }))
  | writeNone {i : Fin MAX_OPEN_FILES} {file : OpenFile} {buffer size : Word} : m i = some file →
      FdStep env m ⟨.write (fdOf i) buffer size, some (-1#32), []⟩ m
  | write {i : Fin MAX_OPEN_FILES} {file : OpenFile} {buffer size count : Word} : m i = some file →
      FdStep env m
        ⟨.write (fdOf i) buffer size, some count, [.write file.node file.offset size buffer count]⟩
        (Function.update m i (some { file with offset := file.offset + count }))
  | seekNone {i : Fin MAX_OPEN_FILES} {file : OpenFile} {offset whence : Word} : m i = some file →
      seekTarget file.offset (env.length file.node) offset whence = none →
      FdStep env m ⟨.seek (fdOf i) offset whence, some (-1#32), []⟩ m
  | seek {i : Fin MAX_OPEN_FILES} {file : OpenFile} {offset whence target : Word} :
      m i = some file →
      seekTarget file.offset (env.length file.node) offset whence = some target →
      FdStep env m ⟨.seek (fdOf i) offset whence, some (clamp (env.length file.node) target), []⟩
        (Function.update m i (some { file with offset := clamp (env.length file.node) target }))

/-! ## The position of a file -/

/-- The bytes that the node said it has read or written. -/
def Callback.count : Callback → Word
  | .read _ _ _ _ n => n
  | .write _ _ _ _ n => n
  | _ => 0#32

def transferred : List Callback → Word
  | [] => 0#32
  | c :: log => c.count + transferred log

def ValidWhence (whence : Word) : Prop :=
  whence = SEEK_SET ∨ whence = SEEK_CUR ∨ whence = SEEK_END

instance (whence : Word) : Decidable (ValidWhence whence) := inferInstanceAs (Decidable (_ ∨ _))

/-- The position of `fd` after a history, the newest event first: the bytes
transferred since `fd` was opened or, if there is one since, since the last
successful seek on it plus what that seek returned. (On an open file a seek
succeeds exactly when its `whence` is valid.) -/
def position (fd : Word) : List VfsEvent → Word
  | [] => 0#32
  | e :: history =>
      match e.call with
      | .openPath _ _ => if e.result = some fd then 0#32 else position fd history
      | .close _ => position fd history
      | .read fd' _ _ =>
          if fd' = fd then position fd history + transferred e.log else position fd history
      | .write fd' _ _ =>
          if fd' = fd then position fd history + transferred e.log else position fd history
      | .seek fd' _ whence =>
          if fd' = fd ∧ ValidWhence whence then e.result.getD 0#32 else position fd history

/-- Every open file is where the history puts it. -/
def PositionLaw (m : FdMap) (history : List VfsEvent) : Prop :=
  ∀ i file, m i = some file → file.offset = position (fdOf i) history

theorem fdOf_toNat (i : Fin MAX_OPEN_FILES) : (fdOf i).toNat = i := by
  have hi : i.val < 256 := i.isLt
  exact toNat_ofNat_of_lt (by omega)

theorem fdOf_inj {i j : Fin MAX_OPEN_FILES} : fdOf i = fdOf j ↔ i = j := by
  rw [← BitVec.toNat_inj, fdOf_toNat, fdOf_toNat, Fin.val_inj]

theorem fdOf_ne_failure (i : Fin MAX_OPEN_FILES) : fdOf i ≠ -1#32 := by
  intro h
  have hi : i.val < 256 := i.isLt
  have hnat := congrArg BitVec.toNat h
  rw [fdOf_toNat, show (-1#32 : Word).toNat = 4294967295 from rfl] at hnat
  omega

theorem transferred_nil : transferred [] = 0#32 := rfl

theorem transferred_singleton (c : Callback) : transferred [c] = c.count := by
  rw [transferred, transferred, BitVec.add_zero]

theorem not_validWhence {current length offset whence : Word}
    (h : seekTarget current length offset whence = none) : ¬ ValidWhence whence := by
  unfold seekTarget at h
  split at h
  · cases h
  · split at h
    · cases h
    · split at h
      · cases h
      · rintro (h' | h' | h') <;> contradiction

theorem validWhence {current length offset whence target : Word}
    (h : seekTarget current length offset whence = some target) : ValidWhence whence := by
  unfold seekTarget at h
  split at h
  · next h' => exact Or.inl h'
  · split at h
    · next h' => exact Or.inr (Or.inl h')
    · split at h
      · next h' => exact Or.inr (Or.inr h')
      · cases h

/-- A step that changes one file. -/
theorem PositionLaw.update {m : FdMap} {history history' : List VfsEvent} {i : Fin MAX_OPEN_FILES}
    {file : Option OpenFile} (hm : PositionLaw m history)
    (hi : ∀ f, file = some f → f.offset = position (fdOf i) history')
    (hother : ∀ j, j ≠ i → position (fdOf j) history' = position (fdOf j) history) :
    PositionLaw (Function.update m i file) history' := by
  intro j f hj
  rcases Decidable.em (j = i) with rfl | hne
  · rw [Function.update_self] at hj
    exact hi f hj
  · rw [Function.update_of_ne hne] at hj
    rw [hother j hne]
    exact hm j f hj

section Transfers
variable {m : FdMap} {e : VfsEvent} {history : List VfsEvent} {i : Fin MAX_OPEN_FILES}
  (hm : PositionLaw m history) (he : ∀ fd, position fd (e :: history) =
    if fdOf i = fd then position fd history + transferred e.log else position fd history)
include hm he

/-- A call of `vfs_read` or `vfs_write` that transfers nothing. -/
theorem PositionLaw.transferNone (hlog : e.log = []) : PositionLaw m (e :: history) := by
  intro j f hj
  rw [hm j f hj, he, hlog, transferred_nil, BitVec.add_zero, ite_self]

/-- A call that transfers bytes moves the file that it is about. -/
theorem PositionLaw.transfer {file : OpenFile} {c : Callback} (hi : m i = some file)
    (hlog : e.log = [c]) :
    PositionLaw (Function.update m i (some { file with offset := file.offset + c.count }))
      (e :: history) := by
  refine hm.update (fun f hf => ?_) (fun j hne => ?_)
  · cases hf
    rw [he, if_pos rfl, hlog, transferred_singleton, hm i file hi]
  · rw [he, if_neg fun heq => hne (fdOf_inj.mp heq).symm]

end Transfers

/-- The positions follow the history. -/
theorem FdStep.positionLaw {env : FdEnv} {m m' : FdMap} {e : VfsEvent} {history : List VfsEvent}
    (h : FdStep env m e m') (hm : PositionLaw m history) : PositionLaw m' (e :: history) := by
  cases h with
  | openFail _ =>
    intro i file hi
    rw [position, if_neg (fun he => fdOf_ne_failure i (Option.some.inj he).symm)]
    exact hm i file hi
  | @opened _ _ _ i =>
    refine hm.update (fun f hf => ?_) (fun j hne => ?_)
    · cases hf
      exact (if_pos rfl).symm
    · exact if_neg fun he => hne (fdOf_inj.mp (Option.some.inj he).symm)
  | @outside call fd hfd hout =>
    intro i file hi
    have hne : fd ≠ fdOf i := by
      intro he
      rw [hout i he] at hi
      cases hi
    rw [hm i file hi]
    cases call with
    | openPath path flags => cases hfd
    | close fd' => rfl
    | read fd' buffer size =>
      cases hfd
      exact (if_neg hne).symm
    | write fd' buffer size =>
      cases hfd
      exact (if_neg hne).symm
    | seek fd' offset whence =>
      cases hfd
      exact (if_neg fun he => hne he.1).symm
  | closed _ _ => exact hm.update (fun f hf => by cases hf) (fun _ _ => rfl)
  | readNone _ => exact hm.transferNone (fun _ => rfl) rfl
  | @read i file buffer size count hi =>
    exact hm.transfer (c := .read file.node file.offset size buffer count) (fun _ => rfl) hi rfl
  | writeNone _ => exact hm.transferNone (fun _ => rfl) rfl
  | @write i file buffer size count hi =>
    exact hm.transfer (c := .write file.node file.offset size buffer count) (fun _ => rfl) hi rfl
  | seekNone _ htarget =>
    intro j f hj
    rw [hm j f hj, position]
    exact (if_neg fun he => not_validWhence htarget he.2).symm
  | @seek i file offset whence target hi htarget =>
    refine hm.update (fun f hf => ?_) (fun j hne => ?_)
    · cases hf
      exact (if_pos ⟨rfl, validWhence htarget⟩).symm
    · exact if_neg fun he => hne (fdOf_inj.mp he.1).symm

/-- A callback is given the position of the file. -/
theorem FdStep.transfer_offset {env : FdEnv} {m m' : FdMap} {e : VfsEvent}
    {history : List VfsEvent} {fd node offset size buffer count : Word} (h : FdStep env m e m')
    (hm : PositionLaw m history) (hfd : e.call.fd = some fd)
    (hlog : .read node offset size buffer count ∈ e.log ∨
      .write node offset size buffer count ∈ e.log) : offset = position fd history := by
  cases h with
  | openFail _ => cases hfd
  | opened _ _ _ => cases hfd
  | outside _ _ => rcases hlog with h | h <;> exact absurd h List.not_mem_nil
  | closed _ hclose => rcases hlog with h | h <;> cases hclose _ h
  | readNone _ => rcases hlog with h | h <;> exact absurd h List.not_mem_nil
  | @read i file _ _ _ hi =>
    cases hfd
    rcases hlog with h | h
    · cases List.mem_singleton.mp h
      exact hm i file hi
    · cases List.mem_singleton.mp h
  | writeNone _ => rcases hlog with h | h <;> exact absurd h List.not_mem_nil
  | @write i file _ _ _ hi =>
    cases hfd
    rcases hlog with h | h
    · cases List.mem_singleton.mp h
    · cases List.mem_singleton.mp h
      exact hm i file hi
  | seekNone _ _ => rcases hlog with h | h <;> exact absurd h List.not_mem_nil
  | seek _ _ => rcases hlog with h | h <;> exact absurd h List.not_mem_nil

end Zenix.VfsComplete
