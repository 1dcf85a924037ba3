import Zenix.Fs.FdTable

/-!
# The table refines the map

What the functions of vfs_complete.c do to `fd_table`, and that this is a step
of the abstract component.

Results:
1. `vfsOpen_cases`, `vfsClose_cases`, `transfer_cases`, `vfsSeek_cases`: the
   outcomes of the functions.
2. `exec_step`: every call is a step on the map that the table stands for.
3. `fd_table_refines`: this and the position law in every reachable state.
-/

namespace Zenix.VfsComplete
open ByteMemory

/-- The open file in a slot. -/
def FileDescriptor.file (d : FileDescriptor) : Option OpenFile :=
  if d.inUse then some ⟨d.node, d.offset, d.flags⟩ else none

/-- The map that a table stands for. -/
def files (table : FdTable) : FdMap := fun i => (table i).file

/-- A slot in use has a node. -/
def TableOk (table : FdTable) : Prop := ∀ i, (table i).inUse = true → (table i).node ≠ 0#32

theorem files_eq_none {table : FdTable} {i : Fin MAX_OPEN_FILES} :
    files table i = none ↔ (table i).inUse = false := by
  rw [files, FileDescriptor.file]
  cases (table i).inUse with
  | true => exact iff_of_false (fun h => by cases h) (fun h => by cases h)
  | false => exact iff_of_true rfl rfl

theorem files_ne_none {table : FdTable} {i : Fin MAX_OPEN_FILES} :
    files table i ≠ none ↔ (table i).inUse = true := by
  rw [Ne, files_eq_none, Bool.not_eq_false]

theorem files_of_inUse {table : FdTable} {i : Fin MAX_OPEN_FILES} (h : (table i).inUse = true) :
    files table i = some ⟨(table i).node, (table i).offset, (table i).flags⟩ := by
  rw [files, FileDescriptor.file, if_pos h]

theorem files_update (table : FdTable) (i : Fin MAX_OPEN_FILES) (d : FileDescriptor) :
    files (Function.update table i d) = Function.update (files table) i d.file := by
  funext j
  rcases Decidable.em (j = i) with rfl | hne
  · rw [files, Function.update_self, Function.update_self]
  · rw [files, Function.update_of_ne hne, Function.update_of_ne hne, files]

theorem TableOk.update {table : FdTable} (h : TableOk table) (i : Fin MAX_OPEN_FILES)
    {d : FileDescriptor} (hd : d.inUse = true → d.node ≠ 0#32) :
    TableOk (Function.update table i d) := by
  intro j hj
  rcases Decidable.em (j = i) with rfl | hne
  · rw [Function.update_self] at hj ⊢
    exact hd hj
  · rw [Function.update_of_ne hne] at hj ⊢
    exact h j hj

/-! ## The slot of a descriptor -/

theorem openSlot_cases (table : FdTable) (fd : Word) :
    (openSlot table fd = none ∧ Outside (files table) fd) ∨
      ∃ i, openSlot table fd = some i ∧ fd = fdOf i ∧ (table i).inUse = true := by
  unfold openSlot
  split
  · next hneg =>
    -- a negative descriptor is none of the slots
    refine Or.inl ⟨rfl, fun i hi => ?_⟩
    have hlt : i.val < 256 := i.isLt
    have hnat := fdOf_toNat i
    rw [hi, BitVec.slt, decide_eq_true_eq, BitVec.toInt_eq_toNat_of_lt (by rw [hnat]; omega)] at hneg
    exact absurd hneg (Int.not_lt.mpr (Int.natCast_nonneg _))
  · split
    · next hlt =>
      have hfd : fd = fdOf ⟨fd.toNat, hlt⟩ := by
        rw [fdOf, BitVec.ofNat_toNat, BitVec.setWidth_eq]
      split
      · next huse => exact Or.inr ⟨_, rfl, hfd, huse⟩
      · next huse =>
        refine Or.inl ⟨rfl, fun i hi => files_eq_none.mpr ?_⟩
        obtain rfl : ⟨fd.toNat, hlt⟩ = i := fdOf_inj.mp (hfd.symm.trans hi)
        exact Bool.not_eq_true _ ▸ huse
    · next hge =>
      refine Or.inl ⟨rfl, fun i hi => absurd ?_ hge⟩
      rw [hi, fdOf_toNat]
      exact i.isLt

/-- A descriptor outside the map has no slot. -/
theorem openSlot_outside {table : FdTable} {fd : Word} (hout : Outside (files table) fd) :
    openSlot table fd = none := by
  rcases openSlot_cases table fd with ⟨hslot, _⟩ | ⟨i, _, hfd, huse⟩
  · exact hslot
  · exact absurd (hout i hfd) (files_ne_none.mpr huse)

theorem allocFd_cases (table : FdTable) :
    (allocFd table = none ∧ ∀ i, (table i).inUse = true) ∨
      ∃ i, allocFd table = some (i, Function.update table i { table i with inUse := true }) ∧
        (table i).inUse = false ∧ ∀ j, j < i → (table j).inUse = true := by
  unfold allocFd
  cases hfind : (List.finRange MAX_OPEN_FILES).find? fun i => !(table i).inUse with
  | none =>
    refine Or.inl ⟨rfl, fun i => ?_⟩
    have h := List.find?_eq_none.mp hfind i (List.mem_finRange i)
    rwa [Bool.not_eq_true, Bool.not_eq_false'] at h
  | some i =>
    obtain ⟨hfree, k, hk, hki, hlow⟩ := List.find?_eq_some_iff_getElem.mp hfind
    refine Or.inr ⟨i, rfl, by rwa [Bool.not_eq_true'] at hfree, fun j hj => ?_⟩
    have hkval : k = i.val := by
      rw [← hki, List.getElem_finRange]
      rfl
    have h := hlow j.val (by omega)
    rw [List.getElem_finRange, Bool.not_not] at h
    exact h

section Functions
variable {W : Type} (nodeAt : W → Word → FsNode W) {s : Vfs W}

/-! ## Outcomes of the functions -/

theorem vfsOpen_cases (path : List Byte) (flags : Word) (s : Vfs W) :
    (((vfsResolvePath nodeAt s.root path s.world).value.1 = 0#32 ∨
          ∀ i, (s.fdTable i).inUse = true) ∧
        (vfsOpen nodeAt path flags s).value.1 = -1#32 ∧
        (vfsOpen nodeAt path flags s).value.2.fdTable = s.fdTable) ∨
      ∃ i, (vfsResolvePath nodeAt s.root path s.world).value.1 ≠ 0#32 ∧
        (s.fdTable i).inUse = false ∧ (∀ j, j < i → (s.fdTable j).inUse = true) ∧
        (vfsOpen nodeAt path flags s).value.1 = fdOf i ∧
        (vfsOpen nodeAt path flags s).value.2.fdTable = Function.update s.fdTable i
          ⟨(vfsResolvePath nodeAt s.root path s.world).value.1, 0#32, flags, true⟩ := by
  unfold vfsOpen
  rw [Logged.value_bind]
  generalize (vfsResolvePath nodeAt s.root path s.world).value = r
  split
  · next hnull => exact Or.inl ⟨Or.inl hnull, rfl, rfl⟩
  · next hnode =>
    rcases allocFd_cases s.fdTable with ⟨halloc, hall⟩ | ⟨i, halloc, hfree, hlow⟩
    · rw [halloc]
      exact Or.inl ⟨Or.inr hall, rfl, rfl⟩
    · rw [halloc]
      refine Or.inr ⟨i, hnode, hfree, hlow, rfl, ?_⟩
      dsimp only [Logged.value_bind, Logged.value_pure]
      rw [Function.update_self, Function.update_idem]

theorem notify_log (f : Option (Word → W → W)) (c : Word → Callback) (node : Word) (w : W) :
    ∀ k ∈ (notify f c node w).log, k = c node := by
  intro k hk
  cases f with
  | none => exact absurd hk List.not_mem_nil
  | some f => exact List.mem_singleton.mp hk

theorem vfsClose_cases (fd : Word) (s : Vfs W) :
    (Outside (files s.fdTable) fd ∧ vfsClose nodeAt fd s = pure s) ∨
      ∃ i, fd = fdOf i ∧ (s.fdTable i).inUse = true ∧
        (∀ c ∈ (vfsClose nodeAt fd s).log, c = .closeNode (s.fdTable i).node) ∧
        (vfsClose nodeAt fd s).value.fdTable =
          Function.update s.fdTable i { s.fdTable i with inUse := false, node := 0#32 } := by
  unfold vfsClose
  rcases openSlot_cases s.fdTable fd with ⟨hslot, hout⟩ | ⟨i, hslot, hfd, huse⟩
  · rw [hslot]
    exact Or.inl ⟨hout, rfl⟩
  · rw [hslot]
    refine Or.inr ⟨i, hfd, huse, ?_⟩
    dsimp only
    split
    · exact ⟨fun c hc => absurd hc List.not_mem_nil, rfl⟩
    · refine ⟨fun c hc => ?_, rfl⟩
      rw [Logged.log_bind, Logged.log_pure, List.append_nil] at hc
      exact notify_log _ _ _ _ c hc

/-- A read or a write: no such file, no such callback, or one invocation at the
position of the file. -/
theorem transfer_cases (hok : TableOk s.fdTable)
    (func : FsNode W → Option (Word → Word → Word → Word → W → Word × W))
    (c : Word → Word → Word → Word → Word → Callback) (fd buffer size : Word) :
    (Outside (files s.fdTable) fd ∧ transfer nodeAt func c fd buffer size s = pure (-1#32, s)) ∨
      ∃ i, fd = fdOf i ∧ (s.fdTable i).inUse = true ∧
        (transfer nodeAt func c fd buffer size s = pure (-1#32, s) ∨
          ∃ count w, transfer nodeAt func c fd buffer size s =
            ⟨(count, { s with
                fdTable := Function.update s.fdTable i
                  { s.fdTable i with offset := (s.fdTable i).offset + count }
                world := w }),
              [c (s.fdTable i).node (s.fdTable i).offset size buffer count]⟩) := by
  unfold transfer
  rcases openSlot_cases s.fdTable fd with ⟨hslot, hout⟩ | ⟨i, hslot, hfd, huse⟩
  · rw [hslot]
    exact Or.inl ⟨hout, rfl⟩
  · rw [hslot]
    refine Or.inr ⟨i, hfd, huse, ?_⟩
    dsimp only
    rw [if_neg (hok i huse)]
    cases func (nodeAt s.world (s.fdTable i).node) with
    | none => exact Or.inl rfl
    | some f => exact Or.inr ⟨_, _, rfl⟩

theorem vfsSeek_cases (hok : TableOk s.fdTable) (fd offset whence : Word) :
    (Outside (files s.fdTable) fd ∧ vfsSeek nodeAt fd offset whence s = (-1#32, s)) ∨
      ∃ i, fd = fdOf i ∧ (s.fdTable i).inUse = true ∧
        ((seekTarget (s.fdTable i).offset (nodeAt s.world (s.fdTable i).node).length offset whence =
              none ∧ vfsSeek nodeAt fd offset whence s = (-1#32, s)) ∨
          ∃ target, seekTarget (s.fdTable i).offset (nodeAt s.world (s.fdTable i).node).length offset
              whence = some target ∧
            vfsSeek nodeAt fd offset whence s =
              (clamp (nodeAt s.world (s.fdTable i).node).length target, { s with
                fdTable := Function.update s.fdTable i { s.fdTable i with
                  offset := clamp (nodeAt s.world (s.fdTable i).node).length target } })) := by
  unfold vfsSeek
  rcases openSlot_cases s.fdTable fd with ⟨hslot, hout⟩ | ⟨i, hslot, hfd, huse⟩
  · rw [hslot]
    exact Or.inl ⟨hout, rfl⟩
  · rw [hslot]
    refine Or.inr ⟨i, hfd, huse, ?_⟩
    dsimp only
    rw [if_neg (hok i huse)]
    cases seekTarget (s.fdTable i).offset (nodeAt s.world (s.fdTable i).node).length offset whence with
    | none => exact Or.inl ⟨rfl, rfl⟩
    | some target => exact Or.inr ⟨target, rfl, rfl⟩

/-! ## Calls as abstract steps -/

/-- The file system as the next call finds it. -/
def fdEnv (nodeAt : W → Word → FsNode W) (s : Vfs W) : FdEnv where
  resolve := fun path => (vfsResolvePath nodeAt s.root path s.world).value.1
  length := fun node => (nodeAt s.world node).length

/-- The call and what came of it. -/
def eventOf (nodeAt : W → Word → FsNode W) (call : VfsCall) (s : Vfs W) : VfsEvent :=
  ⟨call, (call.exec nodeAt s).value.1, (call.exec nodeAt s).log⟩

/-- Outside the map a call fails and changes nothing. -/
theorem exec_outside (call : VfsCall) {fd : Word} (hfd : call.fd = some fd)
    (hout : Outside (files s.fdTable) fd) : call.exec nodeAt s = pure (call.failure, s) := by
  have hslot := openSlot_outside hout
  cases call with
  | openPath path flags => cases hfd
  | close fd' =>
    cases hfd
    rw [VfsCall.exec, vfsClose, hslot]
    rfl
  | read fd' buffer size =>
    cases hfd
    rw [VfsCall.exec, vfsRead, transfer, hslot]
    rfl
  | write fd' buffer size =>
    cases hfd
    rw [VfsCall.exec, vfsWrite, transfer, hslot]
    rfl
  | seek fd' offset whence =>
    cases hfd
    rw [VfsCall.exec, vfsSeek, hslot]
    rfl

/-- Every call is a step of the abstract component. -/
theorem exec_step (hok : TableOk s.fdTable) (call : VfsCall) :
    FdStep (fdEnv nodeAt s) (files s.fdTable) (eventOf nodeAt call s)
      (files (call.exec nodeAt s).value.2.fdTable) := by
  cases call with
  | openPath path flags =>
    rw [eventOf, VfsCall.exec]
    dsimp only [Logged.value_bind, Logged.value_pure]
    rcases vfsOpen_cases nodeAt path flags s with
      ⟨hfail, hres, htable⟩ | ⟨i, hnode, hfree, hlow, hres, htable⟩
    · rw [hres, htable]
      exact .openFail (hfail.imp_right fun hall i => files_ne_none.mpr (hall i))
    · rw [hres, htable, files_update]
      exact .opened hnode (files_eq_none.mpr hfree) fun j hj => files_ne_none.mpr (hlow j hj)
  | close fd =>
    rcases vfsClose_cases nodeAt fd s with ⟨hout, _⟩ | ⟨i, rfl, huse, hlog, htable⟩
    · rw [eventOf, exec_outside nodeAt (.close fd) rfl hout]
      exact .outside rfl hout
    · rw [eventOf, VfsCall.exec]
      dsimp only [Logged.value_bind, Logged.value_pure]
      rw [htable, files_update, Logged.log_bind, Logged.log_pure, List.append_nil]
      exact .closed (files_of_inUse huse) hlog
  | read fd buffer size =>
    rcases transfer_cases nodeAt hok FsNode.readFn .read fd buffer size with
      ⟨hout, _⟩ | ⟨i, rfl, huse, h | ⟨count, w, h⟩⟩
    · rw [eventOf, exec_outside nodeAt (.read fd buffer size) rfl hout]
      exact .outside rfl hout
    · rw [eventOf, VfsCall.exec, vfsRead, h]
      exact .readNone (files_of_inUse huse)
    · rw [eventOf, VfsCall.exec, vfsRead, h]
      dsimp only [Logged.value_bind, Logged.value_pure, Logged.log_bind, Logged.log_pure]
      rw [files_update, FileDescriptor.file, if_pos huse, List.append_nil]
      exact .read (files_of_inUse huse)
  | write fd buffer size =>
    rcases transfer_cases nodeAt hok FsNode.writeFn .write fd buffer size with
      ⟨hout, _⟩ | ⟨i, rfl, huse, h | ⟨count, w, h⟩⟩
    · rw [eventOf, exec_outside nodeAt (.write fd buffer size) rfl hout]
      exact .outside rfl hout
    · rw [eventOf, VfsCall.exec, vfsWrite, h]
      exact .writeNone (files_of_inUse huse)
    · rw [eventOf, VfsCall.exec, vfsWrite, h]
      dsimp only [Logged.value_bind, Logged.value_pure, Logged.log_bind, Logged.log_pure]
      rw [files_update, FileDescriptor.file, if_pos huse, List.append_nil]
      exact .write (files_of_inUse huse)
  | seek fd offset whence =>
    rcases vfsSeek_cases nodeAt hok fd offset whence with
      ⟨hout, _⟩ | ⟨i, rfl, huse, ⟨htarget, h⟩ | ⟨target, htarget, h⟩⟩
    · rw [eventOf, exec_outside nodeAt (.seek fd offset whence) rfl hout]
      exact .outside rfl hout
    · rw [eventOf, VfsCall.exec, h]
      exact .seekNone (files_of_inUse huse) htarget
    · rw [eventOf, VfsCall.exec, h]
      dsimp only [Logged.value_bind, Logged.value_pure, Logged.log_pure]
      rw [files_update, FileDescriptor.file, if_pos huse]
      exact .seek (files_of_inUse huse) htarget

/-- The slot that a call may change: the one it is given or, for `vfs_open`, the
one it returns. -/
def VfsEvent.slot (e : VfsEvent) : Option Word :=
  match e.call with
  | .openPath _ _ => e.result
  | call => call.fd

theorem transfer_table (hok : TableOk s.fdTable)
    (func : FsNode W → Option (Word → Word → Word → Word → W → Word × W))
    (c : Word → Word → Word → Word → Word → Callback) (fd buffer size : Word) :
    TableOk (transfer nodeAt func c fd buffer size s).value.2.fdTable ∧
      ∀ i, some fd ≠ some (fdOf i) →
        (transfer nodeAt func c fd buffer size s).value.2.fdTable i = s.fdTable i := by
  rcases transfer_cases nodeAt hok func c fd buffer size with
    ⟨_, h⟩ | ⟨i, rfl, huse, h | ⟨count, w, h⟩⟩
  · rw [h]
    exact ⟨hok, fun _ _ => rfl⟩
  · rw [h]
    exact ⟨hok, fun _ _ => rfl⟩
  · rw [h]
    refine ⟨hok.update i fun _ => hok i huse, fun j hj => Function.update_of_ne ?_ _ _⟩
    rintro rfl
    exact hj rfl

/-- No call touches another slot, and slots in use keep having a node. -/
theorem exec_table (hok : TableOk s.fdTable) (call : VfsCall) :
    TableOk (call.exec nodeAt s).value.2.fdTable ∧
      ∀ i, (eventOf nodeAt call s).slot ≠ some (fdOf i) →
        (call.exec nodeAt s).value.2.fdTable i = s.fdTable i := by
  cases call with
  | openPath path flags =>
    rw [eventOf, VfsCall.exec]
    dsimp only [Logged.value_bind, Logged.value_pure, VfsEvent.slot]
    rcases vfsOpen_cases nodeAt path flags s with
      ⟨_, _, htable⟩ | ⟨i, hnode, _, _, hres, htable⟩
    · rw [htable]
      exact ⟨hok, fun _ _ => rfl⟩
    · rw [htable, hres]
      refine ⟨hok.update i fun _ => hnode, fun j hj => Function.update_of_ne ?_ _ _⟩
      rintro rfl
      exact hj rfl
  | close fd =>
    rcases vfsClose_cases nodeAt fd s with ⟨_, h⟩ | ⟨i, rfl, _, _, htable⟩
    · rw [VfsCall.exec, h]
      exact ⟨hok, fun _ _ => rfl⟩
    · rw [VfsCall.exec]
      dsimp only [Logged.value_bind, Logged.value_pure]
      rw [htable]
      refine ⟨hok.update i (fun h => by cases h), fun j hj => Function.update_of_ne ?_ _ _⟩
      rintro rfl
      exact hj rfl
  | read fd buffer size => exact transfer_table nodeAt hok _ _ fd buffer size
  | write fd buffer size => exact transfer_table nodeAt hok _ _ fd buffer size
  | seek fd offset whence =>
    rcases vfsSeek_cases nodeAt hok fd offset whence with
      ⟨_, h⟩ | ⟨i, rfl, huse, ⟨_, h⟩ | ⟨target, _, h⟩⟩
    · rw [VfsCall.exec, h]
      exact ⟨hok, fun _ _ => rfl⟩
    · rw [VfsCall.exec, h]
      exact ⟨hok, fun _ _ => rfl⟩
    · rw [VfsCall.exec, h]
      refine ⟨hok.update i fun _ => hok i huse, fun j hj => Function.update_of_ne ?_ _ _⟩
      rintro rfl
      exact hj rfl

end Functions

/-! ## Runs -/

/-- The file system and the calls made so far, the newest first. -/
structure VfsRun (W : Type) where
  vfs : Vfs W
  history : List VfsEvent

/-- `vfs_init` on any root and machine, and then any calls with any arguments. -/
def vfsSystem {W : Type} (nodeAt : W → Word → FsNode W) :
    TransitionSystem (VfsRun W) VfsCall where
  init := fun s => ∃ v, s = ⟨vfsInit v, []⟩
  step := fun s call t =>
    t = ⟨(call.exec nodeAt s.vfs).value.2, eventOf nodeAt call s.vfs :: s.history⟩

variable {W : Type} (nodeAt : W → Word → FsNode W) {s : VfsRun W}

theorem reachable_position (hs : (vfsSystem nodeAt).Reachable s) :
    TableOk s.vfs.fdTable ∧ PositionLaw (files s.vfs.fdTable) s.history := by
  refine hs.invariant
    (P := fun s => TableOk s.vfs.fdTable ∧ PositionLaw (files s.vfs.fdTable) s.history) ?_ ?_
  · rintro s ⟨v, rfl⟩
    exact ⟨fun i hi => (by cases hi), fun i file hi => (by cases hi)⟩
  · rintro s call t _ ⟨hok, hpos⟩ rfl
    exact ⟨(exec_table nodeAt hok call).1, (exec_step nodeAt hok call).positionLaw hpos⟩

theorem vfsOpen_failure_iff (path : List Byte) (flags : Word) (s : Vfs W) :
    (vfsOpen nodeAt path flags s).value.1 = -1#32 ∧
        (vfsOpen nodeAt path flags s).value.2.fdTable = s.fdTable ↔
      (fdEnv nodeAt s).resolve path = 0#32 ∨ ∀ i, files s.fdTable i ≠ none := by
  simp only [files_ne_none, fdEnv]
  rcases vfsOpen_cases nodeAt path flags s with
    ⟨hfail, hres, htable⟩ | ⟨i, hnode, hfree, _, hres, _⟩
  · exact iff_of_true ⟨hres, htable⟩ hfail
  · rw [hres]
    refine iff_of_false (fun h => fdOf_ne_failure i h.1) ?_
    rintro (h | h)
    · exact hnode h
    · rw [h i] at hfree
      cases hfree

end Zenix.VfsComplete
