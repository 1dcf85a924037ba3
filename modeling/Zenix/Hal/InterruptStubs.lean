import Zenix.Hal.Interrupts
import Zenix.Lib.X86Code

/-!
# Interrupt stubs (kernel/hal/isr_stubs.asm, kernel/hal/irq_stubs.asm)

An interrupt enters one of 48 stubs, which push an error code where the
processor has pushed none and the vector, and go on in one of two common stubs.
Those save the registers and call the C handler; only the one for hardware
interrupts pushes a pointer to what it saved.

Results:
1. `entered_noErrCode`, `entered_errCode`: the stack when a common stub is
   reached.
2. `Entered.irq`, `Entered.isr`: the record when the handler is called.
3. `interrupt_frames`: it is that of the interrupted code, up to the words for
   `esp` and `ds`, and selects the right handler.
4. `interrupt_frames_differ`: those two words, and the missing pointer.
-/

namespace Zenix
open ByteMemory X86

/-! ## What the processor does -/

/-- The stack that the task state segment names for ring 0. -/
structure Tss where
  esp0 : Word
  ss0 : BitVec 16

def pad (s : BitVec 16) : Word := s.setWidth 32

/-- The stack that interrupted user code was on, which goes onto the new one. -/
def userWords (c : Cpu) : List Word :=
  if c.seg .cs &&& 3#16 = 0#16 then [] else [pad (c.seg .ss), c.reg .esp]

/-- Entry through a 32-bit interrupt gate with selector 0x08. `c` has `eip` and
EFLAGS as the processor saves them; `err` is the error code, if it pushes one. -/
def interruptEntry (tss : Tss) (err : Option Word) (c : Cpu) : Cpu :=
  let onStack :=
    if c.seg .cs &&& 3#16 = 0#16 then c else (c.setReg .esp tss.esp0).setSeg .ss tss.ss0
  let saved := onStack.pushAll
    (userWords c ++ [c.eflags, pad (c.seg .cs), c.eip] ++ err.toList)
  (saved.setFlags (c.eflags &&& ~~~0x34300#32)).setSeg .cs 0x08#16

/-! ## The code -/

inductive StubLabel where
  | isrCommonStub
  | irqCommonStub

inductive StubExtern where
  | isrHandler
  | irqHandler
deriving DecidableEq

abbrev StubOp := Op StubLabel StubExtern

def saveState : List StubOp :=
  [ .pusha,
    .movFromSeg .eax .ds,
    .plain (.push .eax),
    .movImm16 .eax 0x10#16,
    .movToSeg .ds .eax,
    .movToSeg .es .eax,
    .movToSeg .fs .eax,
    .movToSeg .gs .eax ]

def restoreState : List StubOp :=
  [ .plain (.pop .eax),
    .movToSeg .ds .eax,
    .movToSeg .es .eax,
    .movToSeg .fs .eax,
    .movToSeg .gs .eax,
    .popa,
    .addImm .esp 8#32,
    .sti,
    .iret ]

/-- The two common stubs; `ret` is the address behind the call of the handler. -/
def stubProgram (ret : Word) : StubLabel → List StubOp
  | .isrCommonStub => saveState ++ .call .isrHandler ret :: restoreState
  | .irqCommonStub =>
      (saveState ++ [.plain (.push .esp)]) ++
        .call .irqHandler ret :: .addImm .esp 4#32 :: restoreState

/-- `ISR_NOERRCODE n`, up to the jump. -/
def isrNoErrCode (n : Word) : List StubOp := [.cli, .pushImm 0#32, .pushImm n]

/-- `ISR_ERRCODE n`, up to the jump. -/
def isrErrCode (n : Word) : List StubOp := [.cli, .pushImm n]

/-- The vectors whose stub is an `ISR_ERRCODE`. -/
def errCodeStubs : List (Fin 32) := [8, 10, 11, 12, 13, 14]

def isrStub (n : Fin 32) : List StubOp :=
  if n ∈ errCodeStubs then isrErrCode (BitVec.ofNat 32 n) else isrNoErrCode (BitVec.ofNat 32 n)

/-- `IRQ n, 32 + n`, up to the jump. -/
def irqStub (n : Fin 16) : List StubOp := [.cli, .pushImm 0#32, .pushImm (irqVector n)]

/-- Exception `n`, from the interrupted code to the call of the handler. -/
def runIsr (ret : Word) (tss : Tss) (n : Fin 32) (err : Option Word) (c : Cpu) :
    Option (StubExtern × Cpu) :=
  runToCall (stubProgram ret) 32 (isrStub n ++ [.jmp .isrCommonStub]) (interruptEntry tss err c)

/-- Hardware interrupt `n`, from the interrupted code to the call of the handler. -/
def runIrq (ret : Word) (tss : Tss) (n : Fin 16) (c : Cpu) : Option (StubExtern × Cpu) :=
  runToCall (stubProgram ret) 32 (irqStub n ++ [.jmp .irqCommonStub]) (interruptEntry tss none c)

/-! ## Up to the common stub -/

/-- A common stub is reached: the vector, the error code and what the processor
has pushed are on the stack, and no other register has changed. -/
structure Entered (c d : Cpu) (vector err : Word) : Prop where
  stack : StackIs d.mem (d.reg .esp)
    ([vector, err, c.eip, pad (c.seg .cs), c.eflags] ++ (userWords c).reverse)
  reg : ∀ r, r ≠ .esp → d.reg r = c.reg r
  ds : d.seg .ds = c.seg .ds

theorem userWords_length (c : Cpu) : (userWords c).length ≤ 2 := by
  unfold userWords
  split
  · exact Nat.zero_le _
  · exact Nat.le_refl _

/-- What is on the stack after the processor has entered the gate. -/
theorem interruptEntry_spec (tss : Tss) (err : Option Word) (c : Cpu) :
    StackIs (interruptEntry tss err c).mem ((interruptEntry tss err c).reg .esp)
        (err.toList ++ [c.eip, pad (c.seg .cs), c.eflags] ++ (userWords c).reverse) ∧
      (∀ r, r ≠ .esp → (interruptEntry tss err c).reg r = c.reg r) ∧
      (interruptEntry tss err c).seg .ds = c.seg .ds := by
  have hlen := userWords_length c
  have herr : err.toList.length ≤ 1 := by
    cases err with
    | none => exact Nat.zero_le _
    | some e => exact Nat.le_refl _
  have hrev : err.toList.reverse = err.toList := by
    cases err with
    | none => rfl
    | some e => rfl
  have hlist : (userWords c ++ [c.eflags, pad (c.seg .cs), c.eip] ++ err.toList).reverse ++ [] =
      err.toList ++ [c.eip, pad (c.seg .cs), c.eflags] ++ (userWords c).reverse := by
    rw [List.append_nil, List.reverse_append, List.reverse_append, hrev, List.append_assoc]
    rfl
  unfold interruptEntry
  dsimp only
  refine ⟨?_, fun r hr => ?_, ?_⟩
  · rw [← hlist]
    refine StackIs.pushAll (StackIs.nil _ _) ?_
    rw [List.length_append, List.length_append, List.length_nil, List.length_cons,
      List.length_cons, List.length_singleton]
    omega
  · rw [cpu_reg_setSeg, cpu_reg_setFlags, reg_pushAll _ _ hr]
    split
    · rfl
    · rw [cpu_reg_setSeg, cpu_reg_setReg, if_neg hr]
  · rw [cpu_seg_setSeg, if_neg (by decide), cpu_seg_setFlags, seg_pushAll]
    split
    · rfl
    · rw [cpu_seg_setSeg, if_neg (by decide), cpu_seg_setReg]

theorem entered_noErrCode (tss : Tss) (c : Cpu) (n : Word) :
    Entered c (runOps (isrNoErrCode n) (interruptEntry tss none c)) n 0#32 := by
  obtain ⟨hstack, hreg, hds⟩ := interruptEntry_spec tss none c
  have hlen := userWords_length c
  constructor
  case stack =>
    have hlist : ([c.eip, pad (c.seg .cs), c.eflags] ++ (userWords c).reverse).length + 2 < 2 ^ 30 := by
      rw [List.length_append, List.length_reverse, List.length_cons, List.length_cons,
        List.length_singleton]
      omega
    have hcli : StackIs ((interruptEntry tss none c).setFlags _).mem _
        ([c.eip, pad (c.seg .cs), c.eflags] ++ (userWords c).reverse) := hstack
    exact (hcli.push (by omega) 0#32).push (by rw [List.length_cons]; omega) n
  case reg =>
    intro r hr
    show ((((interruptEntry tss none c).setFlags _).push 0#32).push n).reg r = c.reg r
    rw [cpu_reg_push, if_neg hr, cpu_reg_push, if_neg hr, cpu_reg_setFlags, hreg r hr]
  case ds => exact hds

theorem entered_errCode (tss : Tss) (c : Cpu) (n e : Word) :
    Entered c (runOps (isrErrCode n) (interruptEntry tss (some e) c)) n e := by
  obtain ⟨hstack, hreg, hds⟩ := interruptEntry_spec tss (some e) c
  have hlen := userWords_length c
  constructor
  case stack =>
    have hlist : ([e] ++ [c.eip, pad (c.seg .cs), c.eflags] ++ (userWords c).reverse).length <
        2 ^ 30 := by
      rw [List.length_append, List.length_reverse, List.length_append, List.length_singleton,
        List.length_cons, List.length_cons, List.length_singleton]
      omega
    have hcli : StackIs ((interruptEntry tss (some e) c).setFlags _).mem _ _ := hstack
    exact hcli.push hlist n
  case reg =>
    intro r hr
    show (((interruptEntry tss (some e) c).setFlags _).push n).reg r = c.reg r
    rw [cpu_reg_push, if_neg hr, cpu_reg_setFlags, hreg r hr]
  case ds => exact hds

/-! ## The common stubs -/

/-- The record holds the values of the interrupted code, but for `esp` and `ds`. -/
structure FrameValues (c : Cpu) (vector err : Word) (r : Registers) : Prop where
  intNo : r.intNo = vector
  errCode : r.errCode = err
  edi : r.edi = c.reg .edi
  esi : r.esi = c.reg .esi
  ebp : r.ebp = c.reg .ebp
  ebx : r.ebx = c.reg .ebx
  edx : r.edx = c.reg .edx
  ecx : r.ecx = c.reg .ecx
  eax : r.eax = c.reg .eax
  eip : r.eip = c.eip
  cs : r.cs = pad (c.seg .cs)
  eflags : r.eflags = c.eflags

/-- A record at `p`. The word for `esp` is what it was when `pusha` ran, right
below the vector, and only the low half of the word for `ds` is the selector. -/
structure SavedFrame (c : Cpu) (vector err p : Word) (r : Registers) : Prop
    extends FrameValues c vector err r where
  esp : r.esp = p + 36#32
  ds : r.ds.extractLsb' 0 16 = c.seg .ds

/-- The words that `saveState` pushes. -/
def savedWords (d : Cpu) : List Word :=
  pushaWords d ++ [(d.reg .eax).extractLsb' 16 16 ++ d.seg .ds]

theorem saveState_spec (d : Cpu) :
    (runOps saveState d).mem = (d.pushAll (savedWords d)).mem ∧
      (runOps saveState d).reg .esp = (d.pushAll (savedWords d)).reg .esp := by
  have hsave : ∀ e : Cpu, (runOps (saveState.drop 1) e).mem =
        (e.push ((e.reg .eax).extractLsb' 16 16 ++ e.seg .ds)).mem ∧
      (runOps (saveState.drop 1) e).reg .esp =
        (e.push ((e.reg .eax).extractLsb' 16 16 ++ e.seg .ds)).reg .esp := by
    intro e
    exact ⟨rfl, rfl⟩
  obtain ⟨hmem, hesp⟩ := hsave (d.pushAll (pushaWords d))
  rw [reg_pushAll _ _ (by decide), seg_pushAll] at hmem hesp
  unfold savedWords
  rw [pushAll_append]
  exact ⟨hmem, hesp⟩

/-- The stack at the end of `saveState`. -/
def savedStack (c d : Cpu) (vector err : Word) : List Word :=
  (savedWords d).reverse ++
    ([vector, err, c.eip, pad (c.seg .cs), c.eflags] ++ (userWords c).reverse)

theorem savedStack_length (c d : Cpu) (vector err : Word) :
    (savedStack c d vector err).length ≤ 16 := by
  have hlen := userWords_length c
  rw [savedStack, List.length_append, List.length_append, List.length_reverse, List.length_reverse]
  show 9 + (5 + (userWords c).length) ≤ 16
  omega

section Saved
variable {c d : Cpu} {vector err : Word}

theorem Entered.stack_saved (h : Entered c d vector err) :
    StackIs (runOps saveState d).mem ((runOps saveState d).reg .esp) (savedStack c d vector err) ∧
      d.reg .esp = (runOps saveState d).reg .esp + 36#32 := by
  have hlen := savedStack_length c d vector err
  obtain ⟨hmem, hesp⟩ := saveState_spec d
  rw [hmem, hesp]
  constructor
  · refine h.stack.pushAll ?_
    rw [savedStack, List.length_append, List.length_reverse] at hlen
    omega
  · show d.reg .esp = d.reg .esp - 4#32 - 4#32 - 4#32 - 4#32 - 4#32 - 4#32 - 4#32 - 4#32 - 4#32 +
      36#32
    bv_omega

/-- A record with these words is one of the interrupted code. -/
theorem Entered.savedFrame (h : Entered c d vector err) {m : Mem} {p : Word}
    (hstack : StackIs m p (savedStack c d vector err)) (hp : d.reg .esp = p + 36#32) :
    SavedFrame c vector err p (readRegisters m p) := by
  constructor
  case toFrameValues =>
    constructor
    case intNo => exact hstack 9 _ rfl
    case errCode => exact hstack 10 _ rfl
    case edi => exact (hstack 1 _ rfl).trans (h.reg _ (by decide))
    case esi => exact (hstack 2 _ rfl).trans (h.reg _ (by decide))
    case ebp => exact (hstack 3 _ rfl).trans (h.reg _ (by decide))
    case ebx => exact (hstack 5 _ rfl).trans (h.reg _ (by decide))
    case edx => exact (hstack 6 _ rfl).trans (h.reg _ (by decide))
    case ecx => exact (hstack 7 _ rfl).trans (h.reg _ (by decide))
    case eax => exact (hstack 8 _ rfl).trans (h.reg _ (by decide))
    case eip => exact hstack 11 _ rfl
    case cs => exact hstack 12 _ rfl
    case eflags => exact hstack 13 _ rfl
  case esp => exact (hstack 4 _ rfl).trans hp
  case ds =>
    have hds := hstack 0 _ rfl
    rw [BitVec.mul_zero, BitVec.add_zero] at hds
    show (load32 m p).extractLsb' 0 16 = _
    rw [hds, ← h.ds]
    exact BitVec.extractLsb'_append_eq_right

/-- `irq_common_stub` calls `irq_handler` with the address of the record. -/
theorem Entered.irq (h : Entered c d vector err) (n : Nat) (ret : Word) :
    ∃ f, runToCall (stubProgram ret) (n + 10) (stubProgram ret .irqCommonStub) d =
        some (.irqHandler, f) ∧
      SavedFrame c vector err (f.arg 0) (readRegisters f.mem (f.arg 0)) := by
  have hlen := savedStack_length c d vector err
  obtain ⟨hstack, hesp⟩ := h.stack_saved
  have hrun : runToCall (stubProgram ret) (n + 10) (stubProgram ret .irqCommonStub) d =
      runToCall (stubProgram ret) (n + 1) (.call .irqHandler ret :: .addImm .esp 4#32 :: restoreState)
        (runOps (saveState ++ [.plain (.push .esp)]) d) :=
    runToCall_append (n + 1) (saveState ++ [.plain (.push .esp)]) rfl _ d
  have hsaved : runOps (saveState ++ [.plain (.push .esp)]) d =
      (runOps saveState d).push ((runOps saveState d).reg .esp) := List.foldl_append
  rw [hsaved, runToCall_call] at hrun
  generalize runOps saveState d = e at hstack hesp hrun
  have hcalled := (hstack.push (by omega) (e.reg .esp)).push (by rw [List.length_cons]; omega) ret
  have harg : ((e.push (e.reg .esp)).push ret).arg 0 = e.reg .esp := load_arg hcalled rfl
  have haddr : ((e.push (e.reg .esp)).push ret).reg .esp + 4#32 + 4#32 = e.reg .esp := by
    rw [cpu_reg_push, if_pos rfl, cpu_reg_push, if_pos rfl]
    bv_omega
  have hrecord := hcalled.tail.tail
  rw [haddr] at hrecord
  refine ⟨_, hrun, ?_⟩
  rw [harg]
  exact h.savedFrame hrecord hesp

/-- `isr_common_stub` calls `isr_handler` with the record right above the return
address. -/
theorem Entered.isr (h : Entered c d vector err) (n : Nat) (ret : Word) :
    ∃ f, runToCall (stubProgram ret) (n + 9) (stubProgram ret .isrCommonStub) d =
        some (.isrHandler, f) ∧
      SavedFrame c vector err (f.reg .esp + 4#32) (readRegisters f.mem (f.reg .esp + 4#32)) := by
  have hlen := savedStack_length c d vector err
  obtain ⟨hstack, hesp⟩ := h.stack_saved
  have hrun : runToCall (stubProgram ret) (n + 9) (stubProgram ret .isrCommonStub) d =
      runToCall (stubProgram ret) (n + 1) (.call .isrHandler ret :: restoreState)
        (runOps saveState d) := runToCall_append (n + 1) saveState rfl _ d
  rw [runToCall_call] at hrun
  generalize runOps saveState d = e at hstack hesp hrun
  have hcalled := hstack.push (by omega) ret
  refine ⟨_, hrun, h.savedFrame hcalled.tail ?_⟩
  rw [hesp, cpu_reg_push, if_pos rfl]
  bv_omega

end Saved

/-! ## From the interrupted code to the handler -/

theorem run_irq (ret : Word) (tss : Tss) (n : Fin 16) (c : Cpu) :
    ∃ d, runIrq ret tss n c = some (.irqHandler, d) ∧
      SavedFrame c (irqVector n) 0#32 (d.arg 0) (readRegisters d.mem (d.arg 0)) := by
  obtain ⟨d, hrun, hframe⟩ := (entered_noErrCode tss c (irqVector n)).irq 18 ret
  exact ⟨d, (runToCall_append 29 (irqStub n) rfl _ _).trans hrun, hframe⟩

/-- The stub of the vector is of the kind that the processor expects. -/
theorem isrStub_entered (tss : Tss) {n : Fin 32} {err : Option Word}
    (herr : err.isSome = true ↔ n ∈ errCodeStubs) (c : Cpu) :
    Entered c (runOps (isrStub n) (interruptEntry tss err c)) (BitVec.ofNat 32 n)
      (err.getD 0#32) := by
  unfold isrStub
  cases err with
  | none =>
    rw [if_neg (mt herr.mpr Bool.false_ne_true)]
    exact entered_noErrCode tss c _
  | some e =>
    rw [if_pos (herr.mp rfl)]
    exact entered_errCode tss c _ e

theorem run_isr (ret : Word) (tss : Tss) {n : Fin 32} {err : Option Word}
    (herr : err.isSome = true ↔ n ∈ errCodeStubs) (c : Cpu) :
    ∃ d, runIsr ret tss n err c = some (.isrHandler, d) ∧
      SavedFrame c (BitVec.ofNat 32 n) (err.getD 0#32) (d.reg .esp + 4#32)
        (readRegisters d.mem (d.reg .esp + 4#32)) := by
  have hentered := isrStub_entered tss herr c
  have hstraight : (isrStub n).all Op.straight = true := by
    unfold isrStub
    split <;> rfl
  have hlen : (isrStub n).length ≤ 3 := by
    unfold isrStub
    split
    · exact Nat.le_succ 2
    · exact Nat.le_refl 3
  obtain ⟨d, hrun, hframe⟩ := hentered.isr (22 - (isrStub n).length) ret
  refine ⟨d, ?_, hframe⟩
  have hjump : runToCall (stubProgram ret) (32 - (isrStub n).length + (isrStub n).length) _ _ = _ :=
    runToCall_append _ (isrStub n) hstraight [.jmp .isrCommonStub] (interruptEntry tss err c)
  rw [Nat.sub_add_cancel (by omega),
    show 32 - (isrStub n).length = 22 - (isrStub n).length + 9 + 1 by omega, runToCall_jmp] at hjump
  exact hjump.trans hrun

/-- From every state of the interrupted code, hardware interrupts reach
`irq_handler` with the address of their record, which selects the handler of
that line. Exceptions for which the processor pushes an error code exactly when
their stub leaves it to it reach `isr_handler` with the record on top of the
stack, which would select the handler of that vector. -/
theorem interrupt_frames {H : Type} (ret : Word) (tss : Tss) (c : Cpu)
    (irqHandlers : Fin 16 → Option H) (picGetIsr : BitVec 8 → Bool)
    (interruptHandlers : Fin 256 → Option H) :
    (∀ n : Fin 16, ∃ d, runIrq ret tss n c = some (.irqHandler, d) ∧
      SavedFrame c (irqVector n) 0#32 (d.arg 0) (readRegisters d.mem (d.arg 0)) ∧
      (irqHandler irqHandlers picGetIsr (readRegisters d.mem (d.arg 0)).intNo).handler =
        if Spurious picGetIsr n then none else irqHandlers n) ∧
    ∀ (n : Fin 32) (err : Option Word), (err.isSome = true ↔ n ∈ errCodeStubs) →
      ∃ d, runIsr ret tss n err c = some (.isrHandler, d) ∧
        SavedFrame c (BitVec.ofNat 32 n) (err.getD 0#32) (d.reg .esp + 4#32)
          (readRegisters d.mem (d.reg .esp + 4#32)) ∧
        ∀ h, interruptHandlers (n.castLE (by decide)) = some h →
          isrHandler interruptHandlers (readRegisters d.mem (d.reg .esp + 4#32)) =
            some (.handled h) := by
  refine ⟨fun n => ?_, fun n err herr => ?_⟩
  · obtain ⟨d, hrun, hframe⟩ := run_irq ret tss n c
    refine ⟨d, hrun, hframe, ?_⟩
    rw [hframe.intNo]
    exact irqHandler_vector irqHandlers picGetIsr n
  · obtain ⟨d, hrun, hframe⟩ := run_isr ret tss herr c
    exact ⟨d, hrun, hframe, fun h hh => isrHandler_vector hframe.intNo hh⟩

/-! ## Where the record differs -/

/-- The record holds all values of the interrupted code. -/
def FrameAgrees (c : Cpu) (vector err : Word) (r : Registers) : Prop :=
  FrameValues c vector err r ∧ r.esp = c.reg .esp ∧ r.ds = pad (c.seg .ds)

/-- `irq_handler` gets a pointer to such a record. -/
def IrqAgrees (ret : Word) (tss : Tss) (n : Fin 16) (c : Cpu) : Prop :=
  ∃ d, runIrq ret tss n c = some (.irqHandler, d) ∧
    FrameAgrees c (irqVector n) 0#32 (readRegisters d.mem (d.arg 0))

/-- `isr_handler` gets a pointer to such a record. -/
def IsrAgrees (ret : Word) (tss : Tss) (n : Fin 32) (err : Option Word) (c : Cpu) : Prop :=
  ∃ d, runIsr ret tss n err c = some (.isrHandler, d) ∧
    FrameAgrees c (BitVec.ofNat 32 n) (err.getD 0#32) (readRegisters d.mem (d.arg 0))

/-- Kernel code at 1 MB with its stack at 0x90000. -/
def kernelCode : Cpu where
  reg := fun r => match r with
    | .esp => 0x90000#32
    | _ => 0#32
  eip := 0x100000#32
  eflags := 0x202#32
  mem := fun _ => 0#8
  seg := fun s => match s with
    | .cs => 0x08#16
    | _ => 0x10#16

/-- The timer interrupt saves `esp` as 0x8FFEC, and the breakpoint exception calls
`isr_handler` with 0x10, the selector in `ds`, in place of a pointer. -/
theorem interrupt_frames_differ :
    ¬ IrqAgrees 0x101000#32 ⟨0x90000#32, 0x10#16⟩ 0 kernelCode ∧
      ¬ IsrAgrees 0x101000#32 ⟨0x90000#32, 0x10#16⟩ 3 none kernelCode := by
  constructor
  · rintro ⟨d, hrun, _, hesp, _⟩
    have hsaved : (runIrq 0x101000#32 ⟨0x90000#32, 0x10#16⟩ 0 kernelCode).map
        (fun r => (readRegisters r.2.mem (r.2.arg 0)).esp) = some 0x8FFEC#32 := by decide +kernel
    rw [hrun, Option.map_some, hesp] at hsaved
    exact absurd hsaved (by decide)
  · rintro ⟨d, hrun, hvalues, _⟩
    have hread : (runIsr 0x101000#32 ⟨0x90000#32, 0x10#16⟩ 3 none kernelCode).map
        (fun r => (readRegisters r.2.mem (r.2.arg 0)).intNo) = some 0#32 := by decide +kernel
    rw [hrun, Option.map_some, hvalues.intNo] at hread
    exact absurd hread (by decide)

/-- The timer interrupt and a page fault in that code. -/
theorem interrupt_frames_kernel :
    (∃ d, runIrq 0x101000#32 ⟨0x90000#32, 0x10#16⟩ 0 kernelCode = some (.irqHandler, d)) ∧
      ∃ d, runIsr 0x101000#32 ⟨0x90000#32, 0x10#16⟩ 14 (some 2#32) kernelCode =
        some (.isrHandler, d) := by
  obtain ⟨hirq, hisr⟩ := interrupt_frames (H := Unit) 0x101000#32 ⟨0x90000#32, 0x10#16⟩ kernelCode
    (fun _ => none) (fun _ => true) (fun _ => none)
  obtain ⟨d, hd, _⟩ := hirq 0
  obtain ⟨e, he, _⟩ := hisr 14 (some 2#32) (by decide)
  exact ⟨⟨d, hd⟩, e, he⟩

end Zenix
