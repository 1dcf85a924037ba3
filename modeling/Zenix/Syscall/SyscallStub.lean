import Zenix.Hal.InterruptStubs
import Zenix.Syscall.Syscall

/-!
# The entry of system calls (kernel/syscall/syscall_stub.asm)

`syscall_entry` saves the registers without a vector or an error code, so that its frame is
shorter than the record `registers_t` that the C handler reads it as.

Results:
1. `handlerEntry_called`: the stack when the handler is called.
2. `AfterSyscall.of_frame`: what the instructions behind the call make of the frame.
3. `syscall_frame_preserved`: from `int 0x80` to `iret`.
-/

namespace Zenix
open ByteMemory X86

/-! ## The code -/

inductive SyscallExtern where
  | syscallHandler
deriving DecidableEq

abbrev SyscallOp := Op Empty SyscallExtern

def syscallSave : List SyscallOp :=
  [ .cli,
    .pusha,
    .movFromSeg .eax .ds,
    .plain (.push .eax),
    .movImm16 .eax 0x10#16,
    .movToSeg .ds .eax,
    .movToSeg .es .eax,
    .movToSeg .fs .eax,
    .movToSeg .gs .eax ]

def syscallRestore : List SyscallOp :=
  [ .addImm .esp 4#32,
    .plain (.pop .eax),
    .movToSeg .ds .eax,
    .movToSeg .es .eax,
    .movToSeg .fs .eax,
    .movToSeg .gs .eax,
    .popa,
    .sti,
    .iret ]

/-- `syscall_entry`; `ret` is the address behind the call of the handler. -/
def syscallEntry (ret : Word) : List SyscallOp :=
  (syscallSave ++ [.plain (.push .esp)]) ++ .call .syscallHandler ret :: syscallRestore

/-- From `int 0x80` to the call of `syscall_handler`. -/
def runSyscall (ret : Word) (tss : Tss) (c : Cpu) : Option (SyscallExtern × Cpu) :=
  runToCall Empty.elim 16 (syscallEntry ret) (interruptEntry tss none c)

/-! ## Up to the call -/

/-- The frame of the interrupted code. `sp` is `esp` at the `pusha`. -/
def syscallFrame (c : Cpu) (sp : Word) : List Word :=
  [ (c.reg .eax).extractLsb' 16 16 ++ c.seg .ds,
    c.reg .edi, c.reg .esi, c.reg .ebp, sp, c.reg .ebx, c.reg .edx, c.reg .ecx, c.reg .eax,
    c.eip, pad (c.seg .cs), c.eflags ] ++ (userWords c).reverse

theorem syscallFrame_length (c : Cpu) (sp : Word) :
    (syscallFrame c sp).length = 12 + (userWords c).length := by
  rw [syscallFrame, List.length_append, List.length_reverse]
  rfl

theorem syscallSave_spec (d : Cpu) :
    (runOps syscallSave d).mem =
        ((d.setFlags (d.eflags &&& ~~~0x200#32)).pushAll (savedWords d)).mem ∧
      (runOps syscallSave d).reg .esp =
        ((d.setFlags (d.eflags &&& ~~~0x200#32)).pushAll (savedWords d)).reg .esp ∧
      (runOps syscallSave d).seg .cs = d.seg .cs ∧
      (runOps syscallSave d).seg .ss = d.seg .ss := by
  have hsave : ∀ e : Cpu, (runOps (syscallSave.drop 2) e).mem =
        (e.push ((e.reg .eax).extractLsb' 16 16 ++ e.seg .ds)).mem ∧
      (runOps (syscallSave.drop 2) e).reg .esp =
        (e.push ((e.reg .eax).extractLsb' 16 16 ++ e.seg .ds)).reg .esp ∧
      (runOps (syscallSave.drop 2) e).seg .cs = e.seg .cs ∧
      (runOps (syscallSave.drop 2) e).seg .ss = e.seg .ss := by
    intro e
    exact ⟨rfl, rfl, rfl, rfl⟩
  obtain ⟨hmem, hesp, hcs, hss⟩ := hsave
    ((d.setFlags (d.eflags &&& ~~~0x200#32)).pushAll (pushaWords d))
  rw [reg_pushAll _ _ (by decide), seg_pushAll] at hmem hesp
  rw [seg_pushAll] at hcs hss
  unfold savedWords
  rw [pushAll_append]
  exact ⟨hmem, hesp, hcs, hss⟩

/-- From kernel code the processor goes on on the same stack. -/
theorem interruptEntry_kernel (tss : Tss) {c : Cpu} (h : c.seg .cs &&& 3#16 = 0#16) :
    (interruptEntry tss none c).reg .esp = c.reg .esp - 12#32 ∧
      (interruptEntry tss none c).seg .ss = c.seg .ss := by
  unfold interruptEntry userWords
  simp only [if_pos h]
  refine ⟨?_, rfl⟩
  change c.reg .esp - 4#32 - 4#32 - 4#32 = _
  bv_omega

/-- The handler is called with the address of the frame. -/
structure SyscallCalled (tss : Tss) (c f : Cpu) : Prop where
  frame : StackIs f.mem (f.arg 0) (syscallFrame c ((interruptEntry tss none c).reg .esp))
  esp : f.reg .esp + 8#32 = f.arg 0
  entered : f.arg 0 + 36#32 = (interruptEntry tss none c).reg .esp
  cs : f.seg .cs = 0x08#16
  ss : f.seg .ss = (interruptEntry tss none c).seg .ss

/-- The state in which the handler starts. -/
def handlerEntry (ret : Word) (tss : Tss) (c : Cpu) : Cpu :=
  (runOps (syscallSave ++ [.plain (.push .esp)]) (interruptEntry tss none c)).push ret

theorem runSyscall_eq (ret : Word) (tss : Tss) (c : Cpu) :
    runSyscall ret tss c = some (.syscallHandler, handlerEntry ret tss c) := by
  have hrun : runToCall Empty.elim (6 + 10) (syscallEntry ret) (interruptEntry tss none c) =
      runToCall Empty.elim 6 (.call .syscallHandler ret :: syscallRestore)
        (runOps (syscallSave ++ [.plain (.push .esp)]) (interruptEntry tss none c)) :=
    runToCall_append 6 (syscallSave ++ [.plain (.push .esp)]) rfl _ _
  rw [runToCall_call] at hrun
  exact hrun

/-- The frame that the processor and the stub have saved. -/
theorem syscallSave_frame (tss : Tss) (c : Cpu) :
    StackIs (runOps syscallSave (interruptEntry tss none c)).mem
        ((runOps syscallSave (interruptEntry tss none c)).reg .esp)
        (syscallFrame c ((interruptEntry tss none c).reg .esp)) ∧
      (runOps syscallSave (interruptEntry tss none c)).reg .esp + 36#32 =
        (interruptEntry tss none c).reg .esp := by
  obtain ⟨hstack, hreg, hds⟩ := interruptEntry_spec tss none c
  obtain ⟨hmem, hesp, _⟩ := syscallSave_spec (interruptEntry tss none c)
  have hlen := userWords_length c
  have hwords : syscallFrame c ((interruptEntry tss none c).reg .esp) =
      (savedWords (interruptEntry tss none c)).reverse ++
        ([c.eip, pad (c.seg .cs), c.eflags] ++ (userWords c).reverse) := by
    unfold syscallFrame savedWords pushaWords
    rw [← hds, ← hreg .edi (by decide), ← hreg .esi (by decide), ← hreg .ebp (by decide),
      ← hreg .ebx (by decide), ← hreg .edx (by decide), ← hreg .ecx (by decide),
      ← hreg .eax (by decide)]
    rfl
  rw [hmem, hesp]
  constructor
  · -- the first instruction only clears the interrupt flag
    have hcli : StackIs ((interruptEntry tss none c).setFlags
        ((interruptEntry tss none c).eflags &&& ~~~0x200#32)).mem _ _ := hstack
    rw [hwords]
    refine hcli.pushAll ?_
    have hsaved : (savedWords (interruptEntry tss none c)).length = 9 := rfl
    rw [hsaved, List.length_append, List.length_reverse]
    change 3 + (userWords c).length + 9 < _
    omega
  · change (interruptEntry tss none c).reg .esp - 4#32 - 4#32 - 4#32 - 4#32 - 4#32 - 4#32 - 4#32 -
      4#32 - 4#32 + 36#32 = _
    bv_omega

theorem handlerEntry_called (ret : Word) (tss : Tss) (c : Cpu) :
    SyscallCalled tss c (handlerEntry ret tss c) := by
  obtain ⟨hframe, hentered⟩ := syscallSave_frame tss c
  obtain ⟨_, _, hcs, hss⟩ := syscallSave_spec (interruptEntry tss none c)
  have hcode : (interruptEntry tss none c).seg .cs = 0x08#16 := rfl
  have hpush : runOps (syscallSave ++ [.plain (.push .esp)]) (interruptEntry tss none c) =
      (runOps syscallSave (interruptEntry tss none c)).push
        ((runOps syscallSave (interruptEntry tss none c)).reg .esp) := List.foldl_append
  unfold handlerEntry
  rw [hpush]
  have hlen := userWords_length c
  have hframelen := syscallFrame_length c ((interruptEntry tss none c).reg .esp)
  -- the argument and the return address lie below the frame
  have hpushed := (hframe.push (by omega)
    ((runOps syscallSave (interruptEntry tss none c)).reg .esp)).push
      (by rw [List.length_cons]; omega) ret
  generalize runOps syscallSave (interruptEntry tss none c) = e at *
  have harg : ((e.push (e.reg .esp)).push ret).arg 0 = e.reg .esp := load_arg hpushed rfl
  have haddr : ((e.push (e.reg .esp)).push ret).reg .esp + 8#32 = e.reg .esp := by
    change e.reg .esp - 4#32 - 4#32 + 8#32 = _
    bv_omega
  constructor
  case frame =>
    have htail := hpushed.tail.tail
    rw [show ((e.push (e.reg .esp)).push ret).reg .esp + 4#32 + 4#32 =
      ((e.push (e.reg .esp)).push ret).reg .esp + 8#32 by bv_omega, haddr] at htail
    rw [harg]
    exact htail
  case esp => rw [harg, haddr]
  case entered => rw [harg, hentered]
  case cs => exact hcs.trans hcode
  case ss => exact hss

/-! ## Behind the call -/

/-- What is left of the registers in front of the `iret`. -/
theorem syscallRestore_popa (e : Cpu) :
    ∃ d, runOps syscallRestore e = iret d ∧ d.mem = e.mem ∧
      d.reg .esp = e.reg .esp + 4#32 + 4#32 + 32#32 ∧
      d.reg .edi = load32 e.mem (e.reg .esp + 4#32 + 4#32) ∧
      d.reg .esi = load32 e.mem (e.reg .esp + 4#32 + 4#32 + 4#32) ∧
      d.reg .ebp = load32 e.mem (e.reg .esp + 4#32 + 4#32 + 8#32) ∧
      d.reg .ebx = load32 e.mem (e.reg .esp + 4#32 + 4#32 + 16#32) ∧
      d.reg .edx = load32 e.mem (e.reg .esp + 4#32 + 4#32 + 20#32) ∧
      d.reg .ecx = load32 e.mem (e.reg .esp + 4#32 + 4#32 + 24#32) ∧
      d.reg .eax = load32 e.mem (e.reg .esp + 4#32 + 4#32 + 28#32) ∧
      d.seg = fun s => match s with
        | .cs => e.seg .cs
        | .ss => e.seg .ss
        | _ => (load32 e.mem (e.reg .esp + 4#32)).extractLsb' 0 16 := by
  refine ⟨runOps syscallRestore.dropLast e, rfl, rfl, rfl, rfl, rfl, rfl, rfl, rfl, rfl, rfl, ?_⟩
  funext s
  cases s <;> rfl

/-- The interrupted code goes on as if nothing had happened, but for `eax`. -/
structure AfterSyscall (c d : Cpu) (eax : Word) : Prop where
  reg : ∀ r, r ≠ .eax → d.reg r = c.reg r
  seg : ∀ s, d.seg s = c.seg s
  eip : d.eip = c.eip
  eflags : d.eflags = c.eflags
  eax : d.reg .eax = eax

/-- `es`, `fs` and `gs` are only restored from `ds`. -/
def FlatSegments (c : Cpu) : Prop :=
  c.seg .es = c.seg .ds ∧ c.seg .fs = c.seg .ds ∧ c.seg .gs = c.seg .ds

/-- A function that was called at `f` has returned at `e`: the return address is popped, the
code and stack segments are as they were. The other registers may have changed. -/
structure Returned (f e : Cpu) : Prop where
  esp : e.reg .esp = f.reg .esp + 4#32
  cs : e.seg .cs = f.seg .cs
  ss : e.seg .ss = f.seg .ss

theorem extract_pad (s : BitVec 16) : (pad s).extractLsb' 0 16 = s := by
  ext i hi
  rw [BitVec.getElem_extractLsb', Nat.zero_add, pad, BitVec.getLsbD_setWidth,
    decide_eq_true (by omega), Bool.true_and, BitVec.getLsbD_eq_getElem]

/-- The state in front of the `iret`: everything but the stack pointer and the words that the
processor has saved is back. -/
structure Restored (c f d : Cpu) (eax : Word) : Prop where
  reg : ∀ r, r ≠ .eax → r ≠ .esp → d.reg r = c.reg r
  eax : d.reg .eax = eax
  esp : d.reg .esp = f.arg 0 + 36#32
  data : ∀ s, s ≠ .cs → s ≠ .ss → d.seg s = c.seg s
  ring : d.seg .cs &&& 3#16 = 0#16
  ss : d.seg .ss = f.seg .ss
  stack : StackIs d.mem (d.reg .esp)
    (c.eip :: pad (c.seg .cs) :: c.eflags :: (userWords c).reverse)

section Restoring
variable {tss : Tss} {c f d e : Cpu} {eax : Word}

/-- The frame as the handler leaves it, with the result in the word for `eax`. -/
theorem Restored.of_frame (hseg : FlatSegments c) (hcalled : SyscallCalled tss c f)
    (hret : Returned f e)
    (hframe : StackIs e.mem (f.arg 0)
      ((syscallFrame c ((interruptEntry tss none c).reg .esp)).set 8 eax)) :
    ∃ d, runOps syscallRestore e = iret d ∧ Restored c f d eax := by
  obtain ⟨d, hrun, hmem, hesp, hedi, hesi, hebp, hebx, hedx, hecx, heax, hsegs⟩ :=
    syscallRestore_popa e
  have hp : e.reg .esp + 4#32 = f.arg 0 := by
    rw [hret.esp, ← hcalled.esp]
    bv_omega
  rw [hp] at hesp hedi hesi hebp hebx hedx hecx heax hsegs
  -- the words of the frame, by their offsets
  have hword : ∀ (i : Nat) (v k : Word),
      ((syscallFrame c ((interruptEntry tss none c).reg .esp)).set 8 eax)[i]? = some v →
      k = 4#32 * BitVec.ofNat 32 i → load32 e.mem (f.arg 0 + k) = v := by
    intro i v k hi hk
    rw [hk]
    exact hframe i v hi
  have hds := hword 0 _ 0#32 rfl rfl
  rw [BitVec.add_zero] at hds
  have hsp : d.reg .esp = f.arg 0 + 36#32 := by rw [hesp]; bv_omega
  refine ⟨d, hrun, ?_⟩
  constructor
  case reg =>
    intro r hne hne'
    cases r with
    | eax => exact absurd rfl hne
    | esp => exact absurd rfl hne'
    | edi => exact hedi.trans (hword 1 _ 4#32 rfl rfl)
    | esi => rw [hesi, BitVec.add_assoc]; exact hword 2 _ _ rfl rfl
    | ebp => rw [hebp, BitVec.add_assoc]; exact hword 3 _ _ rfl rfl
    | ebx => rw [hebx, BitVec.add_assoc]; exact hword 5 _ _ rfl rfl
    | edx => rw [hedx, BitVec.add_assoc]; exact hword 6 _ _ rfl rfl
    | ecx => rw [hecx, BitVec.add_assoc]; exact hword 7 _ _ rfl rfl
  case eax =>
    rw [heax, BitVec.add_assoc]
    exact hword 8 _ _ rfl rfl
  case esp => exact hsp
  case data =>
    intro s hne hne'
    -- all four are loaded from the word of `ds`
    have hlow : (load32 e.mem (f.arg 0)).extractLsb' 0 16 = c.seg .ds := by
      rw [hds]
      exact BitVec.extractLsb'_append_eq_right
    rw [hsegs]
    cases s with
    | cs => exact absurd rfl hne
    | ss => exact absurd rfl hne'
    | ds => exact hlow
    | es => exact hlow.trans hseg.1.symm
    | fs => exact hlow.trans hseg.2.1.symm
    | gs => exact hlow.trans hseg.2.2.symm
  case ring =>
    rw [hsegs]
    change e.seg .cs &&& 3#16 = 0#16
    rw [hret.cs, hcalled.cs]
    rfl
  case ss =>
    rw [hsegs]
    exact hret.ss
  case stack =>
    rw [hmem, hsp]
    exact hframe.drop 9

/-- The interrupted code is kernel code: the stack pointer is behind the three words. -/
theorem Restored.iret_kernel (h : Restored c f d eax) (hcalled : SyscallCalled tss c f)
    (hkernel : c.seg .cs &&& 3#16 = 0#16) : AfterSyscall c (iret d) eax := by
  obtain ⟨hentry, hentryss⟩ := interruptEntry_kernel tss hkernel
  rw [iret_inner h.stack (by rw [extract_pad, hkernel, h.ring]), extract_pad]
  constructor
  case reg =>
    intro r hne
    rcases Decidable.em (r = .esp) with rfl | hne'
    · change d.reg .esp + 12#32 = c.reg .esp
      rw [h.esp, hcalled.entered, hentry]
      bv_omega
    · exact (if_neg hne').trans (h.reg r hne hne')
  case seg =>
    intro s
    rcases Decidable.em (s = .cs) with rfl | hcs
    · rfl
    · refine (if_neg hcs).trans ?_
      rcases Decidable.em (s = .ss) with rfl | hs
      · exact (h.ss.trans hcalled.ss).trans hentryss
      · exact h.data s hcs hs
  case eip => rfl
  case eflags => rfl
  case eax => exact h.eax

/-- It is user code: its stack and the pointer to it are two more words. -/
theorem Restored.iret_user (h : Restored c f d eax) (huser : ¬ c.seg .cs &&& 3#16 = 0#16) :
    AfterSyscall c (iret d) eax := by
  have hstack := h.stack
  have hwords : userWords c = [pad (c.seg .ss), c.reg .esp] := if_neg huser
  rw [hwords] at hstack
  rw [iret_outer hstack (by rw [extract_pad, h.ring]; exact huser), extract_pad, extract_pad]
  constructor
  case reg =>
    intro r hne
    rcases Decidable.em (r = .esp) with rfl | hne'
    · rfl
    · exact (if_neg hne').trans (h.reg r hne hne')
  case seg =>
    intro s
    rcases Decidable.em (s = .ss) with rfl | hs
    · rfl
    · refine (if_neg hs).trans ?_
      rcases Decidable.em (s = .cs) with rfl | hcs
      · rfl
      · exact (if_neg hcs).trans (h.data s hcs hs)
  case eip => rfl
  case eflags => rfl
  case eax => exact h.eax

theorem AfterSyscall.of_frame (hseg : FlatSegments c) (hcalled : SyscallCalled tss c f)
    (hret : Returned f e)
    (hframe : StackIs e.mem (f.arg 0)
      ((syscallFrame c ((interruptEntry tss none c).reg .esp)).set 8 eax)) :
    AfterSyscall c (runOps syscallRestore e) eax := by
  obtain ⟨d, hrun, hrestored⟩ := Restored.of_frame hseg hcalled hret hframe
  rw [hrun]
  rcases Decidable.em (c.seg .cs &&& 3#16 = 0#16) with hkernel | huser
  · exact hrestored.iret_kernel hcalled hkernel
  · exact hrestored.iret_user huser

end Restoring

/-! ## From the interrupt to the return -/

/-- The words that the processor and `syscall_entry` save. -/
def frameWords (c : Cpu) : Nat := 12 + (userWords c).length

/-- The `n` words from `p` on have the same bytes. -/
def FrameKept (p : Word) (n : Nat) (m m' : Mem) : Prop :=
  ∀ k : Nat, k < 4 * n → m' (p + BitVec.ofNat 32 k) = m (p + BitVec.ofNat 32 k)

/-- The handler receives the saved registers. -/
theorem SyscallCalled.registers {tss : Tss} {c f : Cpu} (h : SyscallCalled tss c f) :
    (readRegisters f.mem (f.arg 0)).eax = c.reg .eax ∧
      (readRegisters f.mem (f.arg 0)).ebx = c.reg .ebx ∧
      (readRegisters f.mem (f.arg 0)).ecx = c.reg .ecx ∧
      (readRegisters f.mem (f.arg 0)).edx = c.reg .edx ∧
      (readRegisters f.mem (f.arg 0)).esi = c.reg .esi ∧
      (readRegisters f.mem (f.arg 0)).edi = c.reg .edi :=
  ⟨h.frame 8 _ rfl, h.frame 5 _ rfl, h.frame 7 _ rfl, h.frame 6 _ rfl, h.frame 2 _ rfl,
    h.frame 1 _ rfl⟩

/-- A frame whose word for `eax` was set, in a memory that agrees with it. -/
theorem SyscallCalled.frame_setEax {tss : Tss} {c f e : Cpu} (h : SyscallCalled tss c f) {m : Mem}
    {v : Word} (hm : FrameKept (f.arg 0) (frameWords c) f.mem m)
    (he : FrameKept (f.arg 0) (frameWords c) (setEax m (f.arg 0) v) e.mem) :
    StackIs e.mem (f.arg 0) ((syscallFrame c ((interruptEntry tss none c).reg .esp)).set 8 v) := by
  have hlen := syscallFrame_length c ((interruptEntry tss none c).reg .esp)
  have hwords := userWords_length c
  have hkept : StackIs m (f.arg 0) (syscallFrame c ((interruptEntry tss none c).reg .esp)) :=
    h.frame.congr (by rw [hlen]; exact hm)
  have hset := hkept.set (by omega) 8 (by omega) v
  refine hset.congr ?_
  rw [List.length_set, hlen]
  exact he

/-- `int 0x80` with any number, from any code with one data selector. The handler is called
with the address of the saved frame. A registered system call gets the five registers; when
it does not write the frame, the interrupted code goes on with its result in `eax`. Any
other number calls nothing and comes back with `0xFFFFFFFF`. -/
theorem syscall_frame_preserved (ret : Word) (tss : Tss) (table : SyscallTable) (c : Cpu)
    (hseg : FlatSegments c) :
    ∃ f, runSyscall ret tss c = some (.syscallHandler, f) ∧
      (∀ handler, registered table (c.reg .eax) = some handler →
        (∃ call, (syscallHandler table (f.arg 0) f.mem).called = some call ∧
          BitVec.ofNat 32 call.number = c.reg .eax ∧ call.a1 = c.reg .ebx ∧ call.a2 = c.reg .ecx ∧
          call.a3 = c.reg .edx ∧ call.a4 = c.reg .esi ∧ call.a5 = c.reg .edi) ∧
        ∀ r, handler (c.reg .ebx) (c.reg .ecx) (c.reg .edx) (c.reg .esi) (c.reg .edi) f.mem = r →
          FrameKept (f.arg 0) (frameWords c) f.mem r.2 →
          ∀ e, Returned f e →
            FrameKept (f.arg 0) (frameWords c) (syscallHandler table (f.arg 0) f.mem).mem e.mem →
            AfterSyscall c (runOps syscallRestore e) r.1) ∧
      (registered table (c.reg .eax) = none →
        (syscallHandler table (f.arg 0) f.mem).called = none ∧
        ∀ e, Returned f e →
          FrameKept (f.arg 0) (frameWords c) (syscallHandler table (f.arg 0) f.mem).mem e.mem →
          AfterSyscall c (runOps syscallRestore e) 0xFFFFFFFF#32) := by
  have hcalled := handlerEntry_called ret tss c
  obtain ⟨heax, hebx, hecx, hedx, hesi, hedi⟩ := hcalled.registers
  refine ⟨_, runSyscall_eq ret tss c, fun handler hreg => ?_, fun hnone => ?_⟩
  · rw [← heax] at hreg
    obtain ⟨call, hcall, hnum, h1, h2, h3, h4, h5, hmem⟩ := syscallHandler_registered hreg
    rw [h1, h2, h3, h4, h5, hebx, hecx, hedx, hesi, hedi] at hmem
    refine ⟨⟨call, hcall, hnum.trans heax, h1.trans hebx, h2.trans hecx, h3.trans hedx,
      h4.trans hesi, h5.trans hedi⟩, ?_⟩
    rintro r rfl hkept e hret hframe
    rw [hmem] at hframe
    exact AfterSyscall.of_frame hseg hcalled hret (hcalled.frame_setEax hkept hframe)
  · rw [← heax] at hnone
    rw [syscallHandler_rejected hnone]
    refine ⟨rfl, fun e hret hframe => ?_⟩
    exact AfterSyscall.of_frame hseg hcalled hret (hcalled.frame_setEax (fun _ _ => rfl) hframe)

/-- User code at 4 MB that makes the system call 7 with 1, 2, 3, 4 and 5. -/
def userCode : Cpu where
  reg := fun r => match r with
    | .eax => 7#32
    | .ebx => 1#32
    | .ecx => 2#32
    | .edx => 3#32
    | .esi => 4#32
    | .edi => 5#32
    | .esp => 0x500000#32
    | .ebp => 0x500010#32
  eip := 0x400002#32
  eflags := 0x202#32
  mem := fun _ => 0#8
  seg := fun s => match s with
    | .cs => 0x1B#16
    | _ => 0x23#16

/-- A system call that adds its arguments. -/
def sumCall : SyscallFn := fun a b c d e m => (a + b + c + d + e, m)

/-- The handler has returned with the memory `m`. -/
def returnFrom (f : Cpu) (m : Mem) : Cpu := (f.setReg .esp (f.reg .esp + 4#32)).setMem m

theorem returned_returnFrom (f : Cpu) (m : Mem) : Returned f (returnFrom f m) := ⟨rfl, rfl, rfl⟩

theorem syscall_frame_preserved_sum :
    ∃ f e, runSyscall 0x101000#32 ⟨0x90000#32, 0x10#16⟩ userCode = some (.syscallHandler, f) ∧
      Returned f e ∧ AfterSyscall userCode (runOps syscallRestore e) 15#32 := by
  obtain ⟨f, hrun, hregistered, _⟩ := syscall_frame_preserved 0x101000#32 ⟨0x90000#32, 0x10#16⟩
    (syscallRegister 7#32 sumCall fun _ => none) userCode ⟨rfl, rfl, rfl⟩
  have hreg : registered (syscallRegister 7#32 sumCall fun _ => none) (userCode.reg .eax) =
      some sumCall := by
    rw [registered_syscallRegister, if_pos (by decide)]
  have hret := returned_returnFrom f
    (syscallHandler (syscallRegister 7#32 sumCall fun _ => none) (f.arg 0) f.mem).mem
  exact ⟨f, _, hrun, hret,
    (hregistered sumCall hreg).2 _ rfl (fun _ _ => rfl) _ hret fun _ _ => rfl⟩

end Zenix
