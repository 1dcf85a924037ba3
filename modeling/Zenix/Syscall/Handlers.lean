import Zenix.Core.PrintNumbers
import Zenix.Lib.Transition
import Zenix.Syscall.SyscallStub

/-!
# The system calls of a program (kernel/syscall/handlers.c)

`sys_write` hands the bytes of a buffer to `print_char`, `sys_getpid` returns a number and
`sys_read` nothing. A program that makes these calls goes through the gate, the code of
`syscall_entry`, the table and the handler each time. `sys_exit` and `sys_sleep` are
parameters, and the runs do not call them.

Results:
1. `Pushed.trans`, `pushed_pushAll`: what pushes leave in memory.
2. `systemCall_outcome`: the memory and the console after a call.
3. `system_calls`: the calls of every run as the program sees them, and what is printed.
-/

namespace Zenix
open ByteMemory X86 Logged

def SYS_EXIT : Word := 0#32
def SYS_WRITE : Word := 1#32
def SYS_READ : Word := 2#32
def SYS_GETPID : Word := 3#32

/-! ## The handlers -/

/-- `fd == 1 || fd == 2`. -/
def isOutput (fd : Word) : Bool := fd = 1#32 || fd = 2#32

/-- The console after `sys_write`, and what it returns. -/
def sysWrite (fd buf count : Word) (m : Mem) (s : Console) : Word × Console :=
  if isOutput fd then
    (count, ((List.range count.toNat).foldlM
      (fun s i => printChar (m (buf + BitVec.ofNat 32 i)) s) s : Logged ConsoleEvent Console).value)
  else (-1#32, s)

/-- `syscall_handlers_init`. What `sys_write` does to the console is in `SessionStep`;
`pid` is the number of the current process. -/
def syscallHandlersInit (sysExit sysSleep : SyscallFn) (pid : Option Word) (console : Console)
    (table : SyscallTable) : SyscallTable :=
  let table := syscallRegister SYS_EXIT sysExit table
  let table := syscallRegister SYS_WRITE
    (fun fd buf count _ _ m => ((sysWrite fd buf count m console).1, m)) table
  let table := syscallRegister SYS_READ (fun _ _ _ _ _ m => (-1#32, m)) table
  let table := syscallRegister SYS_GETPID (fun _ _ _ _ _ m => (pid.getD (-1#32), m)) table
  syscallRegister SYS_SLEEP sysSleep table

/-- The console after the call that the handler has made, if any. -/
def consoleAfter (m : Mem) (s : Console) : Option SyscallCall → Console
  | some call => if BitVec.ofNat 32 call.number = SYS_WRITE then
      (sysWrite call.a1 call.a2 call.a3 m s).2 else s
  | none => s

/-! ## The runs -/

/-- A program and the console. -/
structure Session where
  cpu : Cpu
  console : Console

section Systems
variable (ret : Word) (tss : Tss) (sysExit sysSleep : SyscallFn) (pid : Option Word)
  (entry : Word) (idt : Byte → IdtEntry) (kernel : Word → Prop)

def systemTable (s : Console) : SyscallTable :=
  syscallHandlersInit sysExit sysSleep pid s (syscallInit entry idt).1

/-- The C code may write the part of the kernel's memory that its stack is in, but for the
saved registers. -/
inductive SessionStep : Session → Option Cpu → Session → Prop
  | code {c d : Cpu} {s : Console} : SessionStep ⟨c, s⟩ none ⟨d, s⟩
  | call {c f e : Cpu} {s : Console} {out : SyscallOutcome} :
      runSyscall ret tss c = some (.syscallHandler, f) →
      out = syscallHandler (systemTable sysExit sysSleep pid entry idt s) (f.arg 0) f.mem →
      Returned f e → FrameKept (f.arg 0) (frameWords c) out.mem e.mem →
      (∀ x, ¬ kernel x → e.mem x = out.mem x) →
      SessionStep ⟨c, s⟩ (some c) ⟨runOps syscallRestore e, consoleAfter f.mem s out.called⟩

/-- A program and its system calls. -/
def sessionSystem : TransitionSystem Session (Option Cpu) where
  init := fun _ => True
  step := SessionStep ret tss sysExit sysSleep pid entry idt kernel

/-- The program has one data selector and calls neither `sys_exit` nor `sys_sleep`. What is
pushed is part of the kernel's memory, and what is written is not. -/
structure ProperCall (c : Cpu) : Prop where
  segments : FlatSegments c
  exit : c.reg .eax ≠ SYS_EXIT
  sleep : c.reg .eax ≠ SYS_SLEEP
  stack : ∀ x, ¬ kernel x →
    4 * (frameWords c + 2) ≤ (x - (handlerEntry ret tss c).reg .esp).toNat
  buffer : c.reg .eax = SYS_WRITE → ∀ i < (c.reg .edx).toNat,
    ¬ kernel (c.reg .ecx + BitVec.ofNat 32 i)

/-- What a call returns. -/
def callResult (c : Cpu) : Word :=
  if c.reg .eax = SYS_WRITE ∧ isOutput (c.reg .ebx) = true then c.reg .edx
  else if c.reg .eax = SYS_GETPID then pid.getD (-1#32)
  else -1#32

/-- What a call prints. -/
def callText (c : Cpu) : List Byte :=
  if c.reg .eax = SYS_WRITE ∧ isOutput (c.reg .ebx) = true then
    (List.range (c.reg .edx).toNat).map fun i => c.mem (c.reg .ecx + BitVec.ofNat 32 i)
  else []

def eventText : Option Cpu → List Byte
  | some c => callText c
  | none => []

/-- The calls as the program sees them: `eax` has the result, and nothing else of the program
has changed. -/
inductive ProgramStep : Session → Option Cpu → Session → Prop
  | code {c d : Cpu} {s : Console} : ProgramStep ⟨c, s⟩ none ⟨d, s⟩
  | call {c d : Cpu} {s : Console} : AfterSyscall c d (callResult pid c) →
      (∀ x, ¬ kernel x → d.mem x = c.mem x) →
      ProgramStep ⟨c, s⟩ (some c) ⟨d, (printChars (callText c) s).value⟩

def programSystem : TransitionSystem Session (Option Cpu) where
  init := fun _ => True
  step := ProgramStep pid kernel

end Systems

/-! ## Pushes -/

/-- `d` has `n` words more on the stack than `c`, and the rest of its memory. -/
structure Pushed (n : Nat) (c d : Cpu) : Prop where
  esp : c.reg .esp = d.reg .esp + BitVec.ofNat 32 (4 * n)
  rest : ∀ x, 4 * n ≤ (x - d.reg .esp).toNat → d.mem x = c.mem x

section Pushes
variable {c d e : Cpu} {n k : Nat}

theorem Pushed.trans (h : Pushed n c d) (h' : Pushed k d e) (hsmall : 4 * (n + k) < 2 ^ 32) :
    Pushed (n + k) c e := by
  refine ⟨?_, fun x hx => ?_⟩
  · rw [h.esp, h'.esp, BitVec.add_assoc, ofNat_add_ofNat, ← Nat.mul_add, Nat.add_comm]
  · have hbelow : 4 * n ≤ (x - d.reg .esp).toNat := by
      have hle : BitVec.ofNat 32 (4 * k) ≤ x - e.reg .esp := by
        rw [BitVec.le_def, toNat_ofNat_of_lt (by omega)]
        omega
      rw [h'.esp, ← BitVec.sub_sub, BitVec.toNat_sub_of_le hle, toNat_ofNat_of_lt (by omega)]
      omega
    exact (h'.rest x (by omega)).trans (h.rest x hbelow)

theorem store32_apart {m : Mem} {a v x : Word} (h : 4 ≤ (x - a).toNat) : store32 m a v x = m x := by
  have h0 : x ≠ a := by rintro rfl; bv_omega
  have h1 : x ≠ a + 1 := by rintro rfl; bv_omega
  have h2 : x ≠ a + 2 := by rintro rfl; bv_omega
  have h3 : x ≠ a + 3 := by rintro rfl; bv_omega
  simp only [store32, h0, h1, h2, h3, if_false]

theorem pushed_push (c : Cpu) (v : Word) : Pushed 1 c (c.push v) := by
  refine ⟨?_, fun x hx => store32_apart hx⟩
  rw [cpu_reg_push, if_pos rfl]
  exact (BitVec.sub_add_cancel _ _).symm

theorem pushed_pushAll (c : Cpu) (vs : List Word) (hsmall : 4 * vs.length < 2 ^ 32) :
    Pushed vs.length c (c.pushAll vs) := by
  induction vs generalizing c with
  | nil => exact ⟨(BitVec.add_zero _).symm, fun _ _ => rfl⟩
  | cons v vs ih =>
    rw [List.length_cons] at hsmall ⊢
    rw [Nat.add_comm]
    exact (pushed_push c v).trans (ih (c.push v) (by omega)) (by omega)

/-- Only the pushed words count. -/
theorem Pushed.congr {c' d' : Cpu} (h : Pushed n c d) (hmem : c'.mem = c.mem)
    (hesp : c'.reg .esp = c.reg .esp) (hmem' : d'.mem = d.mem) (hesp' : d'.reg .esp = d.reg .esp) :
    Pushed n c' d' :=
  ⟨by rw [hesp, hesp', h.esp], fun x hx => by rw [hmem', hmem]; exact h.rest x (hesp' ▸ hx)⟩

end Pushes

/-! ## One call -/

section Call
variable {ret : Word} {tss : Tss} {c f e : Cpu}

/-- On the way to the handler only the stack is written. -/
theorem handlerEntry_mem {x : Word}
    (hx : 4 * (frameWords c + 2) ≤ (x - (handlerEntry ret tss c).reg .esp).toNat) :
    (handlerEntry ret tss c).mem x = c.mem x := by
  have hwords := userWords_length c
  obtain ⟨hmem, hesp, _⟩ := syscallSave_spec (interruptEntry tss none c)
  generalize hd : interruptEntry tss none c = d at hmem hesp
  -- the processor
  obtain ⟨base, hbase, hentry⟩ : ∃ base : Cpu, base.mem = c.mem ∧
      Pushed ((userWords c).length + 3) base d := by
    refine ⟨if c.seg .cs &&& 3#16 = 0#16 then c else (c.setReg .esp tss.esp0).setSeg .ss tss.ss0,
      ?_, ?_⟩
    · split
      · rfl
      · rfl
    · have hpush := pushed_pushAll
        (if c.seg .cs &&& 3#16 = 0#16 then c else (c.setReg .esp tss.esp0).setSeg .ss tss.ss0)
        (userWords c ++ [c.eflags, pad (c.seg .cs), c.eip] ++ (none : Option Word).toList)
        (by simp; omega)
      have hlength : (userWords c ++ [c.eflags, pad (c.seg .cs), c.eip] ++
          (none : Option Word).toList).length = (userWords c).length + 3 := by simp
      rw [hlength] at hpush
      exact hpush.congr rfl rfl (by rw [← hd]; rfl) (by rw [← hd]; rfl)
  -- the instructions of the stub
  have hsave : Pushed 9 d (runOps syscallSave d) := by
    have hpush := pushed_pushAll (d.setFlags (d.eflags &&& ~~~0x200#32)) (savedWords d)
      (by change 4 * 9 < 2 ^ 32; decide)
    exact hpush.congr rfl rfl hmem hesp
  have hlast : runOps (syscallSave ++ [.plain (.push .esp)]) d =
      (runOps syscallSave d).push ((runOps syscallSave d).reg .esp) := List.foldl_append
  have hcall : Pushed 2 (runOps syscallSave d)
      (((runOps syscallSave d).push ((runOps syscallSave d).reg .esp)).push ret) :=
    (pushed_push _ _).trans (pushed_push _ _) (by decide)
  have hall := (hentry.trans hsave (by omega)).trans hcall (by omega)
  have hcount : (userWords c).length + 3 + 9 + 2 = frameWords c + 2 := by
    rw [frameWords]
    omega
  rw [hcount] at hall
  rw [handlerEntry, hd, hlast] at hx ⊢
  exact (hall.rest x hx).trans (congrFun hbase x)

theorem iret_mem (c : Cpu) : (iret c).mem = c.mem := by
  unfold iret
  dsimp only
  split
  · rfl
  · rfl

/-- The way back writes nothing. -/
theorem syscallRestore_mem (e : Cpu) : (runOps syscallRestore e).mem = e.mem := by
  obtain ⟨d, hrun, hmem, _⟩ := syscallRestore_popa e
  rw [hrun, iret_mem, hmem]

end Call

/-! ## The table -/

section Table
variable {sysExit sysSleep : SyscallFn} {pid : Option Word} {s : Console} {entry : Word}
  {idt : Byte → IdtEntry} {num : Word}

theorem registered_init (entry : Word) (idt : Byte → IdtEntry) (num : Word) :
    registered (syscallInit entry idt).1 num = none := by
  unfold registered syscallInit
  split
  · rfl
  · rfl

/-- The handlers of the numbers that a program may call. -/
theorem registered_systemTable (hexit : num ≠ SYS_EXIT) (hsleep : num ≠ SYS_SLEEP) :
    registered (systemTable sysExit sysSleep pid entry idt s) num =
      if num = SYS_WRITE then some fun fd buf count _ _ m => ((sysWrite fd buf count m s).1, m)
      else if num = SYS_READ then some fun _ _ _ _ _ m => (-1#32, m)
      else if num = SYS_GETPID then some fun _ _ _ _ _ m => (pid.getD (-1#32), m)
      else none := by
  have hbound : ∀ {k : Word}, k.toNat < MAX_SYSCALLS → (num = k ∧ num.toNat < MAX_SYSCALLS ↔ num = k) :=
    fun hk => ⟨And.left, fun h => ⟨h, h ▸ hk⟩⟩
  have hwrite := @hbound SYS_WRITE (by decide)
  have hread := @hbound SYS_READ (by decide)
  have hpid := @hbound SYS_GETPID (by decide)
  unfold systemTable syscallHandlersInit
  simp only [registered_syscallRegister, registered_init, hwrite, hread, hpid, hexit, hsleep,
    false_and, if_false]
  rcases Decidable.em (num = SYS_WRITE) with rfl | hnwrite
  · rw [if_neg (by decide), if_neg (by decide), if_pos rfl, if_pos rfl]
  · rcases Decidable.em (num = SYS_READ) with rfl | hnread
    · rw [if_neg (by decide), if_pos rfl, if_neg hnwrite, if_pos rfl]
    · rw [if_neg hnread, if_neg hnwrite, if_neg hnwrite, if_neg hnread]

end Table

/-! ## The calls of a program -/

section Calls
variable {ret : Word} {tss : Tss} {sysExit sysSleep : SyscallFn} {pid : Option Word}
  {entry : Word} {idt : Byte → IdtEntry} {kernel : Word → Prop} {s t : Session} {c : Cpu}

theorem sysWrite_output {fd buf count : Word} {m : Mem} {s : Console} (h : isOutput fd = true) :
    sysWrite fd buf count m s = (count, (printChars
      ((List.range count.toNat).map fun i => m (buf + BitVec.ofNat 32 i)) s).value) := by
  rw [sysWrite, if_pos h, printChars, List.foldlM_map]

/-- What the handler does to memory and to the console. -/
theorem systemCall_outcome (hexit : c.reg .eax ≠ SYS_EXIT) (hsleep : c.reg .eax ≠ SYS_SLEEP)
    (con : Console) :
    let f := handlerEntry ret tss c
    let out := syscallHandler (systemTable sysExit sysSleep pid entry idt con) (f.arg 0) f.mem
    out.mem = setEax f.mem (f.arg 0) (callResult pid c) ∧
      consoleAfter f.mem con out.called =
        if c.reg .eax = SYS_WRITE ∧ isOutput (c.reg .ebx) = true then
          (printChars ((List.range (c.reg .edx).toNat).map fun i =>
            f.mem (c.reg .ecx + BitVec.ofNat 32 i)) con).value
        else con := by
  intro f out
  obtain ⟨heax, hebx, hecx, hedx, _, _⟩ := (handlerEntry_called ret tss c).registers
  have htable := @registered_systemTable sysExit sysSleep pid con entry idt _ hexit hsleep
  rw [← heax] at htable
  rcases Decidable.em (c.reg .eax = SYS_WRITE) with hwrite | hwrite
  · rw [if_pos (heax.trans hwrite)] at htable
    obtain ⟨call, hcall, hnum, h1, h2, h3, _, _, hmem⟩ := syscallHandler_registered htable
    rw [hebx] at h1
    rw [hecx] at h2
    rw [hedx] at h3
    rw [h1, h2, h3] at hmem
    rw [show out.called = some call from hcall, consoleAfter, if_pos (hnum.trans (heax.trans hwrite)),
      h1, h2, h3, callResult]
    rcases Bool.eq_false_or_eq_true (isOutput (c.reg .ebx)) with hfd | hfd
    · rw [if_pos ⟨hwrite, hfd⟩, if_pos ⟨hwrite, hfd⟩, sysWrite_output hfd]
      rw [sysWrite_output hfd] at hmem
      exact ⟨hmem, rfl⟩
    · have hnone : ¬ (c.reg .eax = SYS_WRITE ∧ isOutput (c.reg .ebx) = true) := fun h => by
        rw [hfd] at h
        cases h.2
      have hpid : c.reg .eax ≠ SYS_GETPID := by
        rw [hwrite]
        decide
      rw [if_neg hnone, if_neg hnone, if_neg hpid, sysWrite, hfd, if_neg Bool.false_ne_true]
      rw [sysWrite, hfd, if_neg Bool.false_ne_true] at hmem
      exact ⟨hmem, rfl⟩
  · have hnone : ¬ (c.reg .eax = SYS_WRITE ∧ isOutput (c.reg .ebx) = true) := fun h => hwrite h.1
    rw [if_neg (by rw [heax]; exact hwrite)] at htable
    rw [callResult, if_neg hnone, if_neg hnone]
    -- a call that is not `sys_write` does not print
    have hquiet : ∀ {call : SyscallCall}, out.called = some call →
        BitVec.ofNat 32 call.number = (readRegisters f.mem (f.arg 0)).eax →
          consoleAfter f.mem con out.called = con := fun hcall hnum => by
      rw [hcall, consoleAfter, if_neg (by rw [hnum, heax]; exact hwrite)]
    rcases Decidable.em (c.reg .eax = SYS_READ) with hread | hread
    · have hpid : c.reg .eax ≠ SYS_GETPID := by
        rw [hread]
        decide
      rw [if_pos (heax.trans hread)] at htable
      obtain ⟨call, hcall, hnum, _, _, _, _, _, hmem⟩ := syscallHandler_registered htable
      rw [if_neg hpid]
      exact ⟨hmem, hquiet hcall hnum⟩
    · rw [if_neg (by rw [heax]; exact hread)] at htable
      rcases Decidable.em (c.reg .eax = SYS_GETPID) with hpid | hpid
      · rw [if_pos (heax.trans hpid)] at htable
        obtain ⟨call, hcall, hnum, _, _, _, _, _, hmem⟩ := syscallHandler_registered htable
        rw [if_pos hpid]
        exact ⟨hmem, hquiet hcall hnum⟩
      · rw [if_neg (by rw [heax]; exact hpid)] at htable
        have hrejected : out = ⟨setEax f.mem (f.arg 0) (-1#32), none⟩ :=
          syscallHandler_rejected htable
        rw [if_neg hpid, hrejected]
        exact ⟨rfl, rfl⟩

/-- The result is written into the saved registers. -/
theorem setEax_mem (c : Cpu) {x : Word} (v : Word)
    (hx : 4 * (frameWords c + 2) ≤ (x - (handlerEntry ret tss c).reg .esp).toNat) :
    setEax (handlerEntry ret tss c).mem ((handlerEntry ret tss c).arg 0) v x = c.mem x := by
  have hesp := (handlerEntry_called ret tss c).esp
  have hframe : 12 ≤ frameWords c := Nat.le_add_right 12 _
  have hle : 40#32 ≤ x - (handlerEntry ret tss c).reg .esp := by
    rw [BitVec.le_def]
    exact Nat.le_trans (show 40 ≤ 4 * (frameWords c + 2) by omega) hx
  have hword : 4 ≤ (x - ((handlerEntry ret tss c).arg 0 + 32#32)).toNat := by
    rw [← hesp, BitVec.add_assoc, show (8#32 : Word) + 32#32 = 40#32 from rfl, ← BitVec.sub_sub,
      BitVec.toNat_sub_of_le hle]
    change 4 ≤ _ - 40
    omega
  rw [setEax, store32_apart hword]
  exact handlerEntry_mem hx

/-- A step of the machine is a step as the program sees it. -/
theorem session_step {a : Option Cpu}
    (hstep : SessionStep ret tss sysExit sysSleep pid entry idt kernel s a t)
    (hproper : ∀ c, a = some c → ProperCall ret tss kernel c) : ProgramStep pid kernel s a t := by
  cases hstep with
  | code => exact .code
  | @call c f e con out hrun hout hret hkept hother =>
    have hcall := hproper c rfl
    cases (runSyscall_eq ret tss c).symm.trans hrun
    obtain ⟨hmem, hconsole⟩ := @systemCall_outcome ret tss sysExit sysSleep pid entry idt c hcall.exit
      hcall.sleep con
    rw [← hout] at hmem hconsole
    have hbytes : c.reg .eax = SYS_WRITE →
        (List.range (c.reg .edx).toNat).map (fun i =>
          (handlerEntry ret tss c).mem (c.reg .ecx + BitVec.ofNat 32 i)) =
        (List.range (c.reg .edx).toNat).map fun i => c.mem (c.reg .ecx + BitVec.ofNat 32 i) :=
      fun hwrite => List.map_congr_left fun i hi =>
        handlerEntry_mem (hcall.stack _ (hcall.buffer hwrite i (List.mem_range.mp hi)))
    have htext : consoleAfter (handlerEntry ret tss c).mem con out.called =
        (printChars (callText c) con).value := by
      rw [hconsole, callText]
      split
      next houtput => rw [hbytes houtput.1]
      next => rfl
    rw [htext]
    rw [hmem] at hkept
    have hcalled := handlerEntry_called ret tss c
    refine .call (AfterSyscall.of_frame hcall.segments hcalled hret
      (hcalled.frame_setEax (fun _ _ => rfl) hkept)) fun x hx => ?_
    rw [syscallRestore_mem, hother x hx, hmem]
    exact setEax_mem c _ (hcall.stack x hx)

/-- In every run a program sees its system calls as they are meant: each comes back with its
result in `eax` and changes nothing else of the program. The console is as after printing, in
one piece, what was written to the two outputs. -/
theorem system_calls {calls : List (Option Cpu)}
    (hrun : (sessionSystem ret tss sysExit sysSleep pid entry idt kernel).Run s calls t)
    (hproper : ∀ c, some c ∈ calls → ProperCall ret tss kernel c) :
    (programSystem pid kernel).Run s calls t ∧
      t.console = (printChars (calls.flatMap eventText) s.console).value := by
  induction hrun with
  | nil => exact ⟨.nil, rfl⟩
  | @cons s u t a calls hstep _ ih =>
    obtain ⟨hrest, hconsole⟩ := ih fun c hc => hproper c (List.mem_cons_of_mem _ hc)
    have hprogram := session_step hstep fun c hc => hproper c (hc ▸ List.mem_cons_self)
    refine ⟨.cons hprogram hrest, ?_⟩
    rw [hconsole, List.flatMap_cons, printChars_append, value_bind]
    cases hprogram with
    | code => rfl
    | call => rfl

end Calls

/-- User code that writes the two bytes at 6 MB. -/
def writingCode : Cpu where
  reg := fun r => match r with
    | .eax => SYS_WRITE
    | .ebx => 1#32
    | .ecx => 0x600000#32
    | .edx => 2#32
    | .esp => 0x500000#32
    | _ => 0#32
  eip := 0x400002#32
  eflags := 0x202#32
  mem := fun a => if a = 0x600000#32 then 0x48#8 else if a = 0x600001#32 then 0x69#8 else 0#8
  seg := fun s => match s with
    | .cs => 0x1B#16
    | _ => 0x23#16

/-- The statics of the console. -/
def consoleStatics : Console := ⟨fun _ => 0#16, 0#8, 0#8, 0x0F#8, fun _ _ => 0#8, 0, 0⟩

/-- The stack of the kernel. -/
def KernelStack (x : Word) : Prop := 0x80000 ≤ x.toNat ∧ x.toNat < 0x90000

theorem writingCode_proper : ProperCall 0x101000#32 ⟨0x90000#32, 0x10#16⟩ KernelStack writingCode := by
  have hesp : (handlerEntry 0x101000#32 ⟨0x90000#32, 0x10#16⟩ writingCode).reg .esp = 0x8FFC0#32 := rfl
  have hwords : frameWords writingCode = 14 := rfl
  refine ⟨⟨rfl, rfl, rfl⟩, by decide, by decide, fun x hx => ?_, fun _ i hi => ?_⟩
  · rw [hesp, hwords]
    rcases Nat.lt_or_ge x.toNat 0x80000 with hlow | hlow
    · bv_omega
    · have hhigh : 0x90000 ≤ x.toNat := Nat.not_lt.mp fun h => hx ⟨hlow, h⟩
      bv_omega
  · have hcount : (writingCode.reg .edx).toNat = 2 := rfl
    have haddr : (writingCode.reg .ecx + BitVec.ofNat 32 i).toNat = 0x600000 + i :=
      toNat_add_ofNat (show 0x600000 + i < 2 ^ 32 by omega)
    rintro ⟨_, hend⟩
    omega

/-- The program writes "Hi". -/
theorem system_calls_hi :
    ∃ t : Session, AfterSyscall writingCode t.cpu 2#32 ∧
      t.console = (printChars [0x48#8, 0x69#8] consoleStatics).value := by
  obtain ⟨e, hrun⟩ : ∃ t, (sessionSystem 0x101000#32 ⟨0x90000#32, 0x10#16⟩ sumCall sumCall none 0#32
      (fun _ => ⟨0#16, 0#16, 0#8, 0#8, 0#16⟩) KernelStack).Run ⟨writingCode, consoleStatics⟩
        [some writingCode] t :=
    ⟨_, .cons (.call (runSyscall_eq _ _ _) rfl (returned_returnFrom _ _) (fun _ _ => rfl)
      fun _ _ => rfl) .nil⟩
  obtain ⟨hprogram, hconsole⟩ := system_calls hrun fun c hc => by
    cases List.mem_singleton.mp hc
    exact writingCode_proper
  refine ⟨e, ?_, hconsole⟩
  cases hprogram with
  | cons hstep hnil =>
    cases hnil
    cases hstep with
    | call hafter => exact hafter

end Zenix
