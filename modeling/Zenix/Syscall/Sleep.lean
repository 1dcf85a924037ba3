import Zenix.Lib.Transition
import Zenix.Syscall.SyscallStub

/-!
# Sleeping in a system call (kernel/syscall/handlers.c)

`sys_sleep` waits with `hlt` until enough timer interrupts have been counted. It is entered
through the gate that `syscall_init` installs, which is an interrupt gate, and through the
`cli` of `syscall_entry`.

Results:
1. `SleepInv.step`: what every step keeps.
2. `sleep_halts_enabled_iff`: `hlt` is executed only with interrupts enabled exactly if it is
   not executed at all.
3. `sleep_never_returns`, `sleep_returns`: calls of 10 ms or more do not come back, others do.
-/

namespace Zenix
open ByteMemory X86

/-- Entry through a gate of the table. Type 15 is a trap gate, which leaves the interrupt
flag as it is. -/
def gateEntry (e : IdtEntry) (tss : Tss) (c : Cpu) : Cpu :=
  let d := interruptEntry tss none c
  if e.flags &&& 0x0F#8 = 0x0F#8 then d.setFlags (d.eflags ||| (c.eflags &&& 0x200#32)) else d

/-! ## The steps of a call -/

inductive SleepPoint where
  /-- In front of `int 0x80`. -/
  | user
  /-- In `syscall_entry`, with the instructions up to the end. -/
  | saving (ops : List SyscallOp)
  /-- At the call of `syscall_handler`. -/
  | entered
  /-- At the condition of the loop. -/
  | test
  /-- In front of `hlt`. -/
  | halt
  | halted
  /-- Behind the call of `syscall_handler`. -/
  | restoring (ops : List SyscallOp)
  | returned

structure SleepState where
  point : SleepPoint
  cpu : Cpu
  systemTicks : Word
  start : Word
  ticksToWait : Word

inductive SleepEvent where
  | instr
  | tick

section Steps
variable (ret : Word) (tss : Tss) (idt : Byte → IdtEntry)

/-- A timer interrupt is delivered only when the interrupt flag is set; the interrupted code
goes on with its registers, and `hlt` ends. The C code changes neither the saved frame, but
for its result, nor the interrupt flag. -/
inductive SleepStep : SleepState → SleepEvent → SleepState → Prop
  | interrupt {c : Cpu} {ticks start wait : Word} :
      SleepStep ⟨.user, c, ticks, start, wait⟩ .instr
        ⟨.saving (syscallEntry ret), gateEntry (idt 0x80#8) tss c, ticks, start, wait⟩
  | save {op : SyscallOp} {ops : List SyscallOp} {c : Cpu} {ticks start wait : Word} :
      op.straight = true →
      SleepStep ⟨.saving (op :: ops), c, ticks, start, wait⟩ .instr
        ⟨.saving ops, step op c, ticks, start, wait⟩
  | call {a : Word} {ops : List SyscallOp} {c : Cpu} {ticks start wait : Word} :
      SleepStep ⟨.saving (.call .syscallHandler a :: ops), c, ticks, start, wait⟩ .instr
        ⟨.entered, c.push a, ticks, start, wait⟩
  | enter {c : Cpu} {ticks start wait : Word} :
      (readRegisters c.mem (c.arg 0)).eax = SYS_SLEEP →
      SleepStep ⟨.entered, c, ticks, start, wait⟩ .instr
        ⟨.test, c, ticks, ticks, (readRegisters c.mem (c.arg 0)).ebx / 10#32⟩
  | wait {c : Cpu} {ticks start wait : Word} : ticks - start < wait →
      SleepStep ⟨.test, c, ticks, start, wait⟩ .instr ⟨.halt, c, ticks, start, wait⟩
  | hlt {c : Cpu} {ticks start wait : Word} :
      SleepStep ⟨.halt, c, ticks, start, wait⟩ .instr ⟨.halted, c, ticks, start, wait⟩
  | done {c e : Cpu} {ticks start wait : Word} : ¬ ticks - start < wait → Returned c e →
      e.mem = setEax c.mem (c.arg 0) 0#32 → e.interruptFlag = c.interruptFlag →
      SleepStep ⟨.test, c, ticks, start, wait⟩ .instr
        ⟨.restoring syscallRestore, e, ticks, start, wait⟩
  | restore {op : SyscallOp} {ops : List SyscallOp} {c : Cpu} {ticks start wait : Word} :
      SleepStep ⟨.restoring (op :: ops), c, ticks, start, wait⟩ .instr
        ⟨.restoring ops, step op c, ticks, start, wait⟩
  | back {c : Cpu} {ticks start wait : Word} :
      SleepStep ⟨.restoring [], c, ticks, start, wait⟩ .instr ⟨.returned, c, ticks, start, wait⟩
  | wake {c : Cpu} {ticks start wait : Word} : c.interruptFlag = true →
      SleepStep ⟨.halted, c, ticks, start, wait⟩ .tick ⟨.test, c, ticks + 1#32, start, wait⟩
  | tick {p : SleepPoint} {c : Cpu} {ticks start wait : Word} : c.interruptFlag = true →
      p ≠ .halted →
      SleepStep ⟨p, c, ticks, start, wait⟩ .tick ⟨p, c, ticks + 1#32, start, wait⟩

/-- The registers of the code that calls `sys_sleep(ms)`. -/
def sleepCall (c : Cpu) (ms : Word) : Cpu := (c.setReg .eax SYS_SLEEP).setReg .ebx ms

/-- The calls of `sys_sleep(ms)` from `c`. -/
def sleepSystem (c : Cpu) (ms ticks : Word) : TransitionSystem SleepState SleepEvent where
  init := fun s => s.point = .user ∧ s.cpu = sleepCall c ms ∧ s.systemTicks = ticks
  step := SleepStep ret tss idt

end Steps

/-- `hlt` is executed only with interrupts enabled. -/
def HaltsEnabled (S : TransitionSystem SleepState SleepEvent) : Prop :=
  ∀ s, S.Reachable s → s.point = .halt → s.cpu.interruptFlag = true

/-! ## The way to the loop -/

theorem gateEntry_syscall (entry : Word) (idt : Byte → IdtEntry) (tss : Tss) (c : Cpu) :
    gateEntry ((syscallInit entry idt).2 0x80#8) tss c = interruptEntry tss none c := by
  have hflags : ((syscallInit entry idt).2 0x80#8).flags = 0xEE#8 := rfl
  unfold gateEntry
  rw [hflags]
  exact if_neg (by decide)

/-- An interrupt gate clears the interrupt flag. -/
theorem interruptFlag_interruptEntry (tss : Tss) (err : Option Word) (c : Cpu) :
    (interruptEntry tss err c).interruptFlag = false := by
  change (c.eflags &&& ~~~0x34300#32).getLsbD 9 = false
  rw [BitVec.getLsbD_and, show (~~~0x34300#32 : Word).getLsbD 9 = false from rfl, Bool.and_false]

/-- No instruction in front of the call sets it. -/
theorem interruptFlag_saving {op : SyscallOp} (h : op ∈ syscallSave ++ [.plain (.push .esp)])
    {c : Cpu} (hc : c.interruptFlag = false) : (step op c).interruptFlag = false := by
  simp only [syscallSave, List.cons_append, List.nil_append, List.mem_cons, List.not_mem_nil,
    or_false] at h
  rcases h with rfl | h
  · change (c.eflags &&& ~~~0x200#32).getLsbD 9 = false
    rw [BitVec.getLsbD_and, show (~~~0x200#32 : Word).getLsbD 9 = false from rfl, Bool.and_false]
  · rcases h with rfl | rfl | rfl | rfl | rfl | rfl | rfl | rfl | rfl <;> exact hc

/-- The instructions in front of the call. -/
def callPrefix : List SyscallOp := syscallSave ++ [.plain (.push .esp)]

/-! ## The invariant -/

section Run
variable (ret : Word) (tss : Tss) (c : Cpu) (ms : Word)

/-- Up to the loop the registers are those of the interrupted code's way to the handler, with
interrupts disabled, so that no tick comes. The code behind the loop is reached only when
there is nothing to wait for. -/
def SleepInv (s : SleepState) : Prop :=
  match s.point with
  | .user => s.cpu = sleepCall c ms
  | .saving ops => s.cpu.interruptFlag = false ∧
      ∃ rest, ops = rest ++ .call .syscallHandler ret :: syscallRestore ∧ rest ⊆ callPrefix ∧
        (runOps rest s.cpu).push ret = handlerEntry ret tss (sleepCall c ms)
  | .entered => s.cpu = handlerEntry ret tss (sleepCall c ms) ∧ s.cpu.interruptFlag = false
  | .test => s.cpu = handlerEntry ret tss (sleepCall c ms) ∧ s.cpu.interruptFlag = false ∧
      s.ticksToWait = ms / 10#32 ∧ s.start = s.systemTicks
  | .halt => s.cpu.interruptFlag = false ∧ 0#32 < ms / 10#32
  | .halted => s.cpu.interruptFlag = false ∧ 0#32 < ms / 10#32
  | .restoring _ => ¬ 0#32 < ms / 10#32
  | .returned => ¬ 0#32 < ms / 10#32

theorem handlerEntry_ebx :
    (readRegisters (handlerEntry ret tss (sleepCall c ms)).mem
      ((handlerEntry ret tss (sleepCall c ms)).arg 0)).ebx = ms :=
  (handlerEntry_called ret tss (sleepCall c ms)).registers.2.1

theorem handlerEntry_eax :
    (readRegisters (handlerEntry ret tss (sleepCall c ms)).mem
      ((handlerEntry ret tss (sleepCall c ms)).arg 0)).eax = SYS_SLEEP :=
  (handlerEntry_called ret tss (sleepCall c ms)).registers.1

variable {ret tss c ms} {entry : Word} {idt : Byte → IdtEntry} {s t : SleepState} {a : SleepEvent}

theorem SleepInv.step (h : SleepInv ret tss c ms s)
    (hstep : SleepStep ret tss (syscallInit entry idt).2 s a t) : SleepInv ret tss c ms t := by
  cases hstep with
  | @interrupt d ticks start wait =>
    have hcpu : d = sleepCall c ms := h
    subst hcpu
    rw [gateEntry_syscall]
    exact ⟨interruptFlag_interruptEntry tss none _, callPrefix, rfl, List.Subset.refl _, rfl⟩
  | @save op ops d ticks start wait hstraight =>
    -- what is left in front of the call only saves registers
    obtain ⟨hflag, rest, hops, hsub, hrun⟩ := h
    cases rest with
    | nil =>
      rw [List.nil_append, List.cons.injEq] at hops
      rw [hops.1] at hstraight
      cases hstraight
    | cons first rest =>
      rw [List.cons_append, List.cons.injEq] at hops
      obtain ⟨rfl, rfl⟩ := hops
      rw [List.cons_subset] at hsub
      exact ⟨interruptFlag_saving hsub.1 hflag, rest, rfl, hsub.2, hrun⟩
  | @call ret' ops d ticks start wait =>
    obtain ⟨hflag, rest, hops, hsub, hrun⟩ := h
    cases rest with
    | nil =>
      rw [List.nil_append, List.cons.injEq, Op.call.injEq] at hops
      obtain ⟨⟨-, rfl⟩, -⟩ := hops
      exact ⟨hrun, hflag⟩
    | cons first rest =>
      rw [List.cons_append, List.cons.injEq] at hops
      have hfirst := hsub List.mem_cons_self
      rw [← hops.1] at hfirst
      simp [callPrefix, syscallSave] at hfirst
  | enter _ =>
    obtain ⟨rfl, hflag⟩ := h
    rw [handlerEntry_ebx]
    exact ⟨rfl, hflag, rfl, rfl⟩
  | wait hlt =>
    obtain ⟨-, hflag, hwait, hstart⟩ := h
    dsimp only at hwait hstart
    rw [hwait, hstart, BitVec.sub_self] at hlt
    exact ⟨hflag, hlt⟩
  | hlt => exact h
  | done hge _ _ _ =>
    obtain ⟨-, -, hwait, hstart⟩ := h
    dsimp only at hwait hstart
    rw [hwait, hstart, BitVec.sub_self] at hge
    exact hge
  | restore => exact h
  | back => exact h
  | wake hset => exact absurd (h.1.symm.trans hset) Bool.false_ne_true
  | @tick p d ticks start wait hset _ =>
    -- no tick is delivered while the loop tests the counter
    cases p with
    | user => exact h
    | saving ops => exact h
    | entered => exact h
    | test => exact absurd (h.2.1.symm.trans hset) Bool.false_ne_true
    | halt => exact h
    | halted => exact h
    | restoring ops => exact h
    | returned => exact h

theorem sleepInv_reachable {ticks : Word}
    (h : (sleepSystem ret tss (syscallInit entry idt).2 c ms ticks).Reachable s) :
    SleepInv ret tss c ms s := by
  refine h.invariant (P := SleepInv ret tss c ms) ?_ fun s a t _ hs hstep => hs.step hstep
  rintro s ⟨hpoint, hcpu, _⟩
  unfold SleepInv
  rw [hpoint]
  exact hcpu

end Run

/-! ## The way to hlt -/

section Way
variable {ret : Word} {tss : Tss} {idt : Byte → IdtEntry} {c : Cpu} {ms ticks₀ : Word}

theorem sleep_step {s t : SleepState} {a : SleepEvent}
    (h : (sleepSystem ret tss idt c ms ticks₀).Reachable s) (hstep : SleepStep ret tss idt s a t) :
    (sleepSystem ret tss idt c ms ticks₀).Reachable t := h.step hstep

/-- Straight-line code of the stub. -/
theorem saving_reachable (ops rest : List SyscallOp) (hops : ops.all Op.straight = true) {d : Cpu}
    {ticks start wait : Word}
    (h : (sleepSystem ret tss idt c ms ticks₀).Reachable
      ⟨.saving (ops ++ rest), d, ticks, start, wait⟩) :
    (sleepSystem ret tss idt c ms ticks₀).Reachable
      ⟨.saving rest, runOps ops d, ticks, start, wait⟩ := by
  induction ops generalizing d with
  | nil => exact h
  | cons op ops ih =>
    rw [List.all_cons, Bool.and_eq_true] at hops
    exact ih hops.2 (sleep_step h (SleepStep.save hops.1))

theorem restoring_reachable (ops : List SyscallOp) {d : Cpu} {ticks start wait : Word}
    (h : (sleepSystem ret tss idt c ms ticks₀).Reachable
      ⟨.restoring ops, d, ticks, start, wait⟩) :
    (sleepSystem ret tss idt c ms ticks₀).Reachable
      ⟨.returned, runOps ops d, ticks, start, wait⟩ := by
  induction ops generalizing d with
  | nil => exact sleep_step h SleepStep.back
  | cons op ops ih => exact ih (sleep_step h SleepStep.restore)

end Way

section Results
variable (ret : Word) (tss : Tss) (entry : Word) (idt : Byte → IdtEntry) (c : Cpu) (ms ticks : Word)

/-- Every call comes to the condition of the loop, in the tick in which it was made. -/
theorem test_reachable :
    (sleepSystem ret tss (syscallInit entry idt).2 c ms ticks).Reachable
      ⟨.test, handlerEntry ret tss (sleepCall c ms), ticks, ticks, ms / 10#32⟩ := by
  have huser : (sleepSystem ret tss (syscallInit entry idt).2 c ms ticks).Reachable
      ⟨.user, sleepCall c ms, ticks, 0#32, 0#32⟩ := .init ⟨rfl, rfl, rfl⟩
  have hsaving := sleep_step huser SleepStep.interrupt
  rw [gateEntry_syscall] at hsaving
  have hcall := saving_reachable callPrefix (.call .syscallHandler ret :: syscallRestore) rfl hsaving
  have hentered : (sleepSystem ret tss (syscallInit entry idt).2 c ms ticks).Reachable
      ⟨.entered, handlerEntry ret tss (sleepCall c ms), ticks, 0#32, 0#32⟩ :=
    sleep_step hcall SleepStep.call
  have htest := sleep_step hentered (SleepStep.enter (handlerEntry_eax ret tss c ms))
  rw [handlerEntry_ebx] at htest
  exact htest

/-- The number of ticks to wait for is 0 for less than 10 ms only. -/
theorem ticksToWait_pos_iff : 0#32 < ms / 10#32 ↔ 10 ≤ ms.toNat := by
  rw [BitVec.lt_def, BitVec.toNat_udiv]
  change 0 < ms.toNat / 10 ↔ _
  omega

/-- Interrupts are enabled at every `hlt` exactly for calls of less than 10 ms, which execute
none. -/
theorem sleep_halts_enabled_iff :
    HaltsEnabled (sleepSystem ret tss (syscallInit entry idt).2 c ms ticks) ↔ ms.toNat < 10 := by
  constructor
  · intro h
    rcases Nat.lt_or_ge ms.toNat 10 with hlt | hge
    · exact hlt
    · have hwait : ticks - ticks < ms / 10#32 := by
        rw [BitVec.sub_self, ticksToWait_pos_iff]
        exact hge
      have hhalt := sleep_step (test_reachable ret tss entry idt c ms ticks) (SleepStep.wait hwait)
      have hset := h _ hhalt rfl
      exact absurd ((sleepInv_reachable hhalt).1.symm.trans hset) Bool.false_ne_true
  · rintro hlt s hs hpoint
    have hinv := sleepInv_reachable hs
    unfold SleepInv at hinv
    rw [hpoint] at hinv
    have hpos := (ticksToWait_pos_iff ms).mp hinv.2
    omega

/-- A call of 10 ms or more never comes back. -/
theorem sleep_never_returns (h : 10 ≤ ms.toNat) {s : SleepState}
    (hs : (sleepSystem ret tss (syscallInit entry idt).2 c ms ticks).Reachable s) :
    s.point ≠ .returned := by
  intro hpoint
  have hinv := sleepInv_reachable hs
  unfold SleepInv at hinv
  rw [hpoint] at hinv
  exact hinv ((ticksToWait_pos_iff ms).mpr h)

/-- A shorter call can come back, with 0 in `eax`. -/
theorem sleep_returns (hseg : FlatSegments c) (h : ms.toNat < 10) :
    ∃ s, (sleepSystem ret tss (syscallInit entry idt).2 c ms ticks).Reachable s ∧
      s.point = .returned ∧ AfterSyscall (sleepCall c ms) s.cpu 0#32 := by
  have hcalled := handlerEntry_called ret tss (sleepCall c ms)
  have htest := test_reachable ret tss entry idt c ms ticks
  generalize handlerEntry ret tss (sleepCall c ms) = f at hcalled htest
  have hwait : ¬ ticks - ticks < ms / 10#32 := by
    rw [BitVec.sub_self, ticksToWait_pos_iff]
    omega
  have hret := returned_returnFrom f (setEax f.mem (f.arg 0) 0#32)
  have hrestoring := sleep_step htest (SleepStep.done hwait hret rfl rfl)
  refine ⟨_, restoring_reachable syscallRestore hrestoring, rfl, ?_⟩
  exact AfterSyscall.of_frame hseg hcalled hret
    (hcalled.frame_setEax (fun _ _ => rfl) fun _ _ => rfl)

end Results

/-- 10 ms, from user code with interrupts enabled. -/
theorem sleep_halts_disabled :
    ¬ ∀ (ret : Word) (tss : Tss) (entry : Word) (idt : Byte → IdtEntry) (c : Cpu) (ms ticks : Word),
      HaltsEnabled (sleepSystem ret tss (syscallInit entry idt).2 c ms ticks) := by
  intro h
  have htest := test_reachable 0x101000#32 ⟨0x90000#32, 0x10#16⟩ 0x100F00#32
    (fun _ => ⟨0#16, 0#16, 0#8, 0#8, 0#16⟩) userCode 10#32 0#32
  have hhalt := sleep_step htest (SleepStep.wait (by decide))
  have hset := h _ _ _ _ _ _ _ _ hhalt rfl
  exact absurd ((sleepInv_reachable hhalt).1.symm.trans hset) Bool.false_ne_true

end Zenix
