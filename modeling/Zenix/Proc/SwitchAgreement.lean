import Zenix.Proc.ProcessCreate
import Zenix.Proc.SwitchContext

/-!
# Does a context switch continue the next process?

A process is in one of two states when it is switched to: `process_create` has
just built its registers record, or an earlier `switch_context` has saved it.

Results:
1. `holdsContext_created`, `holdsContext_saved`: both leave a context that says
   where the process is to go on.
2. `switch_never_agrees`: `switch_context` saves the previous process and goes on
   at neither place for the next one.
-/

namespace Zenix
open ByteMemory FirstFit X86

/-- How the context of a process came about. -/
inductive Context where
  | fresh (entryPoint kernelStack : Word)
  | saved (u : Machine) (ret : Word)

/-- The stack pointer with which the process is to go on. -/
def Context.esp : Context → Word
  | .fresh _ kernelStack => kernelStack
  | .saved u _ => u.reg .esp + 4#32

/-- The record at `regs` holds the context. The stack of a fresh process lies
outside its `process_t`, whose registers record starts at offset 40, and the
stack of a saved one outside its registers record. -/
def HoldsContext (m : Mem) (regs : Word) : Context → Prop
  | .fresh entryPoint kernelStack =>
      FreshContext m regs entryPoint kernelStack ∧
        40 ≤ regs.toNat ∧ regs.toNat + 80 ≤ 2 ^ 32 ∧
        (kernelStack.toNat + 40 ≤ regs.toNat ∨ regs.toNat + 80 + 4096 ≤ kernelStack.toNat)
  | .saved u ret => SavedContext m regs u ret ∧ FrameOff u regs

/-- The machine goes on where the context says. -/
def Continues (t : Machine) : Context → Prop
  | .fresh entryPoint kernelStack => t.eip = entryPoint ∧ t.reg .esp = kernelStack
  | .saved u ret => ResumesAt t u ret

/-- The context of a process that `process_create` has built. -/
theorem holdsContext_created {s t : Procs} {bs : List Block} {r k : Block}
    {proc entryPoint : Word} (h : Created s t bs r k proc entryPoint) :
    HoldsContext t.heap.mem (procRegs proc)
      (.fresh entryPoint (procKernelStack t.heap.mem proc)) := by
  have hr : r ∈ k :: r :: bs := by simp
  have hk : k ∈ k :: r :: bs := by simp
  have hne : k ≠ r := fun heq => h.freshStack (heq ▸ List.mem_cons_self)
  have hrbd := h.owns.bounds hr
  have hkbd := h.owns.bounds hk
  have hdis := h.owns.disjoint hk hr hne
  have hrecord := h.record
  have hstack := h.stack
  have hpa : proc.toNat = r.addr + 12 := by rw [h.isPayload, h.owns.payload_toNat hr]
  have hregs : (procRegs proc).toNat = proc.toNat + 40 := toNat_add_ofNat (by omega)
  have hkpay := h.owns.payload_toNat hk
  have hktop : (payload k + KERNEL_STACK_SIZE).toNat = (payload k).toNat + 4096 :=
    toNat_add_ofNat (by omega)
  rw [h.kernelStack]
  exact ⟨h.context, by omega, by omega, by omega⟩

/-- The context of a process that an earlier call has saved. -/
theorem holdsContext_saved {c : Machine} {ret old new : Word} (hf : CallFrame c ret old new)
    (ho : FrameOff c old) : HoldsContext (run switchContext c).mem old (.saved c ret) :=
  ⟨switchContext_saves hf ho, ho⟩

theorem Continues.esp {t : Machine} {ctx : Context} (h : Continues t ctx) :
    t.reg .esp = ctx.esp := by
  cases ctx with
  | fresh entryPoint kernelStack => exact h.2
  | saved u ret => exact ResumesAt.esp h

/-- No context has its stack 24 bytes into its own registers record. -/
theorem HoldsContext.esp_ne {m : Mem} {regs : Word} {ctx : Context} (h : HoldsContext m regs ctx) :
    ctx.esp ≠ regs + 24#32 := by
  intro heq
  have heq := congrArg BitVec.toNat heq
  cases ctx with
  | fresh entryPoint kernelStack =>
    obtain ⟨_, h40, hfits, hoff⟩ := h
    have h24 : (regs + 24#32).toNat = regs.toNat + 24 := toNat_add_ofNat (by omega)
    rw [h24] at heq
    simp only [Context.esp] at heq
    omega
  | saved u ret =>
    obtain ⟨_, hframe⟩ := h
    have hroom := hframe.room
    have hoff := hframe.off
    have hfits := hframe.fits
    have h24 : (regs + 24#32).toNat = regs.toNat + 24 := toNat_add_ofNat (by omega)
    have h4 : (u.reg .esp + 4#32).toNat = (u.reg .esp).toNat + 4 := toNat_add_ofNat (by omega)
    rw [h24, Context.esp, h4] at heq
    omega

theorem not_continues {c : Machine} {ret old new : Word} {ctx : Context}
    (hf : CallFrame c ret old new) (ho : FrameOff c old) (hctx : HoldsContext c.mem new ctx) :
    ¬ Continues (run switchContext c) ctx := by
  intro h
  exact hctx.esp_ne (h.esp.symm.trans (switchContext_mem hf ho).2.1)

/-- Whatever the registers and the stack hold and whichever way the context of the
next process came about, the call saves the previous process and does not
continue the next one. -/
theorem switch_never_agrees {c : Machine} {ret old new : Word} {ctx : Context}
    (hf : CallFrame c ret old new) (ho : FrameOff c old) (hctx : HoldsContext c.mem new ctx) :
    SavedContext (run switchContext c).mem old c ret ∧ ¬ Continues (run switchContext c) ctx :=
  ⟨switchContext_saves hf ho, not_continues hf ho hctx⟩

/-! ## A fresh process -/

/-- A machine about to switch from the process at 0x400800 to a fresh one at
0x401000 with entry point 0x100000 and kernel stack 0x404000. -/
def freshCall : Machine where
  reg := fun _ => 0x9000#32
  eip := 0x100040#32
  eflags := 0x202#32
  mem :=
    let m := initRegs (fun _ => 0#8) 0x401028#32 0x100000#32 0x404000#32
    let m := store32 m 0x9000#32 0x100080#32
    let m := store32 m 0x9004#32 0x400828#32
    store32 m 0x9008#32 0x401028#32

theorem freshCall_frame : CallFrame freshCall 0x100080#32 0x400828#32 0x401028#32 :=
  ⟨by decide, by decide, by decide⟩

theorem freshCall_off : FrameOff freshCall 0x400828#32 := ⟨by decide, by decide, by decide⟩

theorem freshCall_context :
    HoldsContext freshCall.mem 0x401028#32 (.fresh 0x100000#32 0x404000#32) := by
  refine ⟨?_, by decide, by decide, by decide⟩
  have hfresh := initRegs_fresh (m := fun _ => 0#8) (r := 0x401028#32) 0x100000#32 0x404000#32
    (by decide)
  have hpush : ∀ (m : Mem) (a v : Word), a.toNat + 4 ≤ 0x401028 →
      SameOn m (store32 m a v) 0x401028 (0x401028 + 64) :=
    fun m a v ha => (store32_sameOff (by omega)).sameOn (Or.inr ha)
  exact ((hfresh.congr (hpush _ 0x9000#32 _ (by decide)) (by decide)).congr
    (hpush _ 0x9004#32 _ (by decide)) (by decide)).congr (hpush _ 0x9008#32 _ (by decide))
    (by decide)

theorem switch_never_agrees_fresh :
    SavedContext (run switchContext freshCall).mem 0x400828#32 freshCall 0x100080#32 ∧
      ¬ Continues (run switchContext freshCall) (.fresh 0x100000#32 0x404000#32) :=
  switch_never_agrees freshCall_frame freshCall_off freshCall_context

/-- The fresh process is not started at its entry point on its kernel stack. -/
theorem fresh_process_lost :
    CallFrame freshCall 0x100080#32 0x400828#32 0x401028#32 ∧
      FreshContext freshCall.mem 0x401028#32 0x100000#32 0x404000#32 ∧
      ¬ ((run switchContext freshCall).eip = 0x100000#32 ∧
        (run switchContext freshCall).reg .esp = 0x404000#32) :=
  ⟨freshCall_frame, freshCall_context.1,
    not_continues freshCall_frame freshCall_off freshCall_context⟩

end Zenix
