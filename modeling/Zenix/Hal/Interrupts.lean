import Zenix.Lib.Memory

/-!
# Interrupt handlers (kernel/hal/isr.c, kernel/hal/irq.c)

The C side of an interrupt: the record `registers_t` that a handler gets a
pointer to, the two handler tables, and what `isr_handler` and `irq_handler` do
with them. A handler is an element of an arbitrary type `H`.
-/

namespace Zenix
open ByteMemory

/-- `registers_t`. -/
structure Registers where
  ds : Word
  edi : Word
  esi : Word
  ebp : Word
  esp : Word
  ebx : Word
  edx : Word
  ecx : Word
  eax : Word
  intNo : Word
  errCode : Word
  eip : Word
  cs : Word
  eflags : Word
  useresp : Word
  ss : Word

/-- The record at `p`. -/
def readRegisters (m : Mem) (p : Word) : Registers where
  ds := load32 m p
  edi := load32 m (p + 4#32)
  esi := load32 m (p + 8#32)
  ebp := load32 m (p + 12#32)
  esp := load32 m (p + 16#32)
  ebx := load32 m (p + 20#32)
  edx := load32 m (p + 24#32)
  ecx := load32 m (p + 28#32)
  eax := load32 m (p + 32#32)
  intNo := load32 m (p + 36#32)
  errCode := load32 m (p + 40#32)
  eip := load32 m (p + 44#32)
  cs := load32 m (p + 48#32)
  eflags := load32 m (p + 52#32)
  useresp := load32 m (p + 56#32)
  ss := load32 m (p + 60#32)

section Handlers
variable {H : Type}

/-! ## Exceptions -/

def exceptionMessages : List String :=
  [ "Division By Zero", "Debug", "Non Maskable Interrupt", "Breakpoint", "Overflow",
    "Bound Range Exceeded", "Invalid Opcode", "Device Not Available", "Double Fault",
    "Coprocessor Segment Overrun", "Invalid TSS", "Segment Not Present", "Stack-Segment Fault",
    "General Protection Fault", "Page Fault", "Reserved", "x87 Floating-Point Exception",
    "Alignment Check", "Machine Check", "SIMD Floating-Point Exception", "Virtualization Exception",
    "Reserved", "Reserved", "Reserved", "Reserved", "Reserved", "Reserved", "Reserved", "Reserved",
    "Reserved", "Security Exception", "Reserved" ]

/-- What `isr_handler` does: it calls a handler, or prints what it was given and
halts. -/
inductive IsrOutcome (H : Type) where
  | handled (handler : H)
  | halted (message : String) (number errCode eip cs eflags : Word)

/-- `interrupt_handlers[int_no]` is outside the table for numbers from 256 on. -/
def isrHandler (handlers : Fin 256 → Option H) (regs : Registers) : Option (IsrOutcome H) :=
  if h : regs.intNo.toNat < 256 then
    match handlers ⟨regs.intNo.toNat, h⟩ with
    | some handler => some (.handled handler)
    | none =>
        let message := exceptionMessages.getD regs.intNo.toNat "Unknown"
        some (.halted message regs.intNo regs.errCode regs.eip regs.cs regs.eflags)
  else none

/-! ## Hardware interrupts -/

/-- `irq_register_handler`. -/
def irqRegisterHandler (irq : BitVec 8) (handler : H) (handlers : Fin 16 → Option H) :
    Fin 16 → Option H :=
  fun i => if irq.toNat = i then some handler else handlers i

/-- The handler that `irq_handler` calls, and its calls of `pic_send_eoi`. -/
structure IrqOutcome (H : Type) where
  handler : Option H
  eoi : List (BitVec 8)

/-- `picGetIsr` is the in-service state that the interrupt controller reports. -/
def irqHandler (handlers : Fin 16 → Option H) (picGetIsr : BitVec 8 → Bool) (intNo : Word) :
    IrqOutcome H :=
  if intNo = 39#32 ∧ picGetIsr 7#8 = false then ⟨none, []⟩
  else if intNo = 47#32 ∧ picGetIsr 15#8 = false then ⟨none, [2#8]⟩
  else
    let irqNum := (intNo - 32#32).setWidth 8
    ⟨if h : irqNum.toNat < 16 then handlers ⟨irqNum.toNat, h⟩ else none, [irqNum]⟩

/-- Interrupt line `n` is reported although the controller has none in service. -/
def Spurious (picGetIsr : BitVec 8 → Bool) (n : Fin 16) : Prop :=
  (n = 7 ∧ picGetIsr 7#8 = false) ∨ (n = 15 ∧ picGetIsr 15#8 = false)

instance (picGetIsr : BitVec 8 → Bool) (n : Fin 16) : Decidable (Spurious picGetIsr n) :=
  inferInstanceAs (Decidable (_ ∨ _))

/-- The number that the stub of interrupt line `n` pushes. -/
def irqVector (n : Fin 16) : Word := BitVec.ofNat 32 (32 + n)

/-- Interrupt line `n` reaches its handler, unless it is spurious. -/
theorem irqHandler_vector (handlers : Fin 16 → Option H) (picGetIsr : BitVec 8 → Bool)
    (n : Fin 16) :
    (irqHandler handlers picGetIsr (irqVector n)).handler =
      if Spurious picGetIsr n then none else handlers n := by
  have hn : n.val < 16 := n.isLt
  have hvec : (irqVector n).toNat = 32 + n.val := toNat_ofNat_of_lt (by omega)
  have h39 : irqVector n = 39#32 ↔ n = 7 := by
    rw [← BitVec.toNat_inj, hvec, Fin.ext_iff]
    show 32 + n.val = 39 ↔ n.val = 7
    omega
  have h47 : irqVector n = 47#32 ↔ n = 15 := by
    rw [← BitVec.toNat_inj, hvec, Fin.ext_iff]
    show 32 + n.val = 47 ↔ n.val = 15
    omega
  have hnum : ((irqVector n - 32#32).setWidth 8).toNat = n.val := by
    rw [BitVec.toNat_setWidth, BitVec.toNat_sub, hvec, show (32#32).toNat = 32 from rfl]
    omega
  unfold irqHandler
  split
  · next h =>
    have hspur : Spurious picGetIsr n := Or.inl ⟨h39.mp h.1, h.2⟩
    rw [if_pos hspur]
  · next h =>
    split
    · next h' =>
      have hspur : Spurious picGetIsr n := Or.inr ⟨h47.mp h'.1, h'.2⟩
      rw [if_pos hspur]
    · next h' =>
      have hreal : ¬ Spurious picGetIsr n := by
        rintro (hs | hs)
        · exact h ⟨h39.mpr hs.1, hs.2⟩
        · exact h' ⟨h47.mpr hs.1, hs.2⟩
      rw [if_neg hreal]
      dsimp only
      rw [dif_pos (by omega)]
      exact congrArg handlers (Fin.ext hnum)

/-- An exception with a registered handler reaches it. -/
theorem isrHandler_vector {handlers : Fin 256 → Option H} {regs : Registers} {n : Fin 32} {h : H}
    (hn : regs.intNo = BitVec.ofNat 32 n) (hh : handlers (n.castLE (by decide)) = some h) :
    isrHandler handlers regs = some (.handled h) := by
  have hlt : n.val < 32 := n.isLt
  have hnat : regs.intNo.toNat = n.val := by
    rw [hn]
    exact toNat_ofNat_of_lt (by omega)
  have hidx : handlers ⟨regs.intNo.toNat, by omega⟩ = some h := by
    rw [← hh]
    exact congrArg handlers (Fin.ext hnat)
  unfold isrHandler
  rw [dif_pos (by omega), hidx]

end Handlers

end Zenix
