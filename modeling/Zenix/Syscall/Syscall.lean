import Zenix.Hal.Interrupts

/-!
# System calls (kernel/syscall/syscall.c, kernel/hal/idt.c)

The table of system calls, the C handler of `int 0x80` and the gate that leads to it. A
system call is an arbitrary function on the memory that returns a word.

Results:
1. `syscallHandler_registered`, `syscallHandler_rejected`: the two ways through the handler.
2. `idtSetGate_base`: the gate leads to the address it was set to.
-/

namespace Zenix
open ByteMemory

def SYS_SLEEP : Word := 4#32

def MAX_SYSCALLS : Nat := 256

/-! ## The gate -/

/-- `struct idt_entry`. -/
structure IdtEntry where
  baseLow : BitVec 16
  selector : BitVec 16
  always0 : Byte
  flags : Byte
  baseHigh : BitVec 16

def idtSetGate (num : Byte) (base : Word) (selector : BitVec 16) (flags : Byte)
    (idt : Byte → IdtEntry) : Byte → IdtEntry :=
  fun n => if n = num then
      { baseLow := (base &&& 0xFFFF#32).setWidth 16
        selector := selector
        always0 := 0#8
        flags := flags
        baseHigh := ((base >>> 16) &&& 0xFFFF#32).setWidth 16 }
    else idt n

/-- Where the processor continues. -/
def IdtEntry.base (e : IdtEntry) : Word := e.baseHigh ++ e.baseLow

theorem idtSetGate_base (num : Byte) (base : Word) (selector : BitVec 16) (flags : Byte)
    (idt : Byte → IdtEntry) : (idtSetGate num base selector flags idt num).base = base := by
  unfold IdtEntry.base idtSetGate
  rw [if_pos rfl]
  ext i hi
  simp only [BitVec.getElem_append, BitVec.getElem_setWidth, BitVec.getLsbD_and,
    BitVec.getLsbD_ushiftRight]
  have hmask : ∀ k : Nat, k < 16 → (0xFFFF#32 : Word).getLsbD k = true := by decide
  split
  · next h => rw [hmask i h, Bool.and_true, BitVec.getLsbD_eq_getElem]
  · next h =>
    rw [hmask (i - 16) (by omega), Bool.and_true, show 16 + (i - 16) = i by omega,
      BitVec.getLsbD_eq_getElem]

/-! ## The table -/

/-- A system call: the returned word and the memory after it. -/
abbrev SyscallFn := Word → Word → Word → Word → Word → Mem → Word × Mem

abbrev SyscallTable := Fin MAX_SYSCALLS → Option SyscallFn

/-- `syscall_init`; `entry` is the address of `syscall_entry`. -/
def syscallInit (entry : Word) (idt : Byte → IdtEntry) : SyscallTable × (Byte → IdtEntry) :=
  (fun _ => none, idtSetGate 0x80#8 entry 0x08#16 0xEE#8 idt)

def syscallRegister (num : Word) (handler : SyscallFn) (table : SyscallTable) : SyscallTable :=
  fun i => if num.toNat = i then some handler else table i

/-! ## The handler -/

/-- The call of a system call. -/
structure SyscallCall where
  number : Fin MAX_SYSCALLS
  a1 : Word
  a2 : Word
  a3 : Word
  a4 : Word
  a5 : Word

/-- The memory when the handler returns, and what it has called. -/
structure SyscallOutcome where
  mem : Mem
  called : Option SyscallCall

/-- `regs->eax = v`. -/
def setEax (m : Mem) (regs v : Word) : Mem := store32 m (regs + 32#32) v

def syscallHandler (table : SyscallTable) (regs : Word) (m : Mem) : SyscallOutcome :=
  let r := readRegisters m regs
  if h : r.eax.toNat < MAX_SYSCALLS then
    match table ⟨r.eax.toNat, h⟩ with
    | none => ⟨setEax m regs (-1#32), none⟩
    | some handler =>
        let ret := handler r.ebx r.ecx r.edx r.esi r.edi m
        ⟨setEax ret.2 regs ret.1, some ⟨⟨r.eax.toNat, h⟩, r.ebx, r.ecx, r.edx, r.esi, r.edi⟩⟩
  else ⟨setEax m regs (-1#32), none⟩

/-- The system call with this number, if there is one. -/
def registered (table : SyscallTable) (num : Word) : Option SyscallFn :=
  if h : num.toNat < MAX_SYSCALLS then table ⟨num.toNat, h⟩ else none

theorem registered_syscallRegister (num : Word) (handler : SyscallFn) (table : SyscallTable) (n : Word) :
    registered (syscallRegister num handler table) n =
      if n = num ∧ n.toNat < MAX_SYSCALLS then some handler else registered table n := by
  unfold registered syscallRegister
  split
  · next h =>
    rcases Decidable.em (n = num) with rfl | hne
    · rw [if_pos rfl, if_pos ⟨rfl, h⟩]
    · rw [if_neg fun he => hne (BitVec.eq_of_toNat_eq he.symm), if_neg fun hn => hne hn.1]
  · next h => rw [if_neg fun hn => h hn.2]

section Handler
variable {table : SyscallTable} {regs : Word} {m : Mem}

/-- A registered number: the system call gets the five registers, and its result replaces
the saved `eax`. -/
theorem syscallHandler_registered {handler : SyscallFn}
    (h : registered table (readRegisters m regs).eax = some handler) :
    ∃ call : SyscallCall, (syscallHandler table regs m).called = some call ∧
      BitVec.ofNat 32 call.number = (readRegisters m regs).eax ∧
      call.a1 = (readRegisters m regs).ebx ∧ call.a2 = (readRegisters m regs).ecx ∧
      call.a3 = (readRegisters m regs).edx ∧ call.a4 = (readRegisters m regs).esi ∧
      call.a5 = (readRegisters m regs).edi ∧
      (syscallHandler table regs m).mem =
        setEax (handler call.a1 call.a2 call.a3 call.a4 call.a5 m).2 regs
          (handler call.a1 call.a2 call.a3 call.a4 call.a5 m).1 := by
  unfold registered at h
  unfold syscallHandler
  split at h
  · next hlt =>
    dsimp only
    rw [dif_pos hlt, h]
    exact ⟨_, rfl, BitVec.ofNat_toNat 32 _, rfl, rfl, rfl, rfl, rfl, rfl⟩
  · cases h

theorem syscallHandler_rejected (h : registered table (readRegisters m regs).eax = none) :
    syscallHandler table regs m = ⟨setEax m regs (-1#32), none⟩ := by
  unfold registered at h
  unfold syscallHandler
  split at h
  · next hlt =>
    dsimp only
    rw [dif_pos hlt, h]
  · next hge => exact dif_neg hge

end Handler

end Zenix
