import Zenix.Lib.Memory

/-!
# A fragment of 32-bit x86

Straight-line code on the general registers, EFLAGS and memory. Only `ret` sets
`eip`: a fragment is run as the list of its instructions. `popf` loads all of
EFLAGS, as it does in ring 0 for the flags that a `pushf` has stored.

Results:
1. `run_append`: running code one part after the other.
2. `reg_setReg`, `push_*`, `pop_*`: what the building blocks read and write.
-/

namespace X86
open ByteMemory

inductive Reg where
  | eax | ecx | edx | ebx | esp | ebp | esi | edi
deriving DecidableEq, Repr

structure Machine where
  reg : Reg → Word
  eip : Word
  eflags : Word
  mem : Mem

inductive Instr where
  | push (src : Reg)
  | pop (dst : Reg)
  | pushf
  | popf
  | mov (dst src : Reg)
  /-- `mov dst, [base + disp]`. -/
  | load (dst base : Reg) (disp : Word)
  /-- `mov [base + disp], src`. -/
  | store (base : Reg) (disp : Word) (src : Reg)
  | ret
deriving DecidableEq, Repr

namespace Machine

def setReg (c : Machine) (r : Reg) (v : Word) : Machine :=
  { c with reg := fun q => if q = r then v else c.reg q }

def setMem (c : Machine) (m : Mem) : Machine := { c with mem := m }

/-- Push a value. -/
def push (c : Machine) (v : Word) : Machine :=
  (c.setReg .esp (c.reg .esp - 4#32)).setMem (store32 c.mem (c.reg .esp - 4#32) v)

/-- The word on top of the stack. -/
def top (c : Machine) : Word := load32 c.mem (c.reg .esp)

/-- Drop the word on top of the stack. -/
def drop (c : Machine) : Machine := c.setReg .esp (c.reg .esp + 4#32)

end Machine

open Machine

def exec : Instr → Machine → Machine
  | .push src, c => c.push (c.reg src)
  | .pop dst, c => c.drop.setReg dst c.top
  | .pushf, c => c.push c.eflags
  | .popf, c => { c.drop with eflags := c.top }
  | .mov dst src, c => c.setReg dst (c.reg src)
  | .load dst base disp, c => c.setReg dst (load32 c.mem (c.reg base + disp))
  | .store base disp src, c => c.setMem (store32 c.mem (c.reg base + disp) (c.reg src))
  | .ret, c => { c.drop with eip := c.top }

def run : List Instr → Machine → Machine
  | [], c => c
  | i :: is, c => run is (exec i c)

theorem run_append (is js : List Instr) (c : Machine) : run (is ++ js) c = run js (run is c) := by
  induction is generalizing c with
  | nil => rfl
  | cons i is ih => exact ih _

/-! ## Building blocks -/

variable (c : Machine)

@[simp] theorem reg_setReg (r q : Reg) (v : Word) :
    (c.setReg r v).reg q = if q = r then v else c.reg q := rfl
@[simp] theorem mem_setReg (r : Reg) (v : Word) : (c.setReg r v).mem = c.mem := rfl
@[simp] theorem eflags_setReg (r : Reg) (v : Word) : (c.setReg r v).eflags = c.eflags := rfl
@[simp] theorem eip_setReg (r : Reg) (v : Word) : (c.setReg r v).eip = c.eip := rfl
@[simp] theorem reg_setMem (m : Mem) : (c.setMem m).reg = c.reg := rfl
@[simp] theorem mem_setMem (m : Mem) : (c.setMem m).mem = m := rfl
@[simp] theorem eflags_setMem (m : Mem) : (c.setMem m).eflags = c.eflags := rfl
@[simp] theorem eip_setMem (m : Mem) : (c.setMem m).eip = c.eip := rfl

@[simp] theorem reg_push (v : Word) (q : Reg) :
    (c.push v).reg q = if q = .esp then c.reg .esp - 4#32 else c.reg q := rfl
@[simp] theorem mem_push (v : Word) : (c.push v).mem = store32 c.mem (c.reg .esp - 4#32) v := rfl
@[simp] theorem eflags_push (v : Word) : (c.push v).eflags = c.eflags := rfl
@[simp] theorem eip_push (v : Word) : (c.push v).eip = c.eip := rfl

@[simp] theorem reg_drop (q : Reg) :
    c.drop.reg q = if q = .esp then c.reg .esp + 4#32 else c.reg q := rfl
@[simp] theorem mem_drop : c.drop.mem = c.mem := rfl
@[simp] theorem eflags_drop : c.drop.eflags = c.eflags := rfl
@[simp] theorem eip_drop : c.drop.eip = c.eip := rfl

end X86
