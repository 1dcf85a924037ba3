import Zenix.Lib.X86

/-!
# x86 code with jumps, calls and segment registers

`Op` adds to the straight-line fragment what kernel entry code uses: immediate
operands, the status flags of `test` and `add`, `pusha`, segment registers, the
interrupt flag, `iret`, jumps to labels and calls. A program maps labels to the
code from there on.

Results:
1. `runToCall_append`: straight-line code in front of other code.
2. `zeroFlag_test`: a `jz` after a `test` sees whether the tested bits are 0.
3. `StackIs.push`, `StackIs.pushAll`: what is on the stack after pushes.
4. `StackIs.congr`, `StackIs.set`: what is on the stack after other stores.
5. `iret_inner`, `iret_outer`: returning from an interrupt.
6. `load_arg`: the arguments a called function finds there.
-/

namespace X86
open ByteMemory

inductive SegReg where
  | cs | ds | es | fs | gs | ss
deriving DecidableEq, Repr

structure Cpu extends Machine where
  seg : SegReg → BitVec 16

inductive Op (Label Extern : Type) where
  | plain (i : Instr)
  | pushImm (v : Word)
  | movImm (dst : Reg) (v : Word)
  /-- `mov ax, v`: the low half of the register. -/
  | movImm16 (dst : Reg) (v : BitVec 16)
  | addImm (dst : Reg) (v : Word)
  /-- `mov [addr], src`. -/
  | storeAbs (addr : Word) (src : Reg)
  /-- `mov dword [addr], v`. -/
  | storeImm (addr v : Word)
  /-- `movzx dst, byte [base + disp]`. -/
  | movzx (dst base : Reg) (disp : Word)
  /-- `test dword [base + disp], v`. -/
  | test (base : Reg) (disp v : Word)
  | pusha
  | popa
  /-- `mov ax, ds`: the low half of the register. -/
  | movFromSeg (dst : Reg) (src : SegReg)
  | movToSeg (dst : SegReg) (src : Reg)
  | cli
  | sti
  | hlt
  | iret
  | jz (target : Label)
  | jmp (target : Label)
  /-- The return address is where the linker has put the next instruction. -/
  | call (target : Extern) (ret : Word)

/-! ## Flags -/

def evenParity (v : Word) : Bool :=
  ((List.range 8).map fun i => (v.getLsbD i).toNat).sum % 2 == 0

/-- ZF, SF and PF of a result. -/
def resultFlags (r : Word) : Word :=
  (if r = 0#32 then 0x40#32 else 0#32) ||| (if r.msb then 0x80#32 else 0#32) |||
    (if evenParity r then 0x4#32 else 0#32)

/-- `test` clears CF and OF; AF is undefined and left as it is. -/
def testFlags (eflags r : Word) : Word := (eflags &&& ~~~0x8C5#32) ||| resultFlags r

def addFlags (eflags a b : Word) : Word :=
  (eflags &&& ~~~0x8D5#32) ||| resultFlags (a + b) |||
    (if 2 ^ 32 ≤ a.toNat + b.toNat then 0x1#32 else 0#32) |||
    (if 16 ≤ a.toNat % 16 + b.toNat % 16 then 0x10#32 else 0#32) |||
    (if a.msb = b.msb ∧ (a + b).msb ≠ a.msb then 0x800#32 else 0#32)

namespace Cpu

def zeroFlag (c : Cpu) : Bool := c.eflags.getLsbD 6

def interruptFlag (c : Cpu) : Bool := c.eflags.getLsbD 9

def setReg (c : Cpu) (r : Reg) (v : Word) : Cpu := { c with toMachine := c.toMachine.setReg r v }

def setLow (c : Cpu) (r : Reg) (v : BitVec 16) : Cpu :=
  c.setReg r ((c.reg r).extractLsb' 16 16 ++ v)

def setMem (c : Cpu) (m : Mem) : Cpu := { c with toMachine := c.toMachine.setMem m }

def setFlags (c : Cpu) (v : Word) : Cpu := { c with eflags := v }

def setSeg (c : Cpu) (s : SegReg) (v : BitVec 16) : Cpu :=
  { c with seg := fun q => if q = s then v else c.seg q }

def push (c : Cpu) (v : Word) : Cpu := { c with toMachine := c.toMachine.push v }

def pushAll (c : Cpu) (vs : List Word) : Cpu := vs.foldl push c

/-- The argument `i` of a function that was just called. -/
def arg (c : Cpu) (i : Nat) : Word := load32 c.mem (c.reg .esp + 4#32 + 4#32 * BitVec.ofNat 32 i)

end Cpu

/-- `pusha` stores the `esp` from before it. -/
def pushaWords (c : Cpu) : List Word :=
  [c.reg .eax, c.reg .ecx, c.reg .edx, c.reg .ebx, c.reg .esp, c.reg .ebp, c.reg .esi, c.reg .edi]

/-- `popa` skips the stored `esp`. -/
def popa (c : Cpu) : Cpu :=
  let sp := c.reg .esp
  ((((((((c.setReg .edi (load32 c.mem sp)).setReg .esi (load32 c.mem (sp + 4#32))).setReg .ebp
    (load32 c.mem (sp + 8#32))).setReg .ebx (load32 c.mem (sp + 16#32))).setReg .edx
    (load32 c.mem (sp + 20#32))).setReg .ecx (load32 c.mem (sp + 24#32))).setReg .eax
    (load32 c.mem (sp + 28#32))).setReg .esp (sp + 32#32))

/-- `iret` also pops `esp` and `ss` when it returns to a lower privilege. -/
def iret (c : Cpu) : Cpu :=
  let sp := c.reg .esp
  let cs := (load32 c.mem (sp + 4#32)).extractLsb' 0 16
  let back := { ((c.setFlags (load32 c.mem (sp + 8#32))).setSeg .cs cs) with eip := load32 c.mem sp }
  if cs &&& 3#16 = c.seg .cs &&& 3#16 then back.setReg .esp (sp + 12#32)
  else
    (back.setReg .esp (load32 c.mem (sp + 12#32))).setSeg .ss
      ((load32 c.mem (sp + 16#32)).extractLsb' 0 16)

section Execution
variable {Label Extern : Type}

/-- What an instruction does that is neither a jump nor a call. -/
def step : Op Label Extern → Cpu → Cpu
  | .plain i, c => { c with toMachine := exec i c.toMachine }
  | .pushImm v, c => c.push v
  | .movImm dst v, c => c.setReg dst v
  | .movImm16 dst v, c => c.setLow dst v
  | .addImm dst v, c => (c.setReg dst (c.reg dst + v)).setFlags (addFlags c.eflags (c.reg dst) v)
  | .storeAbs addr src, c => c.setMem (store32 c.mem addr (c.reg src))
  | .storeImm addr v, c => c.setMem (store32 c.mem addr v)
  | .movzx dst base disp, c => c.setReg dst ((c.mem (c.reg base + disp)).setWidth 32)
  | .test base disp v, c => c.setFlags (testFlags c.eflags (load32 c.mem (c.reg base + disp) &&& v))
  | .pusha, c => c.pushAll (pushaWords c)
  | .popa, c => popa c
  | .movFromSeg dst src, c => c.setLow dst (c.seg src)
  | .movToSeg dst src, c => c.setSeg dst ((c.reg src).extractLsb' 0 16)
  | .cli, c => c.setFlags (c.eflags &&& ~~~0x200#32)
  | .sti, c => c.setFlags (c.eflags ||| 0x200#32)
  | .hlt, c => c
  | .iret, c => iret c
  | .jz _, c => c
  | .jmp _, c => c
  | .call _ ret, c => c.push ret

/-- Runs code up to its first call, for at most `n` instructions: the function
called and the state it starts in. -/
def runToCall (prog : Label → List (Op Label Extern)) :
    Nat → List (Op Label Extern) → Cpu → Option (Extern × Cpu)
  | 0, _, _ => none
  | _ + 1, [], _ => none
  | n + 1, op :: ops, c =>
      match op with
      | .jz target => runToCall prog n (if c.zeroFlag then prog target else ops) c
      | .jmp target => runToCall prog n (prog target) c
      | .call target _ => some (target, step op c)
      | _ => runToCall prog n ops (step op c)

/-- Neither a jump nor a call. -/
def Op.straight : Op Label Extern → Bool
  | .jz _ => false
  | .jmp _ => false
  | .call _ _ => false
  | _ => true

/-- Straight-line code. -/
def runOps (ops : List (Op Label Extern)) (c : Cpu) : Cpu := ops.foldl (fun c op => step op c) c

theorem runToCall_cons {prog : Label → List (Op Label Extern)} {n : Nat} {op : Op Label Extern}
    (h : op.straight = true) (ops : List (Op Label Extern)) (c : Cpu) :
    runToCall prog (n + 1) (op :: ops) c = runToCall prog n ops (step op c) := by
  cases op with
  | jz target => cases h
  | jmp target => cases h
  | call target ret => cases h
  | _ => rfl

theorem runToCall_append {prog : Label → List (Op Label Extern)} (n : Nat)
    (ops : List (Op Label Extern)) (h : ops.all Op.straight = true) (rest : List (Op Label Extern))
    (c : Cpu) :
    runToCall prog (n + ops.length) (ops ++ rest) c = runToCall prog n rest (runOps ops c) := by
  induction ops generalizing c with
  | nil => rfl
  | cons op ops ih =>
    rw [List.all_cons, Bool.and_eq_true] at h
    rw [List.cons_append, List.length_cons, ← Nat.add_assoc, runToCall_cons h.1, ih h.2]
    rfl

theorem runToCall_jz (prog : Label → List (Op Label Extern)) (n : Nat) (target : Label)
    (ops : List (Op Label Extern)) (c : Cpu) :
    runToCall prog (n + 1) (.jz target :: ops) c =
      runToCall prog n (if c.zeroFlag then prog target else ops) c := rfl

theorem runToCall_jmp (prog : Label → List (Op Label Extern)) (n : Nat) (target : Label)
    (ops : List (Op Label Extern)) (c : Cpu) :
    runToCall prog (n + 1) (.jmp target :: ops) c = runToCall prog n (prog target) c := rfl

theorem runToCall_call (prog : Label → List (Op Label Extern)) (n : Nat) (target : Extern)
    (ret : Word) (ops : List (Op Label Extern)) (c : Cpu) :
    runToCall prog (n + 1) (.call target ret :: ops) c = some (target, c.push ret) := rfl

end Execution

/-! ## Building blocks -/

section Blocks
variable (c : Cpu)

@[simp] theorem cpu_reg_setReg (r q : Reg) (v : Word) :
    (c.setReg r v).reg q = if q = r then v else c.reg q := rfl
@[simp] theorem cpu_mem_setReg (r : Reg) (v : Word) : (c.setReg r v).mem = c.mem := rfl
@[simp] theorem cpu_eflags_setReg (r : Reg) (v : Word) : (c.setReg r v).eflags = c.eflags := rfl
@[simp] theorem cpu_seg_setReg (r : Reg) (v : Word) : (c.setReg r v).seg = c.seg := rfl
@[simp] theorem cpu_reg_setMem (m : Mem) : (c.setMem m).reg = c.reg := rfl
@[simp] theorem cpu_mem_setMem (m : Mem) : (c.setMem m).mem = m := rfl
@[simp] theorem cpu_eflags_setMem (m : Mem) : (c.setMem m).eflags = c.eflags := rfl
@[simp] theorem cpu_seg_setMem (m : Mem) : (c.setMem m).seg = c.seg := rfl
@[simp] theorem cpu_reg_setFlags (v : Word) : (c.setFlags v).reg = c.reg := rfl
@[simp] theorem cpu_mem_setFlags (v : Word) : (c.setFlags v).mem = c.mem := rfl
@[simp] theorem cpu_eflags_setFlags (v : Word) : (c.setFlags v).eflags = v := rfl
@[simp] theorem cpu_seg_setFlags (v : Word) : (c.setFlags v).seg = c.seg := rfl
@[simp] theorem cpu_reg_setSeg (s : SegReg) (v : BitVec 16) : (c.setSeg s v).reg = c.reg := rfl
@[simp] theorem cpu_mem_setSeg (s : SegReg) (v : BitVec 16) : (c.setSeg s v).mem = c.mem := rfl
@[simp] theorem cpu_seg_setSeg (s q : SegReg) (v : BitVec 16) :
    (c.setSeg s v).seg q = if q = s then v else c.seg q := rfl
@[simp] theorem cpu_reg_push (v : Word) (q : Reg) :
    (c.push v).reg q = if q = .esp then c.reg .esp - 4#32 else c.reg q := rfl
@[simp] theorem cpu_mem_push (v : Word) :
    (c.push v).mem = store32 c.mem (c.reg .esp - 4#32) v := rfl
@[simp] theorem cpu_eflags_push (v : Word) : (c.push v).eflags = c.eflags := rfl
@[simp] theorem cpu_seg_push (v : Word) : (c.push v).seg = c.seg := rfl

theorem pushAll_append (vs ws : List Word) : c.pushAll (vs ++ ws) = (c.pushAll vs).pushAll ws :=
  List.foldl_append

theorem reg_pushAll (vs : List Word) {q : Reg} (h : q ≠ .esp) : (c.pushAll vs).reg q = c.reg q := by
  induction vs generalizing c with
  | nil => rfl
  | cons v vs ih => exact (ih (c.push v)).trans (if_neg h)

theorem seg_pushAll (vs : List Word) : (c.pushAll vs).seg = c.seg := by
  induction vs generalizing c with
  | nil => rfl
  | cons v vs ih => exact ih (c.push v)

theorem zeroFlag_test (eflags r : Word) : (testFlags eflags r).getLsbD 6 = decide (r = 0#32) := by
  unfold testFlags resultFlags
  rw [BitVec.getLsbD_or, BitVec.getLsbD_and, show (~~~0x8C5#32 : Word).getLsbD 6 = false from rfl,
    Bool.and_false, Bool.false_or, BitVec.getLsbD_or, BitVec.getLsbD_or]
  have hsign : (if r.msb then 0x80#32 else 0#32 : Word).getLsbD 6 = false := by
    split <;> rfl
  have hparity : (if evenParity r then 0x4#32 else 0#32 : Word).getLsbD 6 = false := by
    split <;> rfl
  rw [hsign, hparity, Bool.or_false, Bool.or_false]
  cases Decidable.em (r = 0#32) with
  | inl h => rw [if_pos h, decide_eq_true h]; rfl
  | inr h => rw [if_neg h, decide_eq_false h]; rfl

end Blocks

/-! ## The stack -/

/-- The words from `sp` upwards. -/
def StackIs (m : Mem) (sp : Word) (vs : List Word) : Prop :=
  ∀ i v, vs[i]? = some v → load32 m (sp + 4#32 * BitVec.ofNat 32 i) = v

theorem StackIs.nil (m : Mem) (sp : Word) : StackIs m sp [] := by
  intro i v h
  rw [List.getElem?_nil] at h
  cases h

theorem StackIs.push {c : Cpu} {vs : List Word} (h : StackIs c.mem (c.reg .esp) vs)
    (hlen : vs.length < 2 ^ 30) (v : Word) :
    StackIs (c.push v).mem ((c.push v).reg .esp) (v :: vs) := by
  intro i w hi
  rw [cpu_mem_push, cpu_reg_push, if_pos rfl]
  cases i with
  | zero =>
    rw [List.getElem?_cons_zero, Option.some.injEq] at hi
    rw [show c.reg .esp - 4#32 + 4#32 * BitVec.ofNat 32 0 = c.reg .esp - 4#32 by
      rw [BitVec.mul_zero, BitVec.add_zero], load32_store32_same, hi]
  | succ i =>
    rw [List.getElem?_cons_succ] at hi
    have hlt : i < vs.length := (List.getElem?_eq_some_iff.mp hi).1
    have hnat : (4#32 * BitVec.ofNat 32 i).toNat = 4 * i := by
      rw [BitVec.toNat_mul, toNat_ofNat_of_lt (a := i) (by omega)]
      show 4 * i % 2 ^ 32 = 4 * i
      omega
    have haddr : c.reg .esp - 4#32 + 4#32 * BitVec.ofNat 32 (i + 1) =
        c.reg .esp + 4#32 * BitVec.ofNat 32 i := by
      rw [← ofNat_add_ofNat, BitVec.mul_add, show 4#32 * BitVec.ofNat 32 1 = 4#32 from rfl]
      bv_omega
    rw [haddr, load32_store32_ne (by bv_omega) (by bv_omega), h i w hi]

/-- After pushes the last word is on top. -/
theorem StackIs.pushAll {c : Cpu} {vs : List Word} (h : StackIs c.mem (c.reg .esp) vs)
    {ws : List Word} (hlen : vs.length + ws.length < 2 ^ 30) :
    StackIs (c.pushAll ws).mem ((c.pushAll ws).reg .esp) (ws.reverse ++ vs) := by
  induction ws generalizing c vs with
  | nil => exact h
  | cons w ws ih =>
    rw [List.length_cons] at hlen
    rw [List.reverse_cons, List.append_assoc]
    exact ih (h.push (by omega) w) (by rw [List.length_append, List.length_singleton]; omega)

theorem StackIs.tail {m : Mem} {sp v : Word} {vs : List Word} (h : StackIs m sp (v :: vs)) :
    StackIs m (sp + 4#32) vs := by
  intro i w hi
  have hload := h (i + 1) w (by rw [List.getElem?_cons_succ]; exact hi)
  have haddr : sp + 4#32 * BitVec.ofNat 32 (i + 1) = sp + 4#32 + 4#32 * BitVec.ofNat 32 i := by
    rw [← ofNat_add_ofNat, BitVec.mul_add, show 4#32 * BitVec.ofNat 32 1 = 4#32 from rfl]
    bv_omega
  rw [← haddr]
  exact hload

/-- The stack above its first words. -/
theorem StackIs.drop {m : Mem} {sp : Word} {vs : List Word} (h : StackIs m sp vs) (n : Nat) :
    StackIs m (sp + 4#32 * BitVec.ofNat 32 n) (vs.drop n) := by
  intro i w hi
  rw [List.getElem?_drop] at hi
  rw [BitVec.add_assoc, ← BitVec.mul_add, ofNat_add_ofNat]
  exact h (n + i) w hi

/-- A stack whose bytes are kept. -/
theorem StackIs.congr {m m' : Mem} {sp : Word} {vs : List Word} (h : StackIs m sp vs)
    (hsame : ∀ k : Nat, k < 4 * vs.length → m' (sp + BitVec.ofNat 32 k) = m (sp + BitVec.ofNat 32 k)) :
    StackIs m' sp vs := by
  intro i v hi
  have hlt : i < vs.length := (List.getElem?_eq_some_iff.mp hi).1
  have hword : 4#32 * BitVec.ofNat 32 i = BitVec.ofNat 32 (4 * i) := (BitVec.ofNat_mul 4 i).symm
  have hbyte : ∀ j : Nat, j < 4 →
      m' (sp + BitVec.ofNat 32 (4 * i) + BitVec.ofNat 32 j) =
        m (sp + BitVec.ofNat 32 (4 * i) + BitVec.ofNat 32 j) := by
    intro j hj
    rw [BitVec.add_assoc, ofNat_add_ofNat]
    exact hsame (4 * i + j) (by omega)
  have h0 := hbyte 0 (by decide)
  rw [BitVec.add_zero] at h0
  rw [← h i v hi, hword]
  exact congrArg₂ (· ++ ·) (congrArg₂ (· ++ ·) (congrArg₂ (· ++ ·) (hbyte 3 (by decide))
    (hbyte 2 (by decide))) (hbyte 1 (by decide))) h0

/-- A store to one of the words. -/
theorem StackIs.set {m : Mem} {sp : Word} {vs : List Word} (h : StackIs m sp vs)
    (hlen : vs.length ≤ 2 ^ 30) (i : Nat) (hi : i < vs.length) (v : Word) :
    StackIs (store32 m (sp + 4#32 * BitVec.ofNat 32 i) v) sp (vs.set i v) := by
  intro j w hj
  have hnat : ∀ k : Nat, k < vs.length → (4#32 * BitVec.ofNat 32 k).toNat = 4 * k := by
    intro k hk
    rw [BitVec.toNat_mul, toNat_ofNat_of_lt (a := k) (by omega)]
    show 4 * k % 2 ^ 32 = 4 * k
    omega
  rw [List.getElem?_set] at hj
  split at hj
  · next hij =>
    subst hij
    rw [Option.some.injEq] at hj
    rw [load32_store32_same, hj]
  · next hij =>
    have hlt : j < vs.length := (List.getElem?_eq_some_iff.mp hj).1
    have hni := hnat i hi
    have hnj := hnat j hlt
    rw [load32_store32_ne (by bv_omega) (by bv_omega), h j w hj]

/-- `iret` to code of the same privilege. -/
theorem iret_inner {c : Cpu} {eip cs eflags : Word} {vs : List Word}
    (h : StackIs c.mem (c.reg .esp) (eip :: cs :: eflags :: vs))
    (hring : cs.extractLsb' 0 16 &&& 3#16 = c.seg .cs &&& 3#16) :
    iret c = { ((c.setFlags eflags).setSeg .cs (cs.extractLsb' 0 16)).setReg .esp
      (c.reg .esp + 12#32) with eip := eip } := by
  have heip := h 0 _ rfl
  have hcs : load32 c.mem (c.reg .esp + 4#32) = cs := h 1 _ rfl
  have hflags : load32 c.mem (c.reg .esp + 8#32) = eflags := h 2 _ rfl
  rw [BitVec.mul_zero, BitVec.add_zero] at heip
  unfold iret
  dsimp only
  rw [hcs, if_pos hring, heip, hflags]
  rfl

/-- `iret` to code of a lower privilege. -/
theorem iret_outer {c : Cpu} {eip cs eflags esp ss : Word} {vs : List Word}
    (h : StackIs c.mem (c.reg .esp) (eip :: cs :: eflags :: esp :: ss :: vs))
    (hring : cs.extractLsb' 0 16 &&& 3#16 ≠ c.seg .cs &&& 3#16) :
    iret c = { (((c.setFlags eflags).setSeg .cs (cs.extractLsb' 0 16)).setReg .esp esp).setSeg .ss
      (ss.extractLsb' 0 16) with eip := eip } := by
  have heip := h 0 _ rfl
  have hcs : load32 c.mem (c.reg .esp + 4#32) = cs := h 1 _ rfl
  have hflags : load32 c.mem (c.reg .esp + 8#32) = eflags := h 2 _ rfl
  have hesp : load32 c.mem (c.reg .esp + 12#32) = esp := h 3 _ rfl
  have hss : load32 c.mem (c.reg .esp + 16#32) = ss := h 4 _ rfl
  rw [BitVec.mul_zero, BitVec.add_zero] at heip
  unfold iret
  dsimp only
  rw [hcs, if_neg hring, heip, hflags, hesp, hss]
  rfl

/-- A called function finds its arguments above the return address. -/
theorem load_arg {c : Cpu} {ret : Word} {args : List Word} {i : Nat} {v : Word}
    (h : StackIs c.mem (c.reg .esp) (ret :: args)) (hi : args[i]? = some v) : c.arg i = v :=
  h.tail i v hi

end X86
