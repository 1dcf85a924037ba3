import Zenix.Lib.X86Code

/-!
# The entry point (boot/boot.asm)

The boot loader enters at `_start` with its magic number in `eax` and the address
of the multiboot information in `ebx`. `_start` copies the video mode, if there
is one, through `eax`, and then pushes `ebx` and `eax` for `kernel_main`.

Results:
1. `start_calls`: what `kernel_main` is called with.
2. `start_rejected`: with a framebuffer the magic number never arrives.
3. `boot_hand_off_iff`: when `kernel_main` gets what the loader passed.
-/

namespace Zenix
open ByteMemory X86

/-- Where the linker has put what the code refers to. -/
structure BootSymbols where
  stackTop : Word
  vbeModeInfo : Word
  /-- The instruction behind `call kernel_main`. -/
  afterCall : Word

inductive BootLabel where
  | noFramebuffer
  | bootKernel
  | hang

inductive BootExtern where
  | kernelMain
deriving DecidableEq

section Code
variable (sym : BootSymbols)

def bootKernel : List (Op BootLabel BootExtern) :=
  [ .plain (.push .ebx), .plain (.push .eax) ] ++
  [ .call .kernelMain sym.afterCall,
    .cli,
    .hlt,
    .jmp .hang ]

/-- The fallback values. -/
def fallbackInfo : List (Op BootLabel BootExtern) :=
  [ .storeImm sym.vbeModeInfo 320#32,
    .storeImm (sym.vbeModeInfo + 4#32) 200#32,
    .storeImm (sym.vbeModeInfo + 8#32) 320#32,
    .storeImm (sym.vbeModeInfo + 12#32) 8#32,
    .storeImm (sym.vbeModeInfo + 16#32) 0xA0000#32 ]

/-- `.no_framebuffer` falls through to `.boot_kernel`. -/
def bootProgram : BootLabel → List (Op BootLabel BootExtern)
  | .noFramebuffer => fallbackInfo sym ++ bootKernel sym
  | .bootKernel => bootKernel sym
  | .hang => [ .hlt, .jmp .hang ]

/-- The framebuffer part. -/
def copyVideoInfo : List (Op BootLabel BootExtern) :=
  [ .plain (.load .eax .edi 88#32),
    .storeAbs (sym.vbeModeInfo + 16#32) .eax,
    .plain (.load .eax .edi 96#32),
    .storeAbs sym.vbeModeInfo .eax,
    .plain (.load .eax .edi 100#32),
    .storeAbs (sym.vbeModeInfo + 4#32) .eax,
    .plain (.load .eax .edi 104#32),
    .storeAbs (sym.vbeModeInfo + 8#32) .eax,
    .movzx .eax .edi 110#32,
    .storeAbs (sym.vbeModeInfo + 12#32) .eax ]

def checkFramebuffer : List (Op BootLabel BootExtern) :=
  [ .movImm .esp sym.stackTop,
    .plain (.mov .edi .ebx),
    .test .edi 0#32 (1#32 <<< 12) ]

/-- `_start`. -/
def startCode : List (Op BootLabel BootExtern) :=
  checkFramebuffer sym ++ .jz .noFramebuffer :: (copyVideoInfo sym ++ [.jmp .bootKernel])

/-- `_start` up to the call of `kernel_main`. -/
def start (c : Cpu) : Option (BootExtern × Cpu) := runToCall (bootProgram sym) 32 (startCode sym) c

/-- `MULTIBOOT_FLAG_FRAMEBUFFER` in the information at `ebx`. -/
def hasFramebuffer (c : Cpu) : Prop := load32 c.mem (c.reg .ebx) &&& 0x1000#32 ≠ 0#32

instance (c : Cpu) : Decidable (hasFramebuffer c) := inferInstanceAs (Decidable (_ ≠ _))

/-- The memory after the stores of framebuffer address, width, height and pitch. -/
def videoInfo (c : Cpu) : Mem :=
  let mbi := c.reg .ebx
  let m := store32 c.mem (sym.vbeModeInfo + 16#32) (load32 c.mem (mbi + 88#32))
  let m := store32 m sym.vbeModeInfo (load32 m (mbi + 96#32))
  let m := store32 m (sym.vbeModeInfo + 4#32) (load32 m (mbi + 100#32))
  store32 m (sym.vbeModeInfo + 8#32) (load32 m (mbi + 104#32))

/-- The byte that the code takes for the depth. -/
def depthByte (c : Cpu) : Word := (videoInfo sym c (c.reg .ebx + 110#32)).setWidth 32

end Code

/-- The check at the head of `kernel_main`. -/
def MagicAccepted (magic : Word) : Prop := magic = 0x2BADB002#32

/-- `_start` calls `kernel_main` with the magic number and the address that the
loader passed, so that its check is one of what the loader passed. -/
def BootHandOff (sym : BootSymbols) (c : Cpu) : Prop :=
  ∃ d, start sym c = some (.kernelMain, d) ∧ d.arg 0 = c.reg .eax ∧ d.arg 1 = c.reg .ebx ∧
    (MagicAccepted (d.arg 0) ↔ MagicAccepted (c.reg .eax))

section Calls
variable (sym : BootSymbols) {c : Cpu}

theorem args_bootKernel (c : Cpu) (ret : Word) :
    (c.pushAll [c.reg .ebx, c.reg .eax, ret]).arg 0 = c.reg .eax ∧
      (c.pushAll [c.reg .ebx, c.reg .eax, ret]).arg 1 = c.reg .ebx := by
  have hlen : ([] : List Word).length + [c.reg .ebx, c.reg .eax, ret].length < 2 ^ 30 := by
    rw [List.length_nil, List.length_cons, List.length_cons, List.length_singleton]
    omega
  have hstack : StackIs _ _ ([c.reg .ebx, c.reg .eax, ret].reverse ++ []) :=
    (StackIs.nil c.mem (c.reg .esp)).pushAll hlen
  exact ⟨load_arg hstack rfl, load_arg hstack rfl⟩

/-- `.boot_kernel` pushes `ebx` and `eax` and calls `kernel_main`. -/
theorem run_bootKernel_eq (n : Nat) (c : Cpu) :
    runToCall (bootProgram sym) (n + 3) (bootKernel sym) c =
      some (.kernelMain, c.pushAll [c.reg .ebx, c.reg .eax, sym.afterCall]) :=
  (runToCall_append (n + 1) [.plain (.push .ebx), .plain (.push .eax)] rfl _ c).trans
    (runToCall_call _ _ _ _ _ _)

theorem run_bootKernel (n : Nat) (c : Cpu) :
    ∃ d, runToCall (bootProgram sym) (n + 3) (bootKernel sym) c = some (.kernelMain, d) ∧
      d.arg 0 = c.reg .eax ∧ d.arg 1 = c.reg .ebx :=
  ⟨_, run_bootKernel_eq sym n c, args_bootKernel c sym.afterCall⟩

theorem fallbackInfo_reg (c : Cpu) : (runOps (fallbackInfo sym) c).reg = c.reg := rfl

/-- What the framebuffer part leaves in the registers. -/
theorem copyVideoInfo_reg (c : Cpu) (hedi : c.reg .edi = c.reg .ebx) :
    (runOps (copyVideoInfo sym) c).reg .ebx = c.reg .ebx ∧
      (runOps (copyVideoInfo sym) c).reg .eax = depthByte sym c := by
  constructor
  · simp [copyVideoInfo, runOps, step, exec]
  · unfold depthByte videoInfo
    rw [← hedi]
    simp [copyVideoInfo, runOps, step, exec]

/-- Up to the jump: `edi` is `ebx`, and the zero flag tells of the framebuffer. -/
theorem checkFramebuffer_spec (c : Cpu) :
    (runOps (checkFramebuffer sym) c).mem = c.mem ∧
      (runOps (checkFramebuffer sym) c).reg .eax = c.reg .eax ∧
      (runOps (checkFramebuffer sym) c).reg .ebx = c.reg .ebx ∧
      (runOps (checkFramebuffer sym) c).reg .edi = c.reg .ebx ∧
      ((runOps (checkFramebuffer sym) c).zeroFlag = true ↔ ¬ hasFramebuffer c) := by
  refine ⟨rfl, rfl, rfl, rfl, ?_⟩
  have hflag : (runOps (checkFramebuffer sym) c).zeroFlag =
      (testFlags c.eflags (load32 c.mem (c.reg .ebx + 0#32) &&& 1#32 <<< 12)).getLsbD 6 := rfl
  rw [hflag, zeroFlag_test, BitVec.add_zero, decide_eq_true_eq, hasFramebuffer, not_not]
  rfl

/-- `kernel_main` is always called, and always with the address of the multiboot
information. Its magic number is `eax` as it is by then. -/
theorem start_calls (c : Cpu) :
    ∃ d, start sym c = some (.kernelMain, d) ∧ d.arg 1 = c.reg .ebx ∧
      d.arg 0 = if hasFramebuffer c then depthByte sym c else c.reg .eax := by
  obtain ⟨hmem, heax, hebx, hedi, hzero⟩ := checkFramebuffer_spec sym c
  have hstart : start sym c = runToCall (bootProgram sym) (28 + 1)
      (.jz .noFramebuffer :: (copyVideoInfo sym ++ [.jmp .bootKernel]))
      (runOps (checkFramebuffer sym) c) := runToCall_append 29 (checkFramebuffer sym) rfl _ _
  rw [hstart, runToCall_jz]
  cases Decidable.em (hasFramebuffer c) with
  | inl h =>
    obtain ⟨hebx', heax'⟩ := copyVideoInfo_reg sym _ (hedi.trans hebx.symm)
    obtain ⟨d, hrun, harg0, harg1⟩ := run_bootKernel sym 14
      (runOps (copyVideoInfo sym) (runOps (checkFramebuffer sym) c))
    have hdepth : depthByte sym (runOps (checkFramebuffer sym) c) = depthByte sym c := by
      unfold depthByte videoInfo
      rw [hmem, hebx]
    rw [if_pos h, if_neg fun hz => hzero.mp hz h]
    refine ⟨d, ?_, harg1.trans (hebx'.trans hebx), harg0.trans (heax'.trans hdepth)⟩
    exact (runToCall_append 18 (copyVideoInfo sym) rfl _ _).trans hrun
  | inr h =>
    have hreg := fallbackInfo_reg sym (runOps (checkFramebuffer sym) c)
    obtain ⟨d, hrun, harg0, harg1⟩ := run_bootKernel sym 20
      (runOps (fallbackInfo sym) (runOps (checkFramebuffer sym) c))
    rw [hreg] at harg0 harg1
    rw [if_neg h, if_pos (hzero.mpr h)]
    refine ⟨d, ?_, harg1.trans hebx, harg0.trans heax⟩
    exact (runToCall_append 23 (fallbackInfo sym) rfl _ _).trans hrun

/-- With a framebuffer the check of `kernel_main` fails whatever the loader
passed. -/
theorem start_rejected (h : hasFramebuffer c) :
    ∃ d, start sym c = some (.kernelMain, d) ∧ ¬ MagicAccepted (d.arg 0) := by
  obtain ⟨d, hrun, _, harg⟩ := start_calls sym c
  refine ⟨d, hrun, fun hmagic => ?_⟩
  rw [if_pos h] at harg
  have hbyte := (videoInfo sym c (c.reg .ebx + 110#32)).isLt
  have hnat := congrArg BitVec.toNat (harg.symm.trans hmagic)
  rw [depthByte, BitVec.toNat_setWidth, show (0x2BADB002#32).toNat = 732803074 from rfl] at hnat
  omega

/-- The byte is the loader's, unless `vbe_mode_info` lies over it. -/
theorem depthByte_eq (h : ∀ k : Nat, k < 20 → c.reg .ebx + 110#32 ≠ sym.vbeModeInfo + BitVec.ofNat 32 k) :
    depthByte sym c = (c.mem (c.reg .ebx + 110#32)).setWidth 32 := by
  have hstore : ∀ (m : Mem) (k : Nat) (v : Word), k ≤ 16 →
      store32 m (sym.vbeModeInfo + BitVec.ofNat 32 k) v (c.reg .ebx + 110#32) =
        m (c.reg .ebx + 110#32) := by
    intro m k v hk
    have hbyte : ∀ j : Nat, j < 4 →
        c.reg .ebx + 110#32 ≠ sym.vbeModeInfo + BitVec.ofNat 32 k + BitVec.ofNat 32 j := by
      intro j hj
      rw [BitVec.add_assoc, ofNat_add_ofNat]
      exact h (k + j) (by omega)
    have h0 := hbyte 0 (by decide)
    rw [BitVec.add_zero] at h0
    have h1 : c.reg .ebx + 110#32 ≠ sym.vbeModeInfo + BitVec.ofNat 32 k + 1 := hbyte 1 (by decide)
    have h2 : c.reg .ebx + 110#32 ≠ sym.vbeModeInfo + BitVec.ofNat 32 k + 2 := hbyte 2 (by decide)
    have h3 : c.reg .ebx + 110#32 ≠ sym.vbeModeInfo + BitVec.ofNat 32 k + 3 := hbyte 3 (by decide)
    unfold store32
    rw [if_neg h0, if_neg h1, if_neg h2, if_neg h3]
  have hzero : ∀ (m : Mem) (v : Word),
      store32 m sym.vbeModeInfo v (c.reg .ebx + 110#32) = m (c.reg .ebx + 110#32) := by
    intro m v
    have hk := hstore m 0 v (by decide)
    rwa [BitVec.add_zero] at hk
  unfold depthByte videoInfo
  rw [hstore _ 8 _ (by decide), hstore _ 4 _ (by decide), hzero, hstore _ 16 _ (by decide)]

end Calls

/-- `kernel_main` gets what the loader passed if and only if there is no
framebuffer, or the loader's `eax` is by chance the byte at offset 110. -/
theorem boot_hand_off_iff (sym : BootSymbols) (c : Cpu) :
    BootHandOff sym c ↔ ¬ hasFramebuffer c ∨ c.reg .eax = depthByte sym c := by
  obtain ⟨d, hrun, hmbi, hmagic⟩ := start_calls sym c
  constructor
  · rintro ⟨e, hrun', harg, _⟩
    cases hrun.symm.trans hrun'
    cases Decidable.em (hasFramebuffer c) with
    | inl h =>
      rw [if_pos h] at hmagic
      exact Or.inr (harg.symm.trans hmagic)
    | inr h => exact Or.inl h
  · intro h
    have harg : d.arg 0 = c.reg .eax := by
      rw [hmagic]
      split
      · next hf => exact (h.resolve_left (not_not.mpr hf)).symm
      · rfl
    exact ⟨d, hrun, harg, hmbi, by rw [harg]⟩

/-- A loader with a framebuffer: the information is at 64 KB and has bit 12 set. -/
theorem boot_hand_off_lost :
    ¬ BootHandOff ⟨0x200000#32, 0x300000#32, 0x100040#32⟩
      { reg := fun r => match r with
          | .eax => 0x2BADB002#32
          | .ebx => 0x10000#32
          | _ => 0#32
        eip := 0#32
        eflags := 2#32
        mem := fun a => if a = 0x10001#32 then 0x10#8 else 0#8
        seg := fun _ => 0x10#16 } := by
  intro h
  rcases (boot_hand_off_iff _ _).mp h with h | h
  · exact absurd h (by decide)
  · exact absurd h (by decide)

end Zenix
