import Zenix.Core.PrintNumbers
import Zenix.Lib.CallFrames

/-!
# The stack trace of a panic (kernel/core/panic.c)

`print_stack_trace` follows the frame pointers that functions save on the stack and prints
the return addresses next to them. It stops at the first frame pointer that does not look like
an address of the kernel.

Results:
1. `stackTrace_linked`: the return addresses of a chain of records.
2. `printStackTrace_text`: what is printed.
3. `stack_trace`: in every run of calls and returns the trace shows where the last calls came
   from.
-/

namespace Zenix
open ByteMemory Logged CallFrames

/-! ## The function -/

/-- "Sanity check". -/
def leavesKernel (ebp : Word) : Prop := ebp < 0x1000#32 ∨ 0x10000000#32 < ebp

instance (ebp : Word) : Decidable (leavesKernel ebp) := inferInstanceAs (Decidable (_ ∨ _))

/-- The loop of `print_stack_trace` with the rounds that are left. -/
def printFrames (m : Mem) : Nat → Nat → Word → Console → Logged ConsoleEvent Console
  | 0, _, _, s => pure s
  | left + 1, frame, ebp, s =>
    if ebp = 0#32 then pure s
    else
      let eip := load32 m (ebp + 4#32)
      if eip = 0#32 then pure s
      else do
        let s ← printString (literal "  [") s
        let s ← printDec (BitVec.ofNat 32 frame) s
        let s ← printString (literal "] 0x") s
        let s ← printHex eip s
        let s ← printString (literal "\n") s
        -- "Move to next frame"
        let ebp := load32 m ebp
        if leavesKernel ebp then pure s else printFrames m left (frame + 1) ebp s

def printStackTrace (m : Mem) (ebp : Word) (maxFrames : Nat) (s : Console) :
    Logged ConsoleEvent Console := do
  let s ← printString (literal "\nStack Trace:\n") s
  let s ← printString (literal "------------\n") s
  printFrames m maxFrames 0 ebp s

/-! ## The text -/

/-- The return addresses that the loop finds. -/
def stackTrace (m : Mem) : Nat → Word → List Word
  | 0, _ => []
  | left + 1, ebp =>
    if ebp = 0#32 then []
    else
      let eip := load32 m (ebp + 4#32)
      if eip = 0#32 then []
      else
        let ebp := load32 m ebp
        eip :: if leavesKernel ebp then [] else stackTrace m left ebp

def frameLine (frame : Nat) (eip : Word) : List Byte :=
  literal "  [" ++ decText (BitVec.ofNat 32 frame) ++ literal "] 0x" ++ hexText eip ++ literal "\n"

/-- A line for each return address, with the numbers from `frame` on. -/
def traceText (frame : Nat) : List Word → List Byte
  | [] => []
  | eip :: eips => frameLine frame eip ++ traceText (frame + 1) eips

def traceHeader : List Byte := literal "\nStack Trace:\n" ++ literal "------------\n"

section Text
variable {m : Mem} {s : Console}

theorem printFrames_text (left frame : Nat) (ebp : Word) :
    printFrames m left frame ebp s = printChars (traceText frame (stackTrace m left ebp)) s := by
  induction left generalizing frame ebp s with
  | zero => rfl
  | succ left ih =>
    rw [printFrames, stackTrace]
    split
    · rfl
    · dsimp only
      split
      · rfl
      · rw [traceText, printChars_append, frameLine]
        simp only [printChars_append, printString_literal (by decide : 0#8 ∉ literal "  ["),
          printString_literal (by decide : 0#8 ∉ literal "] 0x"),
          printString_literal (by decide : 0#8 ∉ literal "\n"), printDec_text, printHex_text,
          bind_assoc]
        refine congrArg _ (funext fun s₁ => congrArg _ (funext fun s₂ => congrArg _
          (funext fun s₃ => congrArg _ (funext fun s₄ => congrArg _ (funext fun s₅ => ?_)))))
        split
        · rfl
        · exact ih (frame + 1) _

theorem printStackTrace_text (ebp : Word) (maxFrames : Nat) :
    printStackTrace m ebp maxFrames s =
      printChars (traceHeader ++ traceText 0 (stackTrace m maxFrames ebp)) s := by
  rw [printStackTrace, printChars_append, traceHeader, printChars_append, bind_assoc]
  simp only [printFrames_text, printString_literal (by decide : 0#8 ∉ literal "\nStack Trace:\n"),
    printString_literal (by decide : 0#8 ∉ literal "------------\n")]

theorem hexText_length (n : Word) : (hexText n).length = 8 := by
  rw [hexText, List.length_map, List.length_range]

theorem frameLine_inj {frame : Nat} {eip eip' : Word} (h : frameLine frame eip = frameLine frame eip') :
    eip = eip' := by
  unfold frameLine at h
  have hhex := List.append_cancel_left (List.append_cancel_right h)
  apply BitVec.eq_of_toNat_eq
  rw [← readHex_hexText eip, ← readHex_hexText eip', hhex]

/-- The return addresses can be read off the text. -/
theorem traceText_inj {frame : Nat} {eips eips' : List Word}
    (h : traceText frame eips = traceText frame eips') : eips = eips' := by
  induction eips generalizing frame eips' with
  | nil =>
    cases eips' with
    | nil => rfl
    | cons eip eips' =>
      have hlength := congrArg List.length h
      simp only [traceText, frameLine, List.length_append, List.length_nil, hexText_length] at hlength
      omega
  | cons eip eips ih =>
    cases eips' with
    | nil =>
      have hlength := congrArg List.length h
      simp only [traceText, frameLine, List.length_append, List.length_nil, hexText_length] at hlength
      omega
    | cons eip' eips' =>
      have hlength : (frameLine frame eip).length = (frameLine frame eip').length := by
        simp only [frameLine, List.length_append, hexText_length]
      obtain ⟨hline, hrest⟩ := List.append_inj h hlength
      rw [frameLine_inj hline, ih hrest]

end Text

/-! ## The calls -/

section Calls
variable {m : Mem} {bottom ebp : Word} {fs : List Frame}

theorem stackTrace_linked (n : Nat) (h : Linked m bottom ebp fs) (hne : fs ≠ [])
    (hret : ∀ f ∈ fs, f.ret ≠ 0#32) (hkernel : ∀ f ∈ fs, ¬ leavesKernel f.base)
    (hbottom : leavesKernel bottom) : stackTrace m n ebp = (fs.take n).map Frame.ret := by
  induction n generalizing ebp fs with
  | zero => rfl
  | succ n ih =>
    obtain ⟨f, fs, rfl⟩ := List.exists_cons_of_ne_nil hne
    obtain ⟨rfl, heip, hrest⟩ := h
    have hbase : f.base ≠ 0#32 := by
      intro hzero
      exact hkernel f List.mem_cons_self (.inl (by rw [hzero]; decide))
    have hnonzero : ¬ f.ret = 0#32 := hret f List.mem_cons_self
    rw [stackTrace, if_neg hbase]
    dsimp only
    rw [heip, if_neg hnonzero, List.take_succ_cons, List.map_cons]
    cases fs with
    | nil =>
      have hlast : load32 m f.base = bottom := hrest
      rw [hlast, if_pos hbottom, List.take_nil, List.map_nil]
    | cons g gs =>
      have hnext : load32 m f.base = g.base := hrest.1
      have hg : ¬ leavesKernel (load32 m f.base) := by
        rw [hnext]
        exact hkernel g (List.mem_cons_of_mem f List.mem_cons_self)
      rw [if_neg hg, ih hrest (List.cons_ne_nil g gs)
        (fun f' hf => hret f' (List.mem_cons_of_mem f hf))
        fun f' hf => hkernel f' (List.mem_cons_of_mem f hf)]

/-- On a stack of the kernel, `print_stack_trace` prints the return addresses of the last
calls that have not returned, whatever calls, returns and stores there were before. The text
shows exactly these. -/
theorem stack_trace {low high : Nat} (hlow : 0x1000 ≤ low) (hhigh : high ≤ 0x10000000)
    (hbottom : leavesKernel bottom) {s : CallFrames.State}
    (h : (CallFrames.system low high bottom).Reachable s) (hne : s.frames ≠ []) (maxFrames : Nat)
    (c : Console) :
    printStackTrace s.mem s.ebp maxFrames c =
        printChars (traceHeader ++ traceText 0 ((s.frames.take maxFrames).map Frame.ret)) c ∧
      ∀ eips, traceText 0 eips = traceText 0 ((s.frames.take maxFrames).map Frame.ret) →
        eips = (s.frames.take maxFrames).map Frame.ret := by
  have hs := reachable_invariant h
  have hkernel : ∀ f ∈ s.frames, ¬ leavesKernel f.base := by
    intro f hf
    obtain ⟨hesp, hend⟩ := hs.inStack f hf
    have hstart := hs.esp.1
    rw [leavesKernel, BitVec.lt_def, BitVec.lt_def]
    show ¬ (f.base.toNat < 0x1000 ∨ 0x10000000 < f.base.toNat)
    omega
  refine ⟨?_, fun eips => traceText_inj⟩
  rw [printStackTrace_text, stackTrace_linked maxFrames hs.linked hne hs.ret hkernel hbottom]

end Calls

/-- Two calls on a stack of 4096 bytes, with local variables in the first function. -/
theorem stack_trace_two :
    ∃ s : CallFrames.State, ∀ c, printStackTrace s.mem s.ebp 10 c =
      printChars (traceHeader ++ traceText 0 [0x100200#32, 0x100100#32]) c := by
  have hinit : (CallFrames.system 0x1000 0x2000 0#32).Reachable ⟨fun _ => 0#8, 0x2000#32, 0#32, []⟩ :=
    .init ⟨by decide, rfl, rfl, rfl⟩
  have hfirst := hinit.step (.call (by decide : 0x100100#32 ≠ 0#32) (by decide : 0x1000 + 8 + 16 ≤ _))
  have hsecond := hfirst.step (.call (by decide : 0x100200#32 ≠ 0#32) (by decide : 0x1000 + 8 + 0 ≤ _))
  exact ⟨_, fun c => (stack_trace (by decide) (by decide) (.inl (by decide)) hsecond
    (List.cons_ne_nil _ _) 10 c).1⟩

end Zenix
