import Zenix.Lib.X86

/-!
# The context switch (kernel/proc/switch.asm)

`switch_context(&prev->regs, &next->regs)` pushes the callee-saved registers and
stores `esp` through its first argument. It then makes its second argument, an
address, the new `esp`, and pops from there.

Results:
1. `switchContext_saves`, `SavedContext.resumes`: what the call leaves in memory for
   `prev` is enough to resume it.
2. `switchContext_mem`: the memory the call leaves, and that `esp` ends up 24 bytes
   into `next->regs`.
-/

namespace Zenix
open ByteMemory X86

/-- Up to the store through `old`. -/
def saveOld : List Instr :=
  [ .push .ebp,
    .mov .ebp .esp,
    .load .eax .ebp 8#32,
    .pushf,
    .push .ebx,
    .push .esi,
    .push .edi,
    .store .eax 0#32 .esp ]

/-- `mov eax, [ebp + 12]` and `mov esp, eax`. -/
def loadNew : List Instr :=
  [ .load .eax .ebp 12#32,
    .mov .esp .eax ]

def popContext : List Instr :=
  [ .pop .edi,
    .pop .esi,
    .pop .ebx,
    .popf,
    .pop .ebp,
    .ret ]

def switchContext : List Instr := saveOld ++ (loadNew ++ popContext)

/-- The stack at the call: the return address, `&prev->regs`, `&next->regs`. -/
structure CallFrame (c : Machine) (ret old new : Word) : Prop where
  ret : load32 c.mem (c.reg .esp) = ret
  old : load32 c.mem (c.reg .esp + 4#32) = old
  new : load32 c.mem (c.reg .esp + 8#32) = new

/-- The 12 bytes of the frame and the 20 bytes below it, where the call saves
registers, do not wrap and lie outside the registers record at `regs`. -/
structure FrameOff (c : Machine) (regs : Word) : Prop where
  room : 20 ≤ (c.reg .esp).toNat ∧ (c.reg .esp).toNat + 12 ≤ 2 ^ 32
  off : (c.reg .esp).toNat + 12 ≤ regs.toNat ∨ regs.toNat + 64 + 20 ≤ (c.reg .esp).toNat
  fits : regs.toNat + 64 ≤ 2 ^ 32

/-! ## The two halves -/

/-- The memory after the pushes. -/
def pushed (c : Machine) : Mem :=
  let sp := c.reg .esp
  let m := store32 c.mem (sp - 4#32) (c.reg .ebp)
  let m := store32 m (sp - 8#32) c.eflags
  let m := store32 m (sp - 12#32) (c.reg .ebx)
  let m := store32 m (sp - 16#32) (c.reg .esi)
  store32 m (sp - 20#32) (c.reg .edi)

theorem run_saveOld (c : Machine) :
    (run saveOld c).mem =
        store32 (pushed c) (load32 (store32 c.mem (c.reg .esp - 4#32) (c.reg .ebp))
          (c.reg .esp + 4#32)) (c.reg .esp - 20#32) ∧
      (run saveOld c).reg .ebp = c.reg .esp - 4#32 := by
  have hold : c.reg .esp - 4#32 + 8#32 = c.reg .esp + 4#32 := by bv_omega
  simp [saveOld, run, exec, pushed, BitVec.sub_sub, hold]

theorem run_loadNew (c : Machine) {new : Word} (h : load32 c.mem (c.reg .ebp + 12#32) = new) :
    (run loadNew c).mem = c.mem ∧ (run loadNew c).reg .esp = new := by
  simp [loadNew, run, exec, h]

theorem run_popContext (c : Machine) :
    (run popContext c).mem = c.mem ∧
      (run popContext c).reg .edi = load32 c.mem (c.reg .esp) ∧
      (run popContext c).reg .esi = load32 c.mem (c.reg .esp + 4#32) ∧
      (run popContext c).reg .ebx = load32 c.mem (c.reg .esp + 8#32) ∧
      (run popContext c).eflags = load32 c.mem (c.reg .esp + 12#32) ∧
      (run popContext c).reg .ebp = load32 c.mem (c.reg .esp + 16#32) ∧
      (run popContext c).eip = load32 c.mem (c.reg .esp + 20#32) ∧
      (run popContext c).reg .esp = c.reg .esp + 24#32 := by
  simp [popContext, run, exec, Machine.top, BitVec.add_assoc]

section Frame
variable {c : Machine} {ret old new : Word}

theorem pushed_sameOff (h : 20 ≤ (c.reg .esp).toNat) :
    SameOff c.mem (pushed c) ((c.reg .esp).toNat - 20) (c.reg .esp).toNat := by
  have hpush : ∀ (m : Mem) (k : Nat) (v : Word), 4 ≤ k → k ≤ 20 →
      SameOff m (store32 m (c.reg .esp - BitVec.ofNat 32 k) v) ((c.reg .esp).toNat - 20)
        (c.reg .esp).toNat := by
    intro m k v hk4 hk20
    have hlt := (c.reg .esp).isLt
    have haddr : (c.reg .esp - BitVec.ofNat 32 k).toNat = (c.reg .esp).toNat - k := by
      rw [BitVec.toNat_sub, toNat_ofNat_of_lt (by omega)]
      omega
    refine (store32_sameOff (by omega)).mono ?_ ?_ <;> omega
  exact ((((hpush _ 4 _ (by decide) (by decide)).trans (hpush _ 8 _ (by decide) (by decide))).trans
    (hpush _ 12 _ (by decide) (by decide))).trans (hpush _ 16 _ (by decide) (by decide))).trans
    (hpush _ 20 _ (by decide) (by decide))

theorem pushed_loads (c : Machine) :
    load32 (pushed c) (c.reg .esp - 20#32) = c.reg .edi ∧
      load32 (pushed c) (c.reg .esp - 16#32) = c.reg .esi ∧
      load32 (pushed c) (c.reg .esp - 12#32) = c.reg .ebx ∧
      load32 (pushed c) (c.reg .esp - 8#32) = c.eflags ∧
      load32 (pushed c) (c.reg .esp - 4#32) = c.reg .ebp := by
  have hne : ∀ (m : Mem) (j k : Nat) (v : Word), j + 4 ≤ k → k ≤ 20 →
      load32 (store32 m (c.reg .esp - BitVec.ofNat 32 k) v) (c.reg .esp - BitVec.ofNat 32 j) =
        load32 m (c.reg .esp - BitVec.ofNat 32 j) := by
    intro m j k v hjk hk
    apply load32_store32_ne <;> bv_omega
  refine ⟨load32_store32_same _ _ _, ?_, ?_, ?_, ?_⟩ <;> simp only [pushed]
  · rw [hne _ 16 20 _ (by decide) (by decide), load32_store32_same]
  · rw [hne _ 12 20 _ (by decide) (by decide), hne _ 12 16 _ (by decide) (by decide),
      load32_store32_same]
  · rw [hne _ 8 20 _ (by decide) (by decide), hne _ 8 16 _ (by decide) (by decide),
      hne _ 8 12 _ (by decide) (by decide), load32_store32_same]
  · rw [hne _ 4 20 _ (by decide) (by decide), hne _ 4 16 _ (by decide) (by decide),
      hne _ 4 12 _ (by decide) (by decide), hne _ 4 8 _ (by decide) (by decide),
      load32_store32_same]

/-- The memory after the call: the pushes, and `esp` stored through `old`. -/
theorem switchContext_mem (hf : CallFrame c ret old new) (ho : FrameOff c old) :
    (run switchContext c).mem = store32 (pushed c) old (c.reg .esp - 20#32) ∧
      (run switchContext c).reg .esp = new + 24#32 ∧
      (run switchContext c).eip =
        load32 (store32 (pushed c) old (c.reg .esp - 20#32)) (new + 20#32) := by
  have hroom := ho.room
  have hoff := ho.off
  have hfits := ho.fits
  obtain ⟨hmem, hebp⟩ := run_saveOld c
  have harg : load32 (store32 c.mem (c.reg .esp - 4#32) (c.reg .ebp)) (c.reg .esp + 4#32) = old := by
    rw [load32_store32_ne (by bv_omega) (by bv_omega), hf.old]
  rw [harg] at hmem
  have hon : SameOn c.mem (pushed c) (c.reg .esp).toNat ((c.reg .esp).toNat + 12) :=
    (pushed_sameOff hroom.1).sameOn (Or.inr (Nat.le_refl _))
  have hnew : load32 (run saveOld c).mem ((run saveOld c).reg .ebp + 12#32) = new := by
    rw [hmem, hebp, show c.reg .esp - 4#32 + 12#32 = c.reg .esp + 8#32 by bv_omega,
      load32_store32_ne (by bv_omega) (by bv_omega),
      load32_congr hon (by bv_omega) (by bv_omega) hroom.2, hf.new]
  obtain ⟨hmem', hesp'⟩ := run_loadNew (run saveOld c) hnew
  obtain ⟨hmem'', _, _, _, _, _, heip, hesp⟩ := run_popContext (run loadNew (run saveOld c))
  rw [switchContext, run_append, run_append]
  refine ⟨hmem''.trans (hmem'.trans hmem), ?_, ?_⟩
  · rw [hesp, hesp']
  · rw [heip, hesp', hmem', hmem]

end Frame

/-! ## Saved contexts -/

/-- What a call of `switch_context` made in machine state `u` has left behind its
first argument `regs`. -/
structure SavedContext (m : Mem) (regs : Word) (u : Machine) (ret : Word) : Prop where
  esp : load32 m regs = u.reg .esp - 20#32
  edi : load32 m (u.reg .esp - 20#32) = u.reg .edi
  esi : load32 m (u.reg .esp - 16#32) = u.reg .esi
  ebx : load32 m (u.reg .esp - 12#32) = u.reg .ebx
  eflags : load32 m (u.reg .esp - 8#32) = u.eflags
  ebp : load32 m (u.reg .esp - 4#32) = u.reg .ebp
  ret : load32 m (u.reg .esp) = ret

/-- `t` goes on where the call made in state `u` returns to. -/
structure ResumesAt (t u : Machine) (ret : Word) : Prop where
  eip : t.eip = ret
  esp : t.reg .esp = u.reg .esp + 4#32
  ebp : t.reg .ebp = u.reg .ebp
  ebx : t.reg .ebx = u.reg .ebx
  esi : t.reg .esi = u.reg .esi
  edi : t.reg .edi = u.reg .edi
  eflags : t.eflags = u.eflags

theorem switchContext_saves {c : Machine} {ret old new : Word} (hf : CallFrame c ret old new)
    (ho : FrameOff c old) : SavedContext (run switchContext c).mem old c ret := by
  have hroom := ho.room
  have hoff := ho.off
  have hfits := ho.fits
  obtain ⟨hedi, hesi, hebx, heflags, hebp⟩ := pushed_loads c
  have hret : load32 (pushed c) (c.reg .esp) = ret := by
    have hon : SameOn c.mem (pushed c) (c.reg .esp).toNat ((c.reg .esp).toNat + 12) :=
      (pushed_sameOff hroom.1).sameOn (Or.inr (Nat.le_refl _))
    rw [load32_congr hon (Nat.le_refl _) (by omega) hroom.2, hf.ret]
  -- the store through `old` misses the stack
  have hmiss : ∀ k, k ≤ 20 → load32 (store32 (pushed c) old (c.reg .esp - 20#32))
      (c.reg .esp - BitVec.ofNat 32 k) = load32 (pushed c) (c.reg .esp - BitVec.ofNat 32 k) := by
    intro k hk
    apply load32_store32_ne <;> bv_omega
  rw [(switchContext_mem hf ho).1]
  refine ⟨load32_store32_same _ _ _, ?_, ?_, ?_, ?_, ?_, ?_⟩
  · rw [hmiss 20 (by decide), hedi]
  · rw [hmiss 16 (by decide), hesi]
  · rw [hmiss 12 (by decide), hebx]
  · rw [hmiss 8 (by decide), heflags]
  · rw [hmiss 4 (by decide), hebp]
  · have hzero := hmiss 0 (by decide)
    rw [BitVec.sub_zero] at hzero
    rw [hzero, hret]

/-- The saved context is complete: popping from the `esp` stored in it resumes
the process. -/
theorem SavedContext.resumes {c u : Machine} {regs ret : Word} (h : SavedContext c.mem regs u ret)
    (hesp : c.reg .esp = load32 c.mem regs) : ResumesAt (run popContext c) u ret := by
  obtain ⟨_, hedi, hesi, hebx, heflags, hebp, heip, hesp'⟩ := run_popContext c
  rw [hesp, h.esp] at hedi hesi hebx heflags hebp heip hesp'
  have hadd : ∀ a b : Word, u.reg .esp - a + b = u.reg .esp - (a - b) := by
    intro a b
    bv_omega
  simp only [hadd] at hesi hebx heflags hebp heip hesp'
  refine ⟨?_, ?_, hebp.trans h.ebp, hebx.trans h.ebx, hesi.trans h.esi, hedi.trans h.edi,
    heflags.trans h.eflags⟩
  · rw [heip, show u.reg .esp - (20#32 - 20#32) = u.reg .esp by bv_omega, h.ret]
  · rw [hesp']
    bv_omega

end Zenix
