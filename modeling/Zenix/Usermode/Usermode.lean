import Zenix.Hal.InterruptStubs
import Zenix.Mm.HeapGaps
import Zenix.Mm.PageWalk

/-!
# User mode (kernel/usermode/usermode.c)

`enter_usermode` takes a stack from `kmalloc` and leaves for ring 3 with `iret`. The kernel
and its heap lie in the first 16 MB, which `paging_init` maps for the kernel only, and the
user bits of those directory entries are never written again.

Results:
1. `iret_userFrame`: what the processor takes from the stack of `enter_usermode`.
2. `KernelRegion.step`: no page of the first 16 MB ever becomes a user page.
3. `user_mode_runs_iff`: user code can run exactly if `enter_usermode` does not get a stack.
4. `user_mode_faults`: after boot it gets one.
-/

namespace Zenix
open ByteMemory FirstFit X86

/-! ## The functions -/

/-- The heap, the page tables (`none` while `kernel_directory` is NULL), the static
`kernel_stack_top` and the task state segment. -/
structure UserRun where
  heap : HeapRun
  paging : Option Paging
  kernelStackTop : Word
  tss : Tss

/-- Both stacks. -/
def stackSize : Word := 0x2000#32

/-- `usermode_init`, with `set_kernel_stack`. -/
def usermodeInit (s : UserRun) : Option UserRun :=
  (kmalloc stackSize s.heap.heap).map fun r =>
    if r.1 = 0#32 then { s with heap := ⟨r.2, s.heap.live⟩ }  -- "Failed to allocate kernel stack!"
    else
      { s with
        heap := ⟨r.2, (r.1, stackSize) :: s.heap.live⟩
        kernelStackTop := r.1 + stackSize
        tss := { s.tss with esp0 := r.1 + stackSize } }

/-- What `enter_usermode` pushes for the `iret`. -/
structure UserFrame where
  eip : Word
  cs : Word
  eflags : Word
  esp : Word
  ss : Word

/-- `enter_usermode` up to the `iret`, which it executes only when there is a frame.
`program` is the address of `sample_usermode_program`. -/
def enterUsermode (program eflags : Word) (s : UserRun) : Option (Option UserFrame × Heap) :=
  (kmalloc stackSize s.heap.heap).map fun r =>
    if r.1 = 0#32 then (none, r.2)  -- "Failed to allocate user stack!"
    else (some ⟨program, 0x1B#32, eflags ||| 0x200#32, r.1 + stackSize, 0x23#32⟩, r.2)

/-- The words on the stack, the last one pushed first. -/
def UserFrame.words (f : UserFrame) : List Word := [f.eip, f.cs, f.eflags, f.esp, f.ss]

/-- Where the `iret` leads. -/
theorem iret_userFrame {program eflags : Word} {s : UserRun} {f : UserFrame} {h : Heap}
    (hf : enterUsermode program eflags s = some (some f, h)) {c : Cpu} (hcs : c.seg .cs = 0x08#16)
    (hstack : StackIs c.mem (c.reg .esp) f.words) :
    (iret c).eip = program ∧ (iret c).reg .esp = f.esp ∧ (iret c).seg .cs = 0x1B#16 ∧
      (iret c).seg .ss = 0x23#16 ∧ (iret c).interruptFlag = true := by
  obtain ⟨r, _, hr⟩ := Option.map_eq_some_iff.mp hf
  split at hr
  · cases hr
  · cases hr
    have hring : (0x1B#32 : Word).extractLsb' 0 16 &&& 3#16 ≠ c.seg .cs &&& 3#16 := by
      rw [hcs]
      decide
    rw [iret_outer hstack hring]
    refine ⟨rfl, rfl, rfl, rfl, ?_⟩
    change (eflags ||| 0x200#32).getLsbD 9 = true
    rw [BitVec.getLsbD_or, show (0x200#32 : Word).getLsbD 9 = true from rfl, Bool.or_true]

/-! ## Runs -/

inductive UserOp where
  | heap (op : HeapOp)
  | paging (op : PagingOp)

section Property
variable (pool : TablePool)

inductive UserStep : UserRun → UserOp → UserRun → Prop
  | heap {s : UserRun} {op : HeapOp} {h : HeapRun} : HeapStep s.heap op h →
      UserStep s (.heap op) { s with heap := h }
  | paging {s : UserRun} {op : PagingOp} {p q : Paging} : s.paging = some p →
      pagingStep pool p op = some q → UserStep s (.paging op) { s with paging := some q }

/-- Runs from `usermode_init` on, which comes some time after `paging_init`. -/
def userSystem : TransitionSystem UserRun UserOp where
  init := fun t => ∃ s page tables, heapSystem.Reachable s.heap ∧
    pagingInit pool page tables = some s.paging ∧ usermodeInit s = some t
  step := UserStep pool

/-- The page of the address is mapped, with the user bit set in both levels. -/
def UserPage (paging : Option Paging) (a : Word) : Prop :=
  ∃ s rw, paging = some s ∧ effectiveRights pool s (pageNumber a) = some ⟨rw, true⟩

/-- When `enter_usermode` executes the `iret`, user code can reach its program and all of
its stack. -/
def UserModeRuns (program eflags : Word) (s : UserRun) : Prop :=
  ∀ f h, enterUsermode program eflags s = some (some f, h) →
    UserPage pool s.paging f.eip ∧
      ∀ k : Nat, k < stackSize.toNat →
        UserPage pool s.paging (f.esp - stackSize + BitVec.ofNat 32 k)

/-! ## The first 16 MB -/

/-- The directory entries of the first 16 MB are for the kernel. -/
structure KernelRegion (s : Paging) : Prop where
  inv : PagingInvariant pool s
  present : ∀ d : BitVec 10, d.toNat < 4 → (s.directory d).present = true
  kernel : ∀ d : BitVec 10, d.toNat < 4 → (s.directory d).user = false

end Property

section Region
variable {pool : TablePool}

theorem IdentityMapped.kernelRegion {s : Paging} (hs : IdentityMapped pool 4096 s) :
    KernelRegion pool s := by
  have hpresent : ∀ d : BitVec 10, d.toNat < 4 → (s.directory d).present = true :=
    fun d hd => (hs.dirs d).mpr (by omega)
  exact ⟨hs.inv, hpresent, fun d hd => hs.kernel d (hpresent d hd)⟩

theorem KernelRegion.step {s t : Paging} {op : PagingOp} (hs : KernelRegion pool s)
    (h : pagingStep pool s op = some t) : KernelRegion pool t := by
  have hinv := pagingStep_invariant op hs.inv h
  suffices hdir : ∀ d : BitVec 10, d.toNat < 4 → t.directory d = s.directory d by
    refine ⟨hinv, fun d hd => ?_, fun d hd => ?_⟩
    · rw [hdir d hd, hs.present d hd]
    · rw [hdir d hd, hs.kernel d hd]
  intro d hd
  cases op with
  | map virt phys flags =>
    rcases pagingMapPage_directory h with ⟨hsame, _⟩ | ⟨habsent, _, _, k, hnew⟩
    · rw [hsame]
    · rw [hnew]
      refine if_neg ?_
      rintro rfl
      exact Bool.false_ne_true (habsent.symm.trans (hs.present _ hd))
  | unmap virt =>
    obtain ⟨u, hu, _, hsame, _⟩ := pagingUnmapPage_spec hs.inv virt
    cases hu.symm.trans h
    rw [hsame]

/-- A page of the region is not a user page. -/
theorem KernelRegion.not_userPage {s : Paging} (hs : KernelRegion pool s) {a : Word}
    (ha : a.toNat < 0x1000000) : ¬ UserPage pool (some s) a := by
  rintro ⟨t, rw, ht, hrights⟩
  cases ht
  have hdir : (dirPart (pageNumber a)).toNat < 4 := by
    rw [← pageDirIndex_eq]
    simp only [pageDirIndex, BitVec.toNat_setWidth, BitVec.toNat_ushiftRight,
      Nat.shiftRight_eq_div_pow]
    omega
  unfold effectiveRights pageWalk at hrights
  rw [hs.kernel _ hdir] at hrights
  cases hmap : pageMap pool s (pageNumber a) with
  | none =>
    rw [hmap] at hrights
    cases hrights
  | some e =>
    rw [hmap] at hrights
    cases hrights

/-! ## The invariant of the runs -/

structure UserInvariant (pool : TablePool) (s : UserRun) : Prop where
  heap : heapSystem.Reachable s.heap
  region : ∀ p, s.paging = some p → KernelRegion pool p

theorem usermodeInit_spec {s t : UserRun} (h : usermodeInit s = some t)
    (hs : heapSystem.Reachable s.heap) : heapSystem.Reachable t.heap ∧ t.paging = s.paging := by
  obtain ⟨⟨p, h'⟩, hk, hr⟩ := Option.map_eq_some_iff.mp h
  have hstep : heapSystem.Reachable ⟨h', if p = 0#32 then s.heap.live else
      (p, stackSize) :: s.heap.live⟩ := hs.step (a := .kmalloc stackSize) (HeapStep.kmalloc hk)
  dsimp only at hr
  split at hr
  · next hp =>
    rw [if_pos hp] at hstep
    cases hr
    exact ⟨hstep, rfl⟩
  · next hp =>
    rw [if_neg hp] at hstep
    cases hr
    exact ⟨hstep, rfl⟩

theorem userSystem_invariant {s : UserRun} (h : (userSystem pool).Reachable s) :
    UserInvariant pool s := by
  refine h.invariant (P := UserInvariant pool) ?_ ?_
  · rintro t ⟨s, page, tables, hheap, hpaging, hinit⟩
    obtain ⟨hheap', hpaging'⟩ := usermodeInit_spec hinit hheap
    refine ⟨hheap', fun p hp => ?_⟩
    rw [← hpaging', hp] at hpaging
    cases page with
    | none => cases hpaging
    | some dir => exact (pagingInit_identityMapped ⟨dir, tables, hpaging⟩).kernelRegion
  · intro s a t _ hs hstep
    cases hstep with
    | heap hop => exact ⟨hs.heap.step hop, hs.region⟩
    | @paging op p q hp hop =>
      refine ⟨hs.heap, fun r hr => ?_⟩
      cases hr
      exact (hs.region p hp).step hop

/-! ## Entering user mode -/

/-- There is a gap between the live blocks for a stack and its header. -/
def StackFits (s : HeapRun) : Prop := ∃ lo hi, HeapGap s lo hi ∧ stackSize.toNat + 12 ≤ hi - lo

/-- `enter_usermode` executes the `iret` exactly if the stack fits, and the stack then lies
in the heap. -/
theorem enterUsermode_spec {s : UserRun} (hs : heapSystem.Reachable s.heap) (program eflags : Word) :
    ∃ o h, enterUsermode program eflags s = some (o, h) ∧ (o.isSome = true ↔ StackFits s.heap) ∧
      ∀ f, o = some f → (f.esp - stackSize).toNat < 0x1000000 := by
  obtain ⟨cs, hrun⟩ := reachable_run hs
  obtain ⟨p, h, hk, hiff, hlowest, _⟩ := hrun.kmalloc_gap (n := stackSize) (by decide) (by decide)
  unfold enterUsermode StackFits
  rw [hk, Option.map_some]
  dsimp only
  split
  · next hp =>
    refine ⟨none, h, rfl, ?_, fun f hf => absurd hf (by simp)⟩
    refine iff_of_false (by simp) fun hfits => ?_
    exact hiff.mpr hfits hp
  · next hp =>
    refine ⟨_, h, rfl, iff_of_true rfl (hiff.mp hp), ?_⟩
    intro f hf
    cases hf
    obtain ⟨lo, hi, hgap, _, hpa, _⟩ := hlowest hp
    have hin : hi ≤ 0x800000 := hgap.inside.2
    have hne := hgap.nonempty
    change (p + stackSize - stackSize).toNat < _
    rw [BitVec.add_sub_cancel, hpa]
    omega

/-- A stack makes the property fail. -/
theorem UserInvariant.not_runs {s : UserRun} (hs : UserInvariant pool s) {program eflags : Word}
    {f : UserFrame} {h : Heap} (hf : enterUsermode program eflags s = some (some f, h)) :
    ¬ UserModeRuns pool program eflags s := by
  obtain ⟨o, h', ho, _, hstack⟩ := enterUsermode_spec hs.heap program eflags
  cases ho.symm.trans hf
  intro hruns
  have huser := (hruns f h hf).2 0 (by decide)
  rw [BitVec.add_zero] at huser
  cases hp : s.paging with
  | none =>
    rw [hp] at huser
    obtain ⟨_, _, hnone, _⟩ := huser
    cases hnone
  | some p =>
    rw [hp] at huser
    exact (hs.region p hp).not_userPage (hstack f rfl) huser

end Region

/-- In every reachable state user code can run what it is given exactly if there is no room
for its stack, so that it is not entered. -/
theorem user_mode_runs_iff {pool : TablePool} {s : UserRun} (h : (userSystem pool).Reachable s)
    (program eflags : Word) :
    UserModeRuns pool program eflags s ↔ ¬ StackFits s.heap := by
  have hs := userSystem_invariant h
  obtain ⟨o, h', ho, hfits, _⟩ := enterUsermode_spec hs.heap program eflags
  rw [← hfits]
  constructor
  · intro hruns hsome
    obtain ⟨f, rfl⟩ := Option.isSome_iff_exists.mp hsome
    exact hs.not_runs ho hruns
  · intro hnone f h'' hf
    cases ho.symm.trans hf
    exact absurd rfl hnone

/-! ## After boot -/

/-- A fresh heap with the page tables of `paging_init`. -/
def bootRun (p : Paging) : UserRun := ⟨⟨heapInit fun _ => 0#8, []⟩, some p, 0#32, ⟨0#32, 0x10#16⟩⟩

/-- After `usermode_init` there is room for the second stack. -/
theorem boot_enters (p : Paging) (program eflags : Word) :
    ∃ s f h, usermodeInit (bootRun p) = some s ∧
      enterUsermode program eflags s = some (some f, h) := by
  have hfirst : firstFit (alignSize stackSize).toNat [freshChunk] = some ([], freshChunk, []) := rfl
  have hsize : stackSize ≠ 0#32 := by decide
  obtain ⟨h₁, hk₁, hr₁, _⟩ := kmalloc_some (heapInit_represents fun _ => 0#8) hsize hfirst
  have hsecond : firstFit (alignSize stackSize).toNat
      ([] ++ carve 12 4 (alignSize stackSize).toNat freshChunk ++ []) =
        some ([⟨0x2000, true⟩], ⟨0x400000 - 12 - 0x2000 - 12, false⟩, []) := rfl
  obtain ⟨h₂, hk₂, _⟩ := kmalloc_some hr₁ hsize hsecond
  obtain ⟨s, hs, hheap⟩ : ∃ s, usermodeInit (bootRun p) = some s ∧ s.heap.heap = h₁ := by
    have hne : BitVec.ofNat 32 (0x400000 + span 12 [] + 12) ≠ 0#32 := by decide
    unfold usermodeInit bootRun
    rw [hk₁, Option.map_some, if_neg hne]
    exact ⟨_, rfl, rfl⟩
  have hf : enterUsermode program eflags s = some (some ⟨program, 0x1B#32, eflags ||| 0x200#32,
      BitVec.ofNat 32 (0x400000 + span 12 [⟨0x2000, true⟩] + 12) + stackSize, 0x23#32⟩, h₂) := by
    have hne : BitVec.ofNat 32 (0x400000 + span 12 [⟨0x2000, true⟩] + 12) ≠ 0#32 := by decide
    unfold enterUsermode
    rw [hheap, hk₂, Option.map_some, if_neg hne]
  exact ⟨s, _, h₂, hs, hf⟩

theorem boot_reachable {pool : TablePool} {p : Paging} {s : UserRun}
    (hp : (pagingSystem pool).init p) (hs : usermodeInit (bootRun p) = some s) :
    (userSystem pool).Reachable s := by
  obtain ⟨dir, tables, hinit⟩ := hp
  exact .init ⟨bootRun p, some dir, tables, .init ⟨_, rfl⟩, hinit, hs⟩

theorem user_mode_runs_boot : ∃ s, (userSystem poolAt2M).Reachable s ∧
    (UserModeRuns poolAt2M 0x102000#32 2#32 s ↔ ¬ StackFits s.heap) := by
  obtain ⟨p, hp, _⟩ := exists_pagingInit poolAt2M
  obtain ⟨s, _, _, hs, _⟩ := boot_enters p 0x102000#32 2#32
  exact ⟨s, boot_reachable hp hs, user_mode_runs_iff (boot_reachable hp hs) 0x102000#32 2#32⟩

/-- The first instruction of user code faults. -/
theorem user_mode_faults : ¬ ∀ (pool : TablePool) (s : UserRun) (program eflags : Word),
    (userSystem pool).Reachable s → UserModeRuns pool program eflags s := by
  intro h
  obtain ⟨p, hp, _⟩ := exists_pagingInit poolAt2M
  obtain ⟨s, f, h', hs, hf⟩ := boot_enters p 0x102000#32 2#32
  have hr := boot_reachable hp hs
  exact (userSystem_invariant hr).not_runs hf (h poolAt2M s 0x102000#32 2#32 hr)

end Zenix
