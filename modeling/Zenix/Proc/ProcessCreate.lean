import Zenix.Mm.HeapUndo
import Zenix.Proc.Scheduler

/-!
# What `process_init` and `process_create` build

Results:
1. `initRegs_fresh`: the registers record of a new process.
2. `initIdle_fields`, `initProcess_fields`: the records of the idle process and of a
   new process.
3. `processCreate_cases`: a call fails and gives everything back, or it builds a
   ready process whose record and stack are heap blocks of their own.
4. `processCreate_total`: the call returns.
5. `processCreate_atomic`: a call that returns NULL has changed nothing.
-/

namespace Zenix
open ByteMemory FirstFit

/-! ## The registers record -/

/-- The registers record of a process that has not run yet. -/
structure FreshContext (m : Mem) (r entryPoint kernelStack : Word) : Prop where
  ds : load32 m r = 0x10#32
  /-- `edi` to `err_code`. -/
  general : ∀ k, 4 ≤ k → k ≤ 40 → load32 m (r + BitVec.ofNat 32 k) = 0#32
  eip : load32 m (r + 44#32) = entryPoint
  cs : load32 m (r + 48#32) = 0x08#32
  eflags : load32 m (r + 52#32) = 0x202#32
  useresp : load32 m (r + 56#32) = kernelStack
  ss : load32 m (r + 60#32) = 0x10#32

theorem initRegs_fresh {m : Mem} {r : Word} (entryPoint kernelStack : Word)
    (hr : r.toNat + 64 ≤ 2 ^ 32) :
    FreshContext (initRegs m r entryPoint kernelStack) r entryPoint kernelStack := by
  have hfar : ∀ (m : Mem) (j k : Nat) (v : Word), (j + 4 ≤ k ∨ k + 4 ≤ j) → j ≤ 60 → k ≤ 60 →
      load32 (store32 m (r + BitVec.ofNat 32 k) v) (r + BitVec.ofNat 32 j) =
        load32 m (r + BitVec.ofNat 32 j) := by
    intro m j k v hjk hj hk
    apply load32_store32_ne <;> bv_omega
  have hzero : ∀ m : Mem, ∀ v : Word, store32 m r v = store32 m (r + BitVec.ofNat 32 0) v := by
    intro m v
    rw [BitVec.add_zero]
  have hload : ∀ m : Mem, load32 m r = load32 m (r + BitVec.ofNat 32 0) := by
    intro m
    rw [BitVec.add_zero]
  simp only [initRegs, setEip, setCs, setDs, setEflags, setUseresp, setSs, hzero]
  refine ⟨?_, ?_, ?_, ?_, ?_, ?_, ?_⟩
  · rw [hload, hfar _ 0 60, hfar _ 0 56, hfar _ 0 52, load32_store32_same] <;> omega
  · intro k hk4 hk40
    rw [hfar _ k 60, hfar _ k 56, hfar _ k 52, hfar _ k 0, hfar _ k 48, hfar _ k 44,
      load32_memset_zero hr] <;> omega
  · rw [hfar _ 44 60, hfar _ 44 56, hfar _ 44 52, hfar _ 44 0, hfar _ 44 48, load32_store32_same] <;>
      omega
  · rw [hfar _ 48 60, hfar _ 48 56, hfar _ 48 52, hfar _ 48 0, load32_store32_same] <;> omega
  · rw [hfar _ 52 60, hfar _ 52 56, load32_store32_same] <;> omega
  · rw [hfar _ 56 60, load32_store32_same] <;> omega
  · rw [load32_store32_same]

theorem FreshContext.congr {m m' : Mem} {r entryPoint kernelStack : Word}
    (h : FreshContext m r entryPoint kernelStack) (hon : SameOn m m' r.toNat (r.toNat + 64))
    (hr : r.toNat + 64 ≤ 2 ^ 32) : FreshContext m' r entryPoint kernelStack := by
  have hload : ∀ k, k ≤ 60 → load32 m' (r + BitVec.ofNat 32 k) = load32 m (r + BitVec.ofNat 32 k) := by
    intro k hk
    have haddr : (r + BitVec.ofNat 32 k).toNat = r.toNat + k := toNat_add_ofNat (by omega)
    exact load32_congr hon (by omega) (by omega) hr
  have hds := hload 0 (by decide)
  rw [BitVec.add_zero] at hds
  exact ⟨hds.trans h.ds, fun k h4 h40 => (hload k (by omega)).trans (h.general k h4 h40),
    (hload 44 (by decide)).trans h.eip, (hload 48 (by decide)).trans h.cs,
    (hload 52 (by decide)).trans h.eflags, (hload 56 (by decide)).trans h.useresp,
    (hload 60 (by decide)).trans h.ss⟩

theorem initRegs_sameOff {m : Mem} {r : Word} (entryPoint kernelStack : Word)
    (hr : r.toNat + 64 ≤ 2 ^ 32) :
    SameOff m (initRegs m r entryPoint kernelStack) r.toNat (r.toNat + 64) := by
  have hstore : ∀ (m : Mem) (k : Nat) (v : Word), k ≤ 60 →
      SameOff m (store32 m (r + BitVec.ofNat 32 k) v) r.toNat (r.toNat + 64) := by
    intro m k v hk
    refine (store32_field_sameOff (n := 64) (by omega) hr).mono ?_ ?_ <;> omega
  have hds : ∀ m : Mem, ∀ v : Word, SameOff m (store32 m r v) r.toNat (r.toNat + 64) := by
    intro m v
    refine (store32_sameOff (by omega)).mono ?_ ?_ <;> omega
  exact (((((((memset_sameOff hr).trans (hstore _ 44 _ (by decide))).trans
    (hstore _ 48 _ (by decide))).trans (hds _ _)).trans (hstore _ 52 _ (by decide))).trans
    (hstore _ 56 _ (by decide))).trans (hstore _ 60 _ (by decide)))

/-! ## The process record -/

section Record
variable {m : Mem} {p : Word} (pid name entryPoint ticks stack : Word)
  (hp : p.toNat + 120 ≤ 2 ^ 32)
include hp

/-- A record field is written inside the record. -/
theorem setField_sameOff {v : Word} {k lo hi : Nat} (hk : lo ≤ k) (hhi : k + 4 ≤ hi)
    (hmax : hi ≤ 120) :
    SameOff m (store32 m (p + BitVec.ofNat 32 k) v) (p.toNat + lo) (p.toNat + hi) := by
  refine (store32_field_sameOff (n := 120) (by omega) hp).mono ?_ ?_ <;> omega

/-- The stores of `process_create` up to the name, then the state, then the rest. -/
theorem initProcess_parts :
    ∃ m₀ m₁, SameOff m m₀ p.toNat (p.toNat + 36) ∧
      SameOff (setState m₀ p .ready) m₁ (p.toNat + 104) (p.toNat + 116) ∧
      load32 m₁ (p + 104#32) = stack + KERNEL_STACK_SIZE ∧
      initProcess m p pid name entryPoint ticks stack =
        setProcNext (initRegs m₁ (procRegs p) entryPoint (stack + KERNEL_STACK_SIZE)) p 0#32 := by
  have hname : (procName p).toNat = p.toNat + 4 := toNat_add_ofNat (by omega)
  have hnul : (procName p + 31#32).toNat = (procName p).toNat + 31 := toNat_add_ofNat (by omega)
  refine ⟨store8 (strncpy (setPid m p pid) (procName p) name 31) (procName p + 31#32) 0#8, _, ?_, ?_,
    load32_store32_same _ _ _, rfl⟩
  · have hpid : SameOff m (setPid m p pid) p.toNat (p.toNat + 36) :=
      (store32_sameOff (by omega)).mono (by omega) (by omega)
    have hcopy : SameOff (setPid m p pid) (strncpy (setPid m p pid) (procName p) name 31) p.toNat
        (p.toNat + 36) := (strncpy_sameOff (by omega)).mono (by omega) (by omega)
    exact (hpid.trans hcopy).trans ((store8_sameOff _ _ _).mono (by omega) (by omega))
  · exact ((setField_sameOff hp (k := 108) (by decide) (by decide) (by decide)).trans
      (setField_sameOff hp (k := 112) (by decide) (by decide) (by decide))).trans
      (setField_sameOff hp (k := 104) (by decide) (by decide) (by decide))

theorem initProcess_sameOff :
    SameOff m (initProcess m p pid name entryPoint ticks stack) p.toNat (p.toNat + 120) := by
  have hregs : (procRegs p).toNat = p.toNat + 40 := toNat_add_ofNat (by omega)
  obtain ⟨m₀, m₁, hhead, htail, _, heq⟩ := initProcess_parts (m := m) pid name entryPoint ticks
    stack hp
  rw [heq]
  have hstate : SameOff m₀ (setState m₀ p .ready) (p.toNat + 0) (p.toNat + 120) :=
    setField_sameOff hp (k := 36) (by decide) (by decide) (by decide)
  have hinit := initRegs_sameOff (m := m₁) (r := procRegs p) entryPoint (stack + KERNEL_STACK_SIZE)
    (by omega)
  have hnext : ∀ m : Mem, SameOff m (setProcNext m p 0#32) (p.toNat + 0) (p.toNat + 120) :=
    fun m => setField_sameOff hp (k := 116) (by decide) (by decide) (by decide)
  exact (((hhead.mono (by omega) (by omega)).trans (hstate.mono (by omega) (by omega))).trans
    (htail.mono (by omega) (by omega))).trans
    ((hinit.mono (by omega) (by omega)).trans ((hnext _).mono (by omega) (by omega)))

/-- The record of a new process: ready, with fresh registers and its stack. -/
theorem initProcess_fields :
    procState (initProcess m p pid name entryPoint ticks stack) p = ProcessState.ready.code ∧
      procKernelStack (initProcess m p pid name entryPoint ticks stack) p =
        stack + KERNEL_STACK_SIZE ∧
      FreshContext (initProcess m p pid name entryPoint ticks stack) (procRegs p) entryPoint
        (stack + KERNEL_STACK_SIZE) := by
  have hregs : (procRegs p).toNat = p.toNat + 40 := toNat_add_ofNat (by omega)
  obtain ⟨m₀, m₁, _, htail, hstack, heq⟩ := initProcess_parts (m := m) pid name entryPoint ticks
    stack hp
  rw [heq]
  have hinit : SameOff m₁ (initRegs m₁ (procRegs p) entryPoint (stack + KERNEL_STACK_SIZE))
      (p.toNat + 40) (p.toNat + 104) :=
    (initRegs_sameOff _ _ (by omega)).mono (by omega) (by omega)
  have hnext : SameOff (initRegs m₁ (procRegs p) entryPoint (stack + KERNEL_STACK_SIZE)) _
      (p.toNat + 116) (p.toNat + 120) :=
    setField_sameOff hp (k := 116) (v := 0#32) (by decide) (by decide) (by decide)
  refine ⟨?_, ?_, ?_⟩
  · have h₁ := load32_field_congr hnext (k := 36) (by decide) (by omega)
    have h₂ := load32_field_congr hinit (k := 36) (by decide) (by omega)
    have h₃ := load32_field_congr htail (k := 36) (by decide) (by omega)
    exact h₁.trans (h₂.trans (h₃.trans (load32_store32_same _ _ _)))
  · have h₁ := load32_field_congr hnext (k := 104) (by decide) (by omega)
    have h₂ := load32_field_congr hinit (k := 104) (by decide) (by omega)
    exact h₁.trans (h₂.trans hstack)
  · have hfresh := initRegs_fresh (m := m₁) (r := procRegs p) entryPoint
      (stack + KERNEL_STACK_SIZE) (by omega)
    exact hfresh.congr (hnext.sameOn (by omega)) (by omega)

theorem initProcess_pid : procPid (initProcess m p pid name entryPoint ticks stack) p = pid := by
  have hname : (procName p).toNat = p.toNat + 4 := toNat_add_ofNat (by omega)
  have hnul : (procName p + 31#32).toNat = (procName p).toNat + 31 := toNat_add_ofNat (by omega)
  have hregs : (procRegs p).toNat = p.toNat + 40 := toNat_add_ofNat (by omega)
  have hfield : ∀ (m : Mem) (v : Word) (k : Nat), 4 ≤ k → k + 4 ≤ 120 →
      SameOff m (store32 m (p + BitVec.ofNat 32 k) v) (p.toNat + 4) (p.toNat + 120) :=
    fun m v k hk hmax => setField_sameOff hp hk hmax (le_refl _)
  have hcopy : ∀ m : Mem, SameOff m (strncpy m (procName p) name 31) (p.toNat + 4) (p.toNat + 120) :=
    fun m => (strncpy_sameOff (by omega)).mono (by omega) (by omega)
  have hend : ∀ m : Mem, SameOff m (store8 m (procName p + 31#32) 0#8) (p.toNat + 4)
      (p.toNat + 120) := fun m => (store8_sameOff _ _ _).mono (by omega) (by omega)
  have hinit : ∀ m : Mem, SameOff m (initRegs m (procRegs p) entryPoint (stack + KERNEL_STACK_SIZE))
      (p.toNat + 4) (p.toNat + 120) :=
    fun m => (initRegs_sameOff _ _ (by omega)).mono (by omega) (by omega)
  have hoff : SameOff (setPid m p pid) (initProcess m p pid name entryPoint ticks stack)
      (p.toNat + 4) (p.toNat + 120) :=
    (((((((hcopy _).trans (hend _)).trans (hfield _ _ 36 (by decide) (by decide))).trans
      (hfield _ _ 108 (by decide) (by decide))).trans (hfield _ _ 112 (by decide) (by decide))).trans
      (hfield _ _ 104 (by decide) (by decide))).trans (hinit _)).trans
      (hfield _ _ 116 (by decide) (by decide))
  have hload := load32_field_congr hoff (k := 0) (by decide) (by omega)
  rw [BitVec.add_zero] at hload
  exact hload.trans (load32_store32_same _ _ _)

end Record

/-! ## The record of the idle process -/

/-- The stores of `process_init`, one after the other. -/
theorem initIdle_steps {m : Mem} {p : Word} (ticks : Word) (hp : p.toNat + 120 ≤ 2 ^ 32) :
    ∃ m₃, load32 m₃ p = 0#32 ∧ load32 m₃ (p + 104#32) = 0#32 ∧
      SameOff m m₃ p.toNat (p.toNat + 120) ∧
      SameOff (setState m₃ p .running) (initIdle m p ticks) (p.toNat + 108) (p.toNat + 120) := by
  have hname : (procName p).toNat = p.toNat + 4 := toNat_add_ofNat (by omega)
  have hclear : SameOff m (memset m p 0#8 120) p.toNat (p.toNat + 120) := memset_sameOff hp
  have hpid : SameOff (memset m p 0#8 120) (setPid (memset m p 0#8 120) p 0#32) (p.toNat + 0)
      (p.toNat + 4) := store32_sameOff (by omega)
  have hcopy : SameOff (setPid (memset m p 0#8 120) p 0#32)
      (strcpyLiteral (setPid (memset m p 0#8 120) p 0#32) (procName p)
        [0x69#8, 0x64#8, 0x6C#8, 0x65#8]) (p.toNat + 4) (p.toNat + 9) := by
    exact (strcpyLiteral_sameOff (by simp only [List.length_cons, List.length_nil]; omega)).mono
      (by omega) (by simp only [List.length_cons, List.length_nil]; omega)
  refine ⟨_, ?_, ?_, ?_, ((setField_sameOff hp (k := 108) (by decide) (by decide) (by decide)).trans
    (setField_sameOff hp (k := 112) (by decide) (by decide) (by decide))).trans
    (setField_sameOff hp (k := 116) (by decide) (by decide) (by decide))⟩
  · have h := load32_field_congr hcopy (k := 0) (by decide) (by omega)
    rw [BitVec.add_zero] at h
    exact h.trans (load32_store32_same _ _ _)
  · have h := load32_field_congr hcopy (k := 104) (by decide) (by omega)
    have h' := load32_field_congr hpid (k := 104) (by decide) (by omega)
    exact h.trans (h'.trans (load32_memset_zero hp (by decide)))
  · exact (hclear.trans (hpid.mono (by omega) (by omega))).trans (hcopy.mono (by omega) (by omega))

theorem initIdle_sameOff {m : Mem} {p : Word} (ticks : Word) (hp : p.toNat + 120 ≤ 2 ^ 32) :
    SameOff m (initIdle m p ticks) p.toNat (p.toNat + 120) := by
  obtain ⟨m₃, _, _, hhead, htail⟩ := initIdle_steps (m := m) ticks hp
  have hstate : SameOff m₃ (setState m₃ p .running) (p.toNat + 0) (p.toNat + 120) :=
    setField_sameOff hp (k := 36) (by decide) (by decide) (by decide)
  exact (hhead.trans (hstate.mono (by omega) (by omega))).trans (htail.mono (by omega) (by omega))

theorem initIdle_fields {m : Mem} {p : Word} (ticks : Word) (hp : p.toNat + 120 ≤ 2 ^ 32) :
    procState (initIdle m p ticks) p = ProcessState.running.code ∧
      procPid (initIdle m p ticks) p = 0#32 ∧ procKernelStack (initIdle m p ticks) p = 0#32 := by
  obtain ⟨m₃, hpid, hstack, _, htail⟩ := initIdle_steps (m := m) ticks hp
  have hstate : SameOff m₃ (setState m₃ p .running) (p.toNat + 36) (p.toNat + 40) :=
    setField_sameOff hp (k := 36) (by decide) (by decide) (by decide)
  refine ⟨?_, ?_, ?_⟩
  · have h := load32_field_congr htail (k := 36) (by decide) (by omega)
    exact h.trans (load32_store32_same _ _ _)
  · have h := load32_field_congr htail (k := 0) (by decide) (by omega)
    have h' := load32_field_congr hstate (k := 0) (by decide) (by omega)
    rw [BitVec.add_zero] at h h'
    exact h.trans (h'.trans hpid)
  · have h := load32_field_congr htail (k := 104) (by decide) (by omega)
    have h' := load32_field_congr hstate (k := 104) (by decide) (by omega)
    exact h.trans (h'.trans hstack)

/-! ## The call -/

/-- What a successful call of `process_create` has built: a ready process in the
payload of the block `r`, with the payload of the block `k` as its stack. -/
structure Created (s t : Procs) (bs : List Block) (r k : Block) (proc entryPoint : Word) : Prop where
  isPayload : proc = payload r
  nonnull : proc ≠ 0#32
  record : 120 ≤ r.size
  stack : 4096 ≤ k.size
  freshRecord : r ∉ bs
  freshStack : k ∉ r :: bs
  owns : Owns t.heap (k :: r :: bs)
  kept : Kept bs s.heap.mem t.heap.mem
  state : procState t.heap.mem proc = ProcessState.ready.code
  kernelStack : procKernelStack t.heap.mem proc = payload k + KERNEL_STACK_SIZE
  context : FreshContext t.heap.mem (procRegs proc) entryPoint (payload k + KERNEL_STACK_SIZE)
  rest : t = { s with
    heap := t.heap
    processTable := replaceFirst s.processTable 0#32 proc
    nextPid := s.nextPid + 1#32 }

/-- A failed call of `process_create` has given back what it took. -/
structure NotCreated (s t : Procs) (bs : List Block) : Prop where
  owns : Owns t.heap bs
  kept : Kept bs s.heap.mem t.heap.mem
  rest : t = { s with heap := t.heap }

theorem clearRecord_sameOff (m : Mem) (p : Word) (hp : p.toNat + sizeofProcess.toNat ≤ 2 ^ 32) :
    SameOff m (memset m p 0#8 120) p.toNat (p.toNat + sizeofProcess.toNat) :=
  memset_sameOff hp

theorem processCreate_cases {s t : Procs} {bs : List Block} {name entryPoint ticks proc : Word}
    (ho : Owns s.heap bs) (h : processCreate name entryPoint ticks s = some (proc, t)) :
    (proc = 0#32 ∧ NotCreated s t bs) ∨ ∃ r k, Created s t bs r k proc entryPoint := by
  unfold processCreate at h
  split at h
  · cases h
    exact Or.inl ⟨rfl, ho, Kept.refl _ _, rfl⟩
  · obtain ⟨⟨p, h₁⟩, hk₁, h⟩ := Option.bind_eq_some_iff.mp h
    dsimp only at h
    rcases ho.kmallocFill (by decide) clearRecord_sameOff hk₁ with
      ⟨rfl, rfl⟩ | ⟨r, hp, rfl, hrsize, hrbs, ho₂, hkept₂⟩
    · rw [if_pos rfl] at h
      cases h
      exact Or.inl ⟨rfl, ho, Kept.refl _ _, rfl⟩
    · rw [if_neg hp] at h
      have hrbd := ho₂.bounds List.mem_cons_self
      have hrpay := ho₂.payload_toNat List.mem_cons_self
      obtain ⟨⟨q, h₃⟩, hk₃, h⟩ := Option.bind_eq_some_iff.mp h
      dsimp only at h
      rcases ho₂.kmalloc hk₃ with ⟨rfl, rfl⟩ | ⟨k, hq, rfl, hk, hkbs, ho₃, hkept₃⟩
      · rw [if_pos rfl] at h
        obtain ⟨h₄, hfree, heq⟩ := Option.map_eq_some_iff.mp h
        cases heq
        obtain ⟨h₄', hfree', ho₄, hkept₄⟩ := ho₂.kfree List.mem_cons_self
        cases hfree'.symm.trans hfree
        rw [List.erase_cons_head] at ho₄
        refine Or.inl ⟨rfl, ho₄, ?_, rfl⟩
        exact hkept₂.trans (hkept₄.mono fun b hb => List.mem_cons_of_mem _ hb)
      · rw [if_neg hq] at h
        cases h
        have hksize : 4096 ≤ k.size := hk (by decide)
        have hne : k ≠ r := fun h => hkbs (h ▸ List.mem_cons_self)
        have hrkbs : r ∉ k :: bs := by
          rw [List.mem_cons, not_or]
          exact ⟨Ne.symm hne, hrbs⟩
        have hfit : (payload r).toNat + 120 ≤ 2 ^ 32 := by omega
        obtain ⟨ho₄, hkept₄⟩ := (ho₃.perm (List.Perm.swap r k bs)).writePayload hrkbs hrsize
          (initProcess_sameOff (m := h₃.mem) s.nextPid name entryPoint ticks (payload k) hfit)
        obtain ⟨hstate, hstack, hfresh⟩ := initProcess_fields (m := h₃.mem) s.nextPid name
          entryPoint ticks (payload k) hfit
        refine Or.inr ⟨r, k, rfl, hp, hrsize, hksize, hrbs, hkbs,
          ho₄.perm (List.Perm.swap k r bs), ?_, hstate, hstack, hfresh,
          rfl⟩
        refine (hkept₂.trans (hkept₃.mono ?_)).trans (hkept₄.mono ?_) <;>
          exact fun b hb => List.mem_cons_of_mem _ hb

/-- What a call leaves besides the heap: nothing new, or a process. -/
theorem processCreate_eq_some {s t : Procs} {name entryPoint ticks proc : Word}
    (h : processCreate name entryPoint ticks s = some (proc, t)) :
    (proc = 0#32 ∧ t = { s with heap := t.heap }) ∨
      ∃ (hp : Heap) (stack : Word), t =
        { s with
          heap := { hp with mem := initProcess hp.mem proc s.nextPid name entryPoint ticks stack }
          processTable := replaceFirst s.processTable 0#32 proc
          nextPid := s.nextPid + 1#32 } := by
  unfold processCreate at h
  split at h
  · cases h
    exact Or.inl ⟨rfl, rfl⟩
  · obtain ⟨⟨p, h₁⟩, _, h⟩ := Option.bind_eq_some_iff.mp h
    dsimp only at h
    split at h
    · cases h
      exact Or.inl ⟨rfl, rfl⟩
    · obtain ⟨⟨q, h₂⟩, _, h⟩ := Option.bind_eq_some_iff.mp h
      dsimp only at h
      split at h
      · obtain ⟨_, _, heq⟩ := Option.map_eq_some_iff.mp h
        cases heq
        exact Or.inl ⟨rfl, rfl⟩
      · cases h
        exact Or.inr ⟨h₂, q, rfl⟩

/-- A new process gets the pid that the counter says. -/
theorem processCreate_pid {s t : Procs} {name entryPoint ticks proc : Word}
    (h : processCreate name entryPoint ticks s = some (proc, t)) (hne : proc ≠ 0#32)
    (hfit : proc.toNat + 120 ≤ 2 ^ 32) : procPid t.heap.mem proc = s.nextPid := by
  rcases processCreate_eq_some h with ⟨hnull, _⟩ | ⟨hp, stack, rfl⟩
  · exact absurd hnull hne
  · exact initProcess_pid _ _ _ _ _ hfit

theorem processCreate_total {s : Procs} {bs : List Block} (ho : Owns s.heap bs)
    (name entryPoint ticks : Word) :
    ∃ proc t, processCreate name entryPoint ticks s = some (proc, t) := by
  unfold processCreate
  split
  · exact ⟨_, _, rfl⟩
  · obtain ⟨p, h₁, hk₁⟩ := ho.kmalloc_total sizeofProcess
    rw [hk₁, Option.bind_some]
    dsimp only
    rcases ho.kmallocFill (by decide) clearRecord_sameOff hk₁ with
      ⟨rfl, rfl⟩ | ⟨r, hp, rfl, _, _, ho₂, _⟩
    · exact ⟨_, _, if_pos rfl⟩
    · rw [if_neg hp]
      obtain ⟨q, h₃, hk₃⟩ := ho₂.kmalloc_total KERNEL_STACK_SIZE
      rw [hk₃, Option.bind_some]
      dsimp only
      rcases ho₂.kmalloc hk₃ with ⟨rfl, rfl⟩ | ⟨k, hq, _⟩
      · obtain ⟨h₄, hfree, _⟩ := ho₂.kfree List.mem_cons_self
        rw [if_pos rfl, hfree]
        exact ⟨_, _, rfl⟩
      · rw [if_neg hq]
        exact ⟨_, _, rfl⟩

/-! ## Failure -/

/-- Nothing that a caller can see has changed: the pid counter, the table, the block
list and `heap_used`. -/
structure SameProcs (s t : Procs) : Prop where
  nextPid : t.nextPid = s.nextPid
  processTable : t.processTable = s.processTable
  heap : SameBlocks s.heap t.heap

/-- Whatever the heap looks like, `process_create` returns, and when it returns NULL it
has changed nothing: because of the pid counter, for want of memory for the record, or
for want of memory for the stack after the record has been allocated. -/
theorem processCreate_atomic {s : Procs} {live : List (Word × Word)}
    (h : heapSystem.Reachable ⟨s.heap, live⟩) (name entryPoint ticks : Word) :
    ∃ proc t, processCreate name entryPoint ticks s = some (proc, t) ∧
      (proc = 0#32 → SameProcs s t) := by
  obtain ⟨cs, hs⟩ := reachable_run h
  have ho := hs.heap.owns
  obtain ⟨proc, t, hcreate⟩ := processCreate_total ho name entryPoint ticks
  refine ⟨proc, t, hcreate, fun hnull => ?_⟩
  rcases processCreate_cases ho hcreate with ⟨_, hfailed⟩ | ⟨r, k, hcreated⟩
  · exact ⟨by rw [hfailed.rest], by rw [hfailed.rest], ho.sameBlocks hfailed.owns⟩
  · exact absurd hnull hcreated.nonnull

/-- All pids have been given. -/
def pidsGiven : Procs where
  heap := heapInit fun _ => 0#8
  processTable := fun _ => 0#32
  nextPid := MAX_PROCESSES
  currentProcess := 0#32
  readyQueueHead := 0#32
  readyQueueTail := 0#32

theorem processCreate_atomic_full :
    ∃ t, processCreate 0#32 0#32 0#32 pidsGiven = some (0#32, t) ∧ SameProcs pidsGiven t := by
  have hreach : heapSystem.Reachable ⟨pidsGiven.heap, []⟩ := .init ⟨_, rfl⟩
  obtain ⟨proc, t, hcreate, hsame⟩ := processCreate_atomic hreach 0#32 0#32 0#32
  have hfull : processCreate 0#32 0#32 0#32 pidsGiven = some (0#32, pidsGiven) := rfl
  obtain ⟨rfl, rfl⟩ := Prod.mk.inj (Option.some.inj (hfull.symm.trans hcreate))
  exact ⟨_, hcreate, hsame rfl⟩

end Zenix
