import Zenix.Proc.ReadyQueue

/-!
# The current process

`schedule` and the timer interrupt read and write the record behind
`current_process`. `process_terminate` takes a process out of the table and frees
its record and its stack, whichever process it is given, and `sys_exit`
(kernel/syscall/handlers.c) gives it the current one. Neither of them updates
`current_process`.

Results:
1. `processTerminate_spec`: what the termination of a created process frees.
2. `current_process_live`: as long as no call terminates the current process, it
   is an entry of the table and its record is allocated; the first such call
   breaks this.
3. `exit_leaves_current`: the exit system call right after initialisation does.
-/

namespace Zenix
open ByteMemory FirstFit

/-! ## Runs -/

/-- `sys_exit`. It returns to the process that it has terminated. -/
def sysExit (_status : Word) (s : Procs) : Option (Word × Procs) :=
  let current := s.currentProcess
  if current ≠ 0#32 then (processTerminate current s).map fun s => (0#32, s) else some (0#32, s)

inductive LifeOp where
  | call (op : ProcOp)
  | exit (status : Word)

inductive LifeStep : Procs → LifeOp → Procs → Prop
  | call {s t : Procs} {op : ProcOp} : ProcStep s op t → LifeStep s (.call op) t
  | exit {s t : Procs} {status ret : Word} : sysExit status s = some (ret, t) →
      LifeStep s (.exit status) t

/-- The calls of `procSystem` and the exit system call, from the same states. -/
def lifeSystem : TransitionSystem Procs LifeOp where
  init := procSystem.init
  step := LifeStep

/-! ## The property -/

/-- `p` points to a used block of the heap. -/
def Allocated (h : Heap) (p : Word) : Prop := ∃ bs, Owns h bs ∧ ∃ b ∈ bs, p = payload b

/-- `current_process` is in the process table and has not been freed. -/
def CurrentLive (s : Procs) : Prop :=
  Live s s.currentProcess ∧ Allocated s.heap s.currentProcess

/-- The call does not terminate the current process. -/
def SparesCurrent (s : Procs) : LifeOp → Prop
  | .call (.terminate proc) => proc ≠ s.currentProcess
  | .call _ => True
  | .exit _ => s.currentProcess = 0#32

/-! ## The blocks of the processes -/

/-- The two heap blocks of a process that `process_create` has built. -/
structure ProcBlocks where
  record : Block
  stack : Block
deriving DecidableEq

/-- The blocks of the processes `qs`, and the others. -/
def procBlocks : List ProcBlocks → List Block → List Block
  | [], rest => rest
  | q :: qs, rest => q.stack :: q.record :: procBlocks qs rest

/-- The record says where the stack of the process is. -/
structure HasBlocks (m : Mem) (q : ProcBlocks) : Prop where
  record : 120 ≤ q.record.size
  kernelStack : procKernelStack m (payload q.record) = payload q.stack + KERNEL_STACK_SIZE

/-- The process with the record `b` runs, the queue is empty, and the other
entries of the table are the processes `qs`. -/
structure Runs (s : Procs) (b : Block) (qs : List ProcBlocks) (rest : List Block) : Prop where
  owns : Owns s.heap (b :: procBlocks qs rest)
  record : 120 ≤ b.size
  current : s.currentProcess = payload b
  running : procState s.heap.mem (payload b) = ProcessState.running.code
  empty : s.readyQueueHead = 0#32
  listed : ∃ i, s.processTable i = payload b
  processes : ∀ q ∈ qs, HasBlocks s.heap.mem q
  table : ∀ i, s.processTable i = 0#32 ∨ s.processTable i = payload b ∨
    ∃ q ∈ qs, s.processTable i = payload q.record
  once : ∀ i j, s.processTable i = s.processTable j → s.processTable i ≠ 0#32 → i = j

theorem record_mem_procBlocks {q : ProcBlocks} {qs : List ProcBlocks} (rest : List Block)
    (h : q ∈ qs) : q.record ∈ procBlocks qs rest := by
  induction qs with
  | nil => cases h
  | cons p qs ih =>
    unfold procBlocks
    cases List.mem_cons.mp h with
    | inl heq =>
      rw [heq]
      exact List.mem_cons_of_mem _ List.mem_cons_self
    | inr hmem => exact List.mem_cons_of_mem _ (List.mem_cons_of_mem _ (ih hmem))

theorem stack_mem_procBlocks {q : ProcBlocks} {qs : List ProcBlocks} (rest : List Block)
    (h : q ∈ qs) : q.stack ∈ procBlocks qs rest := by
  induction qs with
  | nil => cases h
  | cons p qs ih =>
    unfold procBlocks
    cases List.mem_cons.mp h with
    | inl heq =>
      rw [heq]
      exact List.mem_cons_self
    | inr hmem => exact List.mem_cons_of_mem _ (List.mem_cons_of_mem _ (ih hmem))

theorem procBlocks_perm {qs qs' : List ProcBlocks} (rest : List Block) (h : qs.Perm qs') :
    (procBlocks qs rest).Perm (procBlocks qs' rest) := by
  induction h with
  | nil => exact List.Perm.refl _
  | cons q _ ih => exact (ih.cons _).cons _
  | swap p q qs =>
    unfold procBlocks procBlocks
    exact List.perm_append_comm_assoc [q.stack, q.record] [p.stack, p.record] _
  | trans _ _ ih₁ ih₂ => exact ih₁.trans ih₂

theorem HasBlocks.kept {h : Heap} {bs kept : List Block} {q : ProcBlocks} {m : Mem}
    (hq : HasBlocks h.mem q) (ho : Owns h bs) (hmem : q.record ∈ bs) (hk : Kept kept h.mem m)
    (hkept : q.record ∈ kept) : HasBlocks m q :=
  ⟨hq.record, (ho.load_kept hmem hk hkept (hq.record.trans' (by decide))).trans hq.kernelStack⟩

/-! ## The process table -/

/-- What a new entry changes. -/
theorem replaceFirst_add {t : ProcessTable} {p : Word} (hnew : ∀ i, t i ≠ p)
    (honce : ∀ i j, t i = t j → t i ≠ 0#32 → i = j) :
    (∀ i, replaceFirst t 0#32 p i = t i ∨ replaceFirst t 0#32 p i = p) ∧
      (∀ q, q ≠ 0#32 → (∃ i, t i = q) → ∃ i, replaceFirst t 0#32 p i = q) ∧
      ∀ i j, replaceFirst t 0#32 p i = replaceFirst t 0#32 p j →
        replaceFirst t 0#32 p i ≠ 0#32 → i = j := by
  rcases replaceFirst_cases t 0#32 p with ⟨hsame, _⟩ | ⟨k, hk, hnext⟩
  · rw [hsame]
    exact ⟨fun i => Or.inl rfl, fun _ _ h => h, honce⟩
  · rw [hnext]
    refine ⟨fun i => ?_, ?_, fun i j => ?_⟩
    · dsimp only
      split
      · exact Or.inr rfl
      · exact Or.inl rfl
    · rintro q hq ⟨i, hi⟩
      refine ⟨i, ?_⟩
      have hne : i ≠ k := fun h => hq (by rw [← hi, h, hk])
      exact (if_neg hne).trans hi
    · dsimp only
      split
      · next hi =>
        split
        · next hj => exact fun _ _ => hi.trans hj.symm
        · exact fun h _ => absurd h.symm (hnew j)
      · split
        · exact fun h _ => absurd h (hnew i)
        · exact honce i j

/-- What the removal of an entry changes. -/
theorem replaceFirst_remove {t : ProcessTable} {p : Word}
    (honce : ∀ i j, t i = t j → t i ≠ 0#32 → i = j) (hp : p ≠ 0#32) :
    (∀ i, replaceFirst t p 0#32 i ≠ p) ∧
      (∀ i, replaceFirst t p 0#32 i ≠ 0#32 → replaceFirst t p 0#32 i = t i) ∧
      ∀ i, t i ≠ p → replaceFirst t p 0#32 i = t i := by
  rcases replaceFirst_cases t p 0#32 with ⟨hsame, hnone⟩ | ⟨k, hk, hnext⟩
  · rw [hsame]
    exact ⟨hnone, fun _ _ => rfl, fun _ _ => rfl⟩
  · rw [hnext]
    refine ⟨fun i => ?_, fun i => ?_, fun i hi => ?_⟩
    · dsimp only
      split
      · exact hp.symm
      · next hne =>
        intro h
        refine hne (honce i k (h.trans hk.symm) ?_)
        rw [h]
        exact hp
    · dsimp only
      split
      · exact fun h => absurd rfl h
      · exact fun _ => rfl
    · refine if_neg fun h => hi ?_
      rw [h]
      exact hk

/-! ## `process_terminate` -/

/-- Marking a process as terminated writes to its record, and not to the word
that says where its stack is. -/
theorem markTerminated {h : Heap} {bs : List Block} {r : Block} (ho : Owns h (r :: bs))
    (hr : 120 ≤ r.size) :
    Owns { h with mem := setState h.mem (payload r) .terminated } (r :: bs) ∧
      Kept bs h.mem (setState h.mem (payload r) .terminated) ∧
      procKernelStack (setState h.mem (payload r) .terminated) (payload r) =
        procKernelStack h.mem (payload r) := by
  have hpay := ho.payload_toNat List.mem_cons_self
  have hbd := ho.bounds List.mem_cons_self
  have hoff : SameOff h.mem (setState h.mem (payload r) .terminated)
      ((payload r).toNat + 36) ((payload r).toNat + 40) :=
    setField_sameOff (by omega) (k := 36) (by decide) (by decide) (by decide)
  obtain ⟨ho', hk⟩ := ho.writePayload (List.nodup_cons.mp ho.nodup).1 hr
    (hoff.mono (by omega) (by omega))
  exact ⟨ho', hk, load32_field_congr hoff (k := 104) (by decide) (by omega)⟩

/-- Terminating a created process frees its record and its stack. -/
theorem processTerminate_spec {s : Procs} {bs : List Block} {r k : Block}
    (ho : Owns s.heap (k :: r :: bs)) (hr : 120 ≤ r.size)
    (hstack : procKernelStack s.heap.mem (payload r) = payload k + KERNEL_STACK_SIZE) :
    ∃ h, processTerminate (payload r) s =
        some { s with heap := h, processTable := replaceFirst s.processTable (payload r) 0#32 } ∧
      Owns h bs ∧ Kept bs s.heap.mem h.mem := by
  have hswap := ho.perm (List.Perm.swap r k bs)
  obtain ⟨ho₁, hk₁, hkernel⟩ := markTerminated hswap hr
  have hne : payload k + KERNEL_STACK_SIZE ≠ 0#32 := by
    have hpay := ho.payload_toNat List.mem_cons_self
    have hbd := ho.bounds List.mem_cons_self
    have hlow : (payload k).toNat + 4096 < 2 ^ 32 := by omega
    have hsum : (payload k + KERNEL_STACK_SIZE).toNat = (payload k).toNat + 4096 :=
      toNat_add_of_lt hlow
    intro h
    rw [h, BitVec.toNat_ofNat] at hsum
    omega
  obtain ⟨h₂, hfree₂, ho₂, hk₂⟩ := (ho₁.perm (List.Perm.swap k r bs)).kfree List.mem_cons_self
  rw [List.erase_cons_head] at ho₂
  obtain ⟨h₃, hfree₃, ho₃, hk₃⟩ := ho₂.kfree List.mem_cons_self
  rw [List.erase_cons_head] at ho₃
  refine ⟨h₃, ?_, ho₃, ?_⟩
  · rw [processTerminate, if_neg (hswap.payload_ne_zero List.mem_cons_self)]
    dsimp only
    rw [hkernel, hstack, if_pos hne, BitVec.add_sub_cancel, hfree₂, Option.bind_some, hfree₃,
      Option.map_some]
  · refine ((hk₁.mono ?_).trans (hk₂.mono ?_)).trans (hk₃.mono ?_)
    · exact fun _ hb => List.mem_cons_of_mem _ hb
    · exact fun _ hb => List.mem_cons_of_mem _ (List.mem_cons_of_mem _ hb)
    · exact fun _ hb => List.mem_cons_of_mem _ hb

/-- The idle process has no stack of its own to free. -/
theorem processTerminate_idle {s : Procs} {bs : List Block} {b : Block}
    (ho : Owns s.heap (b :: bs)) (hb : 120 ≤ b.size)
    (hstack : procKernelStack s.heap.mem (payload b) = 0#32) :
    ∃ t, processTerminate (payload b) s = some t ∧ Owns t.heap bs := by
  obtain ⟨ho₁, _, hkernel⟩ := markTerminated ho hb
  obtain ⟨h₂, hfree, ho₂, _⟩ := ho₁.kfree List.mem_cons_self
  rw [List.erase_cons_head] at ho₂
  refine ⟨{ s with
    heap := h₂
    processTable := replaceFirst s.processTable (payload b) 0#32 }, ?_, ho₂⟩
  rw [processTerminate, if_neg (ho.payload_ne_zero List.mem_cons_self)]
  dsimp only
  rw [hkernel, hstack, if_neg (not_not_intro rfl), Option.bind_some, hfree, Option.map_some]

/-! ## What the calls keep -/

namespace Runs

variable {s : Procs} {b : Block} {qs : List ProcBlocks} {rest : List Block}

theorem current_ne_zero (hs : Runs s b qs rest) : s.currentProcess ≠ 0#32 := by
  rw [hs.current]
  exact hs.owns.payload_ne_zero List.mem_cons_self

theorem currentLive (hs : Runs s b qs rest) : CurrentLive s := by
  obtain ⟨i, hi⟩ := hs.listed
  exact ⟨⟨hs.current_ne_zero, i, hi.trans hs.current.symm⟩, _, hs.owns, b, List.mem_cons_self,
    hs.current⟩

theorem running_kept (hs : Runs s b qs rest) {m : Mem} {kept : List Block}
    (hk : Kept kept s.heap.mem m) (hmem : b ∈ kept) :
    procState m (payload b) = ProcessState.running.code :=
  (hs.owns.load_kept List.mem_cons_self hk hmem (hs.record.trans' (by decide))).trans hs.running

theorem processes_kept (hs : Runs s b qs rest) {m : Mem} {qs' : List ProcBlocks}
    (hsub : ∀ q ∈ qs', q ∈ qs) (hk : Kept (procBlocks qs' rest) s.heap.mem m) :
    ∀ q ∈ qs', HasBlocks m q := by
  intro q hq
  exact (hs.processes q (hsub q hq)).kept hs.owns
    (List.mem_cons_of_mem _ (record_mem_procBlocks rest (hsub q hq))) hk
    (record_mem_procBlocks rest hq)

/-- A change of the heap that keeps the memory of the processes. -/
theorem kept (hs : Runs s b qs rest) {h : Heap} (ho : Owns h (b :: procBlocks qs rest))
    (hk : Kept (b :: procBlocks qs rest) s.heap.mem h.mem) :
    Runs { s with heap := h } b qs rest where
  owns := ho
  record := hs.record
  current := hs.current
  running := hs.running_kept hk List.mem_cons_self
  empty := hs.empty
  listed := hs.listed
  processes := hs.processes_kept (fun _ hq => hq) (hk.mono fun _ => List.mem_cons_of_mem _)
  table := hs.table
  once := hs.once

theorem notCreated (hs : Runs s b qs rest) {t : Procs}
    (h : NotCreated s t (b :: procBlocks qs rest)) : Runs t b qs rest := by
  rw [h.rest]
  exact hs.kept h.owns h.kept

/-- The new process has blocks of its own. -/
theorem created (hs : Runs s b qs rest) {t : Procs} {r k : Block} {proc entryPoint : Word}
    (h : Created s t (b :: procBlocks qs rest) r k proc entryPoint) :
    Runs t b (⟨r, k⟩ :: qs) rest := by
  have hr : r ∈ k :: r :: b :: procBlocks qs rest := List.mem_cons_of_mem _ List.mem_cons_self
  have hold : ∀ c ∈ b :: procBlocks qs rest, payload c ≠ proc := by
    intro c hc heq
    rw [h.isPayload] at heq
    have hcr := h.owns.payload_inj (List.mem_cons_of_mem _ (List.mem_cons_of_mem _ hc)) hr heq
    exact h.freshRecord (hcr ▸ hc)
  have hnew : ∀ i, s.processTable i ≠ proc := by
    intro i hi
    rcases hs.table i with hzero | hcur | ⟨q, hq, hrec⟩
    · exact h.nonnull (hi.symm.trans hzero)
    · exact hold b List.mem_cons_self (hcur.symm.trans hi)
    · exact hold q.record (List.mem_cons_of_mem _ (record_mem_procBlocks rest hq))
        (hrec.symm.trans hi)
  obtain ⟨hentry, hkeeps, honce⟩ := replaceFirst_add hnew hs.once
  have hperm : (k :: r :: b :: procBlocks qs rest).Perm (b :: procBlocks (⟨r, k⟩ :: qs) rest) :=
    @List.perm_middle _ b [k, r] _
  have hrest := h.rest
  have hrunning := hs.running_kept h.kept List.mem_cons_self
  refine ⟨h.owns.perm hperm, hs.record, ?_, hrunning, ?_, ?_, ?_, ?_, ?_⟩
  · rw [hrest]
    exact hs.current
  · rw [hrest]
    exact hs.empty
  · rw [hrest]
    exact hkeeps _ (hs.owns.payload_ne_zero List.mem_cons_self) hs.listed
  · intro q hq
    cases List.mem_cons.mp hq with
    | inl heq =>
      rw [heq]
      exact ⟨h.record, h.isPayload ▸ h.kernelStack⟩
    | inr hmem =>
      exact hs.processes_kept (fun _ hq => hq) (h.kept.mono fun _ => List.mem_cons_of_mem _) q hmem
  · intro i
    rw [hrest]
    dsimp only
    cases hentry i with
    | inl hsame =>
      rw [hsame]
      rcases hs.table i with hzero | hcur | ⟨q, hq, hrec⟩
      · exact Or.inl hzero
      · exact Or.inr (Or.inl hcur)
      · exact Or.inr (Or.inr ⟨q, List.mem_cons_of_mem _ hq, hrec⟩)
    | inr hproc => exact Or.inr (Or.inr ⟨⟨r, k⟩, List.mem_cons_self, hproc.trans h.isPayload⟩)
  · rw [hrest]
    exact honce

/-- The queue holds the running process for a moment, and gives it back. -/
theorem schedule (hs : Runs s b qs rest) :
    ∃ t, Zenix.schedule s = (t, none) ∧ Runs t b qs rest ∧
      t.heap.mem = requeued s.heap.mem s.currentProcess := by
  obtain ⟨t, ht, ho, hoff, hrun, hrest⟩ := schedule_requeues hs.owns List.mem_cons_self hs.record
    hs.current hs.running hs.empty
  have hrec := hs.record
  have hk : Kept (procBlocks qs rest) s.heap.mem t.heap.mem := fun x hx =>
    hoff.mono (Nat.le_add_right _ 36) (by omega) x
      (clientByte_off_payload hs.owns (List.nodup_cons.mp hs.owns.nodup).1 hrec hx)
  refine ⟨t, ht, ⟨ho, hrec, ?_, hrun, ?_, ?_, hs.processes_kept (fun _ hq => hq) hk, ?_, ?_⟩, ?_⟩
  · rw [hrest]
    exact hs.current
  · rw [hrest]
  · rw [hrest]
    exact hs.listed
  · rw [hrest]
    exact hs.table
  · rw [hrest]
    exact hs.once
  · rw [hrest]
    rfl

theorem record_ne_current (hs : Runs s b qs rest) {q : ProcBlocks} (hq : q ∈ qs) :
    payload b ≠ payload q.record := by
  have hrecord := record_mem_procBlocks rest hq
  intro heq
  have hbq := hs.owns.payload_inj List.mem_cons_self (List.mem_cons_of_mem _ hrecord) heq
  exact (List.nodup_cons.mp hs.owns.nodup).1 (hbq ▸ hrecord)

/-- The termination of one of the processes takes its blocks with it. -/
theorem erase (hs : Runs s b qs rest) {q : ProcBlocks} (hq : q ∈ qs) :
    ∃ h, processTerminate (payload q.record) s =
        some { s with
          heap := h
          processTable := replaceFirst s.processTable (payload q.record) 0#32 } ∧
      Runs { s with
          heap := h
          processTable := replaceFirst s.processTable (payload q.record) 0#32 }
        b (qs.erase q) rest ∧
      Kept (b :: procBlocks (qs.erase q) rest) s.heap.mem h.mem := by
  have hperm := (procBlocks_perm rest (List.perm_cons_erase hq)).cons b
  have howns := (hs.owns.perm hperm).perm (@List.perm_middle _ b [q.stack, q.record] _).symm
  obtain ⟨hh, hterm, ho, hk⟩ := processTerminate_spec howns (hs.processes q hq).record
    (hs.processes q hq).kernelStack
  have hzero : payload q.record ≠ 0#32 :=
    hs.owns.payload_ne_zero (List.mem_cons_of_mem _ (record_mem_procBlocks rest hq))
  have hne := hs.record_ne_current hq
  obtain ⟨hgone, hsame, hother⟩ := replaceFirst_remove hs.once hzero
  refine ⟨hh, hterm, ⟨ho, hs.record, hs.current, hs.running_kept hk List.mem_cons_self, hs.empty,
    ?_, hs.processes_kept (fun _ => List.mem_of_mem_erase)
      (hk.mono fun _ => List.mem_cons_of_mem _), ?_, ?_⟩, hk⟩
  · obtain ⟨j, hj⟩ := hs.listed
    exact ⟨j, (hother j (hj ▸ hne)).trans hj⟩
  · intro j
    dsimp only
    cases Decidable.em (replaceFirst s.processTable (payload q.record) 0#32 j = 0#32) with
    | inl hfree => exact Or.inl hfree
    | inr hused =>
      have hkeep := hsame j hused
      have hj := hgone j
      rw [hkeep] at hused hj ⊢
      refine Or.inr (((hs.table j).resolve_left hused).imp_right ?_)
      rintro ⟨q', hq', hrec'⟩
      have hdiff : q' ≠ q := fun heq => hj (heq ▸ hrec')
      exact ⟨q', (List.mem_erase_of_ne hdiff).mpr hq', hrec'⟩
  · intro j k
    dsimp only
    intro heq hused
    have hused' := hused
    rw [heq] at hused'
    have hj := hsame j hused
    have hk := hsame k hused'
    rw [hj] at heq hused
    exact hs.once j k (heq.trans hk) hused

/-- So does that of a process that is not the current one. -/
theorem terminate (hs : Runs s b qs rest) {t : Procs} {proc : Word} (hp : Live s proc)
    (hne : proc ≠ s.currentProcess) (h : processTerminate proc s = some t) :
    ∃ qs', Runs t b qs' rest := by
  obtain ⟨hzero, i, hi⟩ := hp
  rw [hs.current] at hne
  obtain ⟨q, hq, rfl⟩ : ∃ q ∈ qs, proc = payload q.record := by
    rw [← hi] at hzero hne ⊢
    exact ((hs.table i).resolve_left hzero).resolve_left hne
  obtain ⟨_, hterm, hruns, _⟩ := hs.erase hq
  cases hterm.symm.trans h
  exact ⟨_, hruns⟩

end Runs

/-! ## Calls without a current process -/

theorem processCreate_current {s t : Procs} {name entryPoint ticks proc : Word}
    (h : processCreate name entryPoint ticks s = some (proc, t)) :
    t.currentProcess = s.currentProcess := by
  rcases processCreate_eq_some h with ⟨_, hnone⟩ | ⟨_, _, rfl⟩
  · rw [hnone]
  · rfl

theorem lifeStep_noCurrent {s t : Procs} {op : LifeOp} (hcur : s.currentProcess = 0#32)
    (hst : LifeStep s op t) : t.currentProcess = 0#32 := by
  have hsched : Zenix.schedule s = (s, none) := if_pos hcur
  cases hst with
  | call hcall =>
    cases hcall with
    | create h => exact (processCreate_current h).trans hcur
    | @terminate _ proc hp h =>
      cases Decidable.em (proc = 0#32) with
      | inl hzero =>
        rw [hzero] at h
        cases h
        exact hcur
      | inr hne => exact (processTerminate_rest hne h).2.2.trans hcur
    | schedule h =>
      cases hsched.symm.trans h
      exact hcur
    | switch h => cases hsched.symm.trans h
  | exit h =>
    unfold sysExit at h
    rw [if_neg (not_not_intro hcur)] at h
    cases h
    exact hcur

/-! ## Whole runs -/

theorem IdleRuns.runs {s : Procs} {b : Block} {bs : List Block} (hs : IdleRuns s (b :: bs) b) :
    Runs s b [] bs where
  owns := hs.owns
  record := hs.record
  current := hs.current
  running := hs.running
  empty := hs.empty
  listed := ⟨0, by rw [hs.table]; rfl⟩
  processes := fun q hq => absurd hq List.not_mem_nil
  table := by
    intro i
    rw [hs.table]
    dsimp only
    split
    · exact Or.inr (Or.inl rfl)
    · exact Or.inl rfl
  once := by
    intro i j
    rw [hs.table]
    dsimp only
    split
    · next hi =>
      split
      · next hj => exact fun _ _ => hi.trans hj.symm
      · exact fun h hne => absurd h hne
    · exact fun _ hne => absurd rfl hne

theorem lifeInit_runs {s : Procs} (h : lifeSystem.init s) (hcur : s.currentProcess ≠ 0#32) :
    ∃ b rest, Runs s b [] rest := by
  obtain ⟨r, ticks, t, hr, hi, rfl⟩ := h
  obtain ⟨cs, hcs⟩ := reachable_run hr
  cases processInit_beforeCreate hcs.heap.owns hi with
  | inl hs =>
    obtain ⟨_, _, rfl⟩ := Option.map_eq_some_iff.mp hi
    exact absurd (congrFun hs.table 0) hcur
  | inr hs =>
    obtain ⟨b, hs⟩ := hs
    exact ⟨b, _, hs.runs⟩

theorem lifeStep_runs {s t : Procs} {op : LifeOp} {b : Block} {qs : List ProcBlocks}
    {rest : List Block} (hs : Runs s b qs rest) (hst : LifeStep s op t) (hop : SparesCurrent s op) :
    ∃ qs', Runs t b qs' rest := by
  cases hst with
  | call hcall =>
    cases hcall with
    | create h =>
      rcases processCreate_cases hs.owns h with ⟨_, hnot⟩ | ⟨r, k, hcreated⟩
      · exact ⟨qs, hs.notCreated hnot⟩
      · exact ⟨_, hs.created hcreated⟩
    | terminate hp h =>
      cases hp with
      | inl hzero =>
        rw [hzero] at h
        cases h
        exact ⟨qs, hs⟩
      | inr hlive => exact hs.terminate hlive hop h
    | schedule h =>
      obtain ⟨u, hu, hruns, _⟩ := hs.schedule
      cases hu.symm.trans h
      exact ⟨qs, hruns⟩
    | switch h =>
      obtain ⟨u, hu, _⟩ := hs.schedule
      cases hu.symm.trans h
  | exit h => exact absurd hop hs.current_ne_zero

/-- The current process is no longer in the table once it has been terminated. -/
theorem Runs.terminated {s t : Procs} {b : Block} {qs : List ProcBlocks} {rest : List Block}
    (hs : Runs s b qs rest) (h : processTerminate s.currentProcess s = some t) :
    ¬ CurrentLive t := by
  rintro ⟨⟨_, i, hi⟩, _⟩
  obtain ⟨htable, _, hcur⟩ := processTerminate_rest hs.current_ne_zero h
  rw [htable, hcur] at hi
  exact (replaceFirst_remove hs.once hs.current_ne_zero).1 i hi

theorem sysExit_current {s t : Procs} {status ret : Word} (hcur : s.currentProcess ≠ 0#32)
    (h : sysExit status s = some (ret, t)) : processTerminate s.currentProcess s = some t := by
  rw [sysExit, if_pos hcur] at h
  obtain ⟨u, hu, heq⟩ := Option.map_eq_some_iff.mp h
  cases heq
  exact hu

/-- In a run from `process_init` in which the current process is not terminated,
it stays an entry of the process table, and its record is not freed. Each further
call keeps it so exactly when it does not terminate the current process either. -/
theorem current_process_live {s₀ s : Procs} {ops : List LifeOp} (hinit : lifeSystem.init s₀)
    (hcur : s₀.currentProcess ≠ 0#32) (hrun : (lifeSystem.guarded SparesCurrent).Run s₀ ops s) :
    CurrentLive s ∧ ∀ op t, LifeStep s op t → (CurrentLive t ↔ SparesCurrent s op) := by
  obtain ⟨b, rest, hruns⟩ := lifeInit_runs hinit hcur
  obtain ⟨qs, hs⟩ := hrun.invariant (P := fun s => ∃ qs, Runs s b qs rest) ⟨[], hruns⟩ (by
    rintro s op t ⟨qs, hs⟩ ⟨hst, hop⟩
    exact lifeStep_runs hs hst hop)
  refine ⟨hs.currentLive, fun op t hst => ⟨fun hlive => ?_, fun hop => ?_⟩⟩
  · cases hst with
    | call hcall =>
      cases hcall with
      | terminate hp h =>
        intro heq
        rw [heq] at h
        exact hs.terminated h hlive
      | create h => trivial
      | schedule h => trivial
      | switch h => trivial
    | exit h => exact absurd hlive (hs.terminated (sysExit_current hs.current_ne_zero h))
  · obtain ⟨qs', hs'⟩ := lifeStep_runs hs hst hop
    exact hs'.currentLive

/-! ## Right after initialisation -/

theorem boot_life : ∃ t, processInit 0#32 (heapInit fun _ => 0#8) = some t ∧
    lifeSystem.init (schedulerInit t) ∧ (schedulerInit t).currentProcess ≠ 0#32 ∧
    procKernelStack t.heap.mem t.currentProcess = 0#32 := by
  obtain ⟨t, ht, _, _, hcur, hstack⟩ := boot
  exact ⟨t, ht, ⟨⟨heapInit fun _ => 0#8, []⟩, 0#32, t, .init ⟨_, rfl⟩, ht, rfl⟩, hcur, hstack⟩

/-- After one call of `schedule`. -/
theorem current_process_live_schedule : ∃ t u, processInit 0#32 (heapInit fun _ => 0#8) = some t ∧
    LifeStep (schedulerInit t) (.call .schedule) u ∧ CurrentLive u := by
  obtain ⟨t, ht, hinit, hcur, _⟩ := boot_life
  obtain ⟨b, rest, hruns⟩ := lifeInit_runs hinit hcur
  obtain ⟨u, hu, _⟩ := hruns.schedule
  have hst : LifeStep (schedulerInit t) (.call .schedule) u := .call (.schedule hu)
  exact ⟨t, u, ht, hst, (current_process_live hinit hcur (.cons ⟨hst, trivial⟩ .nil)).1⟩

/-- After the exit system call: `current_process` still points to the record of
the idle process, and no block of the heap is in use. -/
theorem exit_leaves_current : ∃ t u, processInit 0#32 (heapInit fun _ => 0#8) = some t ∧
    lifeSystem.init (schedulerInit t) ∧ CurrentLive (schedulerInit t) ∧
    LifeStep (schedulerInit t) (.exit 0#32) u ∧ u.currentProcess = t.currentProcess ∧
    Owns u.heap [] ∧ ¬ CurrentLive u := by
  obtain ⟨t, ht, hinit, hcur, hstack⟩ := boot_life
  rcases processInit_beforeCreate (heapInit_owns fun _ => 0#8) ht with hnone | ⟨b, hidle⟩
  · obtain ⟨_, _, rfl⟩ := Option.map_eq_some_iff.mp ht
    exact absurd (congrFun hnone.table 0) hcur
  · have hruns := hidle.runs
    have hpay : (schedulerInit t).currentProcess = payload b := hruns.current
    have hnostack : procKernelStack (schedulerInit t).heap.mem (payload b) = 0#32 := by
      rw [← hpay]
      exact hstack
    obtain ⟨u, hu, ho⟩ := processTerminate_idle (s := schedulerInit t) hruns.owns hruns.record
      hnostack
    rw [← hpay] at hu
    have hexit : sysExit 0#32 (schedulerInit t) = some (0#32, u) := by
      rw [sysExit, if_pos hcur, hu, Option.map_some]
    exact ⟨t, u, ht, hinit, hruns.currentLive, .exit hexit,
      (processTerminate_rest hcur hu).2.2, ho, hruns.terminated hu⟩

end Zenix
