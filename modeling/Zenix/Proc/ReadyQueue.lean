import Zenix.Lib.Transition
import Zenix.Proc.ProcessCreate
import Zenix.Proc.SwitchContext

/-!
# Ready processes and the ready queue

`schedule` takes the next process from the ready queue, and only `schedule`
itself puts a process there. `process_create` makes a process ready without
queueing it (scheduler.h declares a `scheduler_add` that nothing defines).

Results:
1. `none_lost_until_create`: as long as no call of `process_create` builds a
   process, every ready process is queued and every queued process is live; the
   first call that builds one breaks this.
2. `create_loses_process`: `process_create` right after initialisation does.
-/

namespace Zenix
open ByteMemory FirstFit X86

/-! ## Runs -/

inductive ProcOp where
  | create (name entryPoint ticks : Word)
  | terminate (proc : Word)
  | schedule

/-- `p` is an entry of the process table. -/
def Live (s : Procs) (p : Word) : Prop := p ≠ 0#32 ∧ ∃ i, s.processTable i = p

/-- The machine at a call of `switch_context(old, new)` from a machine `c` that
returns to `ret`. -/
def callSwitch (c : Machine) (m : Mem) (old new ret : Word) : Machine :=
  (((c.setMem m).push new).push old).push ret

/-- The calls. Termination is for live processes (or NULL). When `schedule`
switches, the memory is the one that `switch_context` leaves. -/
inductive ProcStep : Procs → ProcOp → Procs → Prop
  | create {s t : Procs} {name entryPoint ticks proc : Word} :
      processCreate name entryPoint ticks s = some (proc, t) →
      ProcStep s (.create name entryPoint ticks) t
  | terminate {s t : Procs} {proc : Word} : proc = 0#32 ∨ Live s proc →
      processTerminate proc s = some t → ProcStep s (.terminate proc) t
  | schedule {s t : Procs} : schedule s = (t, none) → ProcStep s .schedule t
  | switch {s t : Procs} {old new ret : Word} {c : Machine} : schedule s = (t, some (old, new)) →
      ProcStep s .schedule
        (t.withMem (run switchContext (callSwitch c t.heap.mem old new ret)).mem)

/-- `process_init` and `scheduler_init`, in any state the heap can be in. -/
def procSystem : TransitionSystem Procs ProcOp where
  init := fun s => ∃ r ticks t, heapSystem.Reachable r ∧ processInit ticks r.heap = some t ∧
    s = schedulerInit t
  step := ProcStep

/-! ## The property -/

/-- Following `next` from `p` visits the processes `qs` and ends at NULL. -/
def QueueList (m : Mem) : Word → List Word → Prop
  | p, [] => p = 0#32
  | p, q :: qs => p = q ∧ q ≠ 0#32 ∧ QueueList m (procNext m q) qs

/-- Every ready process is in the queue once, and the queue holds live processes. -/
def NoneLost (s : Procs) : Prop :=
  ∃ qs, QueueList s.heap.mem s.readyQueueHead qs ∧
    (∀ p, Live s p → procState s.heap.mem p = ProcessState.ready.code → qs.count p = 1) ∧
    ∀ p ∈ qs, Live s p

/-- `process_create` has a pid left, and the heap has room for a record and a
stack. -/
def CanCreate (s : Procs) : Prop :=
  ¬ MAX_PROCESSES ≤ s.nextPid ∧
    ∃ p h q h', kmalloc sizeofProcess s.heap = some (p, h) ∧ p ≠ 0#32 ∧
      kmalloc KERNEL_STACK_SIZE { h with mem := memset h.mem p 0#8 120 } = some (q, h') ∧ q ≠ 0#32

/-- The call does not build a process. -/
def CreatesNothing (s : Procs) : ProcOp → Prop
  | .create _ _ _ => ¬ CanCreate s
  | _ => True

/-! ## States before the first process -/

/-- The idle process runs, and its record is the payload of the used block `b`. -/
structure IdleRuns (s : Procs) (bs : List Block) (b : Block) : Prop where
  owns : Owns s.heap bs
  mem : b ∈ bs
  record : 120 ≤ b.size
  current : s.currentProcess = payload b
  table : s.processTable = fun i => if i = 0 then payload b else 0#32
  running : procState s.heap.mem (payload b) = ProcessState.running.code
  pid : procPid s.heap.mem (payload b) = 0#32
  empty : s.readyQueueHead = 0#32

/-- There is no process, and the queue is empty. -/
structure NoProcess (s : Procs) : Prop where
  table : s.processTable = fun _ => 0#32
  empty : s.readyQueueHead = 0#32

def BeforeCreate (s : Procs) : Prop := NoProcess s ∨ ∃ bs b, IdleRuns s bs b

theorem code_ne {a b : ProcessState} (h : a ≠ b) : a.code ≠ b.code := by
  cases a <;> cases b <;> first | exact absurd rfl h | decide

theorem BeforeCreate.noneLost {s : Procs} (h : BeforeCreate s) : NoneLost s := by
  rcases h with h | ⟨bs, b, h⟩
  · refine ⟨[], h.empty, fun p hp => ?_, fun p hp => absurd hp List.not_mem_nil⟩
    obtain ⟨hne, i, hi⟩ := hp
    rw [h.table] at hi
    exact absurd hi.symm hne
  · refine ⟨[], h.empty, fun p hp hready => ?_, fun p hp => absurd hp List.not_mem_nil⟩
    obtain ⟨hne, i, hi⟩ := hp
    rw [h.table] at hi
    dsimp only at hi
    split at hi
    · rw [← hi, h.running] at hready
      exact absurd hready (code_ne (by decide))
    · exact absurd hi.symm hne

/-! ## `process_init` -/

/-- Initialisation leaves the idle process running, or no process when the heap
had no room for it. -/
theorem processInit_beforeCreate {h : Heap} {bs : List Block} {ticks : Word} {t : Procs}
    (ho : Owns h bs) (hi : processInit ticks h = some t) :
    NoProcess (schedulerInit t) ∨ ∃ b, IdleRuns (schedulerInit t) (b :: bs) b := by
  obtain ⟨⟨p, h₁⟩, hk, rfl⟩ := Option.map_eq_some_iff.mp hi
  rcases ho.kmalloc hk with ⟨rfl, rfl⟩ | ⟨b, hp, rfl, hb, hbs, ho₁, _⟩
  · refine Or.inl ⟨?_, rfl⟩
    funext i
    exact ite_self _
  · have hsize : 120 ≤ b.size := hb (by decide)
    have hpay := ho₁.payload_toNat List.mem_cons_self
    have hbd := ho₁.bounds List.mem_cons_self
    have hfit : (payload b).toNat + 120 ≤ 2 ^ 32 := by omega
    obtain ⟨hstate, hpid, _⟩ := initIdle_fields (m := h₁.mem) ticks hfit
    exact Or.inr ⟨b, ho₁.writeAt List.mem_cons_self hsize (initIdle_sameOff ticks hfit),
      List.mem_cons_self, hsize, rfl, rfl, hstate, hpid, rfl⟩

/-! ## `process_create` -/

/-- A call returns NULL and leaves all but the heap alone, or it could build a
process. -/
theorem processCreate_null_or {s t : Procs} {name entryPoint ticks proc : Word}
    (h : processCreate name entryPoint ticks s = some (proc, t)) :
    (proc = 0#32 ∧ ¬ CanCreate s ∧ t = { s with heap := t.heap }) ∨
      (proc ≠ 0#32 ∧ CanCreate s) := by
  unfold processCreate at h
  split at h
  · next hfull =>
    cases h
    exact Or.inl ⟨rfl, fun hc => hc.1 hfull, rfl⟩
  · next hfull =>
    obtain ⟨⟨p, h₁⟩, hk₁, h⟩ := Option.bind_eq_some_iff.mp h
    dsimp only at h
    split at h
    · next hp =>
      cases h
      refine Or.inl ⟨rfl, ?_, rfl⟩
      rintro ⟨_, p', _, _, _, hk', hp', _⟩
      cases hk'.symm.trans hk₁
      exact hp' hp
    · next hp =>
      obtain ⟨⟨q, h₃⟩, hk₃, h⟩ := Option.bind_eq_some_iff.mp h
      dsimp only at h
      split at h
      · next hq =>
        obtain ⟨h₄, _, heq⟩ := Option.map_eq_some_iff.mp h
        cases heq
        refine Or.inl ⟨rfl, ?_, rfl⟩
        rintro ⟨_, p', h', q', _, hk', _, hk₃', hq'⟩
        cases hk'.symm.trans hk₁
        cases hk₃'.symm.trans hk₃
        exact hq' hq
      · next hq =>
        cases h
        exact Or.inr ⟨hp, hfull, _, _, _, _, hk₁, hp, hk₃, hq⟩

/-- A call that builds nothing leaves the idle process as it was. -/
theorem IdleRuns.notCreated {s t : Procs} {bs : List Block} {b : Block} (hs : IdleRuns s bs b)
    (h : NotCreated s t bs) : IdleRuns t bs b := by
  have hload : ∀ k, k + 4 ≤ 120 → load32 t.heap.mem (payload b + BitVec.ofNat 32 k) =
      load32 s.heap.mem (payload b + BitVec.ofNat 32 k) :=
    fun k hk => hs.owns.load_kept hs.mem h.kept hs.mem (hk.trans hs.record)
  have hpid := hload 0 (by decide)
  rw [BitVec.add_zero] at hpid
  have hrest := h.rest
  refine ⟨h.owns, hs.mem, hs.record, ?_, ?_, (hload 36 (by decide)).trans hs.running,
    hpid.trans hs.pid, ?_⟩
  · rw [hrest]
    exact hs.current
  · rw [hrest]
    exact hs.table
  · rw [hrest]
    exact hs.empty

theorem beforeCreate_create {s t : Procs} {name entryPoint ticks proc : Word} (hs : BeforeCreate s)
    (h : processCreate name entryPoint ticks s = some (proc, t)) (hc : ¬ CanCreate s) :
    BeforeCreate t := by
  rcases processCreate_null_or h with ⟨hnull, _, hrest⟩ | ⟨_, hcan⟩
  · rcases hs with hs | ⟨bs, b, hs⟩
    · refine Or.inl ⟨?_, ?_⟩
      · rw [hrest]
        exact hs.table
      · rw [hrest]
        exact hs.empty
    · rcases processCreate_cases hs.owns h with ⟨_, hnot⟩ | ⟨r, k, hcreated⟩
      · exact Or.inr ⟨bs, b, hs.notCreated hnot⟩
      · exact absurd hnull hcreated.nonnull
  · exact absurd hcan hc

/-- `replaceFirst` changes one entry, or there is none to change. -/
theorem replaceFirst_cases (t : ProcessTable) (old new : Word) :
    (replaceFirst t old new = t ∧ ∀ i, t i ≠ old) ∨
      ∃ i, t i = old ∧ replaceFirst t old new = fun j => if j = i then new else t j := by
  unfold replaceFirst
  cases hfind : (List.finRange 64).find? fun i => t i = old with
  | none =>
    refine Or.inl ⟨rfl, fun i hi => ?_⟩
    have hne := List.find?_eq_none.mp hfind i (List.mem_finRange i)
    rw [decide_eq_true_eq] at hne
    exact hne hi
  | some i =>
    have hi := List.find?_some hfind
    rw [decide_eq_true_eq] at hi
    exact Or.inr ⟨i, hi, rfl⟩

/-- The first free slot of the table takes the new process. -/
theorem exists_replaceFirst {t : ProcessTable} {old : Word} (new : Word) (h : ∃ i, t i = old) :
    ∃ i, replaceFirst t old new i = new := by
  obtain ⟨j, hj⟩ := h
  rcases replaceFirst_cases t old new with ⟨_, hnone⟩ | ⟨i, _, hnext⟩
  · exact absurd hj (hnone j)
  · rw [hnext]
    exact ⟨i, if_pos rfl⟩

/-- A process that `process_create` has built is ready and not in the queue. -/
theorem not_noneLost_created {s t : Procs} {bs : List Block} {r k : Block}
    {proc entryPoint : Word} (h : Created s t bs r k proc entryPoint)
    (hempty : s.readyQueueHead = 0#32) (hslot : ∃ i, s.processTable i = 0#32) : ¬ NoneLost t := by
  rintro ⟨qs, hqs, hready, _⟩
  have hrest := h.rest
  have hlive : Live t proc := by
    refine ⟨h.nonnull, ?_⟩
    rw [hrest]
    exact exists_replaceFirst proc hslot
  have hhead : t.readyQueueHead = 0#32 := by
    rw [hrest]
    exact hempty
  have hnil : qs = [] := by
    cases qs with
    | nil => rfl
    | cons q qs =>
      rw [hhead] at hqs
      exact absurd hqs.1.symm hqs.2.1
  have hcount := hready proc hlive h.state
  rw [hnil, List.count_nil] at hcount
  cases hcount

theorem BeforeCreate.slot {s : Procs} (hs : BeforeCreate s) :
    s.readyQueueHead = 0#32 ∧ ∃ i, s.processTable i = 0#32 := by
  rcases hs with hs | ⟨bs, b, hs⟩
  · exact ⟨hs.empty, 0, by rw [hs.table]⟩
  · refine ⟨hs.empty, 1, ?_⟩
    rw [hs.table]
    rfl

/-! ## `process_terminate` -/

theorem processTerminate_rest {s t : Procs} {proc : Word} (hp : proc ≠ 0#32)
    (h : processTerminate proc s = some t) :
    t.processTable = replaceFirst s.processTable proc 0#32 ∧
      t.readyQueueHead = s.readyQueueHead ∧ t.currentProcess = s.currentProcess := by
  rw [processTerminate, if_neg hp] at h
  obtain ⟨h₁, _, h⟩ := Option.bind_eq_some_iff.mp h
  obtain ⟨h₂, _, rfl⟩ := Option.map_eq_some_iff.mp h
  exact ⟨rfl, rfl, rfl⟩

theorem replaceFirst_only {p : Word} (hp : p ≠ 0#32) :
    replaceFirst (fun i => if i = 0 then p else 0#32) p 0#32 = fun _ => 0#32 := by
  rcases replaceFirst_cases (fun i => if i = 0 then p else 0#32) p 0#32 with ⟨_, hnone⟩ | ⟨i, hi, hnext⟩
  · exact absurd (if_pos rfl) (hnone 0)
  · have hzero : i = 0 := by
      by_contra hne
      rw [if_neg hne] at hi
      exact hp hi.symm
    rw [hnext, hzero]
    funext j
    split
    · rfl
    · rfl

theorem beforeCreate_terminate {s t : Procs} {proc : Word} (hs : BeforeCreate s)
    (hp : proc = 0#32 ∨ Live s proc) (h : processTerminate proc s = some t) : BeforeCreate t := by
  rcases Decidable.em (proc = 0#32) with rfl | hne
  · cases h
    exact hs
  · obtain ⟨_, i, hi⟩ := hp.resolve_left hne
    obtain ⟨htable, hhead, _⟩ := processTerminate_rest hne h
    rcases hs with hs | ⟨bs, b, hs⟩
    · rw [hs.table] at hi
      exact absurd hi.symm hne
    · have hpb : payload b = proc := by
        rw [hs.table] at hi
        dsimp only at hi
        split at hi
        · exact hi
        · exact absurd hi.symm hne
      refine Or.inl ⟨?_, hhead.trans hs.empty⟩
      rw [htable, hs.table, hpb, replaceFirst_only hne]

/-! ## `schedule` -/

/-- The memory after a running process with an empty queue has been queued, taken
out again and marked as running. -/
def requeued (m : Mem) (p : Word) : Mem :=
  setState (setProcNext (setProcNext (setState m p .ready) p 0#32) p 0#32) p .running

theorem schedule_alone {s : Procs} (hcur : s.currentProcess ≠ 0#32)
    (hrun : procState s.heap.mem s.currentProcess = ProcessState.running.code)
    (hempty : s.readyQueueHead = 0#32) :
    schedule s = ({ s.withMem (requeued s.heap.mem s.currentProcess) with
      readyQueueHead := 0#32, readyQueueTail := 0#32 }, none) := by
  have hnext : ∀ m : Mem, procNext (setProcNext m s.currentProcess 0#32) s.currentProcess = 0#32 :=
    fun m => load32_store32_same _ _ _
  simp only [schedule, if_neg hcur, if_pos hrun, enqueueProcess, Procs.withMem, hempty, if_true,
    dequeueProcess, hnext, requeued, ne_eq, not_true_eq_false, if_false]

theorem findIdle_empty {s : Procs} (ht : s.processTable = fun _ => 0#32) : findIdle s = 0#32 := by
  have hfind : ((List.finRange 64).find? fun i =>
      s.processTable i ≠ 0#32 ∧ procPid s.heap.mem (s.processTable i) = 0#32) = none := by
    refine List.find?_eq_none.mpr fun i _ => ?_
    rw [ht]
    simp
  rw [findIdle, hfind]

theorem schedule_noProcess {s : Procs} (hs : NoProcess s) :
    ∃ t, schedule s = (t, none) ∧ NoProcess t := by
  cases Decidable.em (s.currentProcess = 0#32) with
  | inl hcur =>
    exact ⟨s, by rw [schedule, if_pos hcur], hs⟩
  | inr hcur =>
    rcases Decidable.em (procState s.heap.mem s.currentProcess = ProcessState.running.code)
      with hrun | hrun
    · exact ⟨_, schedule_alone hcur hrun hs.empty, hs.table, rfl⟩
    · refine ⟨s, ?_, hs⟩
      simp only [schedule, if_neg hcur, if_neg hrun, dequeueProcess, if_pos hs.empty,
        findIdle_empty hs.table, if_true]

theorem requeued_sameOff {m : Mem} {p : Word} (hp : p.toNat + 120 ≤ 2 ^ 32) :
    SameOff m (requeued m p) (p.toNat + 36) (p.toNat + 120) :=
  (((setField_sameOff hp (k := 36) (by decide) (by decide) (by decide)).trans
    (setField_sameOff hp (k := 116) (by decide) (by decide) (by decide))).trans
    (setField_sameOff hp (k := 116) (by decide) (by decide) (by decide))).trans
    (setField_sameOff hp (k := 36) (by decide) (by decide) (by decide))

/-- `schedule` on a running process with an empty queue: only its record is
written to, and it stays the current process. -/
theorem schedule_requeues {s : Procs} {bs : List Block} {b : Block} (ho : Owns s.heap bs)
    (hb : b ∈ bs) (hrec : 120 ≤ b.size) (hcur : s.currentProcess = payload b)
    (hrun : procState s.heap.mem (payload b) = ProcessState.running.code)
    (hempty : s.readyQueueHead = 0#32) :
    ∃ t, schedule s = (t, none) ∧ Owns t.heap bs ∧
      SameOff s.heap.mem t.heap.mem ((payload b).toNat + 36) ((payload b).toNat + 120) ∧
      procState t.heap.mem (payload b) = ProcessState.running.code ∧
      t = { s.withMem (requeued s.heap.mem s.currentProcess) with
        readyQueueHead := 0#32, readyQueueTail := 0#32 } := by
  have hpay := ho.payload_toNat hb
  have hbd := ho.bounds hb
  have hne : s.currentProcess ≠ 0#32 := by
    rw [hcur]
    exact ho.payload_ne_zero hb
  have hoff := requeued_sameOff (m := s.heap.mem) (p := payload b) (by omega)
  refine ⟨_, schedule_alone hne (by rw [hcur]; exact hrun) hempty, ?_⟩
  rw [hcur]
  exact ⟨ho.writeAt hb hrec (hoff.mono (by omega) (by omega)), hoff, load32_store32_same _ _ _, rfl⟩

theorem schedule_idleRuns {s : Procs} {bs : List Block} {b : Block} (hs : IdleRuns s bs b) :
    ∃ t, schedule s = (t, none) ∧ IdleRuns t bs b := by
  have hpay := hs.owns.payload_toNat hs.mem
  have hbd := hs.owns.bounds hs.mem
  have hrec := hs.record
  obtain ⟨t, ht, ho, hoff, hrun, hrest⟩ := schedule_requeues hs.owns hs.mem hs.record hs.current
    hs.running hs.empty
  have hpid := load32_field_congr hoff (k := 0) (by decide) (by omega)
  rw [BitVec.add_zero] at hpid
  refine ⟨t, ht, ho, hs.mem, hrec, ?_, ?_, hrun, hpid.trans hs.pid, ?_⟩
  · rw [hrest]
    exact hs.current
  · rw [hrest]
    exact hs.table
  · rw [hrest]

theorem schedule_beforeCreate {s : Procs} (hs : BeforeCreate s) :
    ∃ t, schedule s = (t, none) ∧ BeforeCreate t := by
  rcases hs with hs | ⟨bs, b, hs⟩
  · obtain ⟨t, ht, hnone⟩ := schedule_noProcess hs
    exact ⟨t, ht, Or.inl hnone⟩
  · obtain ⟨t, ht, hidle⟩ := schedule_idleRuns hs
    exact ⟨t, ht, Or.inr ⟨bs, b, hidle⟩⟩

/-! ## Whole runs -/

theorem procStep_beforeCreate {s t : Procs} {op : ProcOp} (hs : BeforeCreate s)
    (hst : ProcStep s op t) (hop : CreatesNothing s op) : BeforeCreate t := by
  cases hst with
  | create h => exact beforeCreate_create hs h hop
  | terminate hp h => exact beforeCreate_terminate hs hp h
  | schedule h =>
    obtain ⟨u, hu, hb⟩ := schedule_beforeCreate hs
    cases hu.symm.trans h
    exact hb
  | switch h =>
    obtain ⟨u, hu, _⟩ := schedule_beforeCreate hs
    cases hu.symm.trans h

theorem procInit_beforeCreate {s : Procs} (h : procSystem.init s) : BeforeCreate s := by
  obtain ⟨r, ticks, t, hr, hi, rfl⟩ := h
  obtain ⟨cs, hcs⟩ := reachable_run hr
  rcases processInit_beforeCreate hcs.heap.owns hi with hs | ⟨b, hs⟩
  · exact Or.inl hs
  · exact Or.inr ⟨_, b, hs⟩

theorem guarded_beforeCreate {s : Procs} (h : (procSystem.guarded CreatesNothing).Reachable s) :
    BeforeCreate s :=
  h.invariant (P := BeforeCreate) (fun _ hs => procInit_beforeCreate hs)
    (fun _ _ _ _ hs hst => procStep_beforeCreate hs hst.1 hst.2)

/-- In a run in which `process_create` builds nothing, no ready process is lost. A
call of `process_create` on an intact heap keeps it so exactly when it builds
nothing either. -/
theorem none_lost_until_create {s : Procs} (h : (procSystem.guarded CreatesNothing).Reachable s) :
    NoneLost s ∧ ∀ bs name entryPoint ticks t, Owns s.heap bs →
      ProcStep s (.create name entryPoint ticks) t →
      (NoneLost t ↔ CreatesNothing s (.create name entryPoint ticks)) := by
  have hs := guarded_beforeCreate h
  refine ⟨hs.noneLost, fun bs name entryPoint ticks t ho hst => ⟨fun hlost hcan => ?_, fun hop =>
    (procStep_beforeCreate hs hst hop).noneLost⟩⟩
  cases hst with
  | create hcall =>
    rcases processCreate_null_or hcall with ⟨_, hcannot, _⟩ | ⟨hne, _⟩
    · exact hcannot hcan
    · rcases processCreate_cases ho hcall with ⟨hnull, _⟩ | ⟨r, k, hcreated⟩
      · exact hne hnull
      · obtain ⟨hempty, hslot⟩ := hs.slot
        exact not_noneLost_created hcreated hempty hslot hlost

/-! ## Right after initialisation -/

/-- The heap and the process table after initialisation on a fresh heap. -/
theorem boot :
    ∃ t, processInit 0#32 (heapInit fun _ => 0#8) = some t ∧
      Represents t.heap [⟨120, true⟩, ⟨4194160, false⟩] ∧ t.nextPid = 1#32 ∧
      t.currentProcess ≠ 0#32 ∧ procKernelStack t.heap.mem t.currentProcess = 0#32 := by
  have hfresh : Represents (heapInit fun _ => 0#8) ([] ++ [freshChunk]) :=
    heapInit_represents fun _ => 0#8
  obtain ⟨p, h, hk, hp, hfit, hwrite⟩ := kmalloc_last [] hfresh (n := sizeofProcess) (by decide)
    (by decide) (by decide)
  exact ⟨_, congrArg (Option.map _) hk, hwrite _ (initIdle_sameOff 0#32 hfit), rfl, hp,
    (initIdle_fields 0#32 hfit).2.2⟩

theorem boot_canCreate {t : Procs} (hrep : Represents t.heap [⟨120, true⟩, ⟨4194160, false⟩])
    (hpid : t.nextPid = 1#32) : CanCreate t := by
  obtain ⟨p, h, hk, hp, hfit, hwrite⟩ := kmalloc_last [⟨120, true⟩] hrep (n := sizeofProcess)
    (by decide) (by decide) (by decide)
  obtain ⟨q, h', hk', hq, _, _⟩ := kmalloc_last [⟨120, true⟩, ⟨120, true⟩]
    (hwrite (memset h.mem p 0#8 120) (memset_sameOff hfit)) (n := KERNEL_STACK_SIZE)
    (by decide) (by decide) (by decide)
  exact ⟨by rw [hpid]; decide, p, h, q, h', hk, hp, hk', hq⟩

/-- Initialisation on a heap with room for the idle process and nothing else. -/
theorem boot_full :
    ∃ r t, heapSystem.Reachable r ∧ processInit 0#32 r.heap = some t ∧
      Represents t.heap [⟨4194140, true⟩, ⟨120, true⟩, ⟨8, false⟩] := by
  have hfresh : Represents (heapInit fun _ => 0#8) ([] ++ [freshChunk]) :=
    heapInit_represents fun _ => 0#8
  obtain ⟨p, h, hk, hp, _, hwrite⟩ := kmalloc_last [] hfresh (n := 4194140#32) (by decide)
    (by decide) (by decide)
  obtain ⟨q, h', hk', _, hfit, hwrite'⟩ := kmalloc_last [⟨4194140, true⟩]
    (hwrite h.mem (SameOff.refl _ _ _)) (n := sizeofProcess) (by decide) (by decide) (by decide)
  have hinit : heapSystem.Reachable ⟨heapInit fun _ => 0#8, []⟩ := .init ⟨_, rfl⟩
  exact ⟨_, _, hinit.step (HeapStep.kmalloc hk), congrArg (Option.map _) hk',
    hwrite' _ (initIdle_sameOff 0#32 hfit)⟩

/-- A call of `process_create` that fails, and then a call of `schedule`. -/
theorem none_lost_full :
    ∃ s t u, procSystem.init s ∧ ProcStep s (.create 0#32 0x100000#32 0#32) t ∧
      ProcStep t .schedule u ∧ NoneLost u := by
  obtain ⟨r, t, hr, ht, hrep⟩ := boot_full
  have hinit : procSystem.init (schedulerInit t) := ⟨r, 0#32, t, hr, ht, rfl⟩
  have hcannot : ¬ CanCreate (schedulerInit t) := by
    rintro ⟨_, p, _, _, _, hk, hp, _⟩
    have hsize : sizeofProcess ≠ 0#32 := by decide
    have hnone := kmalloc_none hrep hsize (by decide)
    cases hnone.symm.trans hk
    exact hp rfl
  obtain ⟨proc, u, hu⟩ := processCreate_total (s := schedulerInit t) hrep.owns 0#32 0x100000#32 0#32
  have hcreate : ProcStep (schedulerInit t) (.create 0#32 0x100000#32 0#32) u := .create hu
  have hrun : (procSystem.guarded CreatesNothing).Reachable u :=
    (TransitionSystem.Reachable.init (S := procSystem.guarded CreatesNothing) hinit).step
      (a := .create 0#32 0x100000#32 0#32) ⟨hcreate, hcannot⟩
  obtain ⟨v, hv, _⟩ := schedule_beforeCreate (guarded_beforeCreate hrun)
  have hrun' : (procSystem.guarded CreatesNothing).Reachable v :=
    hrun.step (a := .schedule) ⟨ProcStep.schedule hv, trivial⟩
  exact ⟨_, u, v, hinit, hcreate, .schedule hv, (none_lost_until_create hrun').1⟩

/-- `process_create` right after `process_init` and `scheduler_init`. -/
theorem create_loses_process :
    ∃ s t, procSystem.Reachable s ∧ ProcStep s (.create 0#32 0x100000#32 0#32) t ∧ ¬ NoneLost t := by
  obtain ⟨t, ht, hrep, hpid, _⟩ := boot
  have hinit : procSystem.init (schedulerInit t) :=
    ⟨⟨heapInit fun _ => 0#8, []⟩, 0#32, t, .init ⟨_, rfl⟩, ht, rfl⟩
  have hcan : CanCreate (schedulerInit t) := boot_canCreate hrep hpid
  have howns : Owns (schedulerInit t).heap _ := Represents.owns hrep
  obtain ⟨proc, u, hu⟩ := processCreate_total howns 0#32 0x100000#32 0#32
  refine ⟨schedulerInit t, u, .init hinit, .create hu, ?_⟩
  obtain ⟨hempty, hslot⟩ := (procInit_beforeCreate hinit).slot
  rcases processCreate_cases howns hu with ⟨hnull, _⟩ | ⟨r, k, hcreated⟩
  · rcases processCreate_null_or hu with ⟨_, hcannot, _⟩ | ⟨hne, _⟩
    · exact absurd hcan hcannot
    · exact absurd hnull hne
  · exact not_noneLost_created hcreated hempty hslot

end Zenix
