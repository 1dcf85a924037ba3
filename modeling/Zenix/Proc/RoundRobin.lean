import Zenix.Lib.IntrusiveQueue
import Zenix.Lib.Transition
import Zenix.Proc.ProcessCreate

/-!
# `schedule` as a round robin

The ready queue is linked through the process records, so `schedule` works on the
same memory that holds the states of the processes. The file shows that it rotates
the queue, from every state in which the queue is well formed.

Results:
1. `enqueueProcess_spec`, `dequeueProcess_spec`: the two ends of the queue.
2. `schedule_spec`: what one call does to the queue and to the states.
3. `schedule_round_robin`: as many calls as there are processes to run give each of
   them one turn and restore the state.
-/

namespace Zenix
open ByteMemory IntrusiveQueue

/-! ## Process records -/

/-- The records of `ps` are separate pieces of memory. -/
structure Records (ps : Word → Prop) : Prop where
  nonnull : ∀ p, ps p → p ≠ 0#32
  fits : ∀ p, ps p → p.toNat + 120 ≤ 2 ^ 32
  apart : ∀ p q, ps p → ps q → p ≠ q →
    p.toNat + 120 ≤ q.toNat ∨ q.toNat + 120 ≤ p.toNat

namespace Records

variable {ps : Word → Prop} {m : Mem} {p q : Word}

/-- A store to one field of a record, seen from another field or another record. -/
theorem load_store (hr : Records ps) (hp : ps p) (hq : ps q) {j k : Nat} {v : Word}
    (hj : j + 4 ≤ 120) (hk : k + 4 ≤ 120) (h : q ≠ p ∨ j + 4 ≤ k ∨ k + 4 ≤ j) :
    load32 (store32 m (p + BitVec.ofNat 32 j) v) (q + BitVec.ofNat 32 k) =
      load32 m (q + BitVec.ofNat 32 k) := by
  have hpf := hr.fits p hp
  have hqf := hr.fits q hq
  have haddr : (q + BitVec.ofNat 32 k).toNat = q.toNat + k := toNat_add_ofNat (by omega)
  have hoff : SameOff m (store32 m (p + BitVec.ofNat 32 j) v) (p.toNat + j) (p.toNat + j + 4) :=
    store32_field_sameOff hj hpf
  have hon : SameOn m (store32 m (p + BitVec.ofNat 32 j) v) (q.toNat + k) (q.toNat + k + 4) := by
    refine hoff.sameOn ?_
    cases Decidable.em (q = p) with
    | inl heq =>
      have hfields := h.resolve_left (not_not_intro heq)
      rw [heq]
      omega
    | inr hne =>
      have hap := hr.apart q p hq hp hne
      omega
  exact load32_congr hon (by omega) (by omega) (by omega)

/-- A store to one field, seen from the same field of any record. -/
theorem load_field (hr : Records ps) (hp : ps p) (hq : ps q) {j : Nat} (hj : j + 4 ≤ 120)
    (v : Word) :
    load32 (store32 m (p + BitVec.ofNat 32 j) v) (q + BitVec.ofNat 32 j) =
      if q = p then v else load32 m (q + BitVec.ofNat 32 j) := by
  split
  · next heq =>
    rw [heq]
    exact load32_store32_same _ _ _
  · next hne => exact hr.load_store hp hq hj hj (Or.inl hne)

theorem state_setState (hr : Records ps) (hp : ps p) (hq : ps q) (v : ProcessState) :
    procState (setState m p v) q = if q = p then v.code else procState m q :=
  hr.load_field hp hq (j := 36) (by decide) v.code

theorem next_setProcNext (hr : Records ps) (hp : ps p) (hq : ps q) (v : Word) :
    procNext (setProcNext m p v) q = if q = p then v else procNext m q :=
  hr.load_field hp hq (j := 116) (by decide) v

theorem next_setState (hr : Records ps) (hp : ps p) (hq : ps q) (v : ProcessState) :
    procNext (setState m p v) q = procNext m q :=
  hr.load_store hp hq (j := 36) (k := 116) (by decide) (by decide) (Or.inr (by decide))

theorem state_setProcNext (hr : Records ps) (hp : ps p) (hq : ps q) (v : Word) :
    procState (setProcNext m p v) q = procState m q :=
  hr.load_store hp hq (j := 116) (k := 36) (by decide) (by decide) (Or.inr (by decide))

theorem pid_setState (hr : Records ps) (hp : ps p) (hq : ps q) (v : ProcessState) :
    procPid (setState m p v) q = procPid m q := by
  have h := hr.load_store (m := m) (v := v.code) hp hq (j := 36) (k := 0) (by decide) (by decide)
    (Or.inr (by decide))
  rwa [BitVec.add_zero] at h

theorem pid_setProcNext (hr : Records ps) (hp : ps p) (hq : ps q) (v : Word) :
    procPid (setProcNext m p v) q = procPid m q := by
  have h := hr.load_store (m := m) (v := v) hp hq (j := 116) (k := 0) (by decide) (by decide)
    (Or.inr (by decide))
  rwa [BitVec.add_zero] at h

end Records

/-! ## Well-formed states -/

/-- The processes of the table and the current one are records of `ps`, and one of
those in the table has the pid 0. -/
structure SchedulerState (s : Procs) (ps : Word → Prop) : Prop where
  records : Records ps
  table : ∀ i, s.processTable i ≠ 0#32 → ps (s.processTable i)
  current : s.currentProcess ≠ 0#32 → ps s.currentProcess
  idle : ∃ i, s.processTable i ≠ 0#32 ∧ procPid s.heap.mem (s.processTable i) = 0#32

/-- The ready queue is the list `qs` of ready processes; the current process is not
one of them, and no other process is running. -/
structure WellQueued (s : Procs) (ps : Word → Prop) (qs : List Word) : Prop where
  members : ∀ q ∈ qs, ps q
  queue : Holds 0#32 (procNext s.heap.mem) s.readyQueueHead s.readyQueueTail qs
  ready : ∀ q ∈ qs, procState s.heap.mem q = ProcessState.ready.code
  current : s.currentProcess ∉ qs
  running : ∀ p, ps p → procState s.heap.mem p = ProcessState.running.code → p = s.currentProcess

/-- `m'` has the states and the pids of `m`. -/
def KeepsStates (ps : Word → Prop) (m m' : Mem) : Prop :=
  ∀ p, ps p → procState m' p = procState m p ∧ procPid m' p = procPid m p

theorem KeepsStates.trans {ps : Word → Prop} {m₁ m₂ m₃ : Mem} (h₁ : KeepsStates ps m₁ m₂)
    (h₂ : KeepsStates ps m₂ m₃) : KeepsStates ps m₁ m₃ :=
  fun p hp => ⟨(h₂ p hp).1.trans (h₁ p hp).1, (h₂ p hp).2.trans (h₁ p hp).2⟩

/-- The state `s` with another queue. -/
def Procs.withQueue (s : Procs) (m : Mem) (head tail : Word) : Procs :=
  { s.withMem m with readyQueueHead := head, readyQueueTail := tail }

/-! ## The two ends of the queue -/

section Queue
variable {s : Procs} {ps : Word → Prop} {qs : List Word} {p q : Word}

theorem enqueueProcess_spec (hr : Records ps) (hp : ps p) (hmem : ∀ q ∈ qs, ps q)
    (hq : Holds 0#32 (procNext s.heap.mem) s.readyQueueHead s.readyQueueTail qs)
    (hnew : p ∉ qs) :
    ∃ m head tail, enqueueProcess p s = s.withQueue m head tail ∧
      Holds 0#32 (procNext m) head tail (qs ++ [p]) ∧ KeepsStates ps s.heap.mem m := by
  have hpne := hr.nonnull p hp
  have hclear : KeepsStates ps s.heap.mem (setProcNext s.heap.mem p 0#32) :=
    fun q hq => ⟨hr.state_setProcNext hp hq _, hr.pid_setProcNext hp hq _⟩
  rw [enqueueProcess, if_neg hpne]
  dsimp only
  cases Decidable.em (s.readyQueueHead = 0#32) with
  | inl hempty =>
    obtain rfl := hq.empty_iff.mp hempty
    refine ⟨setProcNext s.heap.mem p 0#32, p, p, if_pos hempty, ?_, hclear⟩
    exact Holds.pushNil hpne ((hr.next_setProcNext hp hp _).trans (if_pos rfl))
  | inr hsome =>
    have hne : qs ≠ [] := fun h => hsome (hq.empty_iff.mpr h)
    have htail : s.readyQueueTail ∈ qs := by
      rw [hq.last, List.getLastD_eq_getLast?, List.getLast?_eq_some_getLast hne, Option.getD_some]
      exact List.getLast_mem hne
    have htp := hmem _ htail
    have hdiff : p ≠ s.readyQueueTail := fun h => hnew (h ▸ htail)
    refine ⟨setProcNext (setProcNext s.heap.mem p 0#32) s.readyQueueTail p, s.readyQueueHead, p,
      if_neg hsome, ?_, ?_⟩
    · refine hq.push hne hpne hnew ?_ ?_ fun y hy hyt => ?_
      · rw [hr.next_setProcNext htp htp, if_pos rfl]
      · rw [hr.next_setProcNext htp hp, if_neg hdiff, hr.next_setProcNext hp hp, if_pos rfl]
      · have hyp : y ≠ p := fun h => hnew (h ▸ hy)
        rw [hr.next_setProcNext htp (hmem y hy), if_neg hyt, hr.next_setProcNext hp (hmem y hy),
          if_neg hyp]
    · exact hclear.trans fun q hq => ⟨hr.state_setProcNext htp hq _, hr.pid_setProcNext htp hq _⟩

theorem dequeueProcess_spec (hr : Records ps) (hmem : ∀ y ∈ q :: qs, ps y)
    (hq : Holds 0#32 (procNext s.heap.mem) s.readyQueueHead s.readyQueueTail (q :: qs)) :
    ∃ m head tail, dequeueProcess s = (q, s.withQueue m head tail) ∧
      Holds 0#32 (procNext m) head tail qs ∧ KeepsStates ps s.heap.mem m := by
  have hqp := hmem q List.mem_cons_self
  have hhead : s.readyQueueHead = q := hq.chain.1
  have hnot := (List.nodup_cons.mp hq.nodup).1
  refine ⟨setProcNext s.heap.mem q 0#32, procNext s.heap.mem q,
    if procNext s.heap.mem q = 0#32 then 0#32 else s.readyQueueTail, ?_, ?_, ?_⟩
  · rw [dequeueProcess, hhead, if_neg (hr.nonnull q hqp)]
    dsimp only
    split
    · rfl
    · rfl
  · refine hq.pop fun y hy => ?_
    have hyq : y ≠ q := fun h => hnot (h ▸ hy)
    rw [hr.next_setProcNext hqp (hmem y (List.mem_cons_of_mem _ hy)), if_neg hyq]
  · exact fun p hp => ⟨hr.state_setProcNext hqp hp _, hr.pid_setProcNext hqp hp _⟩

end Queue

theorem dequeueProcess_empty {s : Procs} (h : s.readyQueueHead = 0#32) :
    dequeueProcess s = (0#32, s) := if_pos h

/-- "Find idle process" finds a process of the table with the pid 0. -/
theorem findIdle_spec {s : Procs}
    (h : ∃ i, s.processTable i ≠ 0#32 ∧ procPid s.heap.mem (s.processTable i) = 0#32) :
    findIdle s ≠ 0#32 ∧ procPid s.heap.mem (findIdle s) = 0#32 ∧
      ∃ i, s.processTable i = findIdle s := by
  unfold findIdle
  cases hfind : (List.finRange 64).find? fun i =>
      s.processTable i ≠ 0#32 ∧ procPid s.heap.mem (s.processTable i) = 0#32 with
  | none =>
    obtain ⟨i, hi⟩ := h
    have hnone := List.find?_eq_none.mp hfind i (List.mem_finRange i)
    exact absurd (decide_eq_true hi) hnone
  | some i =>
    have hi := List.find?_some hfind
    rw [decide_eq_true_eq] at hi
    exact ⟨hi.1, hi.2, i, rfl⟩

/-! ## One call -/

/-- What a call of `schedule` that makes `next` the current process leaves behind,
when `rest` are the processes that wait behind it. -/
structure Scheduled (s t : Procs) (ps : Word → Prop) (next : Word) (rest : List Word) : Prop where
  state : SchedulerState t ps
  queued : WellQueued t ps rest
  current : t.currentProcess = next
  nonnull : next ≠ 0#32
  running : procState t.heap.mem next = ProcessState.running.code
  table : t.processTable = s.processTable
  nextPid : t.nextPid = s.nextPid
  pids : ∀ p, ps p → procPid t.heap.mem p = procPid s.heap.mem p
  others : ∀ p, ps p → p ≠ s.currentProcess → p ≠ next →
    procState t.heap.mem p = procState s.heap.mem p

theorem Scheduled.runs {s t : Procs} {ps : Word → Prop} {next : Word} {rest : List Word}
    (h : Scheduled s t ps next rest) (p : Word) (hp : ps p) :
    procState t.heap.mem p = ProcessState.running.code ↔ p = next := by
  constructor
  · exact fun hrun => (h.queued.running p hp hrun).trans h.current
  · rintro rfl
    exact h.running

/-- The processes that are ready once the current one has been put back. -/
def runnable (s : Procs) (qs : List Word) : List Word :=
  if procState s.heap.mem s.currentProcess = ProcessState.running.code then
    qs ++ [s.currentProcess]
  else qs

section Call
variable {s : Procs} {ps : Word → Prop} {qs : List Word}

/-- The first part of `schedule`: nobody runs, and everybody runnable is queued. -/
theorem requeue_spec (hs : SchedulerState s ps) (hq : WellQueued s ps qs)
    (hcur : s.currentProcess ≠ 0#32) :
    ∃ m head tail,
      (if procState s.heap.mem s.currentProcess = ProcessState.running.code then
          enqueueProcess s.currentProcess (s.withMem (setState s.heap.mem s.currentProcess .ready))
        else s) = s.withQueue m head tail ∧
      Holds 0#32 (procNext m) head tail (runnable s qs) ∧
      (∀ p, ps p → procPid m p = procPid s.heap.mem p) ∧
      (∀ p, ps p → p ≠ s.currentProcess → procState m p = procState s.heap.mem p) ∧
      (∀ p, ps p → procState m p ≠ ProcessState.running.code) ∧
      ∀ p ∈ runnable s qs, ps p ∧ procState m p = ProcessState.ready.code := by
  have hr := hs.records
  have hcp := hs.current hcur
  unfold runnable
  split
  · next hrun =>
    have hqueue : Holds 0#32 (procNext (setState s.heap.mem s.currentProcess .ready))
        s.readyQueueHead s.readyQueueTail qs :=
      hq.queue.congr fun y hy => hr.next_setState hcp (hq.members y hy) _
    obtain ⟨m, head, tail, heq, hholds, hkeep⟩ := enqueueProcess_spec
      (s := s.withMem (setState s.heap.mem s.currentProcess .ready)) hr hcp hq.members hqueue
      hq.current
    have hstate : ∀ p, ps p → procState m p =
        if p = s.currentProcess then ProcessState.ready.code else procState s.heap.mem p :=
      fun p hp => (hkeep p hp).1.trans (hr.state_setState hcp hp _)
    refine ⟨m, head, tail, heq, hholds, ?_, ?_, ?_, ?_⟩
    · exact fun p hp => (hkeep p hp).2.trans (hr.pid_setState hcp hp _)
    · intro p hp hne
      rw [hstate p hp, if_neg hne]
    · intro p hp
      rw [hstate p hp]
      split
      · decide
      · next hne => exact fun hrunning => hne (hq.running p hp hrunning)
    · intro p hp
      cases List.mem_append.mp hp with
      | inl hold =>
        refine ⟨hq.members p hold, ?_⟩
        rw [hstate p (hq.members p hold), if_neg fun h : p = s.currentProcess => hq.current (h ▸ hold)]
        exact hq.ready p hold
      | inr hnew =>
        obtain rfl := List.mem_singleton.mp hnew
        exact ⟨hcp, (hstate _ hcp).trans (if_pos rfl)⟩
  · next hrun =>
    refine ⟨s.heap.mem, s.readyQueueHead, s.readyQueueTail, rfl, hq.queue, fun _ _ => rfl,
      fun _ _ _ => rfl, fun p hp hrunning => ?_, fun p hp => ⟨hq.members p hp, hq.ready p hp⟩⟩
    exact hrun (hq.running p hp hrunning ▸ hrunning)

/-- The last part of `schedule`, once `next` has been chosen. -/
theorem switchTo_spec (hs : SchedulerState s ps) {m : Mem} {head tail next : Word}
    {rest : List Word} (hnext : ps next)
    (hqueue : Holds 0#32 (procNext m) head tail rest) (hnot : next ∉ rest)
    (hpids : ∀ p, ps p → procPid m p = procPid s.heap.mem p)
    (hothers : ∀ p, ps p → p ≠ s.currentProcess → procState m p = procState s.heap.mem p)
    (hidle : ∀ p, ps p → procState m p ≠ ProcessState.running.code)
    (hrest : ∀ p ∈ rest, ps p ∧ procState m p = ProcessState.ready.code) :
    Scheduled s { s.withQueue (setState m next .running) head tail with currentProcess := next }
      ps next rest := by
  have hr := hs.records
  have hstate : ∀ p, ps p → procState (setState m next .running) p =
      if p = next then ProcessState.running.code else procState m p :=
    fun p hp => hr.state_setState hnext hp _
  have hpid : ∀ p, ps p → procPid (setState m next .running) p = procPid s.heap.mem p :=
    fun p hp => (hr.pid_setState hnext hp _).trans (hpids p hp)
  refine ⟨⟨hr, hs.table, fun _ => hnext, ?_⟩, ⟨fun q hq => (hrest q hq).1, ?_, ?_, hnot, ?_⟩, rfl,
    hr.nonnull next hnext, (hstate next hnext).trans (if_pos rfl), rfl, rfl, hpid, ?_⟩
  · obtain ⟨i, hi, hzero⟩ := hs.idle
    exact ⟨i, hi, (hpid _ (hs.table i hi)).trans hzero⟩
  · exact hqueue.congr fun y hy => hr.next_setState hnext (hrest y hy).1 _
  · intro q hq
    refine ((hstate q (hrest q hq).1).trans (if_neg ?_)).trans (hrest q hq).2
    rintro rfl
    exact hnot hq
  · intro p hp hrunning
    by_contra hne
    exact hidle p hp (((hstate p hp).trans (if_neg hne)).symm.trans hrunning)
  · exact fun p hp hcur hne => ((hstate p hp).trans (if_neg hne)).trans (hothers p hp hcur)

/-- The process at the head of the runnable ones is scheduled. -/
theorem schedule_head (hs : SchedulerState s ps) (hq : WellQueued s ps qs)
    (hcur : s.currentProcess ≠ 0#32) {next : Word} {rest : List Word}
    (hrun : runnable s qs = next :: rest) : Scheduled s (schedule s).1 ps next rest := by
  obtain ⟨m, head, tail, heq, hholds, hpids, hothers, hidle, hready⟩ := requeue_spec hs hq hcur
  rw [hrun] at hholds hready
  obtain ⟨m', head', tail', hdeq, hholds', hkeep⟩ := dequeueProcess_spec
    (s := s.withQueue m head tail) hs.records (fun y hy => (hready y hy).1) hholds
  have hnext := (hready next List.mem_cons_self).1
  have hne := hs.records.nonnull next hnext
  have hspec := switchTo_spec hs hnext hholds' (List.nodup_cons.mp hholds.nodup).1
    (fun p hp => (hkeep p hp).2.trans (hpids p hp))
    (fun p hp hpc => (hkeep p hp).1.trans (hothers p hp hpc))
    (fun p hp => by rw [(hkeep p hp).1]; exact hidle p hp)
    (fun p hp => by
      obtain ⟨hpp, hps⟩ := hready p (List.mem_cons_of_mem _ hp)
      exact ⟨hpp, (hkeep p hpp).1.trans hps⟩)
  have hcall : (schedule s).1 =
      { s.withQueue (setState m' next .running) head' tail' with currentProcess := next } := by
    rw [schedule, if_neg hcur]
    dsimp only
    rw [heq, hdeq]
    dsimp only
    rw [if_neg hne, if_neg hne]
    rfl
  rw [hcall]
  exact hspec

/-- With nobody runnable the idle process is scheduled. -/
theorem schedule_idle (hs : SchedulerState s ps) (hq : WellQueued s ps qs)
    (hcur : s.currentProcess ≠ 0#32) (hrun : runnable s qs = []) :
    ∃ next, (∃ i, s.processTable i = next) ∧ procPid s.heap.mem next = 0#32 ∧
      Scheduled s (schedule s).1 ps next [] := by
  obtain ⟨m, head, tail, heq, hholds, hpids, hothers, hidle, hready⟩ := requeue_spec hs hq hcur
  rw [hrun] at hholds hready
  have hempty : head = 0#32 := hholds.empty_iff.mpr rfl
  have htable : ∃ i, (s.withQueue m head tail).processTable i ≠ 0#32 ∧
      procPid (s.withQueue m head tail).heap.mem ((s.withQueue m head tail).processTable i) =
        0#32 := by
    obtain ⟨i, hi, hzero⟩ := hs.idle
    exact ⟨i, hi, (hpids _ (hs.table i hi)).trans hzero⟩
  obtain ⟨hne, hpid, i, hi⟩ := findIdle_spec htable
  have hnext : ps (findIdle (s.withQueue m head tail)) := hi ▸ hs.table i (hi.symm ▸ hne)
  refine ⟨_, ⟨i, hi⟩, (hpids _ hnext).symm.trans hpid, ?_⟩
  have hspec := switchTo_spec hs hnext hholds List.not_mem_nil hpids hothers hidle hready
  have hcall : (schedule s).1 =
      { s.withQueue (setState m (findIdle (s.withQueue m head tail)) .running) head tail with
        currentProcess := findIdle (s.withQueue m head tail) } := by
    rw [schedule, if_neg hcur]
    dsimp only
    rw [heq, dequeueProcess_empty (s := s.withQueue m head tail) hempty]
    dsimp only
    rw [if_pos rfl, if_neg hne]
    rfl
  rw [hcall]
  exact hspec

/-- What one call does to the queue and to the states. -/
theorem schedule_spec (hs : SchedulerState s ps) (hq : WellQueued s ps qs)
    (hcur : s.currentProcess ≠ 0#32) :
    ∃ next rest, Scheduled s (schedule s).1 ps next rest := by
  cases hrun : runnable s qs with
  | nil =>
    obtain ⟨next, _, _, h⟩ := schedule_idle hs hq hcur hrun
    exact ⟨next, [], h⟩
  | cons next rest => exact ⟨next, rest, schedule_head hs hq hcur hrun⟩

end Call

/-! ## Successive calls -/

/-- A context switch writes to the registers records only. -/
def ContextKept (ps : Word → Prop) (m m' : Mem) : Prop :=
  ∀ p, ps p → SameOn m m' p.toNat (p.toNat + 40) ∧ SameOn m m' (p.toNat + 104) (p.toNat + 120)

/-- A call of `schedule` that returns, with the process that runs then. When it
switches the context, it returns once it is switched back to; the state is the one
in which the next process goes on. -/
inductive ScheduleCall (ps : Word → Prop) : Procs → Word → Procs → Prop
  | stay {s t : Procs} : schedule s = (t, none) → ScheduleCall ps s t.currentProcess t
  | switch {s t : Procs} {old new : Word} {m : Mem} : schedule s = (t, some (old, new)) →
      ContextKept ps t.heap.mem m → ScheduleCall ps s t.currentProcess (t.withMem m)

/-- Calls of `schedule` and no other events. -/
def scheduleSystem (ps : Word → Prop) : TransitionSystem Procs Word where
  init := fun s => SchedulerState s ps ∧ ∃ qs, WellQueued s ps qs
  step := ScheduleCall ps

/-- The process `c` runs and `qs` wait behind it. -/
structure Turns (s : Procs) (ps : Word → Prop) (qs : List Word) (c : Word) : Prop where
  state : SchedulerState s ps
  queued : WellQueued s ps qs
  current : s.currentProcess = c
  nonnull : c ≠ 0#32
  running : procState s.heap.mem c = ProcessState.running.code

section Successive
variable {s t : Procs} {ps : Word → Prop} {qs : List Word} {c p : Word}

theorem ContextKept.fields (hr : Records ps) {m m' : Mem} (h : ContextKept ps m m') (hp : ps p) :
    procPid m' p = procPid m p ∧ procState m' p = procState m p ∧ procNext m' p = procNext m p := by
  obtain ⟨hlow, hhigh⟩ := h p hp
  have hfit := hr.fits p hp
  have haddr : ∀ k, k ≤ 116 → (p + BitVec.ofNat 32 k).toNat = p.toNat + k :=
    fun k hk => toNat_add_ofNat (by omega)
  have h36 := haddr 36 (by decide)
  have h116 := haddr 116 (by decide)
  exact ⟨load32_congr hlow (by omega) (by omega) (by omega),
    load32_congr hlow (by omega) (by omega) (by omega),
    load32_congr hhigh (by omega) (by omega) (by omega)⟩

theorem Scheduled.context {next : Word} {rest : List Word} (h : Scheduled s t ps next rest)
    {m : Mem} (hk : ContextKept ps t.heap.mem m) : Scheduled s (t.withMem m) ps next rest := by
  have hr := h.state.records
  have hnext : ps next := h.current ▸ h.state.current (h.current ▸ h.nonnull)
  have hfields := fun p (hp : ps p) => hk.fields hr hp
  refine ⟨⟨hr, h.state.table, h.state.current, ?_⟩,
    ⟨h.queued.members, ?_, ?_, h.queued.current, ?_⟩, h.current, h.nonnull, ?_, h.table, h.nextPid,
    ?_, ?_⟩
  · obtain ⟨i, hi, hzero⟩ := h.state.idle
    exact ⟨i, hi, (hfields _ (h.state.table i hi)).1.trans hzero⟩
  · exact h.queued.queue.congr fun y hy => (hfields y (h.queued.members y hy)).2.2
  · exact fun q hq => (hfields q (h.queued.members q hq)).2.1.trans (h.queued.ready q hq)
  · exact fun p hp hrun => h.queued.running p hp ((hfields p hp).2.1.symm.trans hrun)
  · exact (hfields next hnext).2.1.trans h.running
  · exact fun p hp => (hfields p hp).1.trans (h.pids p hp)
  · exact fun p hp hcur hne => (hfields p hp).2.1.trans (h.others p hp hcur hne)

theorem Scheduled.turns {next : Word} {rest : List Word} (h : Scheduled s t ps next rest) :
    Turns t ps rest next :=
  ⟨h.state, h.queued, h.current, h.nonnull, h.running⟩

theorem Turns.runnable (h : Turns s ps qs c) : runnable s qs = qs ++ [c] := by
  rw [Zenix.runnable, h.current, if_pos h.running]

theorem Turns.current_ne_zero (h : Turns s ps qs c) : s.currentProcess ≠ 0#32 := by
  rw [h.current]
  exact h.nonnull

/-- One call: the first process in line runs, and the others wait. -/
theorem Turns.step (h : Turns s ps qs c) {next : Word} {rest : List Word}
    (hline : qs ++ [c] = next :: rest) (hst : ScheduleCall ps s p t) :
    p = next ∧ Scheduled s t ps next rest := by
  have hspec := schedule_head h.state h.queued h.current_ne_zero (h.runnable.trans hline)
  cases hst with
  | stay heq =>
    rw [heq] at hspec
    exact ⟨hspec.current, hspec⟩
  | switch heq hk =>
    rw [heq] at hspec
    exact ⟨hspec.current, hspec.context hk⟩

/-- The next call returns. -/
theorem ScheduleCall.exists (s : Procs) (ps : Word → Prop) : ∃ p t, ScheduleCall ps s p t := by
  cases h : schedule s with
  | mk t switched =>
    cases switched with
    | none => exact ⟨_, _, .stay h⟩
    | some regs =>
      have hkept : ContextKept ps t.heap.mem t.heap.mem := fun _ _ => ⟨fun _ _ _ => rfl, fun _ _ _ => rfl⟩
      exact ⟨_, _, .switch h hkept⟩

/-- As many calls as `xs` is long, when the processes in line are `xs` and then
`ys`: each of `xs` runs, and they come behind `ys`. -/
theorem Turns.run {xs ys labels : List Word} (h : Turns s ps qs c) (hline : qs ++ [c] = xs ++ ys)
    (hrun : (scheduleSystem ps).Run s labels t) (hlen : labels.length = xs.length) :
    labels = xs ∧ (∃ qs' c', qs' ++ [c'] = ys ++ xs ∧ Turns t ps qs' c') ∧
      t.processTable = s.processTable ∧ t.nextPid = s.nextPid ∧
      (∀ p, ps p → procPid t.heap.mem p = procPid s.heap.mem p) ∧
      ∀ p, ps p → p ∉ xs ++ ys → procState t.heap.mem p = procState s.heap.mem p := by
  induction xs generalizing s qs c ys labels with
  | nil =>
    obtain rfl := List.length_eq_zero_iff.mp hlen
    cases hrun
    refine ⟨rfl, ⟨qs, c, ?_, h⟩, rfl, rfl, fun _ _ => rfl, fun _ _ _ => rfl⟩
    rw [hline, List.nil_append, List.append_nil]
  | cons x xs ih =>
    cases hrun with
    | nil => cases hlen
    | @cons _ u _ p labels hst hrest =>
      obtain ⟨rfl, hspec⟩ := h.step hline hst
      have hline' : (xs ++ ys) ++ [p] = xs ++ (ys ++ [p]) := List.append_assoc _ _ _
      obtain ⟨rfl, ⟨qs', c', hend, hturns⟩, htable, hpid, hpids, hstates⟩ :=
        ih hspec.turns hline' hrest (Nat.succ.inj hlen)
      refine ⟨rfl, ⟨qs', c', ?_, hturns⟩, htable.trans hspec.table, hpid.trans hspec.nextPid,
        fun q hq => (hpids q hq).trans (hspec.pids q hq), fun q hq hnot => ?_⟩
      · rw [hend, List.append_assoc]
        rfl
      · have hqp : q ≠ p := fun heq => hnot (heq ▸ List.mem_cons_self)
        have hcur : q ≠ s.currentProcess := by
          intro heq
          refine hnot ?_
          rw [← hline, heq, h.current]
          exact List.mem_append_right _ (List.mem_singleton_self c)
        refine (hstates q hq ?_).trans (hspec.others q hq hcur hqp)
        rw [← hline']
        intro hmem
        cases List.mem_append.mp hmem with
        | inl hold => exact hnot (List.mem_cons_of_mem _ hold)
        | inr hnew => exact hqp (List.mem_singleton.mp hnew)

/-- Runs of every length. -/
theorem scheduleSystem_run (s : Procs) (ps : Word → Prop) (n : Nat) :
    ∃ labels t, (scheduleSystem ps).Run s labels t ∧ labels.length = n := by
  induction n generalizing s with
  | zero => exact ⟨[], s, .nil, rfl⟩
  | succ n ih =>
    obtain ⟨p, u, hst⟩ := ScheduleCall.exists s ps
    obtain ⟨labels, t, hrun, hlen⟩ := ih u
    exact ⟨p :: labels, t, .cons hst hrun, congrArg Nat.succ hlen⟩

theorem Turns.state_eq (hs : Turns s ps qs c) (ht : Turns t ps qs c)
    (hothers : ∀ p, ps p → p ∉ qs ++ [c] → procState t.heap.mem p = procState s.heap.mem p)
    (hp : ps p) : procState t.heap.mem p = procState s.heap.mem p := by
  cases Decidable.em (p ∈ qs ++ [c]) with
  | inr hnot => exact hothers p hp hnot
  | inl hmem =>
    cases List.mem_append.mp hmem with
    | inl hq => exact (ht.queued.ready p hq).trans (hs.queued.ready p hq).symm
    | inr hc =>
      obtain rfl := List.mem_singleton.mp hc
      exact ht.running.trans hs.running.symm

theorem Turns.ends_eq (hs : Turns s ps qs c) (ht : Turns t ps qs c) :
    t.currentProcess = s.currentProcess ∧ t.readyQueueHead = s.readyQueueHead ∧
      t.readyQueueTail = s.readyQueueTail :=
  ⟨ht.current.trans hs.current.symm,
    ht.queued.queue.chain.head_eq.trans hs.queued.queue.chain.head_eq.symm,
    ht.queued.queue.last.trans hs.queued.queue.last.symm⟩

end Successive

/-- `schedule` is a lossless round robin: it keeps the queue well formed; a running
process goes to the end of the queue, another one does not, and the head of the queue
or else the idle process runs; and as many calls as there are processes in line give
each of them its turn and restore the state. -/
theorem schedule_round_robin {s : Procs} {ps : Word → Prop} {qs : List Word}
    (hs : SchedulerState s ps) (hq : WellQueued s ps qs) :
    (∃ qs', WellQueued (schedule s).1 ps qs') ∧
    (s.currentProcess = 0#32 → schedule s = (s, none)) ∧
    (s.currentProcess ≠ 0#32 →
      procState s.heap.mem s.currentProcess = ProcessState.running.code →
      (∀ q rest, qs ++ [s.currentProcess] = q :: rest →
        (schedule s).1.currentProcess = q ∧
        (∀ p, ps p → (procState (schedule s).1.heap.mem p = ProcessState.running.code ↔ p = q)) ∧
        WellQueued (schedule s).1 ps rest) ∧
      (∃ labels t, (scheduleSystem ps).Run s labels t ∧ labels.length = qs.length + 1) ∧
      ∀ labels t, (scheduleSystem ps).Run s labels t → labels.length = qs.length + 1 →
        labels = qs ++ [s.currentProcess] ∧ labels.Nodup ∧
        t.currentProcess = s.currentProcess ∧ t.readyQueueHead = s.readyQueueHead ∧
        t.readyQueueTail = s.readyQueueTail ∧ t.processTable = s.processTable ∧
        t.nextPid = s.nextPid ∧ WellQueued t ps qs ∧ KeepsStates ps s.heap.mem t.heap.mem) ∧
    (s.currentProcess ≠ 0#32 →
      procState s.heap.mem s.currentProcess ≠ ProcessState.running.code →
      (∀ q rest, qs = q :: rest →
        (schedule s).1.currentProcess = q ∧
        (∀ p, ps p → (procState (schedule s).1.heap.mem p = ProcessState.running.code ↔ p = q)) ∧
        WellQueued (schedule s).1 ps rest) ∧
      (qs = [] → ∃ i, procPid s.heap.mem (s.processTable i) = 0#32 ∧
        (schedule s).1.currentProcess = s.processTable i ∧ s.processTable i ≠ 0#32 ∧
        (∀ p, ps p → (procState (schedule s).1.heap.mem p = ProcessState.running.code ↔
          p = s.processTable i)) ∧
        WellQueued (schedule s).1 ps [])) := by
  refine ⟨?_, fun hcur => if_pos hcur, fun hcur hrun => ⟨fun q rest hline => ?_,
    scheduleSystem_run s ps _, fun labels t hst hlen => ?_⟩, fun hcur hrun => ⟨fun q rest hline => ?_,
    fun hempty => ?_⟩⟩
  · cases Decidable.em (s.currentProcess = 0#32) with
    | inl hcur =>
      rw [show schedule s = (s, none) from if_pos hcur]
      exact ⟨qs, hq⟩
    | inr hcur =>
      obtain ⟨_, rest, hspec⟩ := schedule_spec hs hq hcur
      exact ⟨rest, hspec.queued⟩
  · have hspec := schedule_head hs hq hcur ((if_pos hrun).trans hline)
    exact ⟨hspec.current, hspec.runs, hspec.queued⟩
  · have hturns : Turns s ps qs s.currentProcess := ⟨hs, hq, rfl, hcur, hrun⟩
    have hlen' : labels.length = (qs ++ [s.currentProcess]).length := by
      rw [hlen, List.length_append, List.length_singleton]
    obtain ⟨rfl, ⟨qs', c', hend, hturns'⟩, htable, hpid, hpids, hstates⟩ :=
      hturns.run (List.append_nil _).symm hst hlen'
    obtain ⟨rfl, hlast⟩ := List.append_inj' (hend.trans (List.nil_append _)) rfl
    obtain rfl := List.singleton_inj.mp hlast
    rw [List.append_nil] at hstates
    obtain ⟨hcurrent, hhead, htail⟩ := hturns.ends_eq hturns'
    have hnodup : (qs' ++ [s.currentProcess]).Nodup :=
      List.nodup_append.mpr ⟨hq.queue.nodup, List.nodup_singleton _, fun y hy z hz heq =>
        hq.current (List.mem_singleton.mp hz ▸ heq ▸ hy)⟩
    exact ⟨rfl, hnodup, hcurrent, hhead, htail, htable, hpid, hturns'.queued, fun p hp =>
      ⟨hturns.state_eq hturns' hstates hp, hpids p hp⟩⟩
  · have hspec := schedule_head hs hq hcur ((if_neg hrun).trans hline)
    exact ⟨hspec.current, hspec.runs, hspec.queued⟩
  · obtain ⟨next, ⟨i, rfl⟩, hpid, hspec⟩ := schedule_idle hs hq hcur ((if_neg hrun).trans hempty)
    exact ⟨i, hpid, hspec.current, hspec.nonnull, hspec.runs, hspec.queued⟩

/-- The idle process runs, and a process at `0x2000` waits. -/
def twoProcs : Procs where
  heap := { mem := setState (fun _ => 0#8) 0x1000#32 .running, heapStart := 0#32, heapUsed := 0#32 }
  processTable := fun i =>
    if i.val = 0 then 0x1000#32 else if i.val = 1 then 0x2000#32 else 0#32
  nextPid := 2#32
  currentProcess := 0x1000#32
  readyQueueHead := 0x2000#32
  readyQueueTail := 0x2000#32

theorem schedule_round_robin_two :
    (schedule twoProcs).1.currentProcess = 0x2000#32 ∧
      ∃ labels t, (scheduleSystem fun p => p = 0x1000#32 ∨ p = 0x2000#32).Run twoProcs labels t ∧
        labels = [0x2000#32, 0x1000#32] ∧ t.currentProcess = 0x1000#32 := by
  have hrecords : Records fun p => p = 0x1000#32 ∨ p = 0x2000#32 := by
    refine ⟨?_, ?_, ?_⟩
    · rintro p (rfl | rfl) <;> decide
    · rintro p (rfl | rfl) <;> decide
    · rintro p q (rfl | rfl) (rfl | rfl) <;> decide
  have hstate : SchedulerState twoProcs fun p => p = 0x1000#32 ∨ p = 0x2000#32 :=
    ⟨hrecords, by decide, fun _ => Or.inl rfl, 0, by decide⟩
  have hqueued : WellQueued twoProcs (fun p => p = 0x1000#32 ∨ p = 0x2000#32) [0x2000#32] := by
    have hend : procNext twoProcs.heap.mem 0x2000#32 = 0#32 := by decide
    refine ⟨?_, ⟨⟨rfl, by decide, hend⟩, List.nodup_singleton _, rfl⟩, ?_, by decide, ?_⟩
    · exact fun q hq => Or.inr (List.mem_singleton.mp hq)
    · intro q hq
      rw [List.mem_singleton.mp hq]
      decide
    · rintro p (rfl | rfl) <;> decide
  obtain ⟨_, _, hturns, _⟩ := schedule_round_robin hstate hqueued
  obtain ⟨hstep, ⟨labels, t, hrun, hlen⟩, hround⟩ := hturns (by decide) (by decide)
  obtain ⟨hlabels, _, hcurrent, _⟩ := hround labels t hrun hlen
  exact ⟨(hstep _ _ rfl).1, labels, t, hrun, hlabels, hcurrent⟩

end Zenix
