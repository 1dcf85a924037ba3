import Zenix.Lib.FreeGaps
import Zenix.Proc.CurrentProcess

/-!
# The process table

The heap, the table and the pid counter, followed through every run of
`process_create` and `process_terminate` from `process_init`.

Results:
1. `process_table_invariant`: the live processes are the entries of the table, each
   with a pid and with heap blocks of its own.
2. `slots_reusable_iff`: the capacity test of `process_create` counts pids, so free
   slots are refilled only while fewer than `MAX_PROCESSES` pids have been given.
-/

namespace Zenix
open ByteMemory FirstFit

/-! ## Runs -/

/-- The processes and their history: the idle process, the record and the number of
each live process, and the pids given so far, newest first. The number of a process
is the number of those created before it. -/
structure TableRun where
  procs : Procs
  idle : Word
  live : List (Word × Nat)
  pids : List Word

namespace TableRun

def pointers (s : TableRun) : List Word := s.live.map Prod.fst

def create (name entryPoint ticks : Word) (s : TableRun) : Option (Word × TableRun) :=
  (processCreate name entryPoint ticks s.procs).map fun (proc, t) =>
    (proc,
      if proc = 0#32 then { s with procs := t }
      else
        { s with
          procs := t
          live := (proc, s.pids.length) :: s.live
          pids := procPid t.heap.mem proc :: s.pids })

def terminate (proc : Word) (s : TableRun) : Option TableRun :=
  (processTerminate proc s.procs).map fun t =>
    { s with procs := t, live := s.live.filter fun p => p.1 ≠ proc }

end TableRun

inductive TableOp where
  | create (name entryPoint ticks : Word)
  | terminate (proc : Word)

/-- Termination is for live processes other than the idle one. -/
inductive TableStep : TableRun → TableOp → TableRun → Prop
  | create {s t : TableRun} {name entryPoint ticks proc : Word} :
      s.create name entryPoint ticks = some (proc, t) →
      TableStep s (.create name entryPoint ticks) t
  | terminate {s t : TableRun} {proc : Word} : proc ∈ s.pointers → proc ≠ s.idle →
      s.terminate proc = some t → TableStep s (.terminate proc) t

/-- `process_init` with memory for the idle process, in any state the heap can be in. -/
def tableSystem : TransitionSystem TableRun TableOp where
  init := fun s => ∃ r ticks p, heapSystem.Reachable r ∧ processInit ticks r.heap = some p ∧
    p.currentProcess ≠ 0#32 ∧
    s = ⟨p, p.currentProcess, [(p.currentProcess, 0)], [procPid p.heap.mem p.currentProcess]⟩
  step := TableStep

theorem create_live {s t : TableRun} {name entryPoint ticks proc : Word}
    (h : s.create name entryPoint ticks = some (proc, t)) :
    t.live = if proc = 0#32 then s.live else (proc, s.pids.length) :: s.live := by
  obtain ⟨⟨proc', p⟩, _, heq⟩ := Option.map_eq_some_iff.mp h
  obtain ⟨rfl, rfl⟩ := Prod.mk.inj heq
  exact apply_ite TableRun.live _ _ _

/-! ## The property -/

/-- The used blocks of the block list, in any order. -/
def UsedBlocks (h : Heap) (bs : List Block) : Prop :=
  ∃ l, BlockList h.mem h.heapStart l ∧ (l.filter fun b => b.used).Perm bs

/-- The record of the idle process is in the block `b`; the other live processes have
their records and stacks in the blocks `qs`; `rest` are the blocks of other clients. -/
structure OwnBlocks (s : TableRun) (b : Block) (qs : List ProcBlocks) (rest : List Block) :
    Prop where
  live : ∀ p, p ∈ s.pointers ↔ p = s.idle ∨ ∃ q ∈ qs, p = payload q.record
  distinct : (b :: procBlocks qs rest).Nodup
  used : UsedBlocks s.procs.heap (b :: procBlocks qs rest)
  idle : s.idle.toNat = b.addr + 12 ∧ 120 ≤ b.size ∧
    procKernelStack s.procs.heap.mem s.idle = 0#32
  processes : ∀ q ∈ qs, (payload q.record).toNat = q.record.addr + 12 ∧ 120 ≤ q.record.size ∧
    (procKernelStack s.procs.heap.mem (payload q.record)).toNat =
      q.stack.addr + 12 + KERNEL_STACK_SIZE.toNat ∧
    KERNEL_STACK_SIZE.toNat ≤ q.stack.size

/-- `process_terminate` takes the process of `q` from the table and returns its two
blocks, and nothing else. -/
structure Terminates (s t : TableRun) (bs : List Block) (q : ProcBlocks) : Prop where
  table : ∀ i, t.procs.processTable i =
    if s.procs.processTable i = payload q.record then 0#32 else s.procs.processTable i
  used : UsedBlocks t.procs.heap ((bs.erase q.record).erase q.stack)
  kept : ∀ c ∈ (bs.erase q.record).erase q.stack,
    SameOn s.procs.heap.mem t.procs.heap.mem (c.addr + 12) (c.addr + 12 + c.size)

/-! ## The invariant -/

structure TableInvariant (s : TableRun) (b : Block) (qs : List ProcBlocks) (rest : List Block) :
    Prop where
  runs : Runs s.procs b qs rest
  idle : s.idle = payload b
  idleNumber : (s.idle, 0) ∈ s.live
  idleStack : procKernelStack s.procs.heap.mem (payload b) = 0#32
  stackSizes : ∀ q ∈ qs, 4096 ≤ q.stack.size
  live : ∀ p, p ∈ s.pointers ↔ p = payload b ∨ ∃ q ∈ qs, p = payload q.record
  nodup : s.pointers.Nodup
  listed : ∀ p ∈ s.pointers, ∃ i, s.procs.processTable i = p
  bound : s.procs.nextPid.toNat ≤ 64
  pids : s.pids = (List.range s.procs.nextPid.toNat).reverse.map (BitVec.ofNat 32)
  numbers : (s.live.map Prod.snd).Sublist (List.range s.procs.nextPid.toNat).reverse
  pid : ∀ p ∈ s.live, procPid s.procs.heap.mem p.1 = BitVec.ofNat 32 p.2

theorem Owns.usedBlocks {h : Heap} {bs : List Block} (ho : Owns h bs) : UsedBlocks h bs := by
  obtain ⟨cs, hr, hperm⟩ := ho
  exact ⟨_, hr.invariant.list, hperm⟩

/-- The blocks without those of one process. -/
theorem procBlocks_erase {q : ProcBlocks} {qs : List ProcBlocks} (b : Block) (rest : List Block)
    (hq : q ∈ qs) :
    (((b :: procBlocks qs rest).erase q.record).erase q.stack).Perm
      (b :: procBlocks (qs.erase q) rest) := by
  have hperm : (b :: procBlocks qs rest).Perm
      (q.record :: q.stack :: b :: procBlocks (qs.erase q) rest) :=
    (((procBlocks_perm rest (List.perm_cons_erase hq)).cons b).trans
      (@List.perm_middle _ b [q.stack, q.record] _).symm).trans (List.Perm.swap _ _ _)
  have herase := (hperm.erase q.record).erase q.stack
  rwa [List.erase_cons_head, List.erase_cons_head] at herase

namespace TableInvariant

variable {s t : TableRun} {b : Block} {qs : List ProcBlocks} {rest : List Block}

theorem pids_length (hs : TableInvariant s b qs rest) :
    s.pids.length = s.procs.nextPid.toNat := by
  rw [hs.pids, List.length_map, List.length_reverse, List.length_range]

theorem live_length (hs : TableInvariant s b qs rest) :
    s.pointers.length ≤ s.procs.nextPid.toNat := by
  have hle := hs.numbers.length_le
  rwa [List.length_map, List.length_reverse, List.length_range, ← List.length_map Prod.fst] at hle

/-- The record of a live process is in one of the blocks. -/
theorem record (hs : TableInvariant s b qs rest) {p : Word} (hp : p ∈ s.pointers) :
    ∃ c ∈ b :: procBlocks qs rest, p = payload c ∧ 120 ≤ c.size := by
  cases (hs.live p).mp hp with
  | inl hidle => exact ⟨b, List.mem_cons_self, hidle, hs.runs.record⟩
  | inr hproc =>
    obtain ⟨q, hq, heq⟩ := hproc
    exact ⟨q.record, List.mem_cons_of_mem _ (record_mem_procBlocks rest hq), heq,
      (hs.runs.processes q hq).record⟩

theorem nonnull (hs : TableInvariant s b qs rest) {p : Word} (hp : p ∈ s.pointers) : p ≠ 0#32 := by
  obtain ⟨c, hc, rfl, _⟩ := hs.record hp
  exact hs.runs.owns.payload_ne_zero hc

/-- Every entry of the table is a live process. -/
theorem entry (hs : TableInvariant s b qs rest) (i : Fin 64) :
    s.procs.processTable i = 0#32 ∨ s.procs.processTable i ∈ s.pointers := by
  cases hs.runs.table i with
  | inl hfree => exact Or.inl hfree
  | inr hused => exact Or.inr ((hs.live _).mpr hused)

/-- A table without a free slot has an entry for each of 64 processes. -/
theorem freeSlot (hs : TableInvariant s b qs rest) (h : s.procs.nextPid.toNat < 64) :
    ∃ i, s.procs.processTable i = 0#32 := by
  by_contra hnone
  have hused : ∀ i, s.procs.processTable i ≠ 0#32 := fun i hi => hnone ⟨i, hi⟩
  have hnodup : ((List.finRange 64).map s.procs.processTable).Nodup :=
    (List.nodup_finRange 64).map fun i j heq => hs.runs.once i j heq (hused i)
  have hsub : (List.finRange 64).map s.procs.processTable ⊆ s.pointers := by
    intro p hp
    obtain ⟨i, _, rfl⟩ := List.mem_map.mp hp
    exact (hs.entry i).resolve_left (hused i)
  have hle := List.Nodup.length_le_of_subset hnodup hsub
  rw [List.length_map, List.length_finRange] at hle
  exact absurd (hle.trans hs.live_length) (Nat.not_le_of_lt h)

/-- A process whose record is not written to keeps its pid. -/
theorem pid_kept (hs : TableInvariant s b qs rest) {kept : List Block} {m : Mem}
    (hk : Kept kept s.procs.heap.mem m) {p : Word × Nat} (hp : p ∈ s.live) {c : Block}
    (hc : c ∈ b :: procBlocks qs rest) (hmem : c ∈ kept) (hpc : p.1 = payload c)
    (hsize : 120 ≤ c.size) : procPid m p.1 = BitVec.ofNat 32 p.2 := by
  have hload := hs.runs.owns.load_kept hc hk hmem (k := 0) (hsize.trans' (by decide))
  rw [BitVec.add_zero, ← hpc] at hload
  exact hload.trans (hs.pid p hp)

theorem pids_kept (hs : TableInvariant s b qs rest) {m : Mem}
    (hk : Kept (b :: procBlocks qs rest) s.procs.heap.mem m) :
    ∀ p ∈ s.live, procPid m p.1 = BitVec.ofNat 32 p.2 := by
  intro p hp
  obtain ⟨c, hc, hpc, hsize⟩ := hs.record (List.mem_map_of_mem (f := Prod.fst) hp)
  exact hs.pid_kept hk hp hc hc hpc hsize

theorem idleStack_kept (hs : TableInvariant s b qs rest) {kept : List Block} {m : Mem}
    (hk : Kept kept s.procs.heap.mem m) (hmem : b ∈ kept) :
    procKernelStack m (payload b) = 0#32 :=
  (hs.runs.owns.load_kept List.mem_cons_self hk hmem (k := 104)
    (hs.runs.record.trans' (by decide))).trans hs.idleStack

/-! ### `process_create` -/

/-- A call that fails. -/
theorem notCreated (hs : TableInvariant s b qs rest) {t : Procs}
    (h : NotCreated s.procs t (b :: procBlocks qs rest)) :
    TableInvariant { s with procs := t } b qs rest := by
  have hruns := hs.runs.notCreated h
  have hstack := hs.idleStack_kept h.kept List.mem_cons_self
  have hpid := hs.pids_kept h.kept
  rw [h.rest] at hruns ⊢
  exact ⟨hruns, hs.idle, hs.idleNumber, hstack, hs.stackSizes, hs.live, hs.nodup, hs.listed, hs.bound,
    hs.pids, hs.numbers, hpid⟩

/-- A new record is not the one of a live process. -/
theorem created_fresh (hs : TableInvariant s b qs rest) {t : Procs} {r k : Block}
    {proc entryPoint : Word}
    (h : Created s.procs t (b :: procBlocks qs rest) r k proc entryPoint) : proc ∉ s.pointers := by
  intro hmem
  obtain ⟨c, hc, heq, _⟩ := hs.record hmem
  have hcr := h.owns.payload_inj
    (List.mem_cons_of_mem _ (List.mem_cons_of_mem _ hc)) (List.mem_cons_of_mem _ List.mem_cons_self)
    (heq.symm.trans h.isPayload)
  exact h.freshRecord (hcr ▸ hc)

/-- A call that succeeds: the new process gets the next pid and a slot. -/
theorem created (hs : TableInvariant s b qs rest) {t : Procs} {r k : Block} {proc entryPoint : Word}
    (h : Created s.procs t (b :: procBlocks qs rest) r k proc entryPoint)
    (hfull : ¬ MAX_PROCESSES ≤ s.procs.nextPid)
    (hpid : procPid t.heap.mem proc = s.procs.nextPid) :
    TableInvariant { s with
        procs := t
        live := (proc, s.pids.length) :: s.live
        pids := procPid t.heap.mem proc :: s.pids }
      b (⟨r, k⟩ :: qs) rest := by
  have hlt : s.procs.nextPid.toNat < 64 := Nat.lt_of_not_le hfull
  have hrest := h.rest
  have hnext : t.nextPid.toNat = s.procs.nextPid.toNat + 1 := by
    rw [hrest]
    exact toNat_add_of_lt (show s.procs.nextPid.toNat + (1#32).toNat < 2 ^ 32 by
      rw [show (1#32).toNat = 1 from rfl]
      omega)
  have htable : t.processTable = replaceFirst s.procs.processTable 0#32 proc := by rw [hrest]
  have hnew : proc ∉ s.pointers := hs.created_fresh h
  have hslot : ∀ i, s.procs.processTable i ≠ proc := by
    intro i hi
    cases hs.entry i with
    | inl hfree => exact h.nonnull (hi.symm.trans hfree)
    | inr hmem => exact hnew (hi ▸ hmem)
  obtain ⟨_, hkeeps, _⟩ := replaceFirst_add hslot hs.runs.once
  refine ⟨hs.runs.created h, hs.idle, List.mem_cons_of_mem _ hs.idleNumber,
    hs.idleStack_kept h.kept List.mem_cons_self, ?_, ?_, List.nodup_cons.mpr ⟨hnew, hs.nodup⟩, ?_,
    ?_, ?_, ?_, ?_⟩
  · intro q hq
    cases List.mem_cons.mp hq with
    | inl heq =>
      rw [heq]
      exact h.stack
    | inr hmem => exact hs.stackSizes q hmem
  · intro p
    change p ∈ proc :: s.pointers ↔ _
    rw [List.mem_cons, hs.live p, h.isPayload]
    simp only [List.mem_cons, exists_eq_or_imp]
    exact or_left_comm
  · intro p hp
    dsimp only
    rw [htable]
    cases List.mem_cons.mp hp with
    | inl heq =>
      rw [heq]
      exact exists_replaceFirst proc (hs.freeSlot hlt)
    | inr hmem => exact hkeeps p (hs.nonnull hmem) (hs.listed p hmem)
  · dsimp only
    omega
  · dsimp only
    rw [hnext, List.range_succ, List.reverse_append, List.map_append, ← hs.pids, hpid]
    change _ = BitVec.ofNat 32 s.procs.nextPid.toNat :: s.pids
    rw [BitVec.ofNat_toNat, BitVec.setWidth_eq]
  · dsimp only
    rw [hnext, List.range_succ, List.reverse_append, List.map_cons, hs.pids_length]
    exact hs.numbers.cons_cons _
  · intro p hp
    cases List.mem_cons.mp hp with
    | inl heq =>
      rw [heq]
      dsimp only
      rw [hpid, hs.pids_length, BitVec.ofNat_toNat, BitVec.setWidth_eq]
    | inr hmem => exact hs.pids_kept h.kept p hmem

/-! ### `process_terminate` -/

theorem mem_live_filter {live : List (Word × Nat)} {r p : Word} :
    p ∈ (live.filter fun x => x.1 ≠ r).map Prod.fst ↔ p ∈ live.map Prod.fst ∧ p ≠ r := by
  constructor
  · intro hp
    obtain ⟨x, hx, rfl⟩ := List.mem_map.mp hp
    obtain ⟨hx, hne⟩ := List.mem_filter.mp hx
    exact ⟨List.mem_map_of_mem hx, of_decide_eq_true hne⟩
  · rintro ⟨hp, hne⟩
    obtain ⟨x, hx, rfl⟩ := List.mem_map.mp hp
    exact List.mem_map_of_mem (List.mem_filter.mpr ⟨hx, decide_eq_true hne⟩)

/-- The blocks that stay are not the record that goes. -/
theorem payload_ne_record (hs : TableInvariant s b qs rest) {q : ProcBlocks} (hq : q ∈ qs) :
    ∀ c ∈ b :: procBlocks (qs.erase q) rest, payload c ≠ payload q.record := by
  intro c hc heq
  have hc' := (procBlocks_erase b rest hq).mem_iff.mpr hc
  have hcr := hs.runs.owns.payload_inj (List.mem_of_mem_erase (List.mem_of_mem_erase hc'))
    (List.mem_cons_of_mem _ (record_mem_procBlocks rest hq)) heq
  rw [hcr] at hc'
  exact hs.runs.owns.nodup.not_mem_erase (List.mem_of_mem_erase hc')

/-- The live processes after the termination are those of the blocks that stay. -/
theorem live_erase (hs : TableInvariant s b qs rest) {q : ProcBlocks} (hq : q ∈ qs) (p : Word) :
    p ∈ (s.live.filter fun x => x.1 ≠ payload q.record).map Prod.fst ↔
      p = payload b ∨ ∃ q' ∈ qs.erase q, p = payload q'.record := by
  have hinj := hs.payload_ne_record hq
  rw [mem_live_filter]
  change p ∈ s.pointers ∧ _ ↔ _
  rw [hs.live p]
  constructor
  · rintro ⟨hidle | ⟨q', hq', heq⟩, hne⟩
    · exact Or.inl hidle
    · have hdiff : q' ≠ q := fun h => hne (h ▸ heq)
      exact Or.inr ⟨q', (List.mem_erase_of_ne hdiff).mpr hq', heq⟩
  · rintro (hidle | ⟨q', hq', heq⟩)
    · exact ⟨Or.inl hidle, hidle ▸ hinj b List.mem_cons_self⟩
    · exact ⟨Or.inr ⟨q', List.mem_of_mem_erase hq', heq⟩,
        heq ▸ hinj q'.record (List.mem_cons_of_mem _ (record_mem_procBlocks rest hq'))⟩

/-- The termination of a live process other than the idle one. -/
theorem terminate (hs : TableInvariant s b qs rest) {q : ProcBlocks} (hq : q ∈ qs) :
    ∃ t, s.terminate (payload q.record) = some t ∧ TableInvariant t b (qs.erase q) rest ∧
      Terminates s t (b :: procBlocks qs rest) q ∧ t.procs.nextPid = s.procs.nextPid ∧
      t.procs.currentProcess = s.procs.currentProcess := by
  obtain ⟨h, hterm, hruns, hk⟩ := hs.runs.erase hq
  have hrecord : q.record ∈ b :: procBlocks qs rest :=
    List.mem_cons_of_mem _ (record_mem_procBlocks rest hq)
  have hzero : payload q.record ≠ 0#32 := hs.runs.owns.payload_ne_zero hrecord
  obtain ⟨hgone, hsame, hother⟩ := replaceFirst_remove hs.runs.once hzero
  have hstays : ∀ c ∈ b :: procBlocks (qs.erase q) rest, c ∈ b :: procBlocks qs rest :=
    fun c hc => List.mem_of_mem_erase
      (List.mem_of_mem_erase ((procBlocks_erase b rest hq).mem_iff.mpr hc))
  have hidle : s.idle ≠ payload q.record :=
    hs.idle ▸ hs.payload_ne_record hq b List.mem_cons_self
  refine ⟨_, congrArg (Option.map _) hterm, ⟨hruns, hs.idle,
    List.mem_filter.mpr ⟨hs.idleNumber, decide_eq_true hidle⟩,
    hs.idleStack_kept hk List.mem_cons_self, fun q' hq' => hs.stackSizes q' (List.mem_of_mem_erase hq'),
    hs.live_erase hq, hs.nodup.sublist (List.filter_sublist.map _), ?_, hs.bound, hs.pids,
    (List.filter_sublist.map _).trans hs.numbers, ?_⟩, ⟨?_, ?_, ?_⟩, rfl, rfl⟩
  · intro p hp
    obtain ⟨hp, hne⟩ := mem_live_filter.mp hp
    obtain ⟨i, hi⟩ := hs.listed p hp
    exact ⟨i, (hother i (hi ▸ hne)).trans hi⟩
  · intro p hp
    obtain ⟨c, hc, hpc, hsize⟩ : ∃ c ∈ b :: procBlocks (qs.erase q) rest, p.1 = payload c ∧
        120 ≤ c.size := by
      cases (hs.live_erase hq p.1).mp (List.mem_map_of_mem hp) with
      | inl hidle => exact ⟨b, List.mem_cons_self, hidle, hs.runs.record⟩
      | inr hproc =>
        obtain ⟨q', hq', heq⟩ := hproc
        exact ⟨q'.record, List.mem_cons_of_mem _ (record_mem_procBlocks rest hq'), heq,
          (hs.runs.processes q' (List.mem_of_mem_erase hq')).record⟩
    exact hs.pid_kept hk (List.mem_filter.mp hp).1 (hstays c hc) hc hpc hsize
  · intro i
    dsimp only
    split
    · next hi =>
      by_contra hne
      exact hgone i ((hsame i hne).trans hi)
    · next hi => exact hother i hi
  · obtain ⟨l, hlist, hused⟩ := hruns.owns.usedBlocks
    exact ⟨l, hlist, hused.trans (procBlocks_erase b rest hq).symm⟩
  · exact fun c hc => hk.sameOn ((procBlocks_erase b rest hq).mem_iff.mp hc)

end TableInvariant

/-! ## Whole runs -/

theorem tableInit_invariant {s : TableRun} (h : tableSystem.init s) :
    ∃ b rest, TableInvariant s b [] rest ∧ s.live = [(s.idle, 0)] := by
  obtain ⟨r, ticks, p, hr, hi, hcur, rfl⟩ := h
  obtain ⟨cs, hcs⟩ := reachable_run hr
  rcases processInit_beforeCreate hcs.heap.owns hi with hnone | ⟨b, hidle⟩
  · obtain ⟨_, _, rfl⟩ := Option.map_eq_some_iff.mp hi
    exact absurd (congrFun hnone.table 0) hcur
  · obtain ⟨⟨current, h₁⟩, _, rfl⟩ := Option.map_eq_some_iff.mp hi
    have hpb : current = payload b := hidle.current
    have hpay := hidle.owns.payload_toNat hidle.mem
    have hbd := hidle.owns.bounds hidle.mem
    have hrec := hidle.record
    have hfit : current.toNat + 120 ≤ 2 ^ 32 := by
      rw [hpb]
      omega
    obtain ⟨_, hpid, hstack⟩ := initIdle_fields (m := h₁.mem) ticks hfit
    subst hpb
    refine ⟨b, _, ⟨hidle.runs, rfl, List.mem_singleton_self _, hstack,
      fun q hq => absurd hq List.not_mem_nil, ?_, List.nodup_singleton _, ?_, ?_, ?_, ?_, ?_⟩, rfl⟩
    · intro p
      simp [TableRun.pointers]
    · intro p hp
      exact ⟨0, (List.mem_singleton.mp hp).symm⟩
    · exact show (1#32).toNat ≤ 64 by decide
    · exact congrArg (fun x => [x]) hpid
    · exact List.Sublist.refl _
    · intro p hp
      rw [List.mem_singleton.mp hp]
      exact hpid

/-- The outcomes of a call of `process_create` in a run. -/
inductive CreateCase (s : TableRun) (b : Block) (qs : List ProcBlocks) (rest : List Block) :
    Word → TableRun → Prop
  | failed {t : TableRun} : ¬ CanCreate s.procs → TableInvariant t b qs rest →
      t.pids = s.pids → CreateCase s b qs rest 0#32 t
  | created {t : TableRun} {q : ProcBlocks} : CanCreate s.procs →
      TableInvariant t b (q :: qs) rest →
      t.live = (payload q.record, s.pids.length) :: s.live →
      t.pids.length = s.pids.length + 1 → CreateCase s b qs rest (payload q.record) t

namespace TableInvariant

variable {s t : TableRun} {b : Block} {qs : List ProcBlocks} {rest : List Block}

theorem create (hs : TableInvariant s b qs rest) {name entryPoint ticks proc : Word}
    (h : s.create name entryPoint ticks = some (proc, t)) : CreateCase s b qs rest proc t := by
  obtain ⟨⟨proc', p⟩, hcall, heq⟩ := Option.map_eq_some_iff.mp h
  obtain ⟨rfl, rfl⟩ := Prod.mk.inj heq
  rcases processCreate_null_or hcall with ⟨rfl, hcannot, _⟩ | ⟨hne, hcan⟩
  · rcases processCreate_cases hs.runs.owns hcall with ⟨_, hnot⟩ | ⟨_, _, hcreated⟩
    · exact .failed hcannot (hs.notCreated hnot) rfl
    · exact absurd rfl hcreated.nonnull
  · rcases processCreate_cases hs.runs.owns hcall with ⟨hnull, _⟩ | ⟨r, k, hcreated⟩
    · exact absurd hnull hne
    · have hr : r ∈ k :: r :: b :: procBlocks qs rest := List.mem_cons_of_mem _ List.mem_cons_self
      have hpay := hcreated.owns.payload_toNat hr
      have hbd := hcreated.owns.bounds hr
      have hsize := hcreated.record
      obtain rfl : proc' = payload r := hcreated.isPayload
      have hpid := processCreate_pid hcall hne (by omega)
      rw [if_neg hne]
      exact .created (q := ⟨r, k⟩) hcan (hs.created hcreated hcan.1 hpid) rfl rfl

/-- A live process other than the idle one is one of `qs`. -/
theorem process (hs : TableInvariant s b qs rest) {p : Word} (hp : p ∈ s.pointers)
    (hne : p ≠ s.idle) : ∃ q ∈ qs, p = payload q.record :=
  ((hs.live p).mp hp).resolve_left fun h => hne (h.trans hs.idle.symm)

theorem step (hs : TableInvariant s b qs rest) {op : TableOp} (hst : TableStep s op t) :
    ∃ qs', TableInvariant t b qs' rest := by
  cases hst with
  | create h =>
    cases hs.create h with
    | failed _ hinv => exact ⟨qs, hinv⟩
    | created _ hinv => exact ⟨_, hinv⟩
  | terminate hp hne h =>
    obtain ⟨q, hq, rfl⟩ := hs.process hp hne
    obtain ⟨_, hterm, hinv, _⟩ := hs.terminate hq
    cases hterm.symm.trans h
    exact ⟨_, hinv⟩

theorem ownBlocks (hs : TableInvariant s b qs rest) : OwnBlocks s b qs rest where
  live := fun p => by rw [hs.live p, hs.idle]
  distinct := hs.runs.owns.nodup
  used := hs.runs.owns.usedBlocks
  idle := by
    rw [hs.idle]
    exact ⟨hs.runs.owns.payload_toNat List.mem_cons_self, hs.runs.record, hs.idleStack⟩
  processes := by
    intro q hq
    have hrecord := List.mem_cons_of_mem b (record_mem_procBlocks rest hq)
    have hstack := List.mem_cons_of_mem b (stack_mem_procBlocks rest hq)
    have hblocks := hs.runs.processes q hq
    have hsize : 4096 ≤ q.stack.size := hs.stackSizes q hq
    have hpay := hs.runs.owns.payload_toNat hstack
    have hbd := hs.runs.owns.bounds hstack
    have htop : (payload q.stack + KERNEL_STACK_SIZE).toNat = (payload q.stack).toNat + 4096 :=
      toNat_add_ofNat (by omega)
    refine ⟨hs.runs.owns.payload_toNat hrecord, hblocks.record, ?_, hsize⟩
    rw [hblocks.kernelStack, htop, hpay]
    rfl

end TableInvariant

theorem reachable_table {s : TableRun} (h : tableSystem.Reachable s) :
    ∃ b qs rest, TableInvariant s b qs rest := by
  refine h.invariant (P := fun s => ∃ b qs rest, TableInvariant s b qs rest) ?_ ?_
  · intro s hs
    obtain ⟨b, rest, hinv, _⟩ := tableInit_invariant hs
    exact ⟨b, [], rest, hinv⟩
  · rintro s op t _ ⟨b, qs, rest, hinv⟩ hst
    obtain ⟨qs', hinv'⟩ := hinv.step hst
    exact ⟨b, qs', rest, hinv'⟩

namespace TableInvariant

variable {s t : TableRun} {b : Block} {qs : List ProcBlocks} {rest : List Block}

/-- The pids of the live processes are among those given, in the same order. -/
theorem pids_sublist (hs : TableInvariant s b qs rest) :
    (s.pointers.map (procPid s.procs.heap.mem)).Sublist s.pids := by
  have hpids : s.pointers.map (procPid s.procs.heap.mem) =
      (s.live.map Prod.snd).map (BitVec.ofNat 32) := by
    rw [TableRun.pointers, List.map_map, List.map_map]
    exact List.map_congr_left hs.pid
  rw [hpids, hs.pids]
  exact hs.numbers.map _

theorem pids_nodup (hs : TableInvariant s b qs rest) : s.pids.Nodup := by
  have hbound := hs.bound
  rw [hs.pids]
  refine List.Nodup.map_on (fun m hm n hn heq => ?_) (List.nodup_reverse.mpr List.nodup_range)
  rw [List.mem_reverse, List.mem_range] at hm hn
  have heq' := congrArg BitVec.toNat heq
  rwa [toNat_ofNat_of_lt (by omega), toNat_ofNat_of_lt (by omega)] at heq'

theorem terminate_history (hs : TableInvariant s b qs rest) {p : Word}
    (h : s.terminate p = some t) : t.pointers = s.pointers.erase p ∧ t.pids = s.pids := by
  obtain ⟨_, _, rfl⟩ := Option.map_eq_some_iff.mp h
  refine ⟨?_, rfl⟩
  rw [hs.nodup.erase_eq_filter, TableRun.pointers, TableRun.pointers, List.filter_map]
  refine congrArg (List.map Prod.fst) (List.filter_congr fun x _ => ?_)
  rw [Function.comp_apply, bne, decide_not]
  rfl

/-! ### Numbers -/

theorem number_lt (hs : TableInvariant s b qs rest) {p : Word} {n : Nat} (hp : (p, n) ∈ s.live) :
    n < s.pids.length := by
  have hmem := hs.numbers.subset (List.mem_map_of_mem (f := Prod.snd) hp)
  rw [hs.pids_length]
  exact List.mem_range.mp (List.mem_reverse.mp hmem)

theorem pid_of_number (hs : TableInvariant s b qs rest) {p : Word} {n : Nat}
    (hp : (p, n) ∈ s.live) : procPid s.procs.heap.mem p = BitVec.ofNat 32 n :=
  hs.pid (p, n) hp

/-- The pid of a live process says which process it is. -/
theorem number_eq (hs : TableInvariant s b qs rest) {p : Word} {n m : Nat} (hp : (p, n) ∈ s.live)
    (hm : m < s.pids.length) (hpid : procPid s.procs.heap.mem p = BitVec.ofNat 32 m) : n = m := by
  have hn := hs.number_lt hp
  have hbound := hs.bound
  rw [hs.pids_length] at hn hm
  have heq := congrArg BitVec.toNat ((hs.pid_of_number hp).symm.trans hpid)
  rwa [toNat_ofNat_of_lt (by omega), toNat_ofNat_of_lt (by omega)] at heq

/-- A live process with a positive number is not the idle one. -/
theorem ne_idle (hs : TableInvariant s b qs rest) {p : Word} {n : Nat} (hp : (p, n) ∈ s.live)
    (hn : 0 < n) : p ≠ s.idle := by
  rintro rfl
  have heq := List.inj_on_of_nodup_map hs.nodup hp hs.idleNumber rfl
  rw [(Prod.mk.inj heq).2] at hn
  exact lt_irrefl 0 hn

/-- The process with the number `n` is terminated. -/
theorem terminate_number (hs : TableInvariant s b qs rest) {p : Word} {n : Nat}
    (hp : (p, n) ∈ s.live) (hn : 0 < n) :
    ∃ t, s.terminate p = some t ∧ TableStep s (.terminate p) t ∧ t.live = s.live.erase (p, n) := by
  have hmem : p ∈ s.pointers := List.mem_map_of_mem (f := Prod.fst) hp
  have hidle := hs.ne_idle hp hn
  obtain ⟨q, hq, rfl⟩ := hs.process hmem hidle
  obtain ⟨t, hterm, _⟩ := hs.terminate hq
  refine ⟨t, hterm, .terminate hmem hidle hterm, ?_⟩
  obtain ⟨_, _, rfl⟩ := Option.map_eq_some_iff.mp hterm
  rw [(List.Nodup.of_map _ hs.nodup).erase_eq_filter]
  refine List.filter_congr fun x hx => ?_
  rw [Bool.eq_iff_iff, decide_eq_true_eq, bne_iff_ne]
  refine not_congr ⟨fun hfst => ?_, fun heq => congrArg Prod.fst heq⟩
  exact List.inj_on_of_nodup_map hs.nodup hx hp hfst

end TableInvariant

/-- In every run of `process_create` and `process_terminate` from `process_init`: the
entries of the table are the live processes, each of them once; no pid is given
twice, and each live process has one of its own; each record and each stack lies in
a used block of its own; and a termination removes exactly its process and returns
exactly its two blocks. -/
theorem process_table_invariant {s : TableRun} (h : tableSystem.Reachable s) :
    s.pointers.Nodup ∧ (∀ p ∈ s.pointers, ∃! i, s.procs.processTable i = p) ∧
      (∀ i, s.procs.processTable i = 0#32 ∨ s.procs.processTable i ∈ s.pointers) ∧
      s.pids.Nodup ∧ (s.pointers.map (procPid s.procs.heap.mem)).Nodup ∧
      (∀ p ∈ s.pointers, procPid s.procs.heap.mem p ∈ s.pids) ∧
      ∃ b qs rest, OwnBlocks s b qs rest ∧
        ∀ q ∈ qs, ∃ t, s.terminate (payload q.record) = some t ∧
          t.pointers = s.pointers.erase (payload q.record) ∧ t.pids = s.pids ∧
          Terminates s t (b :: procBlocks qs rest) q := by
  obtain ⟨b, qs, rest, hs⟩ := reachable_table h
  refine ⟨hs.nodup, fun p hp => ?_, hs.entry, hs.pids_nodup, hs.pids_nodup.sublist hs.pids_sublist,
    fun p hp => hs.pids_sublist.subset (List.mem_map_of_mem hp), b, qs, rest, hs.ownBlocks,
    fun q hq => ?_⟩
  · obtain ⟨i, hi⟩ := hs.listed p hp
    exact ⟨i, hi, fun j hj => hs.runs.once j i (hj.trans hi.symm) (hj.symm ▸ hs.nonnull hp)⟩
  · obtain ⟨t, ht, _, hterm, _⟩ := hs.terminate hq
    obtain ⟨hpointers, hpids⟩ := hs.terminate_history ht
    exact ⟨t, ht, hpointers, hpids, hterm⟩

/-! ## Reuse of slots -/

def FreeSlot (s : Procs) : Prop := ∃ i, s.processTable i = 0#32

/-- The heap can satisfy the two allocations of `process_create`. -/
def HeapRoom (s : Procs) : Prop :=
  ∃ p h q h', kmalloc sizeofProcess s.heap = some (p, h) ∧ p ≠ 0#32 ∧
    kmalloc KERNEL_STACK_SIZE { h with mem := memset h.mem p 0#8 120 } = some (q, h') ∧ q ≠ 0#32

/-- With a free slot and room in the heap, `process_create` returns a process. -/
def RefillsSlots (s : TableRun) : Prop :=
  FreeSlot s.procs → HeapRoom s.procs → ∀ name entryPoint ticks,
    ∃ proc t, s.create name entryPoint ticks = some (proc, t) ∧ proc ≠ 0#32

namespace TableInvariant

variable {s t : TableRun} {b : Block} {qs : List ProcBlocks} {rest : List Block}

theorem create_total (hs : TableInvariant s b qs rest) (name entryPoint ticks : Word) :
    ∃ proc t, s.create name entryPoint ticks = some (proc, t) := by
  obtain ⟨proc, t, ht⟩ := processCreate_total hs.runs.owns name entryPoint ticks
  exact ⟨_, _, congrArg (Option.map _) ht⟩

/-- A call returns a process exactly when it has a pid left and room in the heap. -/
theorem create_ne_null (hs : TableInvariant s b qs rest) {name entryPoint ticks proc : Word}
    (h : s.create name entryPoint ticks = some (proc, t)) : proc ≠ 0#32 ↔ CanCreate s.procs := by
  cases hs.create h with
  | failed hcannot => exact iff_of_false (not_not_intro rfl) hcannot
  | @created _ q hcan hinv =>
    exact iff_of_true (hinv.nonnull ((hinv.live _).mpr (Or.inr ⟨q, List.mem_cons_self, rfl⟩))) hcan

theorem refillsSlots_iff (hs : TableInvariant s b qs rest) : RefillsSlots s ↔
    s.pids.length < MAX_PROCESSES.toNat ∨ ¬ FreeSlot s.procs ∨ ¬ HeapRoom s.procs := by
  have hpid : s.pids.length < MAX_PROCESSES.toNat ↔ ¬ MAX_PROCESSES ≤ s.procs.nextPid := by
    rw [hs.pids_length, BitVec.le_def, Nat.not_le]
  rw [hpid]
  constructor
  · intro hrefill
    by_contra hnot
    rw [not_or, not_or, not_not, not_not, not_not] at hnot
    obtain ⟨hfull, hslot, hroom⟩ := hnot
    obtain ⟨proc, t, hcall, hne⟩ := hrefill hslot hroom 0#32 0#32 0#32
    exact ((hs.create_ne_null hcall).mp hne).1 hfull
  · intro hcond hslot hroom name entryPoint ticks
    have hleft := hcond.resolve_right fun hor => hor.elim (fun h => h hslot) fun h => h hroom
    obtain ⟨proc, t, hcall⟩ := hs.create_total name entryPoint ticks
    exact ⟨proc, t, hcall, (hs.create_ne_null hcall).mpr ⟨hleft, hroom⟩⟩

end TableInvariant

/-- In every run, `process_create` refills a free slot exactly while fewer than
`MAX_PROCESSES` pids have been given (or the heap has no room, or there is no free
slot); and no run gives more pids than that. -/
theorem slots_reusable_iff {s : TableRun} (h : tableSystem.Reachable s) :
    (RefillsSlots s ↔
      s.pids.length < MAX_PROCESSES.toNat ∨ ¬ FreeSlot s.procs ∨ ¬ HeapRoom s.procs) ∧
    s.pids.length ≤ MAX_PROCESSES.toNat := by
  obtain ⟨b, qs, rest, hs⟩ := reachable_table h
  refine ⟨hs.refillsSlots_iff, ?_⟩
  rw [hs.pids_length]
  exact hs.bound

/-! ## A run that uses up the pids -/

/-- The block of the idle process on a fresh heap. -/
def idleBlock : Block := ⟨0x400000, 120, true⟩

/-- With the idle process alone the heap has room. -/
theorem idle_room {s : Procs} (ho : Owns s.heap [idleBlock]) : HeapRoom s := by
  obtain ⟨cs, hr, hperm⟩ := ho
  have hspan : span 12 cs = span 12 [⟨120, true⟩, ⟨4194160, false⟩] := by
    have hfill := hr.fills
    simp only [span]
    omega
  have hcs : cs = [⟨120, true⟩, ⟨4194160, false⟩] :=
    coalesced_ext (by decide) hr.coalesced (by simp [Coalesced]) hspan (List.perm_singleton.mp hperm)
  rw [hcs] at hr
  have hcan : CanCreate { s with nextPid := 1#32 } := boot_canCreate hr rfl
  exact hcan.2

/-- The idle process is alone, and `n` processes have been there before. -/
structure IdleAlone (s : TableRun) (n : Nat) : Prop where
  reachable : tableSystem.Reachable s
  invariant : TableInvariant s idleBlock [] []
  issued : s.pids.length = n + 1

theorem IdleAlone.freeSlot {s : TableRun} {n : Nat} (hs : IdleAlone s n) : FreeSlot s.procs := by
  by_contra hnone
  have hused : ∀ i, s.procs.processTable i = payload idleBlock := by
    intro i
    refine ((hs.invariant.runs.table i).resolve_left fun hi => hnone ⟨i, hi⟩).resolve_right ?_
    rintro ⟨q, hq, _⟩
    exact absurd hq List.not_mem_nil
  have hone := hs.invariant.runs.once 0 1 ((hused 0).trans (hused 1).symm) fun hi => hnone ⟨0, hi⟩
  exact absurd hone (by decide)

theorem IdleAlone.pointers {s : TableRun} {n : Nat} (hs : IdleAlone s n) : s.pointers = [s.idle] := by
  refine List.perm_singleton.mp ((List.perm_ext_iff_of_nodup hs.invariant.nodup
    (List.nodup_singleton _)).mpr fun p => ?_)
  rw [hs.invariant.live p, hs.invariant.idle, List.mem_singleton]
  exact or_iff_left fun ⟨_, hq, _⟩ => absurd hq List.not_mem_nil

theorem boot_idleAlone : ∃ s, IdleAlone s 0 := by
  obtain ⟨t, ht, hrep, _, hcur, _⟩ := boot
  have hinit : tableSystem.init
      ⟨t, t.currentProcess, [(t.currentProcess, 0)], [procPid t.heap.mem t.currentProcess]⟩ :=
    ⟨⟨heapInit fun _ => 0#8, []⟩, 0#32, t, .init ⟨_, rfl⟩, ht, hcur, rfl⟩
  obtain ⟨b, rest, hs, _⟩ := tableInit_invariant hinit
  obtain ⟨cs, hr, hperm⟩ := hs.runs.owns
  have hlayout : layout 12 0x400000 cs = layout 12 0x400000 [⟨120, true⟩, ⟨4194160, false⟩] :=
    hr.invariant.list.unique hrep.invariant.list
  rw [usedBlocks, hlayout] at hperm
  obtain ⟨rfl, rfl⟩ := List.cons_eq_cons.mp (List.singleton_perm.mp hperm).symm
  exact ⟨_, .init hinit, hs, rfl⟩

/-- A process is created next to the idle one. -/
theorem IdleAlone.create {s : TableRun} {n : Nat} (hs : IdleAlone s n) (hn : n < 63)
    (name entryPoint ticks : Word) :
    ∃ q t, s.create name entryPoint ticks = some (payload q.record, t) ∧ tableSystem.Reachable t ∧
      TableInvariant t idleBlock [q] [] ∧ t.live = (payload q.record, n + 1) :: s.live ∧
      t.pids.length = n + 2 := by
  have hfew : ¬ MAX_PROCESSES ≤ s.procs.nextPid := by
    rw [BitVec.le_def, ← hs.invariant.pids_length, hs.issued]
    exact Nat.not_le_of_lt (Nat.succ_lt_succ hn)
  have hcan : CanCreate s.procs := ⟨hfew, idle_room hs.invariant.runs.owns⟩
  obtain ⟨proc, t, hcall⟩ := hs.invariant.create_total name entryPoint ticks
  cases hs.invariant.create hcall with
  | failed hcannot => exact absurd hcan hcannot
  | @created _ q _ hinv hlive hlen =>
    rw [hs.issued] at hlive hlen
    exact ⟨q, t, hcall, hs.reachable.step (.create hcall), hinv, hlive, hlen⟩

/-- And terminated again. -/
theorem idleAlone_terminate {t : TableRun} {q : ProcBlocks} {n : Nat}
    (hreach : tableSystem.Reachable t) (hinv : TableInvariant t idleBlock [q] [])
    (hlen : t.pids.length = n + 2) :
    ∃ u, t.terminate (payload q.record) = some u ∧ IdleAlone u (n + 1) := by
  obtain ⟨u, hterm, hinv', _⟩ := hinv.terminate List.mem_cons_self
  rw [List.erase_cons_head] at hinv'
  have hmem : payload q.record ∈ t.pointers :=
    (hinv.live _).mpr (Or.inr ⟨q, List.mem_cons_self, rfl⟩)
  have hidle : payload q.record ≠ t.idle := by
    rw [hinv.idle]
    exact (hinv.runs.record_ne_current List.mem_cons_self).symm
  refine ⟨u, hterm, hreach.step (.terminate hmem hidle hterm), hinv', ?_⟩
  rw [(hinv.terminate_history hterm).2, hlen]

theorem exists_idleAlone (n : Nat) (hn : n ≤ 63) : ∃ s, IdleAlone s n := by
  induction n with
  | zero => exact boot_idleAlone
  | succ n ih =>
    obtain ⟨s, hs⟩ := ih (Nat.le_of_succ_le hn)
    obtain ⟨_, t, _, hreach, hinv, _, hlen⟩ := hs.create hn 0#32 0#32 0#32
    obtain ⟨u, _, hu⟩ := idleAlone_terminate hreach hinv hlen
    exact ⟨u, hu⟩

/-- The idle process and one other. -/
theorem process_table_invariant_two : ∃ s, tableSystem.Reachable s ∧ s.pointers.length = 2 ∧
    (s.pointers.map (procPid s.procs.heap.mem)).Nodup := by
  obtain ⟨s, hs⟩ := boot_idleAlone
  obtain ⟨q, t, _, hreach, hinv, hlive, _⟩ := hs.create (by decide) 0#32 0#32 0#32
  obtain ⟨_, _, _, _, hpids, _⟩ := process_table_invariant hreach
  refine ⟨t, hreach, ?_, hpids⟩
  rw [TableRun.pointers, hlive, List.map_cons, List.length_cons]
  exact congrArg (fun l => l.length + 1) hs.pointers

theorem slots_reusable_boot : ∃ s, tableSystem.Reachable s ∧ RefillsSlots s := by
  obtain ⟨s, hs⟩ := boot_idleAlone
  refine ⟨s, hs.reachable, (slots_reusable_iff hs.reachable).1.mpr (Or.inl ?_)⟩
  rw [hs.issued]
  decide

/-- After 63 processes have been created and terminated, 63 slots are free and the heap
is as it was, but `process_create` returns NULL. -/
theorem slots_not_refilled : ∃ s, tableSystem.Reachable s ∧ s.pointers = [s.idle] ∧
    FreeSlot s.procs ∧ HeapRoom s.procs ∧
    (∀ name entryPoint ticks, ∃ t, s.create name entryPoint ticks = some (0#32, t)) ∧
    ¬ RefillsSlots s := by
  obtain ⟨s, hs⟩ := exists_idleAlone 63 (le_refl 63)
  have hroom : HeapRoom s.procs := idle_room hs.invariant.runs.owns
  have hfull : MAX_PROCESSES ≤ s.procs.nextPid := by
    rw [BitVec.le_def, ← hs.invariant.pids_length, hs.issued]
    exact le_refl 64
  have hnull : ∀ name entryPoint ticks, ∃ t, s.create name entryPoint ticks = some (0#32, t) := by
    intro name entryPoint ticks
    obtain ⟨proc, t, hcall⟩ := hs.invariant.create_total name entryPoint ticks
    cases hs.invariant.create hcall with
    | failed => exact ⟨t, hcall⟩
    | created hcan => exact absurd hfull hcan.1
  refine ⟨s, hs.reachable, hs.pointers, hs.freeSlot, hroom, hnull, fun hrefill => ?_⟩
  obtain ⟨t, hcall⟩ := hnull 0#32 0#32 0#32
  obtain ⟨proc, u, hcall', hne⟩ := hrefill hs.freeSlot hroom 0#32 0#32 0#32
  cases hcall.symm.trans hcall'
  exact hne rfl

end Zenix
