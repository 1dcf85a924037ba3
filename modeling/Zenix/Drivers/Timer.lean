import Zenix.Hal.Interrupts
import Zenix.Proc.CurrentProcess

/-!
# The timer interrupt (kernel/drivers/timer/pit.c, kernel/proc/scheduler.c)

`scheduler_init` and `timer_init` both register a handler for interrupt line 0.
The table of handlers has one slot for a line, and `kernel_main` calls
`timer_init` last.

Results:
1. `timerRun_counts`: the timer interrupts of a run advance `system_ticks` and
   charge no process.
2. `timer_accounted_iff`: both clients have accounted for the timer interrupts of
   a run exactly when there were none.
3. `first_tick_not_charged`: the first timer interrupt is not charged.
-/

namespace Zenix
open ByteMemory X86

/-! ## The two handlers -/

/-- What the table of interrupt handlers can hold. -/
inductive IrqClient where
  | schedulerTick
  | timerCallback
  /-- A handler of another line. -/
  | other (address : Word)

structure TimerState where
  procs : Procs
  systemTicks : Word
  /-- The static `ticks` of `scheduler_tick`. -/
  sliceTicks : Word
  irqHandlers : Fin 16 → Option IrqClient

def timeSlice : Word := 10#32

def timerGetTicks (s : TimerState) : Word := s.systemTicks

/-- `timer_callback`, up to the context switch of `schedule`. -/
def timerCallback (s : TimerState) : TimerState × Option (Word × Word) :=
  let s := { s with systemTicks := s.systemTicks + 1#32 }
  if s.systemTicks % 10#32 = 0#32 then
    let (procs, switch) := schedule s.procs
    ({ s with procs := procs }, switch)
  else (s, none)

/-- `scheduler_tick`, up to the context switch of `schedule`. -/
def schedulerTick (regs : Word) (s : TimerState) : TimerState × Option (Word × Word) :=
  let current := s.procs.currentProcess
  if current = 0#32 then (s, none)
  else
    let m := setCpuTime s.procs.heap.mem current (procCpuTime s.procs.heap.mem current + 1#32)
    let s := { s with procs := s.procs.withMem m, sliceTicks := s.sliceTicks + 1#32 }
    if timeSlice ≤ s.sliceTicks then
      let (procs, switch) := schedule (s.procs.withMem (memcpy m (procRegs current) regs sizeofRegisters.toNat))
      ({ s with procs := procs, sliceTicks := 0#32 }, switch)
    else (s, none)

/-- The call through the table; the handlers of other lines are not modelled. -/
def callHandler (regs : Word) (s : TimerState) :
    IrqClient → Option (TimerState × Option (Word × Word))
  | .schedulerTick => some (schedulerTick regs s)
  | .timerCallback => some (timerCallback s)
  | .other _ => none

/-! ## Initialisation -/

/-- `scheduler_init`, with the registration of its handler. -/
def TimerState.schedulerInit (s : TimerState) : TimerState :=
  { s with
    procs := Zenix.schedulerInit s.procs
    irqHandlers := irqRegisterHandler 0#8 .schedulerTick s.irqHandlers }

/-- `timer_init`, with the bytes that it sends to the ports of the timer. A
frequency of zero is a division by zero. -/
def timerInit (frequency : Word) (s : TimerState) :
    Option (TimerState × List (BitVec 16 × Byte)) :=
  if frequency = 0#32 then none
  else
    let divisor := 1193180#32 / frequency
    some ({ s with irqHandlers := irqRegisterHandler 0#8 .timerCallback s.irqHandlers },
      [(0x43#16, 0x36#8), (0x40#16, (divisor &&& 0xFF#32).setWidth 8),
        (0x40#16, ((divisor >>> 8) &&& 0xFF#32).setWidth 8)])

/-! ## Runs -/

inductive TimerEvent where
  /-- A timer interrupt, and how far it has advanced the `cpu_time` of the process
  that it interrupted. -/
  | tick (charged : Nat)
  | call (op : LifeOp)

/-- The processes after the handler of an interrupt. When `schedule` switches, the
memory is the one that `switch_context` leaves. -/
def switched (c : Machine) (ret : Word) (s : Procs) : Option (Word × Word) → Procs
  | none => s
  | some (old, new) => s.withMem (run switchContext (callSwitch c s.heap.mem old new ret)).mem

/-- How far the `cpu_time` of the current process of `s` has advanced in `t`. -/
def cpuTimeGrowth (s t : Procs) : Nat :=
  (procCpuTime t.heap.mem s.currentProcess - procCpuTime s.heap.mem s.currentProcess).toNat

/-- Timer interrupts with a current process present, in any order with calls that
keep the current process. -/
inductive TimerStep : TimerState → TimerEvent → TimerState → Prop
  | tick {s t : TimerState} {client : IrqClient} {picGetIsr : BitVec 8 → Bool} {regs ret : Word}
      {switch : Option (Word × Word)} {c : Machine} :
      s.procs.currentProcess ≠ 0#32 →
      (irqHandler s.irqHandlers picGetIsr (irqVector 0)).handler = some client →
      callHandler regs s client = some (t, switch) →
      TimerStep s (.tick (cpuTimeGrowth s.procs (switched c ret t.procs switch)))
        { t with procs := switched c ret t.procs switch }
  | unhandled {s : TimerState} {picGetIsr : BitVec 8 → Bool} :
      s.procs.currentProcess ≠ 0#32 →
      (irqHandler s.irqHandlers picGetIsr (irqVector 0)).handler = none →
      TimerStep s (.tick 0) s
  | call {s : TimerState} {op : LifeOp} {procs : Procs} : LifeStep s.procs op procs →
      SparesCurrent s.procs op → TimerStep s (.call op) { s with procs := procs }

/-- `process_init`, `scheduler_init` and `timer_init` in this order, in any state
that the heap can be in. -/
def timerSystem : TransitionSystem TimerState TimerEvent where
  init := fun s => ∃ r ticks frequency ports, ∃ s₀ : TimerState, heapSystem.Reachable r ∧
    processInit ticks r.heap = some s₀.procs ∧
    timerInit frequency s₀.schedulerInit = some (s, ports)
  step := TimerStep

/-! ## The property -/

/-- The number of timer interrupts. -/
def delivered : List TimerEvent → Nat
  | [] => 0
  | .tick _ :: l => delivered l + 1
  | .call _ :: l => delivered l

/-- The `cpu_time` that the interrupts have charged in total. -/
def charged : List TimerEvent → Nat
  | [] => 0
  | .tick n :: l => n + charged l
  | .call _ :: l => charged l

/-- Both clients have accounted for the timer interrupts between `s` and `t`. -/
def TicksAccounted (s : TimerState) (l : List TimerEvent) (t : TimerState) : Prop :=
  timerGetTicks t = timerGetTicks s + BitVec.ofNat 32 (delivered l) ∧ charged l = delivered l

/-! ## What an interrupt does -/

/-- The timer driver has the line, and there is no current process or it runs. -/
structure TimerInvariant (s : TimerState) : Prop where
  handler : s.irqHandlers 0 = some .timerCallback
  procs : s.procs.currentProcess = 0#32 ∨ ∃ b qs rest, Runs s.procs b qs rest

/-- The queueing of the current process leaves its `cpu_time` alone. -/
theorem procCpuTime_requeued (m : Mem) (p : Word) :
    procCpuTime (requeued m p) p = procCpuTime m p := by
  have hstate : ∀ (m : Mem) (v : ProcessState),
      load32 (setState m p v) (p + 112#32) = load32 m (p + 112#32) := by
    intro m v
    apply load32_store32_ne <;> bv_omega
  have hnext : ∀ m : Mem, load32 (setProcNext m p 0#32) (p + 112#32) = load32 m (p + 112#32) := by
    intro m
    apply load32_store32_ne <;> bv_omega
  unfold procCpuTime requeued
  rw [hstate, hnext, hnext, hstate]

/-- Interrupt line 0 is never spurious. -/
theorem irqHandler_zero (handlers : Fin 16 → Option IrqClient) (picGetIsr : BitVec 8 → Bool) :
    (irqHandler handlers picGetIsr (irqVector 0)).handler = handlers 0 := by
  have hreal : ¬ Spurious picGetIsr 0 := by
    rintro (⟨h, _⟩ | ⟨h, _⟩) <;> cases h
  rw [irqHandler_vector, if_neg hreal]

theorem timerCallback_spec {s t : TimerState} {switch : Option (Word × Word)}
    (hs : TimerInvariant s) (hcur : s.procs.currentProcess ≠ 0#32)
    (h : timerCallback s = (t, switch)) :
    switch = none ∧ TimerInvariant t ∧ t.systemTicks = s.systemTicks + 1#32 ∧
      cpuTimeGrowth s.procs t.procs = 0 := by
  obtain ⟨b, qs, rest, hruns⟩ := hs.procs.resolve_left hcur
  unfold timerCallback at h
  dsimp only at h
  split at h
  · obtain ⟨u, hu, hruns', hmem⟩ := hruns.schedule
    rw [hu] at h
    cases h
    refine ⟨rfl, ⟨hs.handler, Or.inr ⟨b, qs, rest, hruns'⟩⟩, rfl, ?_⟩
    unfold cpuTimeGrowth
    rw [hmem, procCpuTime_requeued, BitVec.sub_self]
    rfl
  · cases h
    refine ⟨rfl, ⟨hs.handler, hs.procs⟩, rfl, ?_⟩
    unfold cpuTimeGrowth
    rw [BitVec.sub_self]
    rfl

/-! ## Whole runs -/

theorem timerInit_invariant {s : TimerState} (h : timerSystem.init s) : TimerInvariant s := by
  obtain ⟨r, ticks, frequency, ports, s₀, hr, hi, ht⟩ := h
  unfold timerInit at ht
  split at ht
  · cases ht
  · cases ht
    refine ⟨rfl, ?_⟩
    have hlife : lifeSystem.init (Zenix.schedulerInit s₀.procs) := ⟨r, ticks, _, hr, hi, rfl⟩
    cases Decidable.em ((Zenix.schedulerInit s₀.procs).currentProcess = 0#32) with
    | inl hzero => exact Or.inl hzero
    | inr hcur =>
      obtain ⟨b, rest, hruns⟩ := lifeInit_runs hlife hcur
      exact Or.inr ⟨b, [], rest, hruns⟩

/-- What one event does to the counters. -/
theorem timerStep_spec {s t : TimerState} {e : TimerEvent} (hs : TimerInvariant s)
    (hst : TimerStep s e t) :
    TimerInvariant t ∧ t.systemTicks = s.systemTicks + BitVec.ofNat 32 (delivered [e]) ∧
      charged [e] = 0 := by
  cases hst with
  | tick hcur hhandler hcall =>
    rw [irqHandler_zero, hs.handler] at hhandler
    cases hhandler
    obtain ⟨rfl, hinv, hticks, hgrowth⟩ := timerCallback_spec hs hcur (Option.some.inj hcall)
    exact ⟨hinv, hticks, hgrowth⟩
  | unhandled hcur hhandler =>
    rw [irqHandler_zero, hs.handler] at hhandler
    cases hhandler
  | call hlife hspares =>
    refine ⟨⟨hs.handler, ?_⟩, (BitVec.add_zero _).symm, rfl⟩
    rcases hs.procs with hzero | ⟨b, qs, rest, hruns⟩
    · exact Or.inl (lifeStep_noCurrent hzero hlife)
    · obtain ⟨qs', hruns'⟩ := lifeStep_runs hruns hlife hspares
      exact Or.inr ⟨b, qs', rest, hruns'⟩

theorem delivered_cons (e : TimerEvent) (l : List TimerEvent) :
    delivered (e :: l) = delivered [e] + delivered l := by
  cases e with
  | tick n => exact Nat.add_comm _ _
  | call op => exact (Nat.zero_add _).symm

theorem charged_cons (e : TimerEvent) (l : List TimerEvent) :
    charged (e :: l) = charged [e] + charged l := by
  cases e with
  | tick n => rfl
  | call op => exact (Nat.zero_add _).symm

/-- The timer interrupts of a run advance `system_ticks` and charge no process. -/
theorem timerRun_counts {s t : TimerState} {l : List TimerEvent} (hs : TimerInvariant s)
    (hrun : timerSystem.Run s l t) :
    timerGetTicks t = timerGetTicks s + BitVec.ofNat 32 (delivered l) ∧ charged l = 0 := by
  unfold timerGetTicks
  induction hrun with
  | nil => exact ⟨(BitVec.add_zero _).symm, rfl⟩
  | @cons s t u e l hst _ ih =>
    obtain ⟨hinv, hticks, hcharged⟩ := timerStep_spec hs hst
    obtain ⟨hticks', hcharged'⟩ := ih hinv
    refine ⟨?_, ?_⟩
    · rw [delivered_cons e l, BitVec.ofNat_add, ← BitVec.add_assoc, ← hticks, hticks']
    · rw [charged_cons, hcharged, hcharged']

/-- After the initialisation order of `kernel_main`, both clients have accounted
for the timer interrupts of a run exactly when there were none: `system_ticks`
counts them all, and no process is charged for any. -/
theorem timer_accounted_iff {s t : TimerState} {l : List TimerEvent} (hinit : timerSystem.init s)
    (hrun : timerSystem.Run s l t) : TicksAccounted s l t ↔ delivered l = 0 := by
  obtain ⟨hticks, hcharged⟩ := timerRun_counts (timerInit_invariant hinit) hrun
  unfold TicksAccounted
  constructor
  · rintro ⟨_, heq⟩
    rw [← heq, hcharged]
  · intro hnone
    exact ⟨hticks, hcharged.trans hnone.symm⟩

/-! ## Right after initialisation -/

theorem boot_timer : ∃ s, timerSystem.init s ∧ s.procs.currentProcess ≠ 0#32 := by
  obtain ⟨t, ht, _, _, hcur, _⟩ := boot
  exact ⟨_, ⟨⟨heapInit fun _ => 0#8, []⟩, 0#32, 100#32, _, ⟨t, 0#32, 0#32, fun _ => none⟩,
    .init ⟨_, rfl⟩, ht, rfl⟩, hcur⟩

/-- A call of `schedule` without a timer interrupt. -/
theorem timer_accounted_schedule : ∃ s t, timerSystem.init s ∧
    timerSystem.Run s [.call (.call .schedule)] t ∧ TicksAccounted s [.call (.call .schedule)] t := by
  obtain ⟨s, hinit, hcur⟩ := boot_timer
  obtain ⟨b, qs, rest, hruns⟩ := (timerInit_invariant hinit).procs.resolve_left hcur
  obtain ⟨u, hu, _⟩ := hruns.schedule
  have hrun : timerSystem.Run s [.call (.call .schedule)] { s with procs := u } :=
    .cons (.call (.call (.schedule hu)) trivial) .nil
  exact ⟨s, _, hinit, hrun, (timer_accounted_iff hinit hrun).mpr rfl⟩

/-- The first timer interrupt: `scheduler_tick` is not called. -/
theorem first_tick_not_charged : ∃ s t, timerSystem.init s ∧ timerSystem.Run s [.tick 0] t ∧
    timerGetTicks t = timerGetTicks s + 1#32 ∧ ¬ TicksAccounted s [.tick 0] t := by
  obtain ⟨s, hinit, hcur⟩ := boot_timer
  have hinv := timerInit_invariant hinit
  have hhandler : (irqHandler s.irqHandlers (fun _ => false) (irqVector 0)).handler =
      some .timerCallback := (irqHandler_zero _ _).trans hinv.handler
  obtain ⟨hnone, _, hticks, hgrowth⟩ := timerCallback_spec hinv hcur rfl
  have hst : TimerStep s (.tick _) _ := @TimerStep.tick _ _ _ _ 0#32 0#32 _
    ⟨fun _ => 0#32, 0#32, 0#32, s.procs.heap.mem⟩ hcur hhandler rfl
  rw [hnone] at hst
  unfold switched at hst
  rw [hgrowth] at hst
  exact ⟨s, _, hinit, .cons hst .nil, hticks, fun h => absurd h.2 (by decide)⟩

end Zenix
