import Mathlib.Data.Finset.Card
import Mathlib.Data.Fintype.Basic
import Zenix.Hal.Pic
import Zenix.Lib.Transition

/-!
# The kernel among its interrupts (kernel/hal/irq.c, kernel/hal/pic.c)

`irq_install` programs the controllers and enables the interrupts. From then on the
processor takes an interrupt whenever none is being handled, also one whose request has been
withdrawn in the meantime. The gates of the lines disable the interrupts until the handler
returns.

Results:
1. `irqInstall_wp`: what `irq_install` leaves, whatever the firmware had programmed.
2. `irq_protocol`: in every run each line that is acknowledged is handled once, in order, and
   none is in service between two interrupts.
3. `irq_served`: in every state between two interrupts all that is requested can be handled.
-/

namespace Zenix
open ByteMemory InterruptController

section Runs
variable {H : Type} (handlers : Fin 16 → Option H)

/-- `rest` is what is left of `irq_install` or `irq_handler`; when there is nothing the
processor takes interrupts. `taken` records the lines that have been acknowledged. -/
structure IrqRun where
  platform : Platform
  rest : Option (Hal Unit)
  taken : List (Fin 16)

inductive IrqEvent where
  /-- A line of a device. -/
  | line
  /-- The output of the slave. -/
  | output
  /-- The next access of the kernel. -/
  | command
  /-- The end of `irq_install` or the return from the interrupt. -/
  | finish
  | interrupt
deriving DecidableEq

/-- The state after the acknowledgement, in the gate of the vector. -/
def IrqRun.acknowledged (s : IrqRun) : IrqRun where
  platform := { s.platform with pics := s.platform.pics.acknowledge.2.2 }
  rest := some (irqHandlerPorts handlers (s.platform.pics.acknowledge.1.setWidth 32))
  taken := s.taken ++ s.platform.pics.acknowledge.2.1.toList

inductive IrqStep : IrqRun → IrqEvent → IrqRun → Prop
  | line {s : IrqRun} {t : Platform} :
      platform.changes s.platform t → IrqStep s .line { s with platform := t }
  | output {s : IrqRun} : s.platform.pics.slave.pending.isSome = true →
      IrqStep s .output
        { s with platform.pics.master := s.platform.pics.master.raise 2 }
  | command {s : IrqRun} {k : PortCommand} {next : k.Answer → Hal Unit} :
      s.rest = some (.command k next) →
      IrqStep s .command
        { s with
          platform := (platform.perform k s.platform).2
          rest := some (next (platform.perform k s.platform).1) }
  | finish {s : IrqRun} : s.rest = some (.done ()) → IrqStep s .finish { s with rest := none }
  | interrupt {s : IrqRun} : s.rest = none → IrqStep s .interrupt (s.acknowledged handlers)

/-- From the start of `irq_install`, with nothing in service. -/
def irqSystem : TransitionSystem IrqRun IrqEvent where
  init := fun s => ∃ pics, pics.master.service = 0#8 ∧ pics.slave.service = 0#8 ∧
    s = ⟨⟨pics, []⟩, some irqInstall, []⟩
  step := IrqStep handlers

/-! ## The protocol -/

theorem irqInstall_run (s : Platform) :
    platform.run irqInstall s =
        ((), { s with
          pics := ⟨{ reinitialised 0x20#8 4#8 s.pics.master with mask := 0#8 },
            { reinitialised 0x28#8 2#8 s.pics.slave with mask := 0#8 }⟩ }) ∧
      platform.Allowed SeesNoRequest irqInstall s := by
  have hremap := picRemap_run 0x20#8 0x28#8 s
  unfold irqInstall
  rw [Device.run_bind, Device.allowed_bind, hremap]
  exact ⟨rfl, picRemap_allowed _ _ s, trivial, trivial, trivial⟩

/-- `irq_install`, whatever the controllers were programmed to. -/
theorem irqInstall_wp {s : Platform} (hmaster : s.pics.master.service = 0#8)
    (hslave : s.pics.slave.service = 0#8) :
    platform.wp irqInstall (fun _ t => NothingInService t.pics ∧ t.calls = s.calls) s := by
  obtain ⟨hrun, hallowed⟩ := irqInstall_run s
  have hinstalled : NothingInService (platform.run irqInstall s).2.pics := by
    rw [hrun]
    exact ⟨⟨⟨rfl, rfl, rfl, rfl, rfl⟩, rfl, rfl, rfl, rfl, rfl⟩, hmaster, hslave⟩
  refine Device.wp_mono ?_ (hal_wp (.refl s) hallowed)
  rintro _ t ⟨_, hpics, hcalls⟩
  exact ⟨hinstalled.congr hpics, hcalls.trans (by rw [hrun])⟩

/-- Between two interrupts all lines that have been taken are handled, and in the middle of
one this is where its handler leads. -/
structure IrqInvariant (s : IrqRun) : Prop where
  waiting : s.rest = none → NothingInService s.platform.pics ∧
    s.platform.calls = handledLines handlers s.taken
  running : ∀ x, s.rest = some x →
    platform.wp x (fun _ t => NothingInService t.pics ∧ t.calls = handledLines handlers s.taken)
      s.platform

variable {handlers}

theorem IrqInvariant.change {s : IrqRun} (hs : IrqInvariant handlers s) {t : Platform}
    (h : platform.changes s.platform t) : IrqInvariant handlers { s with platform := t } where
  waiting := fun hrest => by
    obtain ⟨hidle, hcalls⟩ := hs.waiting hrest
    obtain ⟨hpics, hsame⟩ := (Platform.Same.refl s.platform).change h
    exact ⟨hidle.congr hpics, hsame.trans hcalls⟩
  running := fun x hx => Device.wp_change h (hs.running x hx)

theorem IrqInvariant.interrupt {s : IrqRun} (hs : IrqInvariant handlers s) (hrest : s.rest = none) :
    IrqInvariant handlers (s.acknowledged handlers) where
  waiting := fun h => nomatch h
  running := fun x hx => by
    obtain ⟨hidle, hcalls⟩ := hs.waiting hrest
    obtain ⟨n, hvector, hwp⟩ := interrupt_wp handlers hidle s.platform.calls
    obtain rfl := Option.some.inj hx
    rw [hvector]
    refine Device.wp_mono ?_ hwp
    rintro _ t ⟨hidle', hcalls'⟩
    refine ⟨hidle', ?_⟩
    rw [hcalls', hcalls]
    exact (List.filter_append ..).symm

theorem irqStep_invariant {s t : IrqRun} {e : IrqEvent} (hs : IrqInvariant handlers s)
    (hst : IrqStep handlers s e t) : IrqInvariant handlers t := by
  cases hst with
  | line hchange => exact hs.change hchange
  | output hpending => exact hs.change ⟨_, .raiseOutput hpending, rfl⟩
  | command hrest =>
    refine ⟨(nomatch ·), fun x hx => ?_⟩
    obtain rfl := Option.some.inj hx
    exact Device.wp_step (hs.running _ hrest)
  | finish hrest =>
    have hdone := Device.wp_done (hs.running _ hrest)
    exact ⟨fun _ => hdone, fun _ => (nomatch ·)⟩
  | interrupt hrest => exact hs.interrupt hrest

theorem irq_invariant {s : IrqRun} (h : (irqSystem handlers).Reachable s) :
    IrqInvariant handlers s := by
  refine h.invariant ?_ fun _ _ _ _ hs hst => irqStep_invariant hs hst
  rintro s ⟨pics, hmaster, hslave, rfl⟩
  refine ⟨(nomatch ·), fun x hx => ?_⟩
  obtain rfl := Option.some.inj hx
  exact irqInstall_wp (s := ⟨pics, []⟩) hmaster hslave

/-- A program takes no call back. -/
theorem run_calls {α : Type} (x : Hal α) (s : Platform) :
    s.calls <+: (platform.run x s).2.calls := by
  induction x generalizing s with
  | done a => exact List.prefix_refl _
  | command k next ih =>
    refine List.IsPrefix.trans ?_ (ih (platform.perform k s).1 (platform.perform k s).2)
    cases k with
    | outb port value =>
      have hcalls : (s.write port value).calls = s.calls := by
        unfold Platform.write
        repeat' split
        all_goals rfl
      exact hcalls ▸ List.prefix_refl _
    | inb port => exact List.prefix_refl _
    | callHandler irq => exact List.prefix_append _ _

variable (handlers) in
/-- What a program of the kernel does when no line changes, as steps. -/
theorem undisturbed_run (x : Hal Unit) (s : IrqRun) (hrest : s.rest = some x) :
    ∃ events, (irqSystem handlers).Run s events
        { s with platform := (platform.run x s.platform).2, rest := none } ∧
      .line ∉ events := by
  induction x generalizing s with
  | done a => exact ⟨[.finish], .cons (.finish hrest) .nil, by simp⟩
  | command k next ih =>
    obtain ⟨events, hrun, hquiet⟩ := ih (platform.perform k s.platform).1
      { s with
        platform := (platform.perform k s.platform).2
        rest := some (next (platform.perform k s.platform).1) } rfl
    exact ⟨.command :: events, .cons (.command hrest) hrun, by simpa using hquiet⟩

/-- In every run the handlers that are called are those of the lines that have been
acknowledged, each once and in order; between two interrupts all of them, and then no line is
in service and the next interrupt is to the gate of a line. -/
theorem irq_protocol {s : IrqRun} (h : (irqSystem handlers).Reachable s) :
    s.platform.calls <+: handledLines handlers s.taken ∧
      (s.rest = none →
        s.platform.calls = handledLines handlers s.taken ∧
          NothingInService s.platform.pics ∧
          ∃ n, s.platform.pics.acknowledge.1.setWidth 32 = irqVector n) := by
  have hs := irq_invariant h
  constructor
  · cases hrest : s.rest with
    | none => exact (hs.waiting hrest).2 ▸ List.prefix_refl _
    | some x => exact (Device.wp_run (hs.running x hrest)).2 ▸ run_calls x s.platform
  · intro hrest
    obtain ⟨hidle, hcalls⟩ := hs.waiting hrest
    obtain ⟨n, hvector, _⟩ := interrupt_wp handlers hidle s.platform.calls
    exact ⟨hcalls, hidle, n, hvector⟩

/-- Controllers that have not been programmed. -/
def clearedPics : Cascade :=
  ⟨⟨0#8, 0#8, 0#8, 0#8, 0#8, false, false, .ready⟩, 0#8, 0#8, 0#8, 0#8, 0#8, false, false, .ready⟩

/-- After `irq_install`. -/
def installedRun : IrqRun := ⟨(platform.run irqInstall ⟨clearedPics, []⟩).2, none, []⟩

/-- After `irq_install`, with a key pressed. -/
def pressedRun : IrqRun :=
  { installedRun with platform.pics.master := installedRun.platform.pics.master.raise 1 }

theorem installedRun_reachable : (irqSystem handlers).Reachable installedRun := by
  have hinit : (irqSystem handlers).Reachable ⟨⟨clearedPics, []⟩, some irqInstall, []⟩ :=
    .init ⟨clearedPics, rfl, rfl, rfl⟩
  obtain ⟨events, hrun, _⟩ :=
    undisturbed_run handlers irqInstall ⟨⟨clearedPics, []⟩, some irqInstall, []⟩ rfl
  exact hinit.run hrun

theorem pressedRun_reachable : (irqSystem handlers).Reachable pressedRun :=
  installedRun_reachable.step (.line ⟨_, .raiseMaster (n := 1) (by decide), rfl⟩)

/-- The key that is pressed first is the one of line 1. -/
theorem irq_protocol_pressed :
    ∃ n, pressedRun.platform.pics.acknowledge.1.setWidth 32 = irqVector n :=
  ((@irq_protocol Unit (fun _ => some ()) pressedRun pressedRun_reachable).2 rfl).2.2

/-! ## Every request is handled -/

/-- The lines that are requested. Line 2 of the master is no line of a device. -/
def requests (p : Cascade) : Finset (Fin 16) :=
  Finset.univ.filter fun n =>
    if n.val < 8 then n.val ≠ 2 ∧ p.master.request.getLsbD n.val = true
    else p.slave.request.getLsbD (n.val - 8) = true

theorem mem_requests_master {p : Cascade} {n : Fin 8} :
    Cascade.masterLine n ∈ requests p ↔ n ≠ 2 ∧ p.master.request.getLsbD n = true := by
  have htwo : ∀ n, (Cascade.masterLine n).val = 2 ↔ n = 2 := by decide
  have hlow : (Cascade.masterLine n).val < 8 := n.isLt
  rw [requests, Finset.mem_filter, if_pos hlow, Ne, htwo]
  exact and_iff_right (Finset.mem_univ _)

theorem mem_requests_slave {p : Cascade} {k : Fin 8} :
    Cascade.slaveLine k ∈ requests p ↔ p.slave.request.getLsbD k = true := by
  have hhigh : ¬ (Cascade.slaveLine k).val < 8 := Nat.not_lt_of_le (Nat.le_add_right 8 k)
  have hval : (Cascade.slaveLine k).val - 8 = k := Nat.add_sub_cancel_left ..
  rw [requests, Finset.mem_filter, if_neg hhigh, hval]
  exact and_iff_right (Finset.mem_univ _)

/-- Each line is one of the master or of the slave. -/
theorem line_cases (m : Fin 16) :
    (∃ n, m = Cascade.masterLine n) ∨ ∃ k, m = Cascade.slaveLine k := by
  revert m
  decide

theorem withdraw_getLsbD (c : Controller) (n m : Fin 8) :
    (c.withdraw n).request.getLsbD m = true ↔ c.request.getLsbD m = true ∧ m ≠ n := by
  have hline : ∀ n m : Fin 8, (~~~line n).getLsbD m = decide (m ≠ n) := by decide
  rw [Controller.withdraw, BitVec.getLsbD_and, hline, Bool.and_eq_true, decide_eq_true_iff]

/-- Only the requests count. -/
theorem requests_congr {p q : Cascade} (hmaster : q.master.request = p.master.request)
    (hslave : q.slave.request = p.slave.request) : requests q = requests p := by
  unfold requests
  rw [hmaster, hslave]

theorem requests_take_master (p : Cascade) (n : Fin 8) :
    requests { p with master := p.master.take n } =
      (requests p).erase (Cascade.masterLine n) := by
  have hinj : ∀ n m, Cascade.masterLine n = Cascade.masterLine m ↔ n = m := by decide
  have hapart : ∀ n k, Cascade.slaveLine k ≠ Cascade.masterLine n := by decide
  ext m
  rw [Finset.mem_erase]
  rcases line_cases m with ⟨m, rfl⟩ | ⟨k, rfl⟩
  · rw [mem_requests_master, mem_requests_master, Ne, Ne, hinj]
    refine (and_congr_right fun _ => withdraw_getLsbD p.master n m).trans ?_
    tauto
  · rw [mem_requests_slave, mem_requests_slave]
    exact (and_iff_right (hapart n k)).symm

theorem requests_take_slave (p : Cascade) (k : Fin 8) :
    requests { p with slave := p.slave.take k } = (requests p).erase (Cascade.slaveLine k) := by
  have hinj : ∀ j k, Cascade.slaveLine j = Cascade.slaveLine k ↔ j = k := by decide
  have hapart : ∀ n k, Cascade.masterLine n ≠ Cascade.slaveLine k := by decide
  ext m
  rw [Finset.mem_erase]
  rcases line_cases m with ⟨n, rfl⟩ | ⟨j, rfl⟩
  · rw [mem_requests_master, mem_requests_master]
    exact (and_iff_right (hapart n k)).symm
  · rw [mem_requests_slave, mem_requests_slave, Ne, hinj]
    exact (withdraw_getLsbD p.slave k j).trans and_comm

/-- The line of the slave is no line of a device. -/
theorem requests_take_output (p : Cascade) :
    requests { p with master := p.master.take 2 } = requests p := by
  rw [requests_take_master]
  refine Finset.erase_eq_of_notMem fun hmem => ?_
  exact (mem_requests_master.mp hmem).1 rfl

theorem requests_take_both (p : Cascade) (k : Fin 8) :
    requests ⟨p.master.take 2, p.slave.take k⟩ = (requests p).erase (Cascade.slaveLine k) := by
  rw [← requests_take_output p]
  exact requests_take_slave ⟨p.master.take 2, p.slave⟩ k

/-- The end of an interrupt leaves the requests alone. -/
theorem eoi_requests (eois : List Byte) (p : Cascade) :
    (eois.foldl afterEoi p).master.request = p.master.request ∧
      (eois.foldl afterEoi p).slave.request = p.slave.request := by
  induction eois generalizing p with
  | nil => exact ⟨rfl, rfl⟩
  | cons irq eois ih =>
    obtain ⟨hmaster, hslave⟩ := ih (afterEoi p irq)
    refine ⟨hmaster, hslave.trans ?_⟩
    unfold afterEoi
    dsimp only
    split
    · rfl
    · rfl

theorem check_requests (p : Cascade) (n : Fin 16) :
    (afterCheck p n).master.request = p.master.request ∧
      (afterCheck p n).slave.request = p.slave.request := by
  unfold afterCheck
  split
  · exact ⟨rfl, rfl⟩
  · split
    · exact ⟨rfl, rfl⟩
    · exact ⟨rfl, rfl⟩

variable (handlers) in
/-- A run in which no line of a device changes leads from one state between two interrupts to
another, and the lines are taken in it. -/
structure Serves (s t : IrqRun) (lines : List (Fin 16)) : Prop where
  run : ∃ events, (irqSystem handlers).Run s events t ∧ IrqEvent.line ∉ events
  waiting : t.rest = none
  taken : t.taken = s.taken ++ lines

theorem Serves.trans {s t u : IrqRun} {lines lines' : List (Fin 16)}
    (h : Serves handlers s t lines) (h' : Serves handlers t u lines') :
    Serves handlers s u (lines ++ lines') where
  run := by
    obtain ⟨events, hrun, hquiet⟩ := h.run
    obtain ⟨events', hrun', hquiet'⟩ := h'.run
    exact ⟨events ++ events', hrun.trans hrun', by simp [hquiet, hquiet']⟩
  waiting := h'.waiting
  taken := by rw [h'.taken, h.taken, List.append_assoc]

theorem Serves.invariant {s t : IrqRun} {lines : List (Fin 16)} (h : Serves handlers s t lines)
    (hs : IrqInvariant handlers s) : IrqInvariant handlers t := by
  obtain ⟨events, hrun, _⟩ := h.run
  exact hrun.invariant hs fun _ _ _ hs hst => irqStep_invariant hs hst

/-- One interrupt, when no line changes. -/
theorem serves_interrupt {s : IrqRun} (hs : IrqInvariant handlers s) (hrest : s.rest = none) :
    ∃ t, Serves handlers s t s.platform.pics.acknowledge.2.1.toList ∧
      requests t.platform.pics = requests s.platform.pics.acknowledge.2.2 ∧
      t.platform.pics.master.request = s.platform.pics.acknowledge.2.2.master.request := by
  obtain ⟨n, hvector, _⟩ := interrupt_wp handlers (hs.waiting hrest).1 s.platform.calls
  obtain ⟨events, hrun, hquiet⟩ := undisturbed_run handlers
    (irqHandlerPorts handlers (irqVector n)) (s.acknowledged handlers)
    (by rw [IrqRun.acknowledged, hvector])
  refine ⟨_, ⟨⟨.interrupt :: events, .cons (.interrupt hrest) hrun, by simpa using hquiet⟩, rfl,
    rfl⟩, ?_⟩
  dsimp only
  rw [(irqHandlerPorts_run handlers n _).1]
  obtain ⟨hmaster, hslave⟩ := eoi_requests _ (afterCheck (s.acknowledged handlers).platform.pics n)
  obtain ⟨hmaster', hslave'⟩ := check_requests (s.acknowledged handlers).platform.pics n
  exact ⟨requests_congr (hmaster.trans hmaster') (hslave.trans hslave'), hmaster.trans hmaster'⟩

variable (handlers) in
/-- The slave passes a request on. -/
theorem serves_output {s : IrqRun} (hrest : s.rest = none)
    (h : s.platform.pics.slave.pending.isSome = true) :
    Serves handlers s { s with platform.pics.master := s.platform.pics.master.raise 2 } [] :=
  ⟨⟨[.output], .cons (.output h) .nil, by simp⟩, hrest, (List.append_nil _).symm⟩

theorem request_of_pending_none {c : Controller} (hidle : c.service = 0#8) (hmask : c.mask = 0#8)
    (h : c.pending = none) (n : Fin 8) : c.request.getLsbD n = false := by
  by_contra hset
  have hclear : c.mask.getLsbD n = false := by rw [hmask]; exact BitVec.getLsbD_zero
  have hsome := Controller.pending_isSome hidle ((Bool.not_eq_false _).mp hset) hclear
  rw [h] at hsome
  cases hsome

/-- The output of the slave is the only request. -/
theorem raise_pending {c : Controller} (hidle : c.service = 0#8) (hmask : c.mask = 0#8)
    (hclear : ∀ n : Fin 8, c.request.getLsbD n = false) : (c.raise 2).pending = some 2 := by
  have hline : ∀ n : Fin 8, (line 2).getLsbD n = true → n = 2 := by decide
  have hraised : (c.raise 2).request.getLsbD 2 = true := by
    rw [Controller.raise, BitVec.getLsbD_or]
    exact Bool.or_true _
  have hopen : (c.raise 2).mask.getLsbD (2 : Fin 8) = false := by
    rw [Controller.raise, hmask]
    rfl
  have hpending := Controller.pending_isSome (n := 2) (c := c.raise 2) hidle hraised hopen
  obtain ⟨n, hn⟩ := Option.isSome_iff_exists.mp hpending
  have hrequest := (Controller.request_of_pending hn).1
  rw [Controller.raise, BitVec.getLsbD_or, hclear n, Bool.false_or] at hrequest
  rw [hn, hline n hrequest]

theorem requests_raise_output (p : Cascade) :
    requests { p with master := p.master.raise 2 } = requests p := by
  have hline : ∀ n : Fin 8, n ≠ 2 → (line 2).getLsbD n = false := by decide
  ext m
  rcases line_cases m with ⟨n, rfl⟩ | ⟨k, rfl⟩
  · rw [mem_requests_master, mem_requests_master]
    refine and_congr_right fun hne => ?_
    rw [Controller.raise, BitVec.getLsbD_or, hline n hne, Bool.or_false]
  · rw [mem_requests_slave, mem_requests_slave]

/-- It falls with every interrupt. A request that the slave passes on costs one more. -/
def requestWeight (p : Cascade) : Nat :=
  2 * (requests p).card + if p.master.request.getLsbD 2 = true then 1 else 0

variable (handlers) in
/-- The lines are taken, and no other request is lost. -/
structure Round (s t : IrqRun) (lines : List (Fin 16)) : Prop where
  serves : Serves handlers s t lines
  nodup : lines.Nodup
  requested : ∀ m ∈ lines, m ∈ requests s.platform.pics
  left : ∀ m, m ∈ requests t.platform.pics ↔ m ∈ requests s.platform.pics ∧ m ∉ lines
  weight : requestWeight t.platform.pics < requestWeight s.platform.pics

theorem Round.single {s t : IrqRun} {m : Fin 16} (h : Serves handlers s t [m])
    (hmem : m ∈ requests s.platform.pics)
    (hleft : requests t.platform.pics = (requests s.platform.pics).erase m)
    (houtput : t.platform.pics.master.request.getLsbD 2 = true →
      s.platform.pics.master.request.getLsbD 2 = true) : Round handlers s t [m] where
  serves := h
  nodup := List.nodup_singleton m
  requested := fun j hj => List.mem_singleton.mp hj ▸ hmem
  left := fun j => by rw [hleft, Finset.mem_erase, List.mem_singleton, and_comm]
  weight := by
    have hcard := Finset.card_erase_lt_of_mem hmem
    rw [requestWeight, requestWeight, hleft]
    split
    · next hset =>
      rw [if_pos (houtput hset)]
      omega
    · omega

/-- The slave has a request and its output is on. -/
theorem round_slave {s : IrqRun} (hs : IrqInvariant handlers s) (hrest : s.rest = none)
    {k : Fin 8} (hmaster : s.platform.pics.master.pending = some 2)
    (hslave : s.platform.pics.slave.pending = some k) :
    ∃ t, Serves handlers s t [Cascade.slaveLine k] ∧
      requests t.platform.pics = (requests s.platform.pics).erase (Cascade.slaveLine k) ∧
      t.platform.pics.master.request.getLsbD 2 = false := by
  obtain ⟨t, hserves, hrequests, houtput⟩ := serves_interrupt hs hrest
  rcases Cascade.acknowledge_cases (hs.waiting hrest).1.cascaded with
    ⟨hnone, _⟩ | ⟨n, hne, hsome, _⟩ | ⟨_, hnone, _⟩ | ⟨j, _, hsome, heq⟩
  · rw [hmaster] at hnone
    cases hnone
  · exact absurd (Option.some.inj (hsome.symm.trans hmaster)) hne
  · rw [hslave] at hnone
    cases hnone
  · obtain rfl := Option.some.inj (hsome.symm.trans hslave)
    rw [heq] at hserves hrequests houtput
    refine ⟨t, hserves, hrequests.trans (requests_take_both s.platform.pics j), ?_⟩
    rw [houtput, Bool.eq_false_iff]
    exact fun hset => ((withdraw_getLsbD _ 2 2).mp hset).2 rfl

/-- While a line is requested, interrupts take one more. -/
theorem round {s : IrqRun} (hs : IrqInvariant handlers s) (hrest : s.rest = none)
    (hsome : (requests s.platform.pics).Nonempty) : ∃ t lines, Round handlers s t lines := by
  obtain ⟨hidle, _⟩ := hs.waiting hrest
  cases hmaster : s.platform.pics.master.pending with
  | none =>
    -- all that is requested is requested from the slave, whose output has yet to change
    have hclear := request_of_pending_none hidle.masterService hidle.master.mask hmaster
    obtain ⟨m, hm⟩ := hsome
    rcases line_cases m with ⟨n, rfl⟩ | ⟨j, rfl⟩
    · rw [mem_requests_master, hclear n] at hm
      exact absurd hm.2 Bool.false_ne_true
    · have hmask : s.platform.pics.slave.mask.getLsbD j = false := by
        rw [hidle.slave.mask]
        exact BitVec.getLsbD_zero
      have hpending :=
        Controller.pending_isSome hidle.slaveService (mem_requests_slave.mp hm) hmask
      obtain ⟨k, hslave⟩ := Option.isSome_iff_exists.mp hpending
      have hout := serves_output handlers hrest hpending
      have hraised := raise_pending hidle.masterService hidle.master.mask hclear
      obtain ⟨t, hserves, hleft, hbit⟩ :=
        round_slave (hout.invariant hs) hrest hraised hslave
      have hsame := requests_raise_output s.platform.pics
      refine ⟨t, _, .single (hout.trans hserves) ?_ (hleft.trans ?_) ?_⟩
      · exact mem_requests_slave.mpr (Controller.request_of_pending hslave).1
      · exact congrArg (fun lines => lines.erase (Cascade.slaveLine k)) hsame
      · rw [hbit]
        exact fun h => absurd h Bool.false_ne_true
  | some n =>
    obtain ⟨t, hserves, hrequests, houtput⟩ := serves_interrupt hs hrest
    have hrequested := Controller.request_of_pending hmaster
    rcases Cascade.acknowledge_cases hidle.cascaded with
      ⟨hnone, _⟩ | ⟨j, hne, hj, heq⟩ | ⟨htwo, hnone, heq⟩ | ⟨k, htwo, hslave, _⟩
    · rw [hmaster] at hnone
      cases hnone
    · rw [heq] at hserves hrequests houtput
      obtain rfl := Option.some.inj (hj.symm.trans hmaster)
      refine ⟨t, _, .single hserves (mem_requests_master.mpr ⟨hne, hrequested.1⟩)
        (hrequests.trans (requests_take_master _ j)) ?_⟩
      rw [houtput]
      exact fun hset => ((withdraw_getLsbD _ j 2).mp hset).1
    · rw [heq] at hserves hrequests houtput
      obtain rfl := Option.some.inj (hmaster.symm.trans htwo)
      have hsame := hrequests.trans (requests_take_output s.platform.pics)
      have hcleared : t.platform.pics.master.request.getLsbD 2 ≠ true := by
        rw [houtput]
        exact fun hset => ((withdraw_getLsbD _ 2 2).mp hset).2 rfl
      refine ⟨t, [], hserves, List.nodup_nil, fun m hm => absurd hm List.not_mem_nil, ?_, ?_⟩
      · intro m
        rw [hsame]
        exact (and_iff_left List.not_mem_nil).symm
      · have hset : s.platform.pics.master.request.getLsbD 2 = true := hrequested.1
        rw [requestWeight, requestWeight, hsame, if_neg hcleared, if_pos hset]
        exact Nat.lt_succ_self _
    · obtain ⟨t, hserves, hleft, hbit⟩ := round_slave hs hrest htwo hslave
      refine ⟨t, _, .single hserves ?_ hleft ?_⟩
      · exact mem_requests_slave.mpr (Controller.request_of_pending hslave).1
      · rw [hbit]
        exact fun h => absurd h Bool.false_ne_true

/-- In every state between two interrupts the processor can take an interrupt for each line
that is requested, once, and for no other, when no line of a device changes meanwhile. -/
theorem irq_served {s : IrqRun} (h : (irqSystem handlers).Reachable s) (hrest : s.rest = none) :
    ∃ t lines, Serves handlers s t lines ∧ lines.Nodup ∧
      (∀ m, m ∈ lines ↔ m ∈ requests s.platform.pics) ∧ requests t.platform.pics = ∅ ∧
      t.platform.calls = s.platform.calls ++ handledLines handlers lines := by
  have hserved : ∀ n (s : IrqRun), IrqInvariant handlers s → s.rest = none →
      requestWeight s.platform.pics = n →
      ∃ t lines, Serves handlers s t lines ∧ lines.Nodup ∧
        (∀ m, m ∈ lines ↔ m ∈ requests s.platform.pics) ∧ requests t.platform.pics = ∅ := by
    intro n
    induction n using Nat.strongRecOn with
    | ind n ih =>
      intro s hs hrest hn
      rcases (requests s.platform.pics).eq_empty_or_nonempty with hnone | hsome
      · refine ⟨s, [], ⟨⟨[], .nil, List.not_mem_nil⟩, hrest, (List.append_nil _).symm⟩,
          List.nodup_nil, fun m => ?_, hnone⟩
        rw [hnone]
        exact iff_of_false List.not_mem_nil (Finset.notMem_empty m)
      · obtain ⟨t, lines, hround⟩ := round hs hrest hsome
        obtain ⟨u, lines', hserves, hnodup, hmem, hempty⟩ :=
          ih _ (hn ▸ hround.weight) t (hround.serves.invariant hs) hround.serves.waiting rfl
        refine ⟨u, lines ++ lines', hround.serves.trans hserves, ?_, fun m => ?_, hempty⟩
        · refine hround.nodup.append hnodup fun m hm hm' => ?_
          exact ((hround.left m).mp ((hmem m).mp hm')).2 hm
        · rw [List.mem_append, hmem, hround.left]
          constructor
          · rintro (hm | hm)
            · exact hround.requested m hm
            · exact hm.1
          · intro hm
            cases Decidable.em (m ∈ lines) with
            | inl hin => exact Or.inl hin
            | inr hout => exact Or.inr ⟨hm, hout⟩
  have hs := irq_invariant h
  obtain ⟨t, lines, hserves, hnodup, hmem, hempty⟩ := hserved _ s hs hrest rfl
  refine ⟨t, lines, hserves, hnodup, hmem, hempty, ?_⟩
  rw [((hserves.invariant hs).waiting hserves.waiting).2, (hs.waiting hrest).2, hserves.taken]
  exact List.filter_append ..

/-- The handler of the keyboard is called for the key. -/
theorem irq_served_pressed :
    ∃ t lines, Serves (fun _ => some ()) pressedRun t lines ∧ 1 ∈ lines := by
  obtain ⟨t, lines, hserves, _, hmem, _⟩ :=
    @irq_served Unit (fun _ => some ()) pressedRun pressedRun_reachable rfl
  exact ⟨t, lines, hserves, (hmem 1).mpr (by decide)⟩

end Runs

end Zenix
