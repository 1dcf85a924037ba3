import Zenix.Hal.Interrupts
import Zenix.Lib.DeviceProgram
import Zenix.Lib.InterruptController

/-!
# The interrupt controllers (kernel/hal/pic.c, kernel/hal/irq.c)

The kernel programs the two controllers through their ports, and ends each interrupt with a
command to them. The lines of the devices change between any two accesses.

A handler that is registered for a line does not access the controllers; it is a command of
its own. The gates that `irq_install` sets are in memory and not part of this file.

Results:
1. `picRemap_run`: the masks and the vectors after `pic_remap`.
2. `irqHandlerPorts_run`: `irq_handler` on the controllers is `irqHandler`.
3. `interrupt_wp`: one interrupt, from its acknowledgement to the end of `irq_handler`.
-/

namespace Zenix
open ByteMemory InterruptController

/-! ## The ports -/

inductive PortCommand where
  | outb (port : BitVec 16) (value : Byte)
  | inb (port : BitVec 16)
  /-- A call of the handler that is registered for the line. -/
  | callHandler (irq : Fin 16)

def PortCommand.Answer : PortCommand → Type
  | .inb _ => Byte
  | _ => Unit

abbrev Hal (α : Type) : Type := DeviceProgram PortCommand PortCommand.Answer α

def outb (port : BitVec 16) (value : Byte) : Hal Unit := .command (.outb port value) .done
def inb (port : BitVec 16) : Hal Byte := .command (.inb port) .done
def callIrqHandler (irq : Fin 16) : Hal Unit := .command (.callHandler irq) .done

def ioWait : Hal Unit := outb 0x80#16 0#8

/-- The controllers, and the handlers that have been called. -/
structure Platform where
  pics : Cascade
  calls : List (Fin 16)

def Platform.write (port : BitVec 16) (value : Byte) (s : Platform) : Platform :=
  if port = 0x20#16 then { s with pics.master := s.pics.master.writeCommand value }
  else if port = 0x21#16 then { s with pics.master := s.pics.master.writeData value }
  else if port = 0xA0#16 then { s with pics.slave := s.pics.slave.writeCommand value }
  else if port = 0xA1#16 then { s with pics.slave := s.pics.slave.writeData value }
  else s

/-- No other port is read here. -/
def Platform.read (port : BitVec 16) (s : Platform) : Byte :=
  if port = 0x20#16 then s.pics.master.readCommand
  else if port = 0x21#16 then s.pics.master.readData
  else if port = 0xA0#16 then s.pics.slave.readCommand
  else if port = 0xA1#16 then s.pics.slave.readData
  else 0#8

/-- The ports, and the lines of the devices. -/
def platform : Device PortCommand PortCommand.Answer Platform where
  perform
    | .outb port value, s => ((), s.write port value)
    | .inb port, s => (s.read port, s)
    | .callHandler irq, s => ((), { s with calls := s.calls ++ [irq] })
  changes := fun s t => ∃ q, Cascade.Change s.pics q ∧ t = { s with pics := q }

/-! ## The functions -/

def picRemap (offset1 offset2 : Byte) : Hal Unit := do
  let mask1 ← inb 0x21#16
  let mask2 ← inb 0xA1#16
  outb 0x20#16 0x11#8
  ioWait
  outb 0xA0#16 0x11#8
  ioWait
  outb 0x21#16 offset1
  ioWait
  outb 0xA1#16 offset2
  ioWait
  outb 0x21#16 0x04#8
  ioWait
  outb 0xA1#16 0x02#8
  ioWait
  outb 0x21#16 0x01#8
  ioWait
  outb 0xA1#16 0x01#8
  ioWait
  outb 0x21#16 mask1
  outb 0xA1#16 mask2

def picSendEoi (irq : Byte) : Hal Unit := do
  if 8 ≤ irq.toNat then outb 0xA0#16 0x20#8
  outb 0x20#16 0x20#8

def picSetMask (mask1 mask2 : Byte) : Hal Unit := do
  outb 0x21#16 mask1
  outb 0xA1#16 mask2

/-- Whether the line is in service. -/
def picGetIsr (irq : Byte) : Hal Bool :=
  if irq.toNat < 8 then do
    outb 0x20#16 0x0B#8
    let service ← inb 0x20#16
    pure (service &&& 1#8 <<< irq.toNat ≠ 0#8)
  else do
    outb 0xA0#16 0x0B#8
    let service ← inb 0xA0#16
    pure (service &&& 1#8 <<< (irq.toNat - 8) ≠ 0#8)

section Handler
variable {H : Type} (handlers : Fin 16 → Option H)

/-- `irq_handler` from the call of the handler on. -/
def irqDispatch (intNo : Word) : Hal Unit := do
  let irqNum := (intNo - 32#32).setWidth 8
  if h : irqNum.toNat < 16 then
    if (handlers ⟨irqNum.toNat, h⟩).isSome then callIrqHandler ⟨irqNum.toNat, h⟩
  picSendEoi irqNum

/-- `irq_handler`. -/
def irqHandlerPorts (intNo : Word) : Hal Unit :=
  if intNo = 39#32 then do
    let inService ← picGetIsr 7#8
    if inService = false then pure () else irqDispatch handlers intNo
  else if intNo = 47#32 then do
    let inService ← picGetIsr 15#8
    if inService = false then picSendEoi 2#8 else irqDispatch handlers intNo
  else irqDispatch handlers intNo

end Handler

/-- The port accesses of `irq_install`. It ends by enabling the interrupts. -/
def irqInstall : Hal Unit := do
  picRemap 0x20#8 0x28#8
  picSetMask 0x00#8 0x00#8

/-! ## The ports without a change of the lines -/

/-- All but the requests. -/
structure Platform.Same (s t : Platform) : Prop where
  pics : s.pics.SameProgramming t.pics
  calls : t.calls = s.calls

/-- The command does not read the requests. -/
def SeesNoRequest : PortCommand → Platform → Prop
  | .inb port, s =>
      (port = 0x20#16 → s.pics.master.readsService = true) ∧
        (port = 0xA0#16 → s.pics.slave.readsService = true)
  | _, _ => True

theorem Platform.Same.refl (s : Platform) : s.Same s := ⟨⟨.refl _, .refl _⟩, rfl⟩

theorem Platform.Same.change {s t u : Platform} (h : s.Same t) (hchange : platform.changes t u) :
    s.Same u := by
  obtain ⟨q, hq, rfl⟩ := hchange
  exact ⟨h.pics.trans hq.sameProgramming, h.calls⟩

theorem Platform.Same.write {s t : Platform} (h : s.Same t) (port : BitVec 16) (value : Byte) :
    (s.write port value).Same (t.write port value) := by
  unfold Platform.write
  split
  · exact ⟨⟨h.pics.master.writeCommand value, h.pics.slave⟩, h.calls⟩
  · split
    · exact ⟨⟨h.pics.master.writeData value, h.pics.slave⟩, h.calls⟩
    · split
      · exact ⟨⟨h.pics.master, h.pics.slave.writeCommand value⟩, h.calls⟩
      · split
        · exact ⟨⟨h.pics.master, h.pics.slave.writeData value⟩, h.calls⟩
        · exact h

theorem Platform.Same.read {s t : Platform} (h : s.Same t) {port : BitVec 16}
    (hsees : SeesNoRequest (.inb port) s) : t.read port = s.read port := by
  unfold Platform.read
  split
  · next hport => exact h.pics.master.readCommand (hsees.1 hport)
  · split
    · exact h.pics.master.mask
    · split
      · next hport => exact h.pics.slave.readCommand (hsees.2 hport)
      · split
        · exact h.pics.slave.mask
        · rfl

/-- A program that does not read the requests ends as if no line had changed. -/
theorem hal_wp {α : Type} {x : Hal α} {s t : Platform} (hst : s.Same t)
    (hx : platform.Allowed SeesNoRequest x s) :
    platform.wp x (fun a u => a = (platform.run x s).1 ∧ (platform.run x s).2.Same u) t := by
  refine Device.wp_of_run (fun _ _ _ h hchange => h.change hchange) ?_ hst hx
  intro k s t h hsees
  cases k with
  | outb port value => exact ⟨rfl, h.write port value⟩
  | inb port => exact ⟨h.read hsees, h⟩
  | callHandler irq => exact ⟨rfl, h.pics, congrArg (· ++ [irq]) h.calls⟩

/-! ## What each function does undisturbed -/

/-- A controller after the four initialisation words, and with its mask. -/
def reinitialised (offset cascade : Byte) (c : Controller) : Controller :=
  ⟨0#8, c.service, c.mask, offset &&& 0xF8#8, cascade, false, false, .ready⟩

theorem picRemap_run (offset1 offset2 : Byte) (s : Platform) :
    platform.run (picRemap offset1 offset2) s =
      ((), { s with
        pics := ⟨reinitialised offset1 4#8 s.pics.master, reinitialised offset2 2#8 s.pics.slave⟩ }) := rfl

theorem picRemap_allowed (offset1 offset2 : Byte) (s : Platform) :
    platform.Allowed SeesNoRequest (picRemap offset1 offset2) s := by
  refine ⟨⟨fun h => absurd h (by decide), fun h => absurd h (by decide)⟩,
    ⟨fun h => absurd h (by decide), fun h => absurd h (by decide)⟩, ?_⟩
  exact ⟨trivial, trivial, trivial, trivial, trivial, trivial, trivial, trivial, trivial, trivial,
    trivial, trivial, trivial, trivial, trivial, trivial, trivial, trivial, trivial⟩

/-- The controllers after `pic_send_eoi`. -/
def afterEoi (p : Cascade) (irq : Byte) : Cascade where
  master := p.master.endOfInterrupt
  slave := if 8 ≤ irq.toNat then p.slave.endOfInterrupt else p.slave

theorem picSendEoi_run (irq : Byte) (s : Platform) :
    platform.run (picSendEoi irq) s = ((), { s with pics := afterEoi s.pics irq }) ∧
      platform.Allowed SeesNoRequest (picSendEoi irq) s := by
  unfold picSendEoi afterEoi
  split
  · exact ⟨rfl, trivial, trivial, trivial⟩
  · exact ⟨rfl, trivial, trivial⟩

/-- The lines in service of the controller that has the line. -/
def serviceBit (p : Cascade) (irq : Byte) : Bool :=
  if irq.toNat < 8 then p.master.service &&& 1#8 <<< irq.toNat ≠ 0#8
  else p.slave.service &&& 1#8 <<< (irq.toNat - 8) ≠ 0#8

/-- The controllers after `pic_get_isr`. -/
def afterGetIsr (p : Cascade) (irq : Byte) : Cascade :=
  if irq.toNat < 8 then { p with master.readsService := true }
  else { p with slave.readsService := true }

theorem picGetIsr_run (irq : Byte) (s : Platform) :
    platform.run (picGetIsr irq) s =
        (serviceBit s.pics irq, { s with pics := afterGetIsr s.pics irq }) ∧
      platform.Allowed SeesNoRequest (picGetIsr irq) s := by
  unfold picGetIsr serviceBit afterGetIsr
  split
  · exact ⟨rfl, trivial, ⟨fun _ => rfl, fun h => absurd h (by decide)⟩, trivial⟩
  · exact ⟨rfl, trivial, ⟨fun h => absurd h (by decide), fun _ => rfl⟩, trivial⟩

section Handler
variable {H : Type} (handlers : Fin 16 → Option H)

/-- The call of the registered handler. -/
def handlerCall (n : Fin 16) : List (Fin 16) := if (handlers n).isSome then [n] else []

theorem irqVector_num (n : Fin 16) :
    (irqVector n - 32#32).setWidth 8 = BitVec.ofNat 8 n ∧ (BitVec.ofNat 8 n).toNat = n := by
  revert n
  decide

theorem irqDispatch_run (n : Fin 16) (s : Platform) :
    platform.run (irqDispatch handlers (irqVector n)) s =
        ((), ⟨afterEoi s.pics (BitVec.ofNat 8 n), s.calls ++ handlerCall handlers n⟩) ∧
      platform.Allowed SeesNoRequest (irqDispatch handlers (irqVector n)) s := by
  obtain ⟨hnum, hval⟩ := irqVector_num n
  have hlt : (BitVec.ofNat 8 n).toNat < 16 := by rw [hval]; exact n.isLt
  have hline : (⟨(BitVec.ofNat 8 n).toNat, hlt⟩ : Fin 16) = n := Fin.ext hval
  unfold irqDispatch handlerCall
  rw [hnum, dif_pos hlt, hline]
  split
  · obtain ⟨hrun, hallowed⟩ := picSendEoi_run (BitVec.ofNat 8 n) { s with calls := s.calls ++ [n] }
    exact ⟨hrun, trivial, hallowed⟩
  · obtain ⟨hrun, hallowed⟩ := picSendEoi_run (BitVec.ofNat 8 n) s
    rw [List.append_nil]
    exact ⟨hrun, hallowed⟩

/-- The controllers after the check for a spurious interrupt. -/
def afterCheck (p : Cascade) (n : Fin 16) : Cascade :=
  if n.val = 7 then afterGetIsr p 7#8 else if n.val = 15 then afterGetIsr p 15#8 else p

/-- `irq_handler` calls the handler and ends the interrupts that `irqHandler` says, with
what is in service as the answer of `pic_get_isr`. -/
theorem irqHandlerPorts_run (n : Fin 16) (s : Platform) :
    platform.run (irqHandlerPorts handlers (irqVector n)) s =
        ((), ⟨(irqHandler handlers (serviceBit s.pics) (irqVector n)).eoi.foldl afterEoi
            (afterCheck s.pics n),
          s.calls ++
            if (irqHandler handlers (serviceBit s.pics) (irqVector n)).handler.isSome then [n]
            else []⟩) ∧
      platform.Allowed SeesNoRequest (irqHandlerPorts handlers (irqVector n)) s := by
  have h39 : ∀ n, irqVector n = 39#32 ↔ n = 7 := by decide
  have h47 : ∀ n, irqVector n = 47#32 ↔ n = 15 := by decide
  have hseven : ∀ n : Fin 16, n.val = 7 ↔ n = 7 := by decide
  have hfifteen : ∀ n : Fin 16, n.val = 15 ↔ n = 15 := by decide
  have hne : (15 : Fin 16) ≠ 7 := by decide
  obtain ⟨hnum, hval⟩ := irqVector_num n
  have hlt : (BitVec.ofNat 8 n).toNat < 16 := by rw [hval]; exact n.isLt
  have hline : (⟨(BitVec.ofNat 8 n).toNat, hlt⟩ : Fin 16) = n := Fin.ext hval
  have hdispatch := fun s => irqDispatch_run handlers n s
  unfold irqHandlerPorts irqHandler afterCheck
  simp only [h39, h47, hseven, hfifteen, hnum, dif_pos hlt, hline]
  rcases Decidable.em (n = 7) with rfl | h7
  · obtain ⟨hrun, hallowed⟩ := picGetIsr_run 7#8 s
    simp only [if_pos, true_and]
    rw [Device.run_bind, Device.allowed_bind, hrun]
    cases hbit : serviceBit s.pics 7#8 with
    | false => exact ⟨by simp; rfl, hallowed, trivial⟩
    | true => exact ⟨(hdispatch _).1, hallowed, (hdispatch _).2⟩
  · rcases Decidable.em (n = 15) with rfl | h15
    · obtain ⟨hrun, hallowed⟩ := picGetIsr_run 15#8 s
      simp only [if_pos, true_and, if_neg hne]
      rw [Device.run_bind, Device.allowed_bind, hrun]
      cases hbit : serviceBit s.pics 15#8 with
      | false =>
        have heoi := picSendEoi_run 2#8 { s with pics := afterGetIsr s.pics 15#8 }
        exact ⟨by simpa using heoi.1, hallowed, heoi.2⟩
      | true => exact ⟨(hdispatch _).1, hallowed, (hdispatch _).2⟩
    · simp only [h7, h15, false_and, if_false]
      exact hdispatch s

theorem irqHandler_eoi (picGetIsr : Byte → Bool) (n : Fin 16) :
    (irqHandler handlers picGetIsr (irqVector n)).eoi =
      if Spurious picGetIsr n then if n = 7 then [] else [2#8] else [BitVec.ofNat 8 n] := by
  have h39 : ∀ n, irqVector n = 39#32 ↔ n = 7 := by decide
  have h47 : ∀ n, irqVector n = 47#32 ↔ n = 15 := by decide
  unfold irqHandler
  simp only [h39, h47, (irqVector_num n).1]
  split
  · next h =>
    have hspurious : Spurious picGetIsr n := Or.inl h
    rw [if_pos hspurious, if_pos h.1]
  · next h =>
    split
    · next h' =>
      have hspurious : Spurious picGetIsr n := Or.inr h'
      have hne : n ≠ 7 := by
        rw [h'.1]
        decide
      rw [if_pos hspurious, if_neg hne]
    · next h' =>
      have hreal : ¬ Spurious picGetIsr n := not_or.mpr ⟨h, h'⟩
      rw [if_neg hreal]

end Handler

/-! ## Between two interrupts -/

/-- A controller as `irq_install` leaves it. -/
structure Configured (vectorBase cascade : Byte) (c : Controller) : Prop where
  vectorBase : c.vectorBase = vectorBase
  cascade : c.cascade = cascade
  manual : c.autoEnd = false
  mask : c.mask = 0#8
  ready : c.stage = .ready

structure Programmed (p : Cascade) : Prop where
  master : Configured 0x20#8 4#8 p.master
  slave : Configured 0x28#8 2#8 p.slave

/-- And no line in service. -/
structure NothingInService (p : Cascade) : Prop extends Programmed p where
  masterService : p.master.service = 0#8
  slaveService : p.slave.service = 0#8

section Programmed
variable {vectorBase cascade : Byte} {c d : Controller} {p q : Cascade}

theorem Configured.congr (h : Configured vectorBase cascade c) (hsame : c.SameProgramming d) :
    Configured vectorBase cascade d where
  vectorBase := hsame.vectorBase.trans h.vectorBase
  cascade := hsame.cascade.trans h.cascade
  manual := hsame.autoEnd.trans h.manual
  mask := hsame.mask.trans h.mask
  ready := hsame.stage.trans h.ready

theorem Configured.take (h : Configured vectorBase cascade c) (n : Fin 8) :
    Configured vectorBase cascade (c.take n) :=
  ⟨h.vectorBase, h.cascade, h.manual, h.mask, h.ready⟩

theorem Configured.endOfInterrupt (h : Configured vectorBase cascade c) :
    Configured vectorBase cascade c.endOfInterrupt :=
  ⟨h.vectorBase, h.cascade, h.manual, h.mask, h.ready⟩

theorem NothingInService.congr (h : NothingInService p) (hsame : p.SameProgramming q) :
    NothingInService q where
  master := h.master.congr hsame.master
  slave := h.slave.congr hsame.slave
  masterService := hsame.master.service.trans h.masterService
  slaveService := hsame.slave.service.trans h.slaveService

theorem Programmed.cascaded (h : Programmed p) : p.Cascaded :=
  ⟨h.master.cascade, h.slave.cascade, h.master.manual, h.slave.manual⟩

theorem Programmed.eoi (h : Programmed p) (irq : Byte) : Programmed (afterEoi p irq) := by
  refine ⟨h.master.endOfInterrupt, ?_⟩
  unfold afterEoi
  dsimp only
  split
  · exact h.slave.endOfInterrupt
  · exact h.slave

/-- The check only selects what a command port reads. -/
theorem Programmed.check (h : Programmed p) (n : Fin 16) :
    Programmed (afterCheck p n) ∧ (afterCheck p n).master.service = p.master.service ∧
      (afterCheck p n).slave.service = p.slave.service := by
  have hmaster : Configured 0x20#8 4#8 { p.master with readsService := true } :=
    ⟨h.master.vectorBase, h.master.cascade, h.master.manual, h.master.mask, h.master.ready⟩
  have hslave : Configured 0x28#8 2#8 { p.slave with readsService := true } :=
    ⟨h.slave.vectorBase, h.slave.cascade, h.slave.manual, h.slave.mask, h.slave.ready⟩
  unfold afterCheck
  split
  · exact ⟨⟨hmaster, h.slave⟩, rfl, rfl⟩
  · split
    · exact ⟨⟨h.master, hslave⟩, rfl, rfl⟩
    · exact ⟨h, rfl, rfl⟩

end Programmed

/-! ## One interrupt -/

section Handler
variable {H : Type} (handlers : Fin 16 → Option H)

/-- The lines of an acknowledgement that have a handler. -/
def handledLines (lines : List (Fin 16)) : List (Fin 16) :=
  lines.filter fun n => (handlers n).isSome

/-- What an undisturbed `irq_handler` leads to, it leads to in any case. -/
theorem irqHandlerPorts_wp {p : Cascade} {calls calls' : List (Fin 16)} {n : Fin 16}
    (hidle : NothingInService
      ((irqHandler handlers (serviceBit p) (irqVector n)).eoi.foldl afterEoi (afterCheck p n)))
    (hcalls : calls' = calls ++
      if (irqHandler handlers (serviceBit p) (irqVector n)).handler.isSome then [n] else []) :
    platform.wp (irqHandlerPorts handlers (irqVector n))
      (fun _ t => NothingInService t.pics ∧ t.calls = calls') ⟨p, calls⟩ := by
  obtain ⟨hrun, hallowed⟩ := irqHandlerPorts_run handlers n ⟨p, calls⟩
  refine Device.wp_mono ?_ (hal_wp (.refl _) hallowed)
  rintro _ t ⟨_, hpics, hsame⟩
  rw [hrun] at hpics hsame
  exact ⟨hidle.congr hpics, hsame.trans hcalls.symm⟩

/-- A line that is in service: its handler is called, and the interrupt ended. -/
theorem irqHandlerPorts_wp_line {p : Cascade} {calls : List (Fin 16)} {n : Fin 16}
    (h : Programmed p) (hreal : ¬ Spurious (serviceBit p) n)
    (hmaster : dropFirst p.master.service = 0#8)
    (hslave : (if 8 ≤ n.val then dropFirst p.slave.service else p.slave.service) = 0#8) :
    platform.wp (irqHandlerPorts handlers (irqVector n))
      (fun _ t => NothingInService t.pics ∧ t.calls = calls ++ handledLines handlers [n])
      ⟨p, calls⟩ := by
  obtain ⟨hcheck, hmaster', hslave'⟩ := h.check n
  refine irqHandlerPorts_wp handlers ?_ ?_
  · rw [irqHandler_eoi, if_neg hreal]
    refine ⟨hcheck.eoi _, ?_, ?_⟩
    · exact (congrArg dropFirst hmaster').trans hmaster
    · rw [List.foldl_cons, List.foldl_nil, afterEoi, (irqVector_num n).2, ← hslave, ← hslave']
      split
      · rfl
      · rfl
  · rw [irqHandler_vector, if_neg hreal, handledLines, List.filter_singleton, Bool.cond_eq_ite]

theorem spurious_master {p : Cascade} {n : Fin 8} (hservice : p.master.service = line n) :
    ¬ Spurious (serviceBit p) (Cascade.masterLine n) := by
  have hbit : ∀ n, Cascade.masterLine n = 7 → line n &&& 1#8 <<< (7#8).toNat ≠ 0#8 := by decide
  have hlow : ∀ n, Cascade.masterLine n ≠ 15 := by decide
  rintro (⟨hn, hclear⟩ | ⟨hn, _⟩)
  · rw [serviceBit, if_pos (by decide), hservice] at hclear
    exact of_decide_eq_false hclear (hbit n hn)
  · exact hlow n hn

theorem spurious_slave {p : Cascade} {k : Fin 8} (hservice : p.slave.service = line k) :
    ¬ Spurious (serviceBit p) (Cascade.slaveLine k) := by
  have hbit : ∀ k, Cascade.slaveLine k = 15 → line k &&& 1#8 <<< ((15#8).toNat - 8) ≠ 0#8 := by
    decide
  have hhigh : ∀ k, Cascade.slaveLine k ≠ 7 := by decide
  rintro (⟨hk, _⟩ | ⟨hk, hclear⟩)
  · exact hhigh k hk
  · rw [serviceBit, if_neg (by decide), hservice] at hclear
    exact of_decide_eq_false hclear (hbit k hk)

/-- The processor takes an interrupt: it finds the gate of a line, and `irq_handler` calls
the handler of the line that is in service and leaves none. -/
theorem interrupt_wp {p : Cascade} (h : NothingInService p) (calls : List (Fin 16)) :
    ∃ n : Fin 16, p.acknowledge.1.setWidth 32 = irqVector n ∧
      platform.wp (irqHandlerPorts handlers (irqVector n))
        (fun _ t => NothingInService t.pics ∧
          t.calls = calls ++ handledLines handlers p.acknowledge.2.1.toList)
        ⟨p.acknowledge.2.2, calls⟩ := by
  have hmaster : ∀ n : Fin 8, (0x20#8 ||| BitVec.ofNat 8 n).setWidth 32 =
      irqVector (Cascade.masterLine n) := by decide
  have hslave : ∀ k : Fin 8, (0x28#8 ||| BitVec.ofNat 8 k).setWidth 32 =
      irqVector (Cascade.slaveLine k) := by decide
  have hlow : ∀ n : Fin 8, ¬ 8 ≤ (Cascade.masterLine n).val := by decide
  have hhigh : ∀ k : Fin 8, 8 ≤ (Cascade.slaveLine k).val := by decide
  have htake := Controller.take_service h.masterService h.master.manual
  rcases Cascade.acknowledge_cases h.toProgrammed.cascaded with
    ⟨_, heq⟩ | ⟨n, _, _, heq⟩ | ⟨_, _, heq⟩ | ⟨k, _, _, heq⟩
  · -- the request has been withdrawn: line 7 is not in service
    have hspurious : Spurious (serviceBit p) 7 := by
      refine Or.inl ⟨rfl, ?_⟩
      rw [serviceBit, if_pos (by decide), h.masterService]
      rfl
    rw [heq, h.master.vectorBase]
    refine ⟨7, rfl, irqHandlerPorts_wp handlers ?_ ?_⟩
    · rw [irqHandler_eoi, if_pos hspurious]
      obtain ⟨hcheck, hmaster', hslave'⟩ := h.toProgrammed.check 7
      exact ⟨hcheck, hmaster'.trans h.masterService, hslave'.trans h.slaveService⟩
    · rw [irqHandler_vector, if_pos hspurious]
      rfl
  · rw [heq, h.master.vectorBase]
    refine ⟨_, hmaster n, irqHandlerPorts_wp_line handlers ⟨h.master.take n, h.slave⟩
      (spurious_master (htake n)) ?_ ?_⟩
    · exact (congrArg dropFirst (htake n)).trans (Controller.dropFirst_line n)
    · rw [if_neg (hlow n)]
      exact h.slaveService
  · -- the request to the slave has been withdrawn: line 2 of the master is in service
    have hspurious : Spurious (serviceBit { p with master := p.master.take 2 }) 15 := by
      refine Or.inr ⟨rfl, ?_⟩
      rw [serviceBit, if_neg (by decide)]
      dsimp only
      rw [h.slaveService]
      rfl
    rw [heq, h.slave.vectorBase]
    refine ⟨15, rfl, irqHandlerPorts_wp handlers ?_ ?_⟩
    · rw [irqHandler_eoi, if_pos hspurious, if_neg (by decide)]
      have htaken : Programmed { p with master := p.master.take 2 } := ⟨h.master.take 2, h.slave⟩
      obtain ⟨hcheck, hmaster', hslave'⟩ := htaken.check 15
      refine ⟨hcheck.eoi _, ?_, hslave'.trans h.slaveService⟩
      exact (congrArg dropFirst (hmaster'.trans (htake 2))).trans (Controller.dropFirst_line 2)
    · rw [irqHandler_vector, if_pos hspurious]
      rfl
  · have htake' := Controller.take_service h.slaveService h.slave.manual k
    rw [heq, h.slave.vectorBase]
    refine ⟨_, hslave k, irqHandlerPorts_wp_line handlers ⟨h.master.take 2, h.slave.take k⟩
      (spurious_slave htake') ?_ ?_⟩
    · exact (congrArg dropFirst (htake 2)).trans (Controller.dropFirst_line 2)
    · rw [if_pos (hhigh k)]
      exact (congrArg dropFirst htake').trans (Controller.dropFirst_line k)

end Handler

end Zenix
