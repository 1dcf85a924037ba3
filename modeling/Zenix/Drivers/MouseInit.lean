import Zenix.Drivers.Mouse
import Zenix.Hal.Pic

/-!
# Setting up the mouse (kernel/drivers/mouse/mouse.c)

`mouse_init` sends commands to the mouse through the keyboard controller, and waits in front
of every access to its ports until the controller is ready, but not longer than for 100000
polls. The controller and the mouse do their work at any time between the accesses. Keys are
pressed meanwhile, and the mouse may be moved: their bytes come through the same port as the
answers that the driver waits for. The interrupts are enabled, so the handler of the keyboard
may take a byte that the controller has put out for the driver. The mouse has no handler yet.

Results:
1. `mouseWait_then`: a wait ends in what the controller is settling in, or it was in vain.
2. `enableMouse_then`, `mouseByte_then`: the command byte, and a byte to the mouse with its
   acknowledgement.
3. `mouse_handshake`: what the mouse and the controller are left with in every interleaving,
   unless the driver has waited in vain or read a byte that was not for it; `misread_needed`:
   the latter cannot be left out.
-/

namespace Zenix
open ByteMemory

/-! ## The controller and the mouse -/

/-- The mouse, with the bytes it has been sent and those it has to send. -/
structure Ps2Mouse where
  received : List Byte
  answers : List Byte
  expectsRate : Bool
  reporting : Bool
  rate : Byte

def Ps2Mouse.acknowledge (answer : Byte) (m : Ps2Mouse) : Ps2Mouse :=
  { m with answers := m.answers ++ [answer] }

/-- A byte from the controller. The other commands of a mouse are not used here. -/
def Ps2Mouse.receive (b : Byte) (m : Ps2Mouse) : Ps2Mouse :=
  let m := { m with received := m.received ++ [b] }
  if m.expectsRate then { m with expectsRate := false, rate := b }.acknowledge 0xFA#8
  else if b = 0xF6#8 then { m with reporting := false, rate := 100#8 }.acknowledge 0xFA#8
  else if b = 0xF4#8 then { m with reporting := true }.acknowledge 0xFA#8
  else if b = 0xF3#8 then { m with expectsRate := true }.acknowledge 0xFA#8
  else m.acknowledge 0xFE#8

theorem Ps2Mouse.receive_answers {m : Ps2Mouse} {b : Byte} (h : m.answers = [])
    (hb : m.expectsRate = true ∨ b = 0xF6#8 ∨ b = 0xF4#8 ∨ b = 0xF3#8) :
    (m.receive b).answers = [0xFA#8] := by
  obtain ⟨received, answers, expectsRate, reporting, rate⟩ := m
  obtain rfl : answers = [] := h
  cases expectsRate with
  | true => rfl
  | false =>
    rcases hb with hrate | rfl | rfl | rfl
    · cases hrate
    · rfl
    · rfl
    · rfl

/-- With its answer sent. -/
def Ps2Mouse.served (b : Byte) (m : Ps2Mouse) : Ps2Mouse := { m.receive b with answers := [] }

/-- The bytes that `mouse_init` sends. -/
theorem Ps2Mouse.served_init {m : Ps2Mouse} (h : m.expectsRate = false) :
    (((m.served 0xF6#8).served 0xF4#8).served 0xF3#8).expectsRate = true ∧
      (((m.served 0xF6#8).served 0xF4#8).served 0xF3#8).served 100#8 =
        ⟨m.received ++ [0xF6#8, 0xF4#8, 0xF3#8, 100#8], [], false, true, 100#8⟩ := by
  obtain ⟨received, answers, expectsRate, reporting, rate⟩ := m
  obtain rfl : expectsRate = false := h
  refine ⟨rfl, ?_⟩
  show Ps2Mouse.mk ((((received ++ [0xF6#8]) ++ [0xF4#8]) ++ [0xF3#8]) ++ [100#8]) _ _ _ _ = _
  simp only [List.append_assoc, List.cons_append, List.nil_append]
  rfl

/-- Where the next byte to the data port goes. -/
inductive DataTarget where
  | keyboard
  | commandByte
  | mouse
deriving DecidableEq

/-- The output buffer: whether it is full, whether the byte is from the mouse, and the byte,
which stays readable. `foreign` says where it is from: it is no answer to the driver, but the
code of a key or a byte of a movement. -/
structure Ps2Output where
  full : Bool
  aux : Bool
  data : Byte
  foreign : Bool
deriving DecidableEq

/-- The controller. `input` is what has been written to the command port (`true`) or to the
data port and is not yet taken; `overrun` says that something has been written while `input`
was full. -/
structure Ps2 where
  input : Option (Bool × Byte)
  output : Ps2Output
  target : DataTarget
  commandByte : Byte
  mouse : Ps2Mouse
  overrun : Bool

def Ps2.status (p : Ps2) : Byte :=
  (if p.output.full then 0x01#8 else 0#8) ||| (if p.input.isSome then 0x02#8 else 0#8) |||
    (if p.output.aux then 0x20#8 else 0#8)

def Ps2.write (toCommand : Bool) (value : Byte) (p : Ps2) : Ps2 :=
  { p with input := some (toCommand, value), overrun := p.overrun || p.input.isSome }

def Ps2.takeCommand (b : Byte) (p : Ps2) : Ps2 :=
  let p := { p with input := none, target := .keyboard }
  if b = 0xA8#8 then { p with commandByte := p.commandByte &&& 0xDF#8 }
  else if b = 0x20#8 then { p with output := ⟨true, false, p.commandByte, false⟩ }
  else if b = 0x60#8 then { p with target := .commandByte }
  else if b = 0xD4#8 then { p with target := .mouse }
  else p

def Ps2.takeData (b : Byte) (p : Ps2) : Ps2 :=
  let p' := { p with input := none, target := .keyboard }
  match p.target with
  | .keyboard => p'
  | .commandByte => { p' with commandByte := b }
  | .mouse => { p' with mouse := p.mouse.receive b }

def Ps2.take (p : Ps2) : Ps2 :=
  match p.input with
  | none => p
  | some (true, b) => p.takeCommand b
  | some (false, b) => p.takeData b

/-- The command byte is put out when there is room. -/
def Ps2.CanTake (p : Ps2) : Prop :=
  p.input.isSome = true ∧ (p.input = some (true, 0x20#8) → p.output.full = false)

/-- The mouse puts out its next byte. -/
def Ps2.answer (p : Ps2) : Ps2 :=
  { p with output := ⟨true, true, p.mouse.answers.headD 0#8, false⟩,
           mouse := { p.mouse with answers := p.mouse.answers.tail } }

/-- The bits of the command byte that stop the keyboard and the mouse. -/
def Ps2.keyboardStopped (p : Ps2) : Bool := p.commandByte.getLsbD 4

def Ps2.mouseStopped (p : Ps2) : Bool := p.commandByte.getLsbD 5

def Ps2.CanAnswer (p : Ps2) : Prop :=
  p.mouse.answers ≠ [] ∧ p.output.full = false ∧ p.mouseStopped = false

/-- There is something to be done for the driver. -/
def Ps2.Pending (p : Ps2) : Prop := p.CanTake ∨ p.CanAnswer

instance (p : Ps2) : Decidable p.CanTake := inferInstanceAs (Decidable (_ ∧ (_ → _)))

instance (p : Ps2) : Decidable p.CanAnswer := inferInstanceAs (Decidable (_ ∧ _ ∧ _))

instance (p : Ps2) : Decidable p.Pending := inferInstanceAs (Decidable (_ ∨ _))

/-- What happens between two accesses of the driver. -/
inductive Ps2.Change : Ps2 → Ps2 → Prop
  | take {p : Ps2} (h : p.CanTake) : Change p p.take
  | answer {p : Ps2} (h : p.CanAnswer) : Change p p.answer
  /-- A key is pressed or released. -/
  | key {p : Ps2} (code : Byte) (hempty : p.output.full = false)
      (hclock : p.keyboardStopped = false) :
      Change p { p with output := ⟨true, false, code, true⟩ }
  /-- The mouse reports a movement, byte by byte. -/
  | movement {p : Ps2} (b : Byte) (hreporting : p.mouse.reporting = true)
      (hanswers : p.mouse.answers = []) (hempty : p.output.full = false)
      (hclock : p.mouseStopped = false) :
      Change p { p with output := ⟨true, true, b, true⟩ }
  /-- `keyboard_handler` reads the data port. -/
  | keyboardHandler {p : Ps2} (hfull : p.output.full = true) (haux : p.output.aux = false)
      (hirq : p.commandByte.getLsbD 0 = true) :
      Change p { p with output := { p.output with full := false } }

/-- `polls` are the polls of the status in a row that have found something to be done; they
are not counted further when there have been too many. `misread` says that the driver has read
a byte that was not for it. -/
structure Ps2Machine where
  ctl : Ps2
  polls : Nat
  misread : Bool

def PATIENCE : Nat := 100000

/-- The controller has let a driver wait in vain. -/
def Ps2Machine.Late (s : Ps2Machine) : Prop := PATIENCE ≤ s.polls

instance (s : Ps2Machine) : Decidable s.Late := inferInstanceAs (Decidable (_ ≤ _))

/-- The driver has gone on without the answer that it has been waiting for. -/
def Ps2Machine.Lost (s : Ps2Machine) : Prop := s.Late ∨ s.misread = true

instance (s : Ps2Machine) : Decidable s.Lost := inferInstanceAs (Decidable (_ ∨ _))

def Ps2Machine.poll (s : Ps2Machine) : Ps2Machine :=
  { s with polls := if s.Late then s.polls else if s.ctl.Pending then s.polls + 1 else 0 }

def Ps2Machine.access (ctl : Ps2) (s : Ps2Machine) : Ps2Machine :=
  { s with ctl := ctl, polls := if s.Late then s.polls else 0 }

/-- The data port is read. -/
def Ps2Machine.read (s : Ps2Machine) : Ps2Machine :=
  { s.access { s.ctl with output := { s.ctl.output with full := false } } with
    misread := s.misread || s.ctl.output.foreign }

def MOUSE_PORT : BitVec 16 := 0x60#16
def MOUSE_STATUS : BitVec 16 := 0x64#16

def ps2 : Device PortCommand PortCommand.Answer Ps2Machine where
  perform
    | .outb port value, s =>
      if port = MOUSE_STATUS then ((), s.access (s.ctl.write true value))
      else if port = MOUSE_PORT then ((), s.access (s.ctl.write false value))
      else ((), s)
    | .inb port, s =>
      if port = MOUSE_STATUS then (s.ctl.status, s.poll)
      else if port = MOUSE_PORT then (s.ctl.output.data, s.read)
      else (0xFF#8, s)
    | .callHandler _, s => ((), s)
  changes := fun s t => ∃ q, Ps2.Change s.ctl q ∧ t = { s with ctl := q }

/-! ## The functions -/

def MOUSE_ABIT : Byte := 0x02#8
def MOUSE_WRITE : Byte := 0xD4#8

/-- `while (timeout--)`. -/
def mouseWaitLoop (ready : Byte → Bool) : Nat → Hal Unit
  | 0 => pure ()
  | left + 1 => do
    let status ← inb MOUSE_STATUS
    if ready status then pure () else mouseWaitLoop ready left

def mouseWait (type : Byte) : Hal Unit :=
  if type = 0#8 then mouseWaitLoop (fun status => status &&& MOUSE_BBIT == 1#8) PATIENCE
  else mouseWaitLoop (fun status => status &&& MOUSE_ABIT == 0#8) PATIENCE

def mouseWrite (data : Byte) : Hal Unit := do
  mouseWait 1#8
  outb MOUSE_STATUS MOUSE_WRITE
  mouseWait 1#8
  outb MOUSE_PORT data

def mouseRead : Hal Byte := do
  mouseWait 0#8
  inb MOUSE_PORT

/-- `mouse_init`, with the statics of the driver and the table of the handlers. -/
def mouseInit {H : Type} (mouseHandler : H) (s : Mouse) (handlers : Fin 16 → Option H) :
    Hal (Mouse × (Fin 16 → Option H)) := do
  mouseWait 1#8
  outb MOUSE_STATUS 0xA8#8
  mouseWait 1#8
  outb MOUSE_STATUS 0x20#8
  mouseWait 0#8
  let status ← inb MOUSE_PORT
  let status := status ||| 2#8
  mouseWait 1#8
  outb MOUSE_STATUS 0x60#8
  mouseWait 1#8
  outb MOUSE_PORT status
  mouseWrite 0xF6#8
  let _ ← mouseRead
  mouseWrite 0xF4#8
  let _ ← mouseRead
  mouseWrite 0xF3#8
  let _ ← mouseRead
  mouseWrite 100#8
  let _ ← mouseRead
  let handlers := irqRegisterHandler 12#8 mouseHandler handlers
  pure ({ s with mousePacketCount := 0#32, mouseErrorCount := 0#32 }, handlers)

/-! ## Waiting -/

/-- What happens on its own keeps the property. -/
def Closed (I : Ps2 → Prop) : Prop := ∀ p q, I p → p.Change q → I q

/-- The property holds, or the driver is lost. -/
def Unless (I : Ps2 → Prop) (s : Ps2Machine) : Prop := s.Lost ∨ I s.ctl

theorem Closed.stable {I : Ps2 → Prop} (hI : Closed I) : ps2.Stable (Unless I) := by
  rintro s t hs ⟨q, hchange, rfl⟩
  exact hs.imp id fun h => hI _ _ h hchange

theorem Ps2Machine.Late.access {s : Ps2Machine} (h : s.Late) (ctl : Ps2) :
    (s.access ctl).Late := by
  show PATIENCE ≤ if s.Late then s.polls else 0
  rw [if_pos h]
  exact h

theorem Ps2Machine.Lost.access {s : Ps2Machine} (h : s.Lost) (ctl : Ps2) :
    (s.access ctl).Lost :=
  h.imp (fun hlate => hlate.access ctl) id

theorem Ps2Machine.Lost.poll {s : Ps2Machine} (h : s.Lost) : s.poll.Lost := by
  refine h.imp (fun hlate => ?_) id
  show PATIENCE ≤ if s.Late then s.polls else _
  rw [if_pos hlate]
  exact hlate

theorem Ps2Machine.Lost.read {s : Ps2Machine} (h : s.Lost) : s.read.Lost :=
  h.imp (fun hlate => hlate.access s.ctl) fun hmisread => by
    show (s.misread || s.ctl.output.foreign) = true
    rw [hmisread, Bool.true_or]

theorem Ps2Machine.Lost.perform {s : Ps2Machine} (h : s.Lost) (k : PortCommand) :
    (ps2.perform k s).2.Lost := by
  cases k with
  | outb port value =>
    dsimp only [ps2]
    split_ifs
    · exact h.access _
    · exact h.access _
    · exact h
  | inb port =>
    dsimp only [ps2]
    split_ifs
    · exact h.poll
    · exact h.read
    · exact h
  | callHandler irq => exact h

/-- Nothing is claimed of a driver that is lost. -/
theorem lost_wp {α : Type} {x : Hal α} {Q : α → Ps2Machine → Prop} {s : Ps2Machine} (h : s.Lost)
    (hQ : ∀ a t, t.Lost → Q a t) : ps2.wp x Q s := by
  refine Device.wp_mono hQ (Device.wp_kept ?_ (fun k t ht => ht.perform k) h)
  rintro t _ ht ⟨q, _, rfl⟩
  exact ht

/-- Whatever happens in `S`, the wait goes on with something to be done until `K` holds. -/
structure Settles (W S K : Ps2 → Prop) : Prop where
  kept : Closed S
  closed : Closed K
  settled : ∀ p, S p → K p ∨ (W p ∧ p.Pending)

theorem mouseWaitLoop_wp {ready : Byte → Bool} {W S K : Ps2 → Prop} (h : Settles W S K)
    (hready : ∀ p, ready p.status = true → ¬ W p) (left : Nat) {s : Ps2Machine}
    (hs : Unless K s ∨ (S s.ctl ∧ PATIENCE ≤ s.polls + left)) :
    ps2.wp (mouseWaitLoop ready left) (fun _ => Unless K) s := by
  induction left generalizing s with
  | zero =>
    have hend : Unless K s := hs.elim id fun hlate => Or.inl (Or.inl hlate.2)
    exact Device.wp_pure h.closed.stable hend fun t ht => ht
  | succ left ih =>
    refine Device.wp_command
      (I := fun s => Unless K s ∨ (S s.ctl ∧ PATIENCE ≤ s.polls + (left + 1))) ?_ hs ?_
    · rintro t u ht ⟨q, hchange, rfl⟩
      exact ht.imp (fun ht => h.closed.stable _ _ ht ⟨q, hchange, rfl⟩)
        (And.imp_left fun hS => h.kept _ q hS hchange)
    · intro t ht
      show ps2.wp (if ready t.ctl.status then pure () else mouseWaitLoop ready left) _ t.poll
      -- a poll that finds nothing settled has found something to be done
      have hpoll : Unless K t.poll ∨
          (S t.ctl ∧ W t.ctl ∧ PATIENCE ≤ t.poll.polls + left) := by
        rcases ht with (hlost | hK) | ⟨hS, hpatience⟩
        · exact Or.inl (Or.inl hlost.poll)
        · exact Or.inl (Or.inr hK)
        · rcases h.settled _ hS with hK | ⟨hwaits, hpending⟩
          · exact Or.inl (Or.inr hK)
          · refine Or.inr ⟨hS, hwaits, ?_⟩
            rw [Ps2Machine.poll]
            split_ifs
            · exact Nat.le_add_right_of_le ‹_›
            · show PATIENCE ≤ t.polls + 1 + left
              omega
      split
      next hstatus =>
        refine Device.wp_pure h.closed.stable ?_ fun u hu => hu
        exact hpoll.elim id fun hwaits => absurd hwaits.2.1 (hready _ hstatus)
      next => exact ih (hpoll.imp id fun hwaits => ⟨hwaits.1, hwaits.2.2⟩)

theorem status_full (p : Ps2) : (p.status &&& MOUSE_BBIT == 1#8) = p.output.full := by
  unfold Ps2.status
  cases p.output.full <;> cases p.output.aux <;> cases p.input.isSome <;> rfl

theorem status_free (p : Ps2) : (p.status &&& MOUSE_ABIT == 0#8) = !p.input.isSome := by
  unfold Ps2.status
  cases p.output.full <;> cases p.output.aux <;> cases p.input.isSome <;> rfl

/-- `mouse_wait` goes on. -/
def Waits (type : Byte) (p : Ps2) : Prop :=
  if type = 0#8 then p.output.full = false else p.input.isSome = true

theorem mouseWait_then {α : Type} {type : Byte} {k : Unit → Hal α} {S K : Ps2 → Prop}
    {Q : α → Ps2Machine → Prop} {s : Ps2Machine} (h : Settles (Waits type) S K)
    (hs : Unless S s) (hrest : ∀ t, Unless K t → ps2.wp (k ()) Q t) :
    ps2.wp (mouseWait type >>= k) Q s := by
  have hloop : ∀ ready : Byte → Bool, (∀ p, ready p.status = true → ¬ Waits type p) →
      ps2.wp (mouseWaitLoop ready PATIENCE >>= k) Q s := fun ready hready => by
    refine Device.wp_bind.mpr (Device.wp_mono (fun _ t ht => hrest t ht)
      (mouseWaitLoop_wp h hready PATIENCE ?_))
    rcases hs with hlost | hS
    · exact Or.inl (Or.inl hlost)
    · exact Or.inr ⟨hS, Nat.le_add_left _ _⟩
  unfold mouseWait
  split
  next htype =>
    refine hloop _ fun p hready => ?_
    rw [status_full] at hready
    rw [Waits, if_pos htype, hready]
    exact Bool.noConfusion
  next htype =>
    refine hloop _ fun p hready => ?_
    rw [status_free] at hready
    rw [Waits, if_neg htype]
    cases hinput : p.input.isSome with
    | false => exact Bool.noConfusion
    | true => rw [hinput] at hready; cases hready

/-! ## Accesses -/

section Accesses
variable {α : Type} {Q : α → Ps2Machine → Prop} {s : Ps2Machine} {K J : Ps2 → Prop}

theorem outb_then {toCommand : Bool} {port : BitVec 16} {value : Byte} {k : Unit → Hal α}
    (hport : port = if toCommand then MOUSE_STATUS else MOUSE_PORT) (hK : Closed K)
    (hs : Unless K s) (hJ : ∀ p, K p → J (p.write toCommand value))
    (hrest : ∀ t, Unless J t → ps2.wp (k ()) Q t) : ps2.wp (outb port value >>= k) Q s := by
  refine Device.wp_command hK.stable hs fun t ht => ?_
  have hwritten : Unless J (t.access (t.ctl.write toCommand value)) :=
    ht.imp (fun hlost => hlost.access _) (hJ t.ctl)
  subst hport
  cases toCommand with
  | true => exact hrest _ hwritten
  | false => exact hrest _ hwritten

/-- The driver reads `b`, or a byte that is not for it. -/
theorem inb_then {b : Byte} {k : Byte → Hal α} (hQ : ∀ a t, t.Lost → Q a t) (hK : Closed K)
    (hs : Unless K s)
    (hread : ∀ p, K p → p.output.foreign = true ∨
      (p.output.data = b ∧ J { p with output := { p.output with full := false } }))
    (hrest : ∀ t, Unless J t → ps2.wp (k b) Q t) : ps2.wp (inb MOUSE_PORT >>= k) Q s := by
  refine Device.wp_command hK.stable hs fun t ht => ?_
  show ps2.wp (k t.ctl.output.data) Q t.read
  rcases ht with hlost | hk
  · exact lost_wp hlost.read hQ
  · rcases hread _ hk with hforeign | ⟨hb, hJ⟩
    · refine lost_wp (Or.inr ?_) hQ
      show (t.misread || t.ctl.output.foreign) = true
      rw [hforeign, Bool.or_true]
    · rw [hb]
      exact hrest _ (Or.inr hJ)

end Accesses

/-! ## The output -/

/-- What has been put out is not for the driver. -/
def Ps2Output.Quiet (o : Ps2Output) : Prop := o.full = true → o.foreign = true

theorem Ps2Output.Quiet.cases {o : Ps2Output} (h : o.Quiet) :
    o.foreign = true ∨ o.full = false := by
  cases hfull : o.full with
  | false => exact Or.inr rfl
  | true => exact Or.inl (h hfull)

/-- Neither a key, nor a movement, nor the handler of the keyboard affects the property. -/
def Lasting (I : Ps2Output → Prop) : Prop :=
  ∀ o o' : Ps2Output, I o → o'.foreign = true ∨ o' = { o with full := false } → I o'

theorem lasting_quiet : Lasting Ps2Output.Quiet := by
  rintro o o' _ (hforeign | rfl)
  · exact fun _ => hforeign
  · exact nofun

theorem lasting_foreign : Lasting (·.foreign = true) := by
  rintro o o' h (hforeign | rfl)
  · exact hforeign
  · exact h

/-- The byte is the only one for the driver that has been put out. -/
theorem lasting_data (b : Byte) : Lasting fun o => o.foreign = true ∨ o.data = b := by
  rintro o o' h (hforeign | rfl)
  · exact Or.inl hforeign
  · exact h

/-- The controller is as in `d`, with what the property says in the output. -/
def Ps2.WithOutput (d : Ps2) (I : Ps2Output → Prop) (p : Ps2) : Prop :=
  ∃ o, I o ∧ p = { d with output := o }

/-- What a change can be. -/
theorem Ps2.Change.cases {p q : Ps2} (h : p.Change q) :
    (p.CanTake ∧ q = p.take) ∨ (p.CanAnswer ∧ q = p.answer) ∨
      ∃ o, q = { p with output := o } ∧
        (o.foreign = true ∨ o = { p.output with full := false }) := by
  cases h with
  | take h => exact Or.inl ⟨h, rfl⟩
  | answer h => exact Or.inr (Or.inl ⟨h, rfl⟩)
  | key code => exact Or.inr (Or.inr ⟨_, rfl, Or.inl rfl⟩)
  | movement b => exact Or.inr (Or.inr ⟨_, rfl, Or.inl rfl⟩)
  | keyboardHandler => exact Or.inr (Or.inr ⟨_, rfl, Or.inr rfl⟩)

theorem Ps2.WithOutput.change {d : Ps2} {I : Ps2Output → Prop} (hI : Lasting I) {p q : Ps2}
    (h : d.WithOutput I p) (hchange : p.Change q) :
    d.WithOutput I q ∨ (p.CanTake ∧ q = p.take) ∨ (p.CanAnswer ∧ q = p.answer) := by
  obtain ⟨o, ho, rfl⟩ := h
  obtain htake | hanswer | ⟨o', rfl, ho'⟩ := hchange.cases
  · exact Or.inr (Or.inl htake)
  · exact Or.inr (Or.inr hanswer)
  · exact Or.inl ⟨o', hI o o' ho ho', rfl⟩

theorem Ps2.WithOutput.not_canTake {d p : Ps2} {I : Ps2Output → Prop} (h : d.WithOutput I p)
    (hinput : d.input = none) : ¬ p.CanTake := by
  obtain ⟨o, _, rfl⟩ := h
  exact fun htake => absurd (hinput ▸ htake.1) Bool.noConfusion

theorem Ps2.WithOutput.not_canAnswer {d p : Ps2} {I : Ps2Output → Prop} (h : d.WithOutput I p)
    (hanswers : d.mouse.answers = []) : ¬ p.CanAnswer := by
  obtain ⟨o, _, rfl⟩ := h
  exact fun hanswer => hanswer.1 hanswers

/-! ## The controller at rest -/

/-- All that has been written is taken, and all that has been put out for the driver is
read. -/
structure Ps2.Idle (p : Ps2) : Prop where
  input : p.input = none
  answers : p.mouse.answers = []
  overrun : p.overrun = false
  quiet : p.output.Quiet

/-- As in `d`, but for keys and movements. -/
def Ps2.Rest (d p : Ps2) : Prop := d.WithOutput Ps2Output.Quiet p

theorem Ps2.Idle.rest {d : Ps2} (h : d.Idle) : d.Rest d := ⟨d.output, h.quiet, rfl⟩

theorem Ps2.Idle.closed {d : Ps2} (h : d.Idle) : Closed d.Rest := by
  intro p q hp hchange
  obtain hrest | ⟨htake, _⟩ | ⟨hanswer, _⟩ := hp.change lasting_quiet hchange
  · exact hrest
  · exact absurd htake (hp.not_canTake h.input)
  · exact absurd hanswer (hp.not_canAnswer h.answers)

theorem Ps2.Idle.settles {d : Ps2} (h : d.Idle) (W : Ps2 → Prop) : Settles W d.Rest d.Rest :=
  ⟨h.closed, h.closed, fun _ => Or.inl⟩

theorem Ps2.takeCommand_output {value : Byte} (hvalue : value ≠ 0x20#8) (p : Ps2)
    (o : Ps2Output) :
    ({ p with output := o } : Ps2).takeCommand value =
      { p.takeCommand value with output := o } := by
  unfold takeCommand
  dsimp only
  split_ifs <;> rfl

theorem Ps2.takeData_output (value : Byte) (p : Ps2) (o : Ps2Output) :
    ({ p with output := o } : Ps2).takeData value = { p.takeData value with output := o } := by
  unfold takeData
  dsimp only
  cases p.target <;> rfl

/-- What is written is taken whatever is in the output, except for the request for the command
byte. -/
theorem Ps2.take_write {d : Ps2} {toCommand : Bool} {value : Byte}
    (hvalue : ¬(toCommand = true ∧ value = 0x20#8)) (o : Ps2Output) :
    ({ d.write toCommand value with output := o } : Ps2).take =
      { (d.write toCommand value).take with output := o } := by
  cases toCommand with
  | true => exact takeCommand_output (fun h => hvalue ⟨rfl, h⟩) (d.write true value) o
  | false => exact takeData_output value (d.write false value) o

/-- The controller takes what is written to it, and is idle again. -/
theorem Ps2.Idle.settles_write {d : Ps2} (h : d.Idle) {toCommand : Bool} {value : Byte}
    (hvalue : ¬(toCommand = true ∧ value = 0x20#8))
    (hend : ((d.write toCommand value).take).Idle) :
    Settles (Waits 1#8)
      (fun p => (d.write toCommand value).Rest p ∨ ((d.write toCommand value).take).Rest p)
      ((d.write toCommand value).take).Rest where
  kept := by
    rintro p q (hp | hp) hchange
    · obtain hrest | ⟨_, rfl⟩ | ⟨hanswer, _⟩ := hp.change lasting_quiet hchange
      · exact Or.inl hrest
      · obtain ⟨o, ho, rfl⟩ := hp
        exact Or.inr ⟨o, ho, take_write hvalue o⟩
      · exact absurd hanswer (hp.not_canAnswer h.answers)
    · exact Or.inr (hend.closed p q hp hchange)
  closed := hend.closed
  settled := by
    rintro p (⟨o, _, rfl⟩ | hp)
    · refine Or.inr ⟨rfl, Or.inl ⟨rfl, fun hinput => absurd ?_ hvalue⟩⟩
      exact Prod.mk.inj (Option.some.inj hinput)
    · exact Or.inl hp

theorem Ps2.Idle.command {d : Ps2} (h : d.Idle) {value : Byte} (hvalue : value ≠ 0x20#8) :
    ((d.write true value).take).Idle := by
  have hoverrun : (d.overrun || d.input.isSome) = false := by rw [h.overrun, h.input]; rfl
  show ((d.write true value).takeCommand value).Idle
  unfold takeCommand
  dsimp only
  split_ifs <;> exact ⟨rfl, h.answers, hoverrun, h.quiet⟩

/-- The command byte is replaced. -/
theorem Ps2.Idle.settles_commandByte {d d' : Ps2} (h : d.Idle) (value : Byte)
    (hd' : d' = { d with target := .keyboard, commandByte := value }) :
    d'.Idle ∧ Settles (Waits 1#8)
      (fun p => (((d.write true 0x60#8).take).write false value).Rest p ∨ d'.Rest p) d'.Rest := by
  have hexpects : ((d.write true 0x60#8).take).Idle := h.command (by decide)
  have htaken : ((((d.write true 0x60#8).take).write false value).take) = d' := by
    obtain ⟨input, output, target, commandByte, mouse, overrun⟩ := d
    obtain ⟨rfl, _, rfl, _⟩ := h
    exact hd'.symm
  have hidle : ((((d.write true 0x60#8).take).write false value).take).Idle := by
    rw [htaken, hd']
    exact ⟨h.input, h.answers, h.overrun, h.quiet⟩
  have hsettles := hexpects.settles_write (fun hvalue => Bool.noConfusion hvalue.1) hidle
  rw [htaken] at hidle hsettles
  exact ⟨hidle, hsettles⟩

/-! ## The command byte -/

/-- The request for the command byte has been written, with `I` in the output, or is taken.
The handler of the keyboard may be the first to read the command byte; it is still there for
the driver. -/
def Ps2.Asked (d : Ps2) (I : Ps2Output → Prop) (p : Ps2) : Prop :=
  (d.write true 0x20#8).WithOutput I p ∨
    WithOutput { d with target := .keyboard }
      (fun o => o.foreign = true ∨ o.data = d.commandByte) p

theorem Ps2.Idle.closed_asked {d : Ps2} (h : d.Idle) {I : Ps2Output → Prop} (hI : Lasting I) :
    Closed (d.Asked I) := by
  rintro p q (hp | hp) hchange
  · obtain hrest | ⟨_, rfl⟩ | ⟨hanswer, _⟩ := hp.change hI hchange
    · exact Or.inl hrest
    · obtain ⟨o, _, rfl⟩ := hp
      obtain ⟨input, output, target, commandByte, mouse, overrun⟩ := d
      obtain ⟨rfl, _, rfl, _⟩ := h
      exact Or.inr ⟨_, Or.inr rfl, rfl⟩
    · exact absurd hanswer (hp.not_canAnswer h.answers)
  · obtain hrest | ⟨htake, _⟩ | ⟨hanswer, _⟩ := hp.change (lasting_data _) hchange
    · exact Or.inr hrest
    · exact absurd htake (hp.not_canTake h.input)
    · exact absurd hanswer (hp.not_canAnswer h.answers)

/-- A byte that is not for the driver ends the wait too soon. -/
theorem Ps2.Idle.settles_asked {d : Ps2} (h : d.Idle) :
    Settles (Waits 0#8) (d.Asked Ps2Output.Quiet) (d.Asked (·.foreign = true)) where
  kept := h.closed_asked lasting_quiet
  closed := h.closed_asked lasting_foreign
  settled := by
    rintro p (⟨o, ho, rfl⟩ | hp)
    · rcases ho.cases with hforeign | hempty
      · exact Or.inl (Or.inl ⟨o, hforeign, rfl⟩)
      · exact Or.inr ⟨hempty, Or.inl ⟨rfl, fun _ => hempty⟩⟩
    · exact Or.inl (Or.inr hp)

/-- The command byte is read. -/
theorem Ps2.Asked.read {d p : Ps2} (h : d.Asked (·.foreign = true) p) :
    p.output.foreign = true ∨ (p.output.data = d.commandByte ∧
      ({ d with target := .keyboard } : Ps2).Rest
        { p with output := { p.output with full := false } }) := by
  obtain ⟨o, hforeign, rfl⟩ | ⟨o, hforeign | hdata, rfl⟩ := h
  · exact Or.inl hforeign
  · exact Or.inl hforeign
  · exact Or.inr ⟨hdata, { o with full := false }, nofun, rfl⟩

/-! ## A byte to the mouse -/

/-- The mouse has received a byte, and its answer has been read. -/
def Ps2.served (b : Byte) (d : Ps2) : Ps2 :=
  { d with target := .keyboard, mouse := d.mouse.served b }

theorem Ps2.Idle.served {d : Ps2} (h : d.Idle) (b : Byte) : (d.served b).Idle :=
  ⟨h.input, rfl, h.overrun, h.quiet⟩

/-- The byte for the mouse has been written, with `I` in the output; the mouse has it; or it
has put out its answer. -/
def Ps2.Sent (d : Ps2) (b : Byte) (I : Ps2Output → Prop) (p : Ps2) : Prop :=
  (d.write false b).WithOutput I p ∨
    WithOutput { d with target := .keyboard, mouse := d.mouse.receive b } I p ∨
    p = { d.served b with output := ⟨true, true, 0xFA#8, false⟩ }

section Sent
variable {d : Ps2} {b : Byte}

theorem Ps2.Idle.closed_sent (h : d.Idle) (htarget : d.target = .mouse)
    (hanswer : (d.mouse.receive b).answers = [0xFA#8]) {I : Ps2Output → Prop} (hI : Lasting I) :
    Closed (d.Sent b I) := by
  rintro p q (hp | hp | rfl) hchange
  · obtain hrest | ⟨_, rfl⟩ | ⟨hready, _⟩ := hp.change hI hchange
    · exact Or.inl hrest
    · obtain ⟨o, ho, rfl⟩ := hp
      obtain ⟨input, output, target, commandByte, mouse, overrun⟩ := d
      obtain ⟨rfl, _, rfl, _⟩ := h
      obtain rfl : target = .mouse := htarget
      exact Or.inr (Or.inl ⟨o, ho, rfl⟩)
    · exact absurd hready (hp.not_canAnswer h.answers)
  · obtain hrest | ⟨htake, _⟩ | ⟨_, rfl⟩ := hp.change hI hchange
    · exact Or.inr (Or.inl hrest)
    · exact absurd htake (hp.not_canTake h.input)
    · obtain ⟨o, _, rfl⟩ := hp
      refine Or.inr (Or.inr ?_)
      simp only [answer, hanswer]
      rfl
  -- the answer is read by nobody but the driver
  · cases hchange with
    | take htake => exact absurd (h.input ▸ htake.1) Bool.noConfusion
    | answer hready => exact Bool.noConfusion hready.2.1
    | key _ hempty => exact Bool.noConfusion hempty
    | movement _ _ _ hempty => exact Bool.noConfusion hempty
    | keyboardHandler _ haux => exact Bool.noConfusion haux

/-- A byte to the mouse is answered. -/
theorem Ps2.Idle.settles_sent (h : d.Idle) (htarget : d.target = .mouse)
    (hclock : d.mouseStopped = false) (hanswer : (d.mouse.receive b).answers = [0xFA#8]) :
    Settles (Waits 0#8) (d.Sent b Ps2Output.Quiet) (d.Sent b (·.foreign = true)) where
  kept := h.closed_sent htarget hanswer lasting_quiet
  closed := h.closed_sent htarget hanswer lasting_foreign
  settled := by
    rintro p (⟨o, ho, rfl⟩ | ⟨o, ho, rfl⟩ | hp)
    · rcases ho.cases with hforeign | hempty
      · exact Or.inl (Or.inl ⟨o, hforeign, rfl⟩)
      · exact Or.inr ⟨hempty, Or.inl ⟨rfl, nofun⟩⟩
    · rcases ho.cases with hforeign | hempty
      · exact Or.inl (Or.inr (Or.inl ⟨o, hforeign, rfl⟩))
      · refine Or.inr ⟨hempty, Or.inr ⟨?_, hempty, hclock⟩⟩
        show (d.mouse.receive b).answers ≠ []
        rw [hanswer]
        exact List.cons_ne_nil _ _
    · exact Or.inl (Or.inr (Or.inr hp))

/-- The acknowledgement is read. -/
theorem Ps2.Sent.read {p : Ps2} (h : d.Sent b (·.foreign = true) p) :
    p.output.foreign = true ∨ (p.output.data = 0xFA#8 ∧
      (d.served b).Rest { p with output := { p.output with full := false } }) := by
  obtain ⟨o, hforeign, rfl⟩ | ⟨o, hforeign, rfl⟩ | rfl := h
  · exact Or.inl hforeign
  · exact Or.inl hforeign
  · exact Or.inr ⟨rfl, ⟨false, true, 0xFA#8, false⟩, nofun, rfl⟩

end Sent

/-! ## The handshake -/

section Handshake
variable {α : Type} {Q : α → Ps2Machine → Prop} {s : Ps2Machine}

/-- A wait for the controller to be idle, and a byte to one of its ports. -/
theorem send_then {d : Ps2} {S : Ps2 → Prop} {port : BitVec 16} {value : Byte} {k : Unit → Hal α}
    (toCommand : Bool) (hport : port = if toCommand then MOUSE_STATUS else MOUSE_PORT)
    (h : Settles (Waits 1#8) S d.Rest) (hs : Unless S s)
    (hrest : ∀ t, Unless (d.write toCommand value).Rest t → ps2.wp (k ()) Q t) :
    ps2.wp (mouseWait 1#8 >>= fun _ => outb port value >>= k) Q s := by
  refine mouseWait_then h hs fun _ ht => outb_then hport h.closed ht ?_ hrest
  rintro _ ⟨o, ho, rfl⟩
  exact ⟨o, ho, rfl⟩

/-- A byte to the mouse, and the acknowledgement. -/
theorem mouseByte_then {d : Ps2} {S : Ps2 → Prop} {b : Byte} {k : Byte → Hal α}
    (hQ : ∀ a t, t.Lost → Q a t) (hd : d.Idle) (hclock : d.mouseStopped = false)
    (hanswer : (d.mouse.receive b).answers = [0xFA#8])
    (h : Settles (Waits 1#8) S d.Rest) (hs : Unless S s)
    (hrest : ∀ t, Unless (d.served b).Rest t → ps2.wp (k 0xFA#8) Q t) :
    ps2.wp (mouseWrite b >>= fun _ => mouseRead >>= k) Q s := by
  simp only [mouseWrite, mouseRead, bind_assoc]
  have hselected : ((d.write true MOUSE_WRITE).take).Idle := hd.command (by decide)
  refine send_then true rfl h hs fun t ht => ?_
  refine send_then false rfl (hd.settles_write (by decide) hselected) (ht.imp id Or.inl)
    fun t ht => ?_
  have hsent := hselected.settles_sent (b := b) rfl hclock hanswer
  refine mouseWait_then hsent (ht.imp id Or.inl) fun t ht => ?_
  refine inb_then hQ hsent.closed ht (fun p hp => Ps2.Sent.read hp) fun t ht => hrest t ?_
  obtain ⟨input, output, target, commandByte, mouse, overrun⟩ := d
  obtain ⟨rfl, _, rfl, _⟩ := hd
  exact ht

/-- The mouse and its interrupt are enabled. -/
def Ps2.enabled (p : Ps2) : Ps2 :=
  { p with target := .keyboard, commandByte := p.commandByte &&& 0xDF#8 ||| 2#8 }

theorem Ps2.mouseStopped_enabled (p : Ps2) : p.enabled.mouseStopped = false := by
  show (p.commandByte &&& 0xDF#8 ||| 2#8).getLsbD 5 = false
  rw [BitVec.getLsbD_or, BitVec.getLsbD_and, show BitVec.getLsbD 0xDF#8 5 = false from rfl,
    Bool.and_false]
  rfl

theorem enableMouse_then {k : Hal α} (hQ : ∀ a t, t.Lost → Q a t) (hd : s.ctl.Idle)
    (hrest : ∀ t S, s.ctl.enabled.Idle → Settles (Waits 1#8) S s.ctl.enabled.Rest →
      Unless S t → ps2.wp k Q t) :
    ps2.wp (do
      mouseWait 1#8
      outb MOUSE_STATUS 0xA8#8
      mouseWait 1#8
      outb MOUSE_STATUS 0x20#8
      mouseWait 0#8
      let status ← inb MOUSE_PORT
      mouseWait 1#8
      outb MOUSE_STATUS 0x60#8
      mouseWait 1#8
      outb MOUSE_PORT (status ||| 2#8)
      k) Q s := by
  have hd₁ : ((s.ctl.write true 0xA8#8).take).Idle := hd.command (by decide)
  refine send_then true rfl (hd.settles _) (Or.inr hd.rest) fun t ht => ?_
  refine send_then true rfl (hd.settles_write (by decide) hd₁) (ht.imp id Or.inl) fun t ht => ?_
  -- the command byte is read
  have hasked := hd₁.settles_asked
  refine mouseWait_then hasked (ht.imp id Or.inl) fun t ht => ?_
  refine inb_then hQ hasked.closed ht (fun p hp => hp.read) fun t ht => ?_
  -- and written back
  have hd₂ : ({ (s.ctl.write true 0xA8#8).take with target := .keyboard } : Ps2).Idle :=
    ⟨hd₁.input, hd₁.answers, hd₁.overrun, hd₁.quiet⟩
  refine send_then true rfl (hd₂.settles _) ht fun t ht => ?_
  refine send_then false rfl (hd₂.settles_write (by decide) (hd₂.command (by decide)))
    (ht.imp id Or.inl) fun t ht => ?_
  have hd' : s.ctl.enabled = { (s.ctl.write true 0xA8#8).take with
      target := .keyboard, commandByte := s.ctl.commandByte &&& 0xDF#8 ||| 2#8 } := by
    show _ = Ps2.mk none s.ctl.output .keyboard _ s.ctl.mouse (s.ctl.overrun || s.ctl.input.isSome)
    rw [hd.input, Option.isSome_none, Bool.or_false, ← hd.input]
    rfl
  obtain ⟨hidle, hwritten⟩ := hd₂.settles_commandByte _ hd'
  exact hrest t _ hidle hwritten (ht.imp id Or.inl)

/-- The controller and the mouse when the driver has been set up. -/
structure MouseReady (p q : Ps2) : Prop where
  idle : q.Idle
  commandByte : q.commandByte = p.commandByte &&& 0xDF#8 ||| 2#8
  received : q.mouse.received = p.mouse.received ++ [0xF6#8, 0xF4#8, 0xF3#8, 100#8]
  reporting : q.mouse.reporting = true
  rate : q.mouse.rate = 100#8
  expectsRate : q.mouse.expectsRate = false

theorem mouseInit_wp {H : Type} (mouseHandler : H) (m : Mouse) (handlers : Fin 16 → Option H)
    (hd : s.ctl.Idle) (hrate : s.ctl.mouse.expectsRate = false) :
    ps2.wp (mouseInit mouseHandler m handlers) (fun r t => t.Lost ∨
      (r = ({ m with mousePacketCount := 0#32, mouseErrorCount := 0#32 },
        irqRegisterHandler 12#8 mouseHandler handlers) ∧ MouseReady s.ctl t.ctl)) s := by
  have hlost : ∀ r t, Ps2Machine.Lost t → t.Lost ∨
      (r = ({ m with mousePacketCount := 0#32, mouseErrorCount := 0#32 },
        irqRegisterHandler 12#8 mouseHandler handlers) ∧ MouseReady s.ctl t.ctl) :=
    fun _ _ h => Or.inl h
  unfold mouseInit
  refine enableMouse_then hlost hd fun t S hidle hsettles ht => ?_
  have hclock := s.ctl.mouseStopped_enabled
  obtain ⟨hexpects, hserved⟩ := Ps2Mouse.served_init hrate
  refine mouseByte_then hlost hidle hclock
    (Ps2Mouse.receive_answers hidle.answers (Or.inr (Or.inl rfl))) hsettles ht fun t ht => ?_
  have hidle₁ := hidle.served 0xF6#8
  refine mouseByte_then hlost hidle₁ hclock
    (Ps2Mouse.receive_answers rfl (Or.inr (Or.inr (Or.inl rfl)))) (hidle₁.settles _) ht
    fun t ht => ?_
  have hidle₂ := hidle₁.served 0xF4#8
  refine mouseByte_then hlost hidle₂ hclock
    (Ps2Mouse.receive_answers rfl (Or.inr (Or.inr (Or.inr rfl)))) (hidle₂.settles _) ht
    fun t ht => ?_
  have hidle₃ := hidle₂.served 0xF3#8
  refine mouseByte_then hlost hidle₃ hclock
    (Ps2Mouse.receive_answers rfl (Or.inl hexpects)) (hidle₃.settles _) ht fun t ht => ?_
  have hend := hidle₃.served 100#8
  refine Device.wp_pure hend.closed.stable ht fun u hu => hu.imp id fun hctl => ⟨rfl, ?_⟩
  obtain ⟨o, ho, hctl⟩ := hctl
  have hset : u.ctl.mouse = ⟨s.ctl.mouse.received ++ [0xF6#8, 0xF4#8, 0xF3#8, 100#8], [], false,
      true, 100#8⟩ := (congrArg Ps2.mouse hctl).trans hserved
  exact ⟨hctl ▸ ⟨hend.input, hend.answers, hend.overrun, ho⟩, hctl ▸ rfl, hset ▸ rfl,
    hset ▸ rfl, hset ▸ rfl, hset ▸ rfl⟩

/-- For every interleaving of `mouse_init` with the controller, the mouse, the keys and the
interrupts of the keyboard, from an idle controller: either the driver has polled the controller
100000 times in a row while there was something to be done, or it has read the code of a key or
a byte of a movement in the place of an answer, or the handler is registered, the mouse has
received exactly the four bytes and reports its movements, and the command byte is what it has
been, with the mouse and its interrupt enabled. Nothing has then been written over a byte that
was not taken, and all answers are read. -/
theorem mouse_handshake {H : Type} (mouseHandler : H) (m : Mouse) (handlers : Fin 16 → Option H)
    {s t : Ps2Machine} {r : Mouse × (Fin 16 → Option H)} (hd : s.ctl.Idle)
    (hrate : s.ctl.mouse.expectsRate = false)
    (hrun : ps2.Outcome (mouseInit mouseHandler m handlers) s r t) :
    t.Late ∨ t.misread = true ∨ (r = ({ m with mousePacketCount := 0#32, mouseErrorCount := 0#32 },
      irqRegisterHandler 12#8 mouseHandler handlers) ∧ MouseReady s.ctl t.ctl) := by
  have hend := Device.wp_outcome (mouseInit_wp mouseHandler m handlers hd hrate) hrun
  exact or_assoc.mp hend

end Handshake

/-! ## A controller that loses no time -/

def Ps2.handlerNow (p : Ps2) : Ps2 :=
  if p.output.full = true ∧ p.output.aux = false ∧ p.output.foreign = true ∧
      p.commandByte.getLsbD 0 = true then
    { p with output := { p.output with full := false } }
  else p

def Ps2.takeNow (p : Ps2) : Ps2 := if p.CanTake then p.take else p

def Ps2.answerNow (p : Ps2) : Ps2 := if p.CanAnswer then p.answer else p

/-- All that there is to be done, a key that has been pressed first. -/
def Ps2Machine.prompt (s : Ps2Machine) : Ps2Machine :=
  { s with ctl := s.ctl.handlerNow.takeNow.answerNow }

theorem Ps2Machine.later_prompt (s : Ps2Machine) : ps2.Later s s.prompt := by
  have hhandler : ps2.Later s { s with ctl := s.ctl.handlerNow } := by
    unfold Ps2.handlerNow
    split
    next h => exact .single ⟨_, .keyboardHandler h.1 h.2.1 h.2.2.2, rfl⟩
    next => exact .refl
  have htake : ∀ p, ps2.Later { s with ctl := p } { s with ctl := p.takeNow } := fun p => by
    unfold Ps2.takeNow
    split
    next h => exact .single ⟨_, .take h, rfl⟩
    next => exact .refl
  have hanswer : ∀ p, ps2.Later { s with ctl := p } { s with ctl := p.answerNow } := fun p => by
    unfold Ps2.answerNow
    split
    next h => exact .single ⟨_, .answer h, rfl⟩
    next => exact .refl
  exact (hhandler.trans (htake _)).trans (hanswer _)

/-- A controller after power-on, when a key has been pressed. -/
def poweredPs2 : Ps2Machine where
  ctl := ⟨none, ⟨true, false, 0x1E#8, true⟩, .keyboard, 0x65#8, ⟨[], [], false, false, 0#8⟩,
    false⟩
  polls := 0
  misread := false

theorem mouse_handshake_prompt :
    ∃ r t, ps2.Outcome (mouseInit () mouseStart fun _ => none) poweredPs2 r t ∧ ¬ t.Lost ∧
      MouseReady poweredPs2.ctl t.ctl := by
  have hrun := Device.outcome_runWith (x := mouseInit () mouseStart fun _ => none)
    (s := poweredPs2) Ps2Machine.later_prompt
  have hkept : ¬ (ps2.runWith Ps2Machine.prompt (mouseInit () mouseStart fun _ => none)
    poweredPs2).2.Lost := by decide +kernel
  exact ⟨_, _, hrun, hkept, (((mouse_handshake () mouseStart (fun _ => none)
    ⟨rfl, rfl, rfl, fun _ => rfl⟩ rfl hrun).resolve_left fun h => hkept (Or.inl h)).resolve_left
      fun h => hkept (Or.inr h)).2⟩

/-- A key comes in front of the command byte, and its interrupt too late. -/
def Ps2Machine.keyFirst (s : Ps2Machine) : Ps2Machine :=
  if s.ctl.input = some (true, 0x20#8) ∧ s.misread = false then
    if s.ctl.output.full = false ∧ s.ctl.keyboardStopped = false then
      { s with ctl := { s.ctl with output := ⟨true, false, 0x1E#8, true⟩ } }
    else s
  else s.prompt

theorem Ps2Machine.later_keyFirst (s : Ps2Machine) : ps2.Later s s.keyFirst := by
  unfold keyFirst
  split_ifs with hasked hempty
  · exact .single ⟨_, .key _ hempty.1 hempty.2, rfl⟩
  · exact .refl
  · exact s.later_prompt

/-- The driver takes the code of the key for the command byte, and writes it back. -/
theorem misread_needed :
    ∃ r t, ps2.Outcome (mouseInit () mouseStart fun _ => none) poweredPs2 r t ∧ ¬ t.Late ∧
      ¬ MouseReady poweredPs2.ctl t.ctl := by
  have hrun := Device.outcome_runWith (x := mouseInit () mouseStart fun _ => none)
    (s := poweredPs2) Ps2Machine.later_keyFirst
  have hend : ¬ (ps2.runWith Ps2Machine.keyFirst (mouseInit () mouseStart fun _ => none)
      poweredPs2).2.Late ∧
      (ps2.runWith Ps2Machine.keyFirst (mouseInit () mouseStart fun _ => none)
        poweredPs2).2.ctl.commandByte = 0x1E#8 := by decide +kernel
  refine ⟨_, _, hrun, hend.1, fun hready => ?_⟩
  exact absurd (hend.2.symm.trans hready.commandByte) (by decide)

end Zenix
