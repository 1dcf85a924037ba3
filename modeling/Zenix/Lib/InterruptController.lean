import Mathlib.Data.List.FinRange
import Mathlib.Tactic.Common

/-!
# Programmable interrupt controllers

The 8259A, in edge-triggered and fully nested operation, and two of them in cascade: the
output of the slave is line 2 of the master. Line 0 has the highest priority. Rotation,
polling and the special modes are not part of it.

A request may be withdrawn before it is acknowledged. The controller then answers with
line 7, without having it in service.

Results:
1. `Controller.take_service`, `Controller.pending_isSome`: one controller with nothing in
   service.
2. `Cascade.acknowledge_cases`: what the processor is given when nothing is in service.
3. `Cascade.Change.sameProgramming`: the lines change nothing but the requests.
-/

namespace InterruptController

/-- The next word that the initialisation expects on the data port. -/
inductive InitStage where
  | ready
  | vectorBase (single needsMode : Bool)
  | cascade (needsMode : Bool)
  | mode
deriving DecidableEq

structure Controller where
  request : BitVec 8
  service : BitVec 8
  mask : BitVec 8
  vectorBase : BitVec 8
  cascade : BitVec 8
  /-- The end of interrupt is automatic. -/
  autoEnd : Bool
  /-- The command port reads the lines in service, and not the requests. -/
  readsService : Bool
  stage : InitStage
deriving DecidableEq

def line (n : Fin 8) : BitVec 8 := 1#8 <<< n.val

/-- The line of the highest priority. -/
def firstLine (lines : BitVec 8) : Option (Fin 8) :=
  (List.finRange 8).find? fun n => lines.getLsbD n

/-- The lines of higher priority than all of these. -/
def linesAbove (lines : BitVec 8) : BitVec 8 := (lines &&& -lines) - 1#8

/-- Without the line of the highest priority. -/
def dropFirst (lines : BitVec 8) : BitVec 8 := lines &&& (lines - 1#8)

namespace Controller

/-- The request that the controller passes on. -/
def pending (c : Controller) : Option (Fin 8) :=
  firstLine (c.request &&& ~~~c.mask &&& linesAbove c.service)

def raise (n : Fin 8) (c : Controller) : Controller :=
  { c with request := c.request ||| line n }

def withdraw (n : Fin 8) (c : Controller) : Controller :=
  { c with request := c.request &&& ~~~line n }

/-- The processor acknowledges the request. -/
def take (n : Fin 8) (c : Controller) : Controller :=
  { c.withdraw n with service := if c.autoEnd then c.service else c.service ||| line n }

def endOfInterrupt (c : Controller) : Controller := { c with service := dropFirst c.service }

/-- A write to the command port. -/
def writeCommand (v : BitVec 8) (c : Controller) : Controller :=
  if v.getLsbD 4 then
    -- the first initialisation word resets the edge detection and the mask
    { c with
      request := 0#8
      mask := 0#8
      autoEnd := false
      readsService := false
      stage := .vectorBase (v.getLsbD 1) (v.getLsbD 0) }
  else if v.getLsbD 3 then
    if v.getLsbD 1 then { c with readsService := v.getLsbD 0 } else c
  else if v.getLsbD 5 then
    if v.getLsbD 6 then { c with service := c.service &&& ~~~(1#8 <<< (v &&& 7#8)) }
    else c.endOfInterrupt
  else c

/-- A write to the data port. -/
def writeData (v : BitVec 8) (c : Controller) : Controller :=
  match c.stage with
  | .ready => { c with mask := v }
  | .vectorBase single needsMode =>
      { c with
        vectorBase := v &&& 0xF8#8
        stage := if single then if needsMode then .mode else .ready else .cascade needsMode }
  | .cascade needsMode => { c with cascade := v, stage := if needsMode then .mode else .ready }
  | .mode => { c with autoEnd := v.getLsbD 1, stage := .ready }

def readCommand (c : Controller) : BitVec 8 := if c.readsService then c.service else c.request

def readData (c : Controller) : BitVec 8 := c.mask

/-- All but the requests. -/
structure SameProgramming (c d : Controller) : Prop where
  service : d.service = c.service
  mask : d.mask = c.mask
  vectorBase : d.vectorBase = c.vectorBase
  cascade : d.cascade = c.cascade
  autoEnd : d.autoEnd = c.autoEnd
  readsService : d.readsService = c.readsService
  stage : d.stage = c.stage

theorem SameProgramming.refl (c : Controller) : SameProgramming c c :=
  ⟨rfl, rfl, rfl, rfl, rfl, rfl, rfl⟩

theorem sameProgramming_request (c : Controller) (r : BitVec 8) :
    SameProgramming c { c with request := r } :=
  ⟨rfl, rfl, rfl, rfl, rfl, rfl, rfl⟩

theorem SameProgramming.eq_request {c d : Controller} (h : SameProgramming c d) :
    d = { c with request := d.request } := by
  obtain ⟨hservice, hmask, hbase, hcascade, hauto, hreads, hstage⟩ := h
  rw [← hservice, ← hmask, ← hbase, ← hcascade, ← hauto, ← hreads, ← hstage]

theorem SameProgramming.trans {b c d : Controller} (h : SameProgramming b c)
    (h' : SameProgramming c d) : SameProgramming b d := by
  rw [h'.eq_request, h.eq_request]
  exact sameProgramming_request _ _

/-- The ports do the same, whatever is requested. -/
theorem SameProgramming.writeCommand {c d : Controller} (h : SameProgramming c d)
    (v : BitVec 8) : SameProgramming (c.writeCommand v) (d.writeCommand v) := by
  rw [h.eq_request]
  unfold Controller.writeCommand
  split
  · exact .refl _
  · split
    · split
      · exact sameProgramming_request _ _
      · exact sameProgramming_request _ _
    · split
      · split
        · exact sameProgramming_request _ _
        · exact sameProgramming_request _ _
      · exact sameProgramming_request _ _

theorem SameProgramming.writeData {c d : Controller} (h : SameProgramming c d) (v : BitVec 8) :
    SameProgramming (c.writeData v) (d.writeData v) := by
  rw [h.eq_request]
  unfold Controller.writeData
  cases c.stage with
  | ready => exact sameProgramming_request _ _
  | vectorBase single needsMode => exact sameProgramming_request _ _
  | cascade needsMode => exact sameProgramming_request _ _
  | mode => exact sameProgramming_request _ _

theorem SameProgramming.readCommand {c d : Controller} (h : SameProgramming c d)
    (hservice : c.readsService = true) : d.readCommand = c.readCommand := by
  rw [Controller.readCommand, Controller.readCommand, h.readsService, hservice, if_pos rfl,
    if_pos rfl, h.service]

theorem raise_sameProgramming (n : Fin 8) (c : Controller) : SameProgramming c (c.raise n) :=
  ⟨rfl, rfl, rfl, rfl, rfl, rfl, rfl⟩

theorem withdraw_sameProgramming (n : Fin 8) (c : Controller) :
    SameProgramming c (c.withdraw n) :=
  ⟨rfl, rfl, rfl, rfl, rfl, rfl, rfl⟩

theorem dropFirst_line (n : Fin 8) : dropFirst (line n) = 0#8 := by
  revert n
  decide

/-- The line that has been taken is the only one in service, until its end of interrupt. -/
theorem take_service {c : Controller} (hidle : c.service = 0#8) (hmanual : c.autoEnd = false)
    (n : Fin 8) : (c.take n).service = line n := by
  rw [take, hmanual, hidle]
  exact BitVec.zero_or

/-- With nothing in service every request that is not masked is passed on. -/
theorem pending_isSome {c : Controller} (hidle : c.service = 0#8) {n : Fin 8}
    (hrequest : c.request.getLsbD n = true) (hmask : c.mask.getLsbD n = false) :
    c.pending.isSome = true := by
  rw [pending, hidle, firstLine, List.find?_isSome]
  refine ⟨n, List.mem_finRange n, ?_⟩
  have habove : linesAbove 0#8 = BitVec.allOnes 8 := by decide
  rw [habove, BitVec.and_allOnes, BitVec.getLsbD_and, BitVec.getLsbD_not, hrequest, hmask]
  simp

/-- What is passed on is requested. -/
theorem request_of_pending {c : Controller} {n : Fin 8} (h : c.pending = some n) :
    c.request.getLsbD n = true ∧ c.mask.getLsbD n = false := by
  have hfound := List.find?_some h
  simp only [BitVec.getLsbD_and, BitVec.getLsbD_not, Bool.and_eq_true, Bool.not_eq_true'] at hfound
  exact ⟨hfound.1.1, hfound.1.2.2⟩

end Controller

/-! ## Two controllers -/

structure Cascade where
  master : Controller
  slave : Controller
deriving DecidableEq

namespace Cascade
open Controller

/-- The lines of the two, those of the slave last. -/
def slaveLine (n : Fin 8) : Fin 16 := ⟨8 + n, by omega⟩
def masterLine (n : Fin 8) : Fin 16 := ⟨n, by omega⟩

/-- The processor asks for the vector: the vector, the line that is now in service, and the
controllers. The slave answers when it has been told the number of its line. -/
def acknowledge (p : Cascade) : BitVec 8 × Option (Fin 16) × Cascade :=
  match p.master.pending with
  | none => (p.master.vectorBase ||| 7#8, none, p)
  | some n =>
      let master := p.master.take n
      if p.master.cascade.getLsbD n then
        if p.slave.cascade.toNat = n then
          match p.slave.pending with
          | none => (p.slave.vectorBase ||| 7#8, none, { p with master := master })
          | some k =>
              (p.slave.vectorBase ||| BitVec.ofNat 8 k, some (slaveLine k),
                ⟨master, p.slave.take k⟩)
        else (0xFF#8, none, { p with master := master })
      else
        (p.master.vectorBase ||| BitVec.ofNat 8 n, some (masterLine n), { p with master := master })

/-- A line changes. Line 2 of the master follows the output of the slave. -/
inductive Change : Cascade → Cascade → Prop
  | raiseMaster {p : Cascade} {n : Fin 8} : n ≠ 2 → Change p { p with master := p.master.raise n }
  | withdrawMaster {p : Cascade} {n : Fin 8} :
      n ≠ 2 → Change p { p with master := p.master.withdraw n }
  | raiseSlave {p : Cascade} {n : Fin 8} : Change p { p with slave := p.slave.raise n }
  | withdrawSlave {p : Cascade} {n : Fin 8} : Change p { p with slave := p.slave.withdraw n }
  | raiseOutput {p : Cascade} :
      p.slave.pending.isSome = true → Change p { p with master := p.master.raise 2 }
  | withdrawOutput {p : Cascade} :
      p.slave.pending = none → Change p { p with master := p.master.withdraw 2 }

/-- All but the requests. -/
structure SameProgramming (p q : Cascade) : Prop where
  master : p.master.SameProgramming q.master
  slave : p.slave.SameProgramming q.slave

theorem SameProgramming.trans {p q r : Cascade} (h : SameProgramming p q)
    (h' : SameProgramming q r) : SameProgramming p r :=
  ⟨h.master.trans h'.master, h.slave.trans h'.slave⟩

theorem Change.sameProgramming {p q : Cascade} (h : Change p q) : SameProgramming p q := by
  cases h with
  | raiseMaster _ => exact ⟨raise_sameProgramming _ _, .refl _⟩
  | withdrawMaster _ => exact ⟨withdraw_sameProgramming _ _, .refl _⟩
  | raiseSlave => exact ⟨.refl _, raise_sameProgramming _ _⟩
  | withdrawSlave => exact ⟨.refl _, withdraw_sameProgramming _ _⟩
  | raiseOutput _ => exact ⟨raise_sameProgramming _ _, .refl _⟩
  | withdrawOutput _ => exact ⟨withdraw_sameProgramming _ _, .refl _⟩

/-- The slave is on line 2, and both are told about the end of each interrupt. -/
structure Cascaded (p : Cascade) : Prop where
  masterCascade : p.master.cascade = 4#8
  slaveCascade : p.slave.cascade = 2#8
  masterManual : p.master.autoEnd = false
  slaveManual : p.slave.autoEnd = false

/-- With nothing in service the processor is given a line of the master or of the slave,
or one that has been withdrawn from either. -/
theorem acknowledge_cases {p : Cascade} (h : p.Cascaded) :
    p.master.pending = none ∧ p.acknowledge = (p.master.vectorBase ||| 7#8, none, p) ∨
      (∃ n, n ≠ 2 ∧ p.master.pending = some n ∧
        p.acknowledge = (p.master.vectorBase ||| BitVec.ofNat 8 n, some (masterLine n),
          { p with master := p.master.take n })) ∨
      p.master.pending = some 2 ∧ p.slave.pending = none ∧
        p.acknowledge = (p.slave.vectorBase ||| 7#8, none,
          { p with master := p.master.take 2 }) ∨
      ∃ k, p.master.pending = some 2 ∧ p.slave.pending = some k ∧
        p.acknowledge = (p.slave.vectorBase ||| BitVec.ofNat 8 k, some (slaveLine k),
          ⟨p.master.take 2, p.slave.take k⟩) := by
  have hslave : ∀ n : Fin 8, (4#8).getLsbD n = true ↔ n = 2 := by decide
  unfold acknowledge
  rw [h.masterCascade, h.slaveCascade]
  cases hmaster : p.master.pending with
  | none => exact Or.inl ⟨rfl, rfl⟩
  | some n =>
    refine Or.inr ?_
    dsimp only
    cases Decidable.em (n = 2) with
    | inl heq =>
      subst heq
      have hid : (2#8).toNat = (2 : Fin 8) := rfl
      rw [if_pos ((hslave 2).mpr rfl), if_pos hid]
      cases hpending : p.slave.pending with
      | none => exact Or.inr (Or.inl ⟨rfl, rfl, rfl⟩)
      | some k => exact Or.inr (Or.inr ⟨k, rfl, rfl, rfl⟩)
    | inr hne =>
      rw [if_neg (mt (hslave n).mp hne)]
      exact Or.inl ⟨n, hne, rfl, rfl⟩

end Cascade

end InterruptController
