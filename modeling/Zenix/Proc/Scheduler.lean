import Zenix.Proc.Process

/-!
# The scheduler (kernel/proc/scheduler.c)

The ready queue is a singly linked list through the `next` fields of the process
records.
-/

namespace Zenix
open ByteMemory

def Procs.withMem (s : Procs) (m : Mem) : Procs := { s with heap := { s.heap with mem := m } }

/-- "Add process to ready queue". -/
def enqueueProcess (proc : Word) (s : Procs) : Procs :=
  if proc = 0#32 then s
  else
    let s := s.withMem (setProcNext s.heap.mem proc 0#32)
    if s.readyQueueHead = 0#32 then { s with readyQueueHead := proc, readyQueueTail := proc }
    else
      { s.withMem (setProcNext s.heap.mem s.readyQueueTail proc) with readyQueueTail := proc }

/-- "Remove process from ready queue". -/
def dequeueProcess (s : Procs) : Word × Procs :=
  if s.readyQueueHead = 0#32 then (0#32, s)
  else
    let proc := s.readyQueueHead
    let head := procNext s.heap.mem proc
    let s := { s with readyQueueHead := head }
    let s := if head = 0#32 then { s with readyQueueTail := 0#32 } else s
    (proc, s.withMem (setProcNext s.heap.mem proc 0#32))

/-- "Find idle process". -/
def findIdle (s : Procs) : Word :=
  match (List.finRange 64).find? fun i =>
      s.processTable i ≠ 0#32 ∧ procPid s.heap.mem (s.processTable i) = 0#32 with
  | some i => s.processTable i
  | none => 0#32

/-- `schedule`, up to the context switch: the second component is the pair of
registers records that it calls `switch_context` with, if it does. -/
def schedule (s : Procs) : Procs × Option (Word × Word) :=
  if s.currentProcess = 0#32 then (s, none)
  else
    let s :=
      if procState s.heap.mem s.currentProcess = ProcessState.running.code then
        enqueueProcess s.currentProcess (s.withMem (setState s.heap.mem s.currentProcess .ready))
      else s
    let idle := findIdle s
    let (next, s) := dequeueProcess s
    let next := if next = 0#32 then idle else next
    if next = 0#32 then (s, none)
    else
      let s := s.withMem (setState s.heap.mem next .running)
      let prev := s.currentProcess
      ({ s with currentProcess := next },
        if prev ≠ next then some (procRegs prev, procRegs next) else none)

def schedulerInit (s : Procs) : Procs := { s with readyQueueHead := 0#32, readyQueueTail := 0#32 }

end Zenix
