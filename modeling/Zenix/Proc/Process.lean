import Zenix.Libc
import Zenix.Mm.Heap

/-!
# Processes (kernel/proc/process.c)

A `process_t` is 120 bytes of heap memory, and the model reads and writes its
fields there. `Procs` is the heap together with the process table, the other
statics of the file and the ready queue of scheduler.c.
-/

namespace Zenix
open ByteMemory

def KERNEL_STACK_SIZE : Word := 4096#32

/-- `sizeof(process_t)` and `sizeof(registers_t)`. -/
def sizeofProcess : Word := 120#32
def sizeofRegisters : Word := 64#32

inductive ProcessState where
  | ready
  | running
  | blocked
  | terminated
deriving DecidableEq, Repr

def ProcessState.code : ProcessState → Word
  | .ready => 0#32
  | .running => 1#32
  | .blocked => 2#32
  | .terminated => 3#32

/-! ## The fields of `process_t` -/

def procPid (m : Mem) (p : Word) : Word := load32 m p
def procName (p : Word) : Word := p + 4#32
def procState (m : Mem) (p : Word) : Word := load32 m (p + 36#32)
def procRegs (p : Word) : Word := p + 40#32
def procKernelStack (m : Mem) (p : Word) : Word := load32 m (p + 104#32)
def procCpuTime (m : Mem) (p : Word) : Word := load32 m (p + 112#32)
def procNext (m : Mem) (p : Word) : Word := load32 m (p + 116#32)

def setPid (m : Mem) (p v : Word) : Mem := store32 m p v
def setState (m : Mem) (p : Word) (v : ProcessState) : Mem := store32 m (p + 36#32) v.code
def setKernelStack (m : Mem) (p v : Word) : Mem := store32 m (p + 104#32) v
def setCreatedAt (m : Mem) (p v : Word) : Mem := store32 m (p + 108#32) v
def setCpuTime (m : Mem) (p v : Word) : Mem := store32 m (p + 112#32) v
def setProcNext (m : Mem) (p v : Word) : Mem := store32 m (p + 116#32) v

/-! ## The fields of `registers_t` that `process_create` sets -/

def setDs (m : Mem) (r v : Word) : Mem := store32 m r v
def setEip (m : Mem) (r v : Word) : Mem := store32 m (r + 44#32) v
def setCs (m : Mem) (r v : Word) : Mem := store32 m (r + 48#32) v
def setEflags (m : Mem) (r v : Word) : Mem := store32 m (r + 52#32) v
def setUseresp (m : Mem) (r v : Word) : Mem := store32 m (r + 56#32) v
def setSs (m : Mem) (r v : Word) : Mem := store32 m (r + 60#32) v

/-- `process_table[MAX_PROCESSES]`. -/
abbrev ProcessTable := Fin 64 → Word

def MAX_PROCESSES : Word := 64#32

structure Procs where
  heap : Heap
  processTable : ProcessTable
  nextPid : Word
  currentProcess : Word
  readyQueueHead : Word
  readyQueueTail : Word

/-- Overwrite the first entry that is `old`. -/
def replaceFirst (t : ProcessTable) (old new : Word) : ProcessTable :=
  match (List.finRange 64).find? fun i => t i = old with
  | some i => fun j => if j = i then new else t j
  | none => t

/-! ## The functions -/

/-- The record that `process_init` fills in. -/
def initIdle (m : Mem) (current ticks : Word) : Mem :=
  let m := memset m current 0#8 120
  let m := setPid m current 0#32
  let m := strcpyLiteral m (procName current) [0x69#8, 0x64#8, 0x6C#8, 0x65#8]
  let m := setState m current .running
  let m := setCreatedAt m current ticks
  let m := setCpuTime m current 0#32
  setProcNext m current 0#32

/-- `process_init`; `ticks` is what `timer_get_ticks` returns. It does not check
whether `kmalloc` has returned NULL. -/
def processInit (ticks : Word) (h : Heap) : Option Procs :=
  (kmalloc sizeofProcess h).map fun (current, h) =>
    { heap := { h with mem := initIdle h.mem current ticks }
      processTable := fun i => if i = 0 then current else 0#32
      nextPid := 1#32
      currentProcess := current
      readyQueueHead := 0#32
      readyQueueTail := 0#32 }

/-- "Initial regs" of a process. -/
def initRegs (m : Mem) (r entryPoint kernelStack : Word) : Mem :=
  let m := memset m r 0#8 64
  let m := setEip m r entryPoint
  let m := setCs m r 0x08#32
  let m := setDs m r 0x10#32
  let m := setEflags m r 0x202#32
  let m := setUseresp m r kernelStack
  setSs m r 0x10#32

/-- The record that `process_create` fills in. -/
def initProcess (m : Mem) (proc pid name entryPoint ticks stack : Word) : Mem :=
  let kernelStack := stack + KERNEL_STACK_SIZE
  let m := setPid m proc pid
  let m := strncpy m (procName proc) name 31
  let m := store8 m (procName proc + 31#32) 0#8
  let m := setState m proc .ready
  let m := setCreatedAt m proc ticks
  let m := setCpuTime m proc 0#32
  let m := setKernelStack m proc kernelStack
  let m := initRegs m (procRegs proc) entryPoint kernelStack
  setProcNext m proc 0#32

def processCreate (name entryPoint ticks : Word) (s : Procs) : Option (Word × Procs) :=
  if MAX_PROCESSES ≤ s.nextPid then some (0#32, s)
  else
    (kmalloc sizeofProcess s.heap).bind fun (proc, h) =>
      if proc = 0#32 then some (0#32, { s with heap := h })
      else
        let h := { h with mem := memset h.mem proc 0#8 120 }
        (kmalloc KERNEL_STACK_SIZE h).bind fun (stack, h) =>
          if stack = 0#32 then (kfree proc h).map fun h => (0#32, { s with heap := h })
          else
            some (proc,
              { s with
                heap := { h with mem := initProcess h.mem proc s.nextPid name entryPoint ticks stack }
                processTable := replaceFirst s.processTable 0#32 proc
                nextPid := s.nextPid + 1#32 })

def processTerminate (proc : Word) (s : Procs) : Option Procs :=
  if proc = 0#32 then some s
  else
    let h := { s.heap with mem := setState s.heap.mem proc .terminated }
    let table := replaceFirst s.processTable proc 0#32
    let stack := procKernelStack h.mem proc
    (if stack ≠ 0#32 then kfree (stack - KERNEL_STACK_SIZE) h else some h).bind fun h =>
      (kfree proc h).map fun h => { s with heap := h, processTable := table }

end Zenix
