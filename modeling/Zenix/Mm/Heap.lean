import Zenix.Lib.Memory

/-!
# The kernel heap (kernel/mm/heap.c)

The allocator keeps a singly linked list of blocks inside the 4 MB window that
starts at 4 MB. Every block begins with a 12-byte header; the header fields are
words of memory, so the model reads and writes them there. `Heap` is that
memory together with the two statics of the file.

The two list walks are loops over `next`. They run on fuel here: `none` is a
walk that has not ended, and `walkFuel` is enough for every list that fits in
the window (`HeapRefinement`).
-/

namespace Zenix
open ByteMemory

def HEAP_START : Word := 0x00400000#32
def HEAP_SIZE : Word := 0x00400000#32

/-- `sizeof(heap_block_t)`. -/
def sizeofHeapBlock : Word := 12#32

/-- Memory and the statics of heap.c. -/
structure Heap where
  mem : Mem
  heapStart : Word
  heapUsed : Word

/-! ## The fields of `heap_block_t` -/

def blockSize (m : Mem) (b : Word) : Word := load32 m b
def blockUsed (m : Mem) (b : Word) : Word := load32 m (b + 4#32)
def blockNext (m : Mem) (b : Word) : Word := load32 m (b + 8#32)

def setSize (m : Mem) (b v : Word) : Mem := store32 m b v
def setUsed (m : Mem) (b v : Word) : Mem := store32 m (b + 4#32) v
def setNext (m : Mem) (b v : Word) : Mem := store32 m (b + 8#32) v

/-! ## The functions -/

def heapInit (mem : Mem) : Heap :=
  let mem := setSize mem HEAP_START (HEAP_SIZE - sizeofHeapBlock)
  let mem := setUsed mem HEAP_START 0#32
  let mem := setNext mem HEAP_START 0#32
  { mem := mem, heapStart := HEAP_START, heapUsed := 0#32 }

/-- `size = (size + 3) & ~3`. -/
def alignSize (size : Word) : Word := (size + 3#32) &&& ~~~3#32

/-- "Split block if too large": cut `current` down to `size` bytes and put a free
block behind it. -/
def splitBlock (size current : Word) (m : Mem) : Mem :=
  let newBlock := current + sizeofHeapBlock + size
  let m := setSize m newBlock (blockSize m current - size - sizeofHeapBlock)
  let m := setUsed m newBlock 0#32
  let m := setNext m newBlock (blockNext m current)
  let m := setSize m current size
  setNext m current newBlock

/-- The body of `kmalloc`'s `if`: split `current` when it is too large, mark it
used, and return its payload. -/
def takeBlock (size current : Word) (h : Heap) : Word × Heap :=
  let mem :=
    if size + sizeofHeapBlock + 4#32 < blockSize h.mem current then
      splitBlock size current h.mem
    else h.mem
  let mem := setUsed mem current 1#32
  (current + sizeofHeapBlock, { h with mem := mem, heapUsed := h.heapUsed + blockSize mem current })

/-- `while (current)` in `kmalloc`. -/
def kmallocLoop : Nat → Word → Word → Heap → Option (Word × Heap)
  | 0, _, _, _ => none
  | fuel + 1, size, current, h =>
      if current = 0#32 then some (0#32, h)
      else if blockUsed h.mem current = 0#32 ∧ size ≤ blockSize h.mem current then
        some (takeBlock size current h)
      else kmallocLoop fuel size (blockNext h.mem current) h

/-- One more than the number of headers that fit in the window. -/
def walkFuel : Nat := 349526

def kmalloc (size : Word) (h : Heap) : Option (Word × Heap) :=
  if size = 0#32 then some (0#32, h)
  else kmallocLoop walkFuel (alignSize size) h.heapStart h

/-- `while (current && current->next != block)` in `kfree`. -/
def findPrev : Nat → Mem → Word → Word → Option Word
  | 0, _, _, _ => none
  | fuel + 1, m, block, current =>
      if current ≠ 0#32 ∧ blockNext m current ≠ block then
        findPrev fuel m block (blockNext m current)
      else some current

/-- `block->size += sizeof(heap_block_t) + next->size; block->next = next->next`
for the block and the neighbour it swallows. -/
def mergeInto (m : Mem) (block next : Word) : Mem :=
  let m := setSize m block (blockSize m block + (sizeofHeapBlock + blockSize m next))
  setNext m block (blockNext m next)

/-- "Merge with next block if free". -/
def mergeNext (m : Mem) (block : Word) : Mem :=
  if blockNext m block ≠ 0#32 ∧ blockUsed m (blockNext m block) = 0#32 then
    mergeInto m block (blockNext m block)
  else m

/-- "Merge with previous block". -/
def mergePrev (m : Mem) (heapStart block : Word) : Option Mem :=
  (findPrev walkFuel m block heapStart).map fun current =>
    if current ≠ 0#32 ∧ blockUsed m current = 0#32 then mergeInto m current block else m

def kfree (ptr : Word) (h : Heap) : Option Heap :=
  if ptr = 0#32 then some h
  else
    let block := ptr - sizeofHeapBlock
    if blockUsed h.mem block = 0#32 then some h
    else
      let mem := setUsed h.mem block 0#32
      let heapUsed := h.heapUsed - blockSize mem block
      let mem := mergeNext mem block
      (mergePrev mem h.heapStart block).map fun mem => { h with mem := mem, heapUsed := heapUsed }

def heapGetUsed (h : Heap) : Word := h.heapUsed

def heapGetFree (h : Heap) : Word := HEAP_SIZE - h.heapUsed - sizeofHeapBlock

end Zenix
