import Zenix.Lib.Bitmap

/-!
# The physical memory manager (kernel/mm/pmm.c)

The bitmap lies in memory right behind the kernel image, one bit a page, set
when the page is in use. `Pmm` is that memory together with the globals of the
file.
-/

namespace Zenix
open ByteMemory Bitmap

def BITMAP_SIZE : Word := 0x20000#32

/-- The fields of `multiboot_info_t` that `pmm_init` reads. -/
structure MultibootInfo where
  flags : Word
  memLower : Word
  memUpper : Word

def MULTIBOOT_FLAG_MEM : Word := 1#32

structure Pmm where
  mem : Mem
  memoryBitmap : Word
  totalMemory : Word
  totalBlocks : Word
  usedBlocks : Word

def bitmapSet (s : Pmm) (bit : Word) : Pmm := { s with mem := setBit s.mem s.memoryBitmap bit }

def bitmapClear (s : Pmm) (bit : Word) : Pmm := { s with mem := clearBit s.mem s.memoryBitmap bit }

def bitmapTest (s : Pmm) (bit : Word) : Word := load32 s.mem (wordAddr s.memoryBitmap bit) &&& mask bit

/-- The loop runs over all blocks and returns the first free one, or -1. -/
def bitmapFindFree (s : Pmm) : Word :=
  match (List.range s.totalBlocks.toNat).find? fun i => bitmapTest s (BitVec.ofNat 32 i) = 0#32 with
  | some i => BitVec.ofNat 32 i
  | none => -1#32

/-- `(addr + PAGE_SIZE - 1) & ~(PAGE_SIZE - 1)`. -/
def alignPage (addr : Word) : Word := (addr + 4095#32) &&& ~~~4095#32

def totalMemoryOf (mbi : MultibootInfo) : Word :=
  if mbi.flags &&& MULTIBOOT_FLAG_MEM ≠ 0#32 then (mbi.memLower + mbi.memUpper) * 1024#32
  else 32#32 * 1024#32 * 1024#32

/-- Sets the first `n` words of the bitmap to 0xFFFFFFFF. -/
def bitmapFill (base : Word) : Nat → Mem → Mem
  | 0, m => m
  | n + 1, m => store32 (bitmapFill base n m) (base + 4#32 * BitVec.ofNat 32 n) 0xFFFFFFFF#32

/-- `n` rounds of `bitmap_clear(i); used_blocks--;` from `i` on. -/
def releaseBlocks : Nat → Word → Pmm → Pmm
  | 0, _, s => s
  | n + 1, i, s =>
      let s := bitmapClear s i
      releaseBlocks n (i + 1#32) { s with usedBlocks := s.usedBlocks - 1#32 }

/-- `free_start_addr`, from `memory_bitmap`. -/
def freeStartAddr (memoryBitmap : Word) : Word := alignPage (memoryBitmap + BITMAP_SIZE)

def pmmInit (mbi : MultibootInfo) (kernelEnd : Word) (mem : Mem) : Pmm :=
  let totalMemory := totalMemoryOf mbi
  let totalBlocks := totalMemory / 4096#32
  let memoryBitmap := alignPage kernelEnd
  let s : Pmm :=
    { mem := bitmapFill memoryBitmap (BITMAP_SIZE / 4#32).toNat mem
      memoryBitmap := memoryBitmap
      totalMemory := totalMemory
      totalBlocks := totalBlocks
      usedBlocks := totalBlocks }
  let freeStart := freeStartAddr memoryBitmap / 4096#32
  let freeEnd := totalMemory / 4096#32
  releaseBlocks (freeEnd.toNat - freeStart.toNat) freeStart s

def pmmAllocPage (s : Pmm) : Word × Pmm :=
  let page := bitmapFindFree s
  if page.slt 0#32 then (0#32, s)
  else
    let s := bitmapSet s page
    (page * 4096#32, { s with usedBlocks := s.usedBlocks + 1#32 })

def pmmFreePage (page : Word) (s : Pmm) : Pmm :=
  let pageNum := page / 4096#32
  if s.totalBlocks ≤ pageNum then s
  else if bitmapTest s pageNum = 0#32 then s
  else
    let s := bitmapClear s pageNum
    { s with usedBlocks := s.usedBlocks - 1#32 }

def pmmGetTotalMemory (s : Pmm) : Word := s.totalMemory
def pmmGetUsedMemory (s : Pmm) : Word := s.usedBlocks * 4096#32
def pmmGetFreeMemory (s : Pmm) : Word := (s.totalBlocks - s.usedBlocks) * 4096#32

end Zenix
