import Zenix.Fs.Vfs
import Zenix.Libc
import Zenix.Mm.Heap

/-!
# The initrd file system (kernel/fs/initrd.c)

`initrd_init` builds a table of nodes from the headers of an image in memory, and
`initrd_read` copies from a file. The kernel's `initrd_file_header_t` is packed,
so headers are 73 bytes apart. What the functions print is left out.
-/

namespace Zenix
open ByteMemory

/-- `sizeof(initrd_header_t)` and `sizeof(initrd_file_header_t)`. -/
def sizeofInitrdHeader : Word := 4#32
def sizeofFileHeader : Word := 73#32

/-- Where the linker has put the functions that nodes point to. -/
structure InitrdSymbols where
  read : Word
  readdir : Word
  finddir : Word

/-- Memory, the heap and the statics of initrd.c. -/
structure Initrd where
  heap : Heap
  initrdRoot : Word
  initrdDev : Word
  rootNodes : Word
  nrootNodes : Word
  fileHeaders : Word

def Initrd.withMem (s : Initrd) (m : Mem) : Initrd := { s with heap := { s.heap with mem := m } }

/-- `p[0] | (p[1] << 8) | (p[2] << 16) | (p[3] << 24)`. -/
def fourBytes (m : Mem) (p : Word) : Word :=
  (m p).setWidth 32 ||| (m (p + 1#32)).setWidth 32 <<< 8 ||| (m (p + 2#32)).setWidth 32 <<< 16 |||
    (m (p + 3#32)).setWidth 32 <<< 24

/-! ## The fields of `initrd_file_header_t` -/

def headerName (fh : Word) : Word := fh + 1#32
def headerOffset (m : Mem) (fh : Word) : Word := load32 m (fh + 65#32)
def headerLength (m : Mem) (fh : Word) : Word := load32 m (fh + 69#32)

/-! ## `initrd_init` -/

/-- The node of the root directory. -/
def initRootNode (sym : InitrdSymbols) (m : Mem) (root : Word) : Mem :=
  let m := memset m root 0#8 172
  let m := strcpyLiteral m root [0x69#8, 0x6E#8, 0x69#8, 0x74#8, 0x72#8, 0x64#8]
  let m := setFlags m root FS_DIRECTORY
  let m := setReaddir m root sym.readdir
  setFinddir m root sym.finddir

/-- The node of "dev". -/
def initDevNode (m : Mem) (dev : Word) : Mem :=
  let m := memset m dev 0#8 172
  let m := strcpyLiteral m dev [0x64#8, 0x65#8, 0x76#8]
  setFlags m dev FS_DIRECTORY

/-- The body of the loop, for the header `fh` and the node `node`. -/
def initFileNode (sym : InitrdSymbols) (location fh node i : Word) (m : Mem) : Mem :=
  let foffset := fourBytes m (fh + 65#32)
  let flength := fourBytes m (fh + 69#32)
  let m := strncpy m node (headerName fh) 63
  let m := store8 m (node + 63#32) 0#8
  let m := setFlags m node FS_FILE
  let m := setRead m node sym.read
  let m := setInode m node i
  let m := setLength m node flength
  setImpl m node (location + foffset)

/-- `&root_nodes[i]`. -/
def fileNode (rootNodes : Word) (i : Nat) : Word := rootNodes + BitVec.ofNat 32 i * sizeofFsNode

/-- The header of file `i`, behind the count. -/
def fileHeaderAt (location : Word) (i : Nat) : Word :=
  location + sizeofInitrdHeader + BitVec.ofNat 32 i * sizeofFileHeader

/-- The first `n` rounds of `for (i = 0; i < nroot_nodes; i++)`. -/
def initFileNodes (sym : InitrdSymbols) (location rootNodes : Word) : Nat → Mem → Mem
  | 0, m => m
  | i + 1, m =>
      initFileNode sym location (fileHeaderAt location i) (fileNode rootNodes i) (BitVec.ofNat 32 i)
        (initFileNodes sym location rootNodes i m)

def initrdInit (sym : InitrdSymbols) (location : Word) (s : Initrd) : Option (Word × Initrd) :=
  if location < 0x100000#32 then some (0#32, s)
  else
    let n := fourBytes s.heap.mem location
    let s := { s with nrootNodes := n }
    if n = 0#32 ∨ 10#32 < n then some (0#32, s)
    else
      (kmalloc sizeofFsNode s.heap).bind fun (root, h) =>
        let s := { s with heap := h, initrdRoot := root }
        if root = 0#32 then some (0#32, s)
        else
          let s := s.withMem (initRootNode sym s.heap.mem root)
          (kmalloc sizeofFsNode s.heap).bind fun (dev, h) =>
            let s := { s with heap := h, initrdDev := dev }
            if dev = 0#32 then (kfree root s.heap).map fun h => (0#32, { s with heap := h })
            else
              let s := s.withMem (initDevNode s.heap.mem dev)
              (kmalloc (sizeofFsNode * n) s.heap).bind fun (nodes, h) =>
                let s := { s with heap := h, rootNodes := nodes }
                if nodes = 0#32 then
                  (kfree dev s.heap).bind fun h =>
                    (kfree root h).map fun h => (0#32, { s with heap := h })
                else
                  let m := memset s.heap.mem nodes 0#8 (sizeofFsNode * n).toNat
                  let m := initFileNodes sym location nodes n.toNat m
                  some (root, { s.withMem m with fileHeaders := location + sizeofInitrdHeader })

/-! ## `initrd_read` -/

def initrdRead (node offset size buffer : Word) (s : Initrd) : Word × Initrd :=
  let m := s.heap.mem
  if node = 0#32 ∨ buffer = 0#32 then (0#32, s)
  else if s.nrootNodes ≤ nodeInode m node then (0#32, s)
  else
    let header := s.fileHeaders + nodeInode m node * sizeofFileHeader
    if headerLength m header < offset then (0#32, s)
    else
      let size := if headerLength m header < offset + size then headerLength m header - offset else size
      (size, s.withMem (memcpy m buffer (headerOffset m header + offset) size.toNat))

/-- `node->read(node, offset, size, buffer)`. The call can be followed where the
pointer is the one to `initrd_read`. -/
def callRead (sym : InitrdSymbols) (node offset size buffer : Word) (s : Initrd) :
    Option (Word × Initrd) :=
  if nodeRead s.heap.mem node = sym.read then some (initrdRead node offset size buffer s) else none

/-- The four bytes are or-ed into disjoint places. -/
theorem fourBytes_eq (m : Mem) (p : Word) : fourBytes m p = load32 m p := by
  apply BitVec.eq_of_getLsbD_eq
  intro i hi
  have hout : ∀ (b : Byte) (k : Nat), 8 ≤ k → b.getLsbD k = false :=
    fun b k hk => BitVec.getLsbD_of_ge b k hk
  have hsub : ∀ k, i - k < 32 := fun k => by omega
  simp only [fourBytes, load32, BitVec.getLsbD_or, BitVec.getLsbD_append, BitVec.getLsbD_shiftLeft,
    BitVec.getLsbD_setWidth, hi, hsub, decide_true, Bool.true_and]
  rcases Nat.lt_or_ge i 8 with h8 | h8
  · simp [h8, show i < 16 by omega, show i < 24 by omega]
  · rcases Nat.lt_or_ge i 16 with h16 | h16
    · simp [hout _ i h8, h16, show ¬ i < 8 by omega, show i < 24 by omega, show i - 8 < 8 by omega]
    · rcases Nat.lt_or_ge i 24 with h24 | h24
      · simp [hout _ i h8, hout _ (i - 8) (by omega), show ¬ i < 8 by omega, show ¬ i < 16 by omega,
          h24, show ¬ i - 8 < 8 by omega, show i - 8 - 8 = i - 16 by omega,
          show i - 16 < 8 by omega]
      · simp [hout _ i h8, hout _ (i - 8) (by omega), hout _ (i - 16) (by omega),
          show ¬ i < 8 by omega, show ¬ i < 16 by omega, show ¬ i < 24 by omega,
          show ¬ i - 8 < 8 by omega, show ¬ i - 8 - 8 < 8 by omega,
          show i - 8 - 8 - 8 = i - 24 by omega]

end Zenix
