import Zenix.Lib.Memory

/-!
# Paging (kernel/mm/paging.c)

The page directory and the 256 tables of the static pool are the C objects of
the source, with their bit fields. A directory entry names its table by address
(`frame << 12`); the model follows that address back into the pool, and a
function returns `none` when the address is not the address of a pool table.
-/

namespace Zenix
open ByteMemory

/-! ## Flags, indices and entries (paging.h) -/

def PAGE_PRESENT : Word := 0x001#32
def PAGE_WRITE : Word := 0x002#32
def PAGE_USER : Word := 0x004#32
def PAGE_SIZE : Word := 4096#32

/-- `(flags & mask) ? 1 : 0`. -/
def hasFlag (flags mask : Word) : Bool := flags &&& mask != 0#32

/-- `PAGE_DIR_INDEX`. -/
def pageDirIndex (addr : Word) : BitVec 10 := (addr >>> 22).setWidth 10

/-- `PAGE_TABLE_INDEX`. -/
def pageTableIndex (addr : Word) : BitVec 10 := ((addr >>> 12) &&& 0x3FF#32).setWidth 10

/-- The 20-bit `frame` field that `addr >> 12` is assigned to. -/
def frameOf (addr : Word) : BitVec 20 := (addr >>> 12).setWidth 20

/-- `frame << 12`. -/
def frameAddr (frame : BitVec 20) : Word := frame.setWidth 32 <<< 12

structure PageDirEntry where
  present : Bool
  rw : Bool
  user : Bool
  pwt : Bool
  pcd : Bool
  accessed : Bool
  reserved : Bool
  pageSize : Bool
  global : Bool
  available : BitVec 3
  frame : BitVec 20

structure PageTableEntry where
  present : Bool
  rw : Bool
  user : Bool
  pwt : Bool
  pcd : Bool
  accessed : Bool
  dirty : Bool
  pat : Bool
  global : Bool
  available : BitVec 3
  frame : BitVec 20

abbrev PageDirectory := BitVec 10 → PageDirEntry
abbrev PageTable := BitVec 10 → PageTableEntry

/-- Where the linker placed `page_tables`: 256 pages, page aligned. -/
structure TablePool where
  base : Nat
  aligned : 4096 ∣ base
  fits : base + 256 * 4096 ≤ 2 ^ 32

/-- `&page_tables[k]`. -/
def TablePool.tableAddr (pool : TablePool) (k : Fin 256) : Word :=
  BitVec.ofNat 32 (pool.base + 4096 * k.val)

/-- The pool table that a pointer points to. -/
def TablePool.tableAt (pool : TablePool) (addr : Word) : Option (Fin 256) :=
  let off := addr.toNat - pool.base
  if h : pool.base ≤ addr.toNat ∧ off < 256 * 4096 ∧ off % 4096 = 0 then
    some ⟨off / 4096, Nat.div_lt_of_lt_mul (Nat.mul_comm 256 4096 ▸ h.2.1)⟩
  else none

/-- `*kernel_directory`, `page_tables` and `next_table_index`. -/
structure Paging where
  directory : PageDirectory
  pageTables : Fin 256 → PageTable
  nextTableIndex : Nat

variable (pool : TablePool)

/-! ## The functions -/

def Paging.setDirEntry (s : Paging) (i : BitVec 10) (e : PageDirEntry) : Paging :=
  { s with directory := fun j => if j = i then e else s.directory j }

def Paging.setTableEntry (s : Paging) (k : Fin 256) (i : BitVec 10) (e : PageTableEntry) : Paging :=
  { s with pageTables := fun l j => if l = k ∧ j = i then e else s.pageTables l j }

/-- `present = 0; rw = 1; user = 0; frame = 0`, the other fields as they were. -/
def clearDirEntry (e : PageDirEntry) : PageDirEntry :=
  { e with present := false, rw := true, user := false, frame := 0#20 }

def clearTableEntry (e : PageTableEntry) : PageTableEntry :=
  { e with present := false, rw := true, user := false, frame := 0#20 }

/-- `alloc_page_table`: the next table of the pool with its entries cleared, or
NULL when the pool is used up. -/
def allocPageTable (s : Paging) : Option (Fin 256 × Paging) :=
  if h : s.nextTableIndex < 256 then
    let k : Fin 256 := ⟨s.nextTableIndex, h⟩
    some (k,
      { s with
        nextTableIndex := s.nextTableIndex + 1
        pageTables := fun l j =>
          if l = k then clearTableEntry (s.pageTables l j) else s.pageTables l j })
  else none

/-- The table of an existing directory entry. -/
def tableOf (e : PageDirEntry) : Option (Fin 256) := pool.tableAt (frameAddr e.frame)

/-- "Set directory entry" for the new table `k`. -/
def newDirEntry (e : PageDirEntry) (k : Fin 256) (flags : Word) : PageDirEntry :=
  { e with
    present := true, rw := true, user := hasFlag flags PAGE_USER
    frame := frameOf (pool.tableAddr k) }

/-- "Set page table entry". -/
def newTableEntry (e : PageTableEntry) (phys flags : Word) : PageTableEntry :=
  { e with
    present := hasFlag flags PAGE_PRESENT, rw := hasFlag flags PAGE_WRITE
    user := hasFlag flags PAGE_USER, frame := frameOf phys }

def pagingMapPage (virt phys flags : Word) (s : Paging) : Option Paging :=
  let d := pageDirIndex virt
  let t := pageTableIndex virt
  if (s.directory d).present = false then
    match allocPageTable s with
    | none => some s  -- "Failed to allocate page table!"
    | some (k, s) =>
        let s := s.setDirEntry d (newDirEntry pool (s.directory d) k flags)
        some (s.setTableEntry k t (newTableEntry (s.pageTables k t) phys flags))
  else
    (tableOf pool (s.directory d)).map fun k =>
      s.setTableEntry k t (newTableEntry (s.pageTables k t) phys flags)

def pagingUnmapPage (virt : Word) (s : Paging) : Option Paging :=
  let d := pageDirIndex virt
  let t := pageTableIndex virt
  if (s.directory d).present = false then some s
  else
    (tableOf pool (s.directory d)).map fun k =>
      s.setTableEntry k t { s.pageTables k t with present := false }

def pagingGetPhysical (virt : Word) (s : Paging) : Option Word :=
  let d := pageDirIndex virt
  let t := pageTableIndex virt
  if (s.directory d).present = false then some 0#32
  else
    (tableOf pool (s.directory d)).map fun k =>
      if (s.pageTables k t).present = false then 0#32
      else frameAddr (s.pageTables k t).frame ||| (virt &&& 0xFFF#32)

/-- `for (i = 0; i < 0x1000000; i += PAGE_SIZE)`, from `i` on. -/
def identityMap (i : Word) (s : Paging) : Option Paging :=
  if i < 0x1000000#32 then
    (pagingMapPage pool i i (PAGE_PRESENT ||| PAGE_WRITE) s).bind (identityMap (i + PAGE_SIZE))
  else some s
termination_by 0x1000000 - i.toNat
decreasing_by
  have hlt : i.toNat < 0x1000000 := by assumption
  have hadd : (i + PAGE_SIZE).toNat = i.toNat + 4096 := by
    rw [PAGE_SIZE, BitVec.toNat_add]
    show (i.toNat + 4096) % 2 ^ 32 = i.toNat + 4096
    omega
  omega

/-- `paging_init` on the page that `pmm_alloc_page` returned, with what the page
and the pool held before. Without a page it returns before it has set anything
up (`some none`). -/
def pagingInit (page : Option PageDirectory) (tables : Fin 256 → PageTable) :
    Option (Option Paging) :=
  match page with
  | none => some none
  | some dir =>
      (identityMap pool 0#32 ⟨fun i => clearDirEntry (dir i), tables, 0⟩).map some

end Zenix
