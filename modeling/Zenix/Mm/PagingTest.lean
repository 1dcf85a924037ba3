import Zenix.Mm.DirectoryInit
import Zenix.Mm.HeapSafety

/-!
# The self-test of paging (kernel/mm/paging.c, kernel/core/kernel.c)

`kernel_main` calls `paging_test` after everything else is set up. The test writes a word at
2 MB and maps the page at 5 MB, which is in the middle of the heap, to 8 MB.

Results:
1. `pagingTest_passes`: the test reports that it has passed.
2. `pagingTest_translate`: where the addresses of the heap lead after it.
3. `pagingTest_readByte`: the bytes of the heap that read as before.
4. `paging_test_keeps_never`: it never leaves the heap as it was.
-/

namespace Zenix
open ByteMemory

/-! ## The test -/

def PageTableEntry.ofWord (w : Word) : PageTableEntry where
  present := w.getLsbD 0
  rw := w.getLsbD 1
  user := w.getLsbD 2
  pwt := w.getLsbD 3
  pcd := w.getLsbD 4
  accessed := w.getLsbD 5
  dirty := w.getLsbD 6
  pat := w.getLsbD 7
  global := w.getLsbD 8
  available := w.extractLsb' 9 3
  frame := w.extractLsb' 12 20

/-- `test_ptr`, `new_virt` and `new_phys`. -/
def testPtr : Word := 0x200000#32
def newVirt : Word := 0x500000#32
def newPhys : Word := 0x800000#32

/-- What the test writes at `test_ptr`. -/
def testWord : Word := 0xDEADBEEF#32

/-- The results that the test prints. -/
structure PagingTestReport where
  identity : Bool
  readWrite : Bool
  tableExists : Bool
  dynamic : Bool
deriving DecidableEq

section Test
variable (pool : TablePool)

/-- The tables when the word is written. It is an entry of the directory, which is at
`dirAddr`, or of a table of the pool when one of them is at 2 MB. -/
def writeTestWord (dirAddr : Word) (s : Paging) : Paging :=
  let s := if dirAddr = testPtr then s.setDirEntry 0#10 (.ofWord testWord) else s
  match pool.tableAt testPtr with
  | none => s
  | some k => s.setTableEntry k 0#10 (.ofWord testWord)

/-- `paging_test`. -/
def pagingTest (dirAddr : Word) (s : Paging) (m : Mem) :
    Option (Paging × Mem × PagingTestReport) := do
  let testPhys ← pagingGetPhysical pool 0x100000#32 s
  let m := store32 m testPtr testWord
  let s := writeTestWord pool dirAddr s
  let tableExists := (s.directory (pageDirIndex testPtr)).present
  let s ← pagingMapPage pool newVirt newPhys (PAGE_PRESENT ||| PAGE_WRITE) s
  let mappedPhys ← pagingGetPhysical pool newVirt s
  pure (s, m, ⟨testPhys = 0x100000#32, load32 m testPtr = testWord, tableExists, mappedPhys = newPhys⟩)

/-! ## The property -/

/-- The physical address of `virt`. -/
def translate (s : Paging) (virt : Word) : Option Word :=
  (pageMap pool s (pageNumber virt)).map fun e => frameAddr e.frame ||| (virt &&& 0xFFF#32)

/-- The byte that a program reads at `virt`. -/
def readByte (s : Paging) (m : Mem) (virt : Word) : Option Byte := (translate pool s virt).map m

/-- The address is in the heap. -/
def HeapWindow (virt : Word) : Prop := 0x400000 ≤ virt.toNat ∧ virt.toNat < 0x800000

/-- The addresses of the heap lead where they did, and the live blocks read as they did. -/
structure HeapKept (run : HeapRun) (s t : Paging) (m' : Mem) : Prop where
  translations : ∀ virt, HeapWindow virt → translate pool t virt = translate pool s virt
  contents : ∀ p n, (p, n) ∈ run.live → ∀ i : Nat, i < n.toNat →
    readByte pool t m' (p + BitVec.ofNat 32 i) =
      readByte pool s run.heap.mem (p + BitVec.ofNat 32 i)

end Test

section Results
variable {pool : TablePool} {s : Paging}

/-- The directory entry of the heap and its table. -/
theorem IdentityMapped.heapTable (hs : IdentityMapped pool 4096 s) :
    (s.directory 1#10).present = true ∧ ∃ k, tableOf pool (s.directory 1#10) = some k := by
  have hp : (s.directory 1#10).present = true := (hs.dirs _).mpr (by decide)
  obtain ⟨k, hk, _⟩ := hs.inv.resolved _ hp
  exact ⟨hp, k, hk⟩

theorem writeTestWord_directory (dirAddr : Word) (s : Paging) (d : BitVec 10) :
    (writeTestWord pool dirAddr s).directory d =
      if dirAddr = testPtr ∧ d = 0#10 then .ofWord testWord else s.directory d := by
  have hdir : ∀ s : Paging, (match pool.tableAt testPtr with
      | none => s
      | some k => s.setTableEntry k 0#10 (.ofWord testWord)).directory = s.directory := by
    intro s
    split <;> rfl
  unfold writeTestWord
  rw [hdir]
  split
  · next h =>
    simp only [Paging.setDirEntry, h, true_and]
  · next h => rw [if_neg fun hd => h hd.1]

theorem writeTestWord_tables (dirAddr : Word) (s : Paging) (k : Fin 256) (i : BitVec 10) :
    (writeTestWord pool dirAddr s).pageTables k i =
      if pool.tableAt testPtr = some k ∧ i = 0#10 then .ofWord testWord else s.pageTables k i := by
  have htables : (if dirAddr = testPtr then s.setDirEntry 0#10 (.ofWord testWord) else s).pageTables =
      s.pageTables := by
    split <;> rfl
  unfold writeTestWord
  dsimp only
  split
  · next h =>
    rw [htables, h, if_neg]
    rintro ⟨hk, _⟩
    cases hk
  · next l h =>
    rw [h]
    simp only [Paging.setTableEntry, htables, Option.some.injEq, eq_comm (a := k)]

/-- The addresses whose translation goes through the directory entry of the heap. -/
theorem translate_table {t : Paging} {virt : Word} {k : Fin 256} (hd : pageDirIndex virt = 1#10)
    (hp : (t.directory 1#10).present = true) (hk : tableOf pool (t.directory 1#10) = some k) :
    translate pool t virt = (t.pageTables k (pageTableIndex virt)).mapping.map
      fun e => frameAddr e.frame ||| (virt &&& 0xFFF#32) := by
  unfold translate
  rw [pageMap_present (k := k) (by rw [hd]; exact hp) (by rw [hd]; exact hk)]

theorem pagingGetPhysical_table {t : Paging} {virt : Word} {k : Fin 256}
    (hd : pageDirIndex virt = 1#10) (hp : (t.directory 1#10).present = true)
    (hk : tableOf pool (t.directory 1#10) = some k) :
    pagingGetPhysical pool virt t = some (if (t.pageTables k (pageTableIndex virt)).present = false
      then 0#32 else frameAddr (t.pageTables k (pageTableIndex virt)).frame ||| (virt &&& 0xFFF#32)) := by
  simp only [pagingGetPhysical, hd, hp, hk, Option.map_some, Bool.true_eq_false, if_false]

/-- The tables after the test, when the page table of the heap is the `k`-th one. -/
def remapped (pool : TablePool) (dirAddr : Word) (s : Paging) (k : Fin 256) : Paging :=
  (writeTestWord pool dirAddr s).setTableEntry k 256#10
    (newTableEntry ((writeTestWord pool dirAddr s).pageTables k 256#10) newPhys
      (PAGE_PRESENT ||| PAGE_WRITE))

theorem remapped_directory (pool : TablePool) (dirAddr : Word) (s : Paging) (k : Fin 256) :
    (remapped pool dirAddr s k).directory 1#10 = s.directory 1#10 :=
  (writeTestWord_directory dirAddr s 1#10).trans (if_neg fun h => absurd h.2 (by decide))

theorem pagingTest_run (hs : IdentityMapped pool 4096 s) (dirAddr : Word) (m : Mem) {k : Fin 256}
    (hk : tableOf pool (s.directory 1#10) = some k) :
    pagingTest pool dirAddr s m = some
      (remapped pool dirAddr s k, store32 m testPtr testWord, ⟨true, true, true, true⟩) := by
  obtain ⟨hp, _⟩ := hs.heapTable
  have hdir := remapped_directory pool dirAddr s k
  have hphys : pagingGetPhysical pool 0x100000#32 s = some 0x100000#32 := by
    rw [pagingGetPhysical_spec hs.inv, hs.map, if_pos (by decide)]
    rfl
  have hexists : ((writeTestWord pool dirAddr s).directory (pageDirIndex testPtr)).present = true := by
    have hzero : pageDirIndex testPtr = 0#10 := by decide
    rw [hzero, writeTestWord_directory]
    split
    · rfl
    · exact (hs.dirs _).mpr (by decide)
  have hd : pageDirIndex newVirt = 1#10 := by decide
  have ht : pageTableIndex newVirt = 256#10 := by decide
  -- the page at 5 MB has a table already, so that the pool stays as it is
  have hmap : pagingMapPage pool newVirt newPhys (PAGE_PRESENT ||| PAGE_WRITE)
      (writeTestWord pool dirAddr s) = some (remapped pool dirAddr s k) := by
    have hdir' : (writeTestWord pool dirAddr s).directory 1#10 = s.directory 1#10 := hdir
    simp only [pagingMapPage, hd, ht, hdir', hp, hk, Option.map_some, Bool.true_eq_false, if_false]
    rfl
  have hmapped : pagingGetPhysical pool newVirt (remapped pool dirAddr s k) = some newPhys := by
    rw [pagingGetPhysical_table hd (k := k) (by rw [hdir, hp]) (by rw [hdir, hk]), ht]
    simp only [remapped, Paging.setTableEntry, newTableEntry, and_self, if_true]
    rfl
  unfold pagingTest
  rw [hphys, Option.bind_eq_bind, Option.bind_some]
  dsimp only
  rw [hmap, Option.bind_eq_bind, Option.bind_some, hmapped, Option.bind_some, hexists,
    load32_store32_same]
  rfl

/-- The test passes, whatever it has done. -/
theorem pagingTest_passes (hs : IdentityMapped pool 4096 s) (dirAddr : Word) (m : Mem) :
    ∃ t, pagingTest pool dirAddr s m =
      some (t, store32 m testPtr testWord, ⟨true, true, true, true⟩) := by
  obtain ⟨_, k, hk⟩ := hs.heapTable
  exact ⟨_, pagingTest_run hs dirAddr m hk⟩

/-- Where the addresses of the heap lead after the test: the page at 5 MB to 8 MB, the page
at 4 MB to what the word is as an entry, if the table of the heap is at 2 MB, and all others
where they did. -/
theorem pagingTest_translate (hs : IdentityMapped pool 4096 s) {dirAddr : Word} {m m' : Mem}
    {t : Paging} {r : PagingTestReport} (h : pagingTest pool dirAddr s m = some (t, m', r))
    {virt : Word} (hv : HeapWindow virt) :
    translate pool t virt =
      if pageTableIndex virt = 256#10 then some (newPhys ||| (virt &&& 0xFFF#32))
      else if pageTableIndex virt = 0#10 ∧ pool.tableAt testPtr = tableOf pool (s.directory 1#10) then
        some (0xDEADB000#32 ||| (virt &&& 0xFFF#32))
      else translate pool s virt := by
  obtain ⟨hp, k, hk⟩ := hs.heapTable
  have hd : pageDirIndex virt = 1#10 := by
    obtain ⟨hlo, hhi⟩ := hv
    apply BitVec.eq_of_toNat_eq
    simp only [pageDirIndex, BitVec.toNat_setWidth, BitVec.toNat_ushiftRight,
      Nat.shiftRight_eq_div_pow]
    change virt.toNat / 4194304 % 1024 = 1
    omega
  rw [pagingTest_run hs dirAddr m hk] at h
  cases h
  have hdir := remapped_directory pool dirAddr s k
  rw [translate_table hd (k := k) (by rw [hdir, hp]) (by rw [hdir, hk]), translate_table hd hp hk, hk]
  have hnew : ∀ e : PageTableEntry, (newTableEntry e newPhys (PAGE_PRESENT ||| PAGE_WRITE)).mapping =
      some ⟨frameOf newPhys, true, false⟩ := fun _ => rfl
  have hword : (PageTableEntry.ofWord testWord).mapping = some ⟨0xDEADB#20, true, true⟩ := by decide
  have haddr : frameAddr (frameOf newPhys) = newPhys := by decide
  have haddr' : frameAddr 0xDEADB#20 = 0xDEADB000#32 := by decide
  simp only [remapped, Paging.setTableEntry, true_and]
  split
  · rw [hnew, Option.map_some, haddr]
  · rw [writeTestWord_tables]
    split
    · next h => rw [if_pos ⟨h.2, h.1⟩, hword, Option.map_some, haddr']
    · next h => rw [if_neg fun h' => h ⟨h'.2, h'.1⟩]

/-- The test never keeps the heap: 5 MB leads to 8 MB after it. -/
theorem HeapKept.false {run : HeapRun} {dirAddr : Word} {m m' : Mem} {t : Paging}
    {r : PagingTestReport} (hs : IdentityMapped pool 4096 s)
    (h : pagingTest pool dirAddr s m = some (t, m', r)) : ¬ HeapKept pool run s t m' := by
  intro hkept
  have hwindow : HeapWindow newVirt := ⟨by decide, by decide⟩
  have hsame := hkept.translations newVirt hwindow
  rw [pagingTest_translate hs h hwindow, if_pos (by decide), translate, hs.map,
    if_pos (by decide)] at hsame
  exact absurd (Option.some.inj hsame) (by decide)

/-- Before the test the heap is mapped to itself. -/
theorem translate_identity (hs : IdentityMapped pool 4096 s) {virt : Word} (hv : HeapWindow virt) :
    translate pool s virt = some virt := by
  obtain ⟨_, hhi⟩ := hv
  rw [translate, hs.map, if_pos (by rw [pageNumber_toNat]; omega), Option.map_some,
    frameAddr_or_offset]

/-- The live bytes in the other pages read as before. -/
theorem pagingTest_readByte (hs : IdentityMapped pool 4096 s) {dirAddr : Word} {m m' : Mem}
    {t : Paging} {r : PagingTestReport} (h : pagingTest pool dirAddr s m = some (t, m', r))
    {virt : Word} (hv : HeapWindow virt) (hpage : pageTableIndex virt ≠ 256#10)
    (htable : ¬ (pageTableIndex virt = 0#10 ∧
      pool.tableAt testPtr = tableOf pool (s.directory 1#10))) :
    readByte pool t m' virt = readByte pool s m virt := by
  obtain ⟨_, k, hk⟩ := hs.heapTable
  have hmem : m' = store32 m testPtr testWord := by
    rw [pagingTest_run hs dirAddr m hk] at h
    cases h
    rfl
  have hoff : SameOff m (store32 m testPtr testWord) 0x200000 0x200004 :=
    store32_sameOff (show testPtr.toNat + 4 ≤ 2 ^ 32 by decide)
  have hbyte : m' virt = m virt := by
    rw [hmem]
    exact hoff virt (Or.inr (Nat.le_trans (by decide) hv.1))
  rw [readByte, readByte, pagingTest_translate hs h hv, if_neg hpage, if_neg htable,
    translate_identity hs hv, Option.map_some, Option.map_some, hbyte]

end Results

/-- Whatever the heap holds, `paging_test` after `paging_init` reports that it has passed and
leaves the heap with another translation. -/
theorem paging_test_keeps_never (pool : TablePool) (dirAddr : Word) {s : Paging} (run : HeapRun)
    (hs : (pagingSystem pool).init s) :
    ∃ t m', pagingTest pool dirAddr s run.heap.mem = some (t, m', ⟨true, true, true, true⟩) ∧
      ¬ HeapKept pool run s t m' := by
  have hid := pagingInit_identityMapped hs
  obtain ⟨t, ht⟩ := pagingTest_passes hid dirAddr run.heap.mem
  exact ⟨t, _, ht, HeapKept.false hid ht⟩

/-- The directory at 3 MB and a fresh heap. -/
theorem paging_test_keeps_never_fresh : ∃ s t m', (pagingSystem poolAt2M).init s ∧
    pagingTest poolAt2M 0x300000#32 s (heapInit fun _ => 0#8).mem =
      some (t, m', ⟨true, true, true, true⟩) ∧
    ¬ HeapKept poolAt2M ⟨heapInit fun _ => 0#8, []⟩ s t m' := by
  obtain ⟨s, hs, _⟩ := exists_pagingInit poolAt2M
  obtain ⟨t, m', ht, hkept⟩ := paging_test_keeps_never poolAt2M 0x300000#32
    ⟨heapInit fun _ => 0#8, []⟩ hs
  exact ⟨s, t, m', hs, ht, hkept⟩

theorem heap_remapped : ¬ ∀ (pool : TablePool) (dirAddr : Word) (s t : Paging) (run : HeapRun)
    (m' : Mem) (r : PagingTestReport), (pagingSystem pool).init s → heapSystem.Reachable run →
      pagingTest pool dirAddr s run.heap.mem = some (t, m', r) → HeapKept pool run s t m' := by
  intro h
  obtain ⟨s, hs, hid⟩ := exists_pagingInit poolAt2M
  obtain ⟨t, ht⟩ := pagingTest_passes hid 0x300000#32 (heapInit fun _ => 0#8).mem
  exact HeapKept.false hid ht (h _ _ _ _ ⟨heapInit fun _ => 0#8, []⟩ _ _ hs (.init ⟨_, rfl⟩) ht)

end Zenix
