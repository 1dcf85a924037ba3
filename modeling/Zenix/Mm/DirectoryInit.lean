import Mathlib.Tactic.IntervalCases
import Zenix.Mm.PagingRefinement
import Zenix.Mm.PmmOverlap

/-!
# The page directory as the processor reads it

`pmm_alloc_page` does not clear the page that it returns. `paging_init` makes it the
page directory and assigns the fields `present`, `rw`, `user` and `frame` of its
entries; the other bits of the 1024 words stay what they were.

Results:
1. `word_ofWord`, `word_spare_iff`: the bit fields of an entry as a word.
2. `identityMap_spare`: what `paging_init` leaves of the page.
3. `directory_initialised_iff`: the directory is as it should be exactly when these
   bits were clear in the page.
4. `directory_not_initialised`: a page with a bit set.
-/

namespace Zenix
open ByteMemory

/-! ## Entries as words (paging.h) -/

/-- The word that the bit fields of an entry make up. -/
def PageDirEntry.word (e : PageDirEntry) : Word :=
  e.frame ++ e.available ++ BitVec.ofBool e.global ++ BitVec.ofBool e.pageSize ++
    BitVec.ofBool e.reserved ++ BitVec.ofBool e.accessed ++ BitVec.ofBool e.pcd ++
    BitVec.ofBool e.pwt ++ BitVec.ofBool e.user ++ BitVec.ofBool e.rw ++ BitVec.ofBool e.present

/-- The bit fields of a word. -/
def PageDirEntry.ofWord (w : Word) : PageDirEntry where
  present := w.getLsbD 0
  rw := w.getLsbD 1
  user := w.getLsbD 2
  pwt := w.getLsbD 3
  pcd := w.getLsbD 4
  accessed := w.getLsbD 5
  reserved := w.getLsbD 6
  pageSize := w.getLsbD 7
  global := w.getLsbD 8
  available := w.extractLsb' 9 3
  frame := w.extractLsb' 12 20

/-- The bits other than `present`, `rw`, `user` and `frame`. -/
def spareBits : Word := 0xFF8#32

/-- The directory in the page at `page`. -/
def directoryAt (m : Mem) (page : Word) : PageDirectory :=
  fun i => .ofWord (load32 m (page + 4#32 * i.setWidth 32))

/-- `paging_init` with its call of `pmm_alloc_page`. -/
def pagingInitFrom (pool : TablePool) (s : Pmm) (tables : Fin 256 → PageTable) :
    Option (Option Paging) :=
  let r := pmmAllocPage s
  pagingInit pool (if r.1 = 0#32 then none else some (directoryAt r.2.mem r.1)) tables

/-! ## The property -/

/-- What the directory should be: nothing but the four fields, an identity mapping of
the first 16 MB through tables of their own, and nothing else. -/
structure DirectoryInitialised (pool : TablePool) (s : Paging) : Prop where
  clean : ∀ i, (s.directory i).word &&& spareBits = 0#32
  tables : ∀ i : BitVec 10, i.toNat < 4 → (s.directory i).present = true ∧
    ∃ k, tableOf pool (s.directory i) = some k ∧
      (∀ j, (s.pageTables k j).present = true ∧ (s.pageTables k j).frame.toNat = 1024 * i.toNat + j.toNat) ∧
      ∀ i' : BitVec 10, (s.directory i').present = true → tableOf pool (s.directory i') = some k → i' = i
  absent : ∀ i : BitVec 10, 4 ≤ i.toNat → (s.directory i).present = false

/-! ## The spare bits -/

theorem word_ofWord (w : Word) : (PageDirEntry.ofWord w).word = w := by
  apply BitVec.eq_of_getLsbD_eq
  intro i hi
  unfold PageDirEntry.word PageDirEntry.ofWord
  simp only [BitVec.getLsbD_append, BitVec.getLsbD_ofBool, BitVec.getLsbD_extractLsb']
  interval_cases i <;> rfl

/-- The spare bits of an entry come from its other fields. -/
theorem word_spare (e : PageDirEntry) :
    e.word &&& spareBits =
      0#20 ++ e.available ++ BitVec.ofBool e.global ++ BitVec.ofBool e.pageSize ++
        BitVec.ofBool e.reserved ++ BitVec.ofBool e.accessed ++ BitVec.ofBool e.pcd ++
        BitVec.ofBool e.pwt ++ 0#1 ++ 0#1 ++ 0#1 := by
  apply BitVec.eq_of_getLsbD_eq
  intro i hi
  rw [BitVec.getLsbD_and]
  unfold PageDirEntry.word spareBits
  simp only [BitVec.getLsbD_append, BitVec.getLsbD_ofBool]
  interval_cases i <;> simp

/-- No function of the file assigns the fields of the spare bits. -/
theorem clearDirEntry_spare (e : PageDirEntry) :
    (clearDirEntry e).word &&& spareBits = e.word &&& spareBits := by
  rw [word_spare, word_spare]
  rfl

theorem newDirEntry_spare (pool : TablePool) (e : PageDirEntry) (k : Fin 256) (flags : Word) :
    (newDirEntry pool e k flags).word &&& spareBits = e.word &&& spareBits := by
  rw [word_spare, word_spare]
  rfl

variable {pool : TablePool}

theorem pagingMapPage_spare {s t : Paging} {virt phys flags : Word}
    (h : pagingMapPage pool virt phys flags s = some t) (i : BitVec 10) :
    (t.directory i).word &&& spareBits = (s.directory i).word &&& spareBits := by
  rcases pagingMapPage_directory h with ⟨hdir, _⟩ | ⟨_, _, _, k, hdir⟩
  · rw [hdir]
  · rw [hdir]
    dsimp only
    split
    · next hi => rw [newDirEntry_spare, hi]
    · rfl

theorem identityMap_spare {i : Word} {s t : Paging} (h : identityMap pool i s = some t)
    (d : BitVec 10) : (t.directory d).word &&& spareBits = (s.directory d).word &&& spareBits := by
  fun_induction identityMap pool i s with
  | case1 i s hi ih =>
    obtain ⟨u, hu, hrest⟩ := Option.bind_eq_some_iff.mp h
    exact (ih u hrest).trans (pagingMapPage_spare hu d)
  | case2 i s hi =>
    cases h
    rfl

/-! ## `paging_init` -/

theorem DirectoryInitialised.of_identityMapped {s : Paging} (hs : IdentityMapped pool 4096 s)
    (hclean : ∀ i, (s.directory i).word &&& spareBits = 0#32) : DirectoryInitialised pool s := by
  refine ⟨hclean, fun i hi => ?_, fun i hi => ?_⟩
  · have hp : (s.directory i).present = true := (hs.dirs i).mpr (by omega)
    obtain ⟨k, hk, _⟩ := hs.inv.resolved i hp
    refine ⟨hp, k, hk, fun j => ?_, fun i' hi' hk' =>
      hs.inv.unshared i' i k (levels_dir_some pool hi' hk') (levels_dir_some pool hp hk)⟩
    -- the page with the indices `i` and `j`
    have hdirpart : dirPart (i ++ j) = i := by
      apply BitVec.eq_of_toNat_eq
      have hj := j.isLt
      unfold dirPart
      rw [BitVec.toNat_setWidth, BitVec.toNat_ushiftRight, BitVec.toNat_append,
        Nat.shiftRight_eq_div_pow, Nat.shiftLeft_eq, Nat.mul_comm,
        ← Nat.two_pow_add_eq_or_of_lt hj]
      omega
    have htablepart : tablePart (i ++ j) = j := by
      apply BitVec.eq_of_toNat_eq
      have hj := j.isLt
      unfold tablePart
      rw [BitVec.toNat_setWidth, BitVec.toNat_append, Nat.shiftLeft_eq, Nat.mul_comm,
        ← Nat.two_pow_add_eq_or_of_lt hj]
      omega
    have hnat : (i ++ j).toNat = 1024 * i.toNat + j.toNat := by
      rw [BitVec.toNat_append, Nat.shiftLeft_eq, Nat.mul_comm,
        ← Nat.two_pow_add_eq_or_of_lt j.isLt]
    have hmap := hs.map (i ++ j)
    have hj := j.isLt
    rw [if_pos (by omega), pageMap, hdirpart, htablepart,
      TwoLevel.lookup_of_dir (levels_dir_some pool hp hk)] at hmap
    change (s.pageTables k j).mapping = _ at hmap
    unfold PageTableEntry.mapping at hmap
    split at hmap
    · next hpresent =>
      have hframe : (s.pageTables k j).frame = i ++ j := (Mapping.mk.inj (Option.some.inj hmap)).1
      rw [hframe]
      exact ⟨hpresent, hnat⟩
    · cases hmap
  · rw [← Bool.not_eq_true, hs.dirs]
    omega

/-- What `paging_init` makes of a page: the directory is what it should be exactly when
the page had none of the spare bits set. -/
theorem pagingInit_initialised (pool : TablePool) (dir : PageDirectory)
    (tables : Fin 256 → PageTable) :
    ∃ t, pagingInit pool (some dir) tables = some (some t) ∧
      (DirectoryInitialised pool t ↔ ∀ i, (dir i).word &&& spareBits = 0#32) := by
  obtain ⟨t, ht, hid⟩ := pagingInit_spec pool dir tables
  have hmap : identityMap pool 0#32 ⟨fun i => clearDirEntry (dir i), tables, 0⟩ = some t := by
    obtain ⟨u, hu, heq⟩ := Option.map_eq_some_iff.mp ht
    exact hu.trans heq
  have hspare : ∀ i, (t.directory i).word &&& spareBits = (dir i).word &&& spareBits :=
    fun i => (identityMap_spare hmap i).trans (clearDirEntry_spare (dir i))
  refine ⟨t, ht, fun h i => ?_, fun h => .of_identityMapped hid fun i => ?_⟩
  · rw [← hspare]
    exact h.clean i
  · rw [hspare]
    exact h i

theorem pagingInitFrom_page {s : Pmm} (hpage : (pmmAllocPage s).1 ≠ 0#32)
    (tables : Fin 256 → PageTable) :
    pagingInitFrom pool s tables =
      pagingInit pool (some (directoryAt (pmmAllocPage s).2.mem (pmmAllocPage s).1)) tables := by
  unfold pagingInitFrom
  dsimp only
  rw [if_neg hpage]

/-- For every page that `pmm_alloc_page` returns, `paging_init` leaves a directory that
is fully initialised exactly when the bits that it does not assign were clear in all 1024
words of the page. -/
theorem directory_initialised_iff (pool : TablePool) (s : Pmm) (tables : Fin 256 → PageTable)
    (hpage : (pmmAllocPage s).1 ≠ 0#32) :
    ∃ t, pagingInitFrom pool s tables = some (some t) ∧
      (DirectoryInitialised pool t ↔ ∀ i : BitVec 10,
        load32 (pmmAllocPage s).2.mem ((pmmAllocPage s).1 + 4#32 * i.setWidth 32) &&& spareBits =
          0#32) := by
  obtain ⟨t, ht, hiff⟩ :=
    pagingInit_initialised pool (directoryAt (pmmAllocPage s).2.mem (pmmAllocPage s).1) tables
  simp only [directoryAt, word_ofWord] at hiff
  rw [pagingInitFrom_page hpage]
  exact ⟨t, ht, hiff⟩

/-! ## A page that has been in use -/

/-- Where the bitmap lies below the heap, `heap_init` does not touch it. -/
theorem taken_heapInit_below {s : Pmm} (hbase : s.memoryBitmap.toNat + 0x20000 ≤ 0x400000) {i : Nat}
    (hi : i < 2 ^ 20) : Taken (heapInitOn s) i ↔ Taken s i := by
  have hend : s.memoryBitmap.toNat + 0x20000 ≤ 2 ^ 32 := by omega
  obtain ⟨hlo, hhi⟩ := wordAddr_bounds hend hi
  have hon : SameOn s.mem (heapInit s.mem).mem s.memoryBitmap.toNat
      (s.memoryBitmap.toNat + 0x20000) := (heapInit_sameOff s.mem).sameOn (by omega)
  unfold Taken heapInitOn
  exact Bool.eq_iff_iff.mp (Bitmap.bitAt_congr hon hlo hhi (by omega))

/-- 32 MB of memory, all bytes the same, and a kernel that ends at 3 MB. -/
def memoryOf (b : Byte) : Pmm := pmmHeapInit ⟨0#32, 0#32, 0#32⟩ 0x300000#32 fun _ => b

/-- The first page behind the bitmap. -/
def firstPage : Word := 0x320000#32

section Memory
variable (b : Byte)

theorem memoryOf_bitmap : (memoryOf b).memoryBitmap = 0x300000#32 := by
  unfold memoryOf
  rw [pmmHeapInit_memoryBitmap]
  decide

theorem memoryOf_alloc : pmmAllocPage (memoryOf b) =
    (firstPage, { bitmapSet (memoryOf b) (BitVec.ofNat 32 0x320) with
      usedBlocks := (memoryOf b).usedBlocks + 1#32 }) := by
  have htotal : (memoryOf b).totalBlocks.toNat = 0x2000 := by
    unfold memoryOf
    rw [pmmHeapInit_total]
    decide
  have htaken : ∀ i, i < 2 ^ 20 → (Taken (memoryOf b) i ↔ ¬ (0x320 ≤ i ∧ i < 0x2000)) := by
    intro i hi
    have hinit : Taken (pmmInit ⟨0#32, 0#32, 0#32⟩ 0x300000#32 fun _ => b) i ↔ _ :=
      pmmInit_taken hi
    have hbase : (pmmInit ⟨0#32, 0#32, 0#32⟩ 0x300000#32 fun _ => b).memoryBitmap =
        0x300000#32 := (pmmInit_frame _ _ _).1
    unfold memoryOf pmmHeapInit
    rw [taken_heapInit_below (by rw [hbase]; decide) hi, hinit]
    rfl
  have hfirst : ¬ Taken (memoryOf b) 0x320 := by
    rw [htaken 0x320 (by decide)]
    decide
  rcases pmmAllocPage_cases (s := memoryOf b) (by omega) with
    ⟨_, hall⟩ | ⟨i, hi, hfree, hlow, hcall⟩
  · exact absurd (hall 0x320 (by omega)) hfirst
  · rw [htotal] at hi
    rw [htaken i (by omega), not_not] at hfree
    have hle : ¬ 0x320 < i := fun h => hfirst (hlow 0x320 h)
    obtain rfl : i = 0x320 := by omega
    exact hcall

/-- The words of that page are what they were. -/
theorem memoryOf_word (j : BitVec 10) :
    load32 (pmmAllocPage (memoryOf b)).2.mem ((pmmAllocPage (memoryOf b)).1 + 4#32 * j.setWidth 32) =
      b ++ b ++ b ++ b := by
  have hj := j.isLt
  have hend : (alignPage 0x300000#32).toNat + 0x20000 ≤ 2 ^ 32 := by decide
  have hinit := pmmInit_sameOff ⟨0#32, 0#32, 0#32⟩ (fun _ => b) hend
  have hmul : (4#32 * j.setWidth 32).toNat = 4 * j.toNat := by
    rw [BitVec.toNat_mul, BitVec.toNat_setWidth, show (4#32).toNat = 4 from rfl]
    omega
  have haddr : (firstPage + 4#32 * j.setWidth 32).toNat = 0x320000 + 4 * j.toNat := by
    have hfirst : firstPage.toNat = 0x320000 := rfl
    rw [toNat_add_of_lt (by omega), hmul, hfirst]
  have hset : SameOff (memoryOf b).mem
      (Bitmap.setBit (memoryOf b).mem 0x300000#32 (BitVec.ofNat 32 0x320)) 0x300000 0x320000 :=
    storeWord_sameOff (show (0x300000#32).toNat + 0x20000 ≤ 2 ^ 32 by decide)
      (show 0x320 < 2 ^ 20 by decide)
  have hmem : (bitmapSet (memoryOf b) (BitVec.ofNat 32 0x320)).mem =
      Bitmap.setBit (memoryOf b).mem 0x300000#32 (BitVec.ofNat 32 0x320) := by
    rw [bitmapSet, memoryOf_bitmap]
  have hon : SameOn (fun _ => b) (bitmapSet (memoryOf b) (BitVec.ofNat 32 0x320)).mem
      0x320000 0x321000 := by
    have h₁ : SameOn (fun _ => b) (pmmInit ⟨0#32, 0#32, 0#32⟩ 0x300000#32 fun _ => b).mem
        0x320000 0x321000 := hinit.sameOn (Or.inr (by decide))
    have h₂ : SameOn (pmmInit ⟨0#32, 0#32, 0#32⟩ 0x300000#32 fun _ => b).mem (memoryOf b).mem
        0x320000 0x321000 := (heapInit_sameOff _).sameOn (Or.inl (by decide))
    rw [hmem]
    exact (h₁.trans h₂).trans (hset.sameOn (Or.inr (by decide)))
  rw [memoryOf_alloc]
  dsimp only
  rw [load32_congr hon (by omega) (by omega) (by decide)]
  rfl

theorem memoryOf_page : (pmmAllocPage (memoryOf b)).1 ≠ 0#32 := by
  rw [memoryOf_alloc]
  exact show firstPage ≠ 0#32 by decide

end Memory

/-- A pool of clear page tables. -/
def clearTables : Fin 256 → PageTable := fun _ _ =>
  ⟨false, false, false, false, false, false, false, false, false, 0#3, 0#20⟩

/-- The directory in a clear page is fully initialised. -/
theorem directory_initialised_clear : ∃ t,
    pagingInitFrom poolAt2M (memoryOf 0#8) clearTables = some (some t) ∧
      DirectoryInitialised poolAt2M t := by
  obtain ⟨t, ht, hiff⟩ :=
    directory_initialised_iff poolAt2M (memoryOf 0#8) clearTables (memoryOf_page 0#8)
  refine ⟨t, ht, hiff.mpr fun j => ?_⟩
  rw [memoryOf_word]
  decide

/-- The directory in a page that has been in use is not: its entries have the bit
`page_size` set. -/
theorem directory_not_initialised : ∃ t,
    pagingInitFrom poolAt2M (memoryOf 0x80#8) clearTables = some (some t) ∧
      ¬ DirectoryInitialised poolAt2M t := by
  rw [pagingInitFrom_page (memoryOf_page 0x80#8)]
  obtain ⟨t, ht, hiff⟩ := pagingInit_initialised poolAt2M (directoryAt _ _) clearTables
  refine ⟨t, ht, fun h => ?_⟩
  have hword := hiff.mp h 0#10
  rw [directoryAt, word_ofWord, memoryOf_word] at hword
  exact absurd hword (by decide)

end Zenix
