import Zenix.Mm.HeapRefinement
import Zenix.Mm.PmmRuns

/-!
# Physical pages and the heap window

`kernel_main` calls `pmm_init` and then `heap_init`. The heap window is a
constant, and `pmm_init` does not know about it: it releases every page behind
its bitmap.

Results:
1. `pages_avoid_heap_iff`: no run hands out a page of the heap window exactly
   when no released page lies in it.
2. `page_in_heap`: with 32 MB of memory a run hands one out.
-/

namespace Zenix
open ByteMemory Bitmap

/-! ## The system -/

/-- `heap_init` writes the first block header into memory. -/
def heapInitOn (s : Pmm) : Pmm := { s with mem := (heapInit s.mem).mem }

def pmmHeapInit (mbi : MultibootInfo) (kernelEnd : Word) (mem : Mem) : Pmm :=
  heapInitOn (pmmInit mbi kernelEnd mem)

def pmmSystem (mbi : MultibootInfo) (kernelEnd : Word) : TransitionSystem PmmRun PmmOp where
  init := fun s => ∃ mem, s = ⟨pmmHeapInit mbi kernelEnd mem, []⟩
  step := PmmStep

/-- The page has a byte in the heap window. -/
def OverlapsHeap (page : Word) : Prop :=
  page.toNat < HEAP_START.toNat + HEAP_SIZE.toNat ∧ HEAP_START.toNat < page.toNat + 4096

instance (page : Word) : Decidable (OverlapsHeap page) := inferInstanceAs (Decidable (_ ∧ _))

/-- A page of the heap window is among those that `pmm_init` releases. -/
def ReleasesHeapPage (mbi : MultibootInfo) (kernelEnd : Word) : Prop :=
  1024 < totalBlocksOf mbi ∧ freeStartOf kernelEnd < 2048 ∧
    freeStartOf kernelEnd < totalBlocksOf mbi

variable {mbi : MultibootInfo} {kernelEnd : Word}

/-! ## The window in terms of page numbers -/

theorem overlapsHeap_iff {i : Nat} (hi : i < 2 ^ 20) :
    OverlapsHeap (BitVec.ofNat 32 (4096 * i)) ↔ 1024 ≤ i ∧ i < 2048 := by
  rw [OverlapsHeap, toNat_ofNat_of_lt (by omega)]
  show 4096 * i < 0x400000 + 0x400000 ∧ 0x400000 < 4096 * i + 4096 ↔ _
  omega

theorem releasesHeapPage_iff :
    ReleasesHeapPage mbi kernelEnd ↔
      ∃ q, (1024 ≤ q ∧ q < 2048) ∧ freeStartOf kernelEnd ≤ q ∧ q < totalBlocksOf mbi := by
  constructor
  · rintro ⟨htotal, hstart, hlt⟩
    exact ⟨max 1024 (freeStartOf kernelEnd), by omega, by omega, by omega⟩
  · rintro ⟨q, hq, hle, hlt⟩
    exact ⟨by omega, by omega, by omega⟩

/-! ## `heap_init` and the bitmap -/

/-- The block header that `heap_init` writes does not touch the bits of the
window, even where it hits the bitmap. -/
theorem taken_heapInit {s : Pmm} (hbase : s.memoryBitmap.toNat % 4096 = 0) {q : Nat}
    (hq : 1024 ≤ q ∧ q < 2048) : Taken (heapInitOn s) q ↔ Taken s q := by
  have hoff := wordOffset_toNat (BitVec.ofNat 32 q)
  rw [toNat_ofNat_of_lt (by omega)] at hoff
  have haddr : (wordAddr s.memoryBitmap (BitVec.ofNat 32 q)).toNat % 4096 = 4 * (q / 32) := by
    rw [wordAddr, BitVec.toNat_add, hoff]
    omega
  have hlt := (wordAddr s.memoryBitmap (BitVec.ofNat 32 q)).isLt
  have hon : SameOn s.mem (heapInit s.mem).mem (wordAddr s.memoryBitmap (BitVec.ofNat 32 q)).toNat
      ((wordAddr s.memoryBitmap (BitVec.ofNat 32 q)).toNat + 4) :=
    (heapInit_sameOff s.mem).sameOn (by omega)
  rw [Taken, Taken, heapInitOn]
  exact Bool.eq_iff_iff.mp (bitAt_congr hon (Nat.le_refl _) (Nat.le_refl _) (by omega))

theorem pmmHeapInit_taken {mem : Mem} {q : Nat} (hq : 1024 ≤ q ∧ q < 2048) :
    Taken (pmmHeapInit mbi kernelEnd mem) q ↔
      ¬ (freeStartOf kernelEnd ≤ q ∧ q < totalBlocksOf mbi) := by
  have hbase : (pmmInit mbi kernelEnd mem).memoryBitmap.toNat % 4096 = 0 := by
    rw [(pmmInit_frame mbi kernelEnd mem).1]
    exact alignPage_dvd kernelEnd
  rw [pmmHeapInit, taken_heapInit hbase hq, pmmInit_taken (by omega)]

/-! ## What every run keeps -/

/-- The block count, and the pages of `w` are in use but not handed out. -/
structure WindowReserved (n : Nat) (s : PmmRun) : Prop where
  total : s.pmm.totalBlocks.toNat = n
  taken : ∀ q, 1024 ≤ q ∧ q < 2048 → q < n → Taken s.pmm q
  live : ∀ page ∈ s.live, ¬ (1024 ≤ page.toNat / 4096 ∧ page.toNat / 4096 < 2048)

/-- As long as the window is reserved, an allocation stays out of it. -/
theorem WindowReserved.alloc {n : Nat} {s : PmmRun} (hs : WindowReserved n s) (hn : n < 2 ^ 20)
    {page : Word} {t : Pmm} (h : pmmAllocPage s.pmm = (page, t)) :
    WindowReserved n ⟨t, if page = 0#32 then s.live else page :: s.live⟩ ∧ ¬ OverlapsHeap page := by
  have htotal := hs.total
  rcases pmmAllocPage_cases (s := s.pmm) (by omega) with ⟨h', _⟩ | ⟨i, hi, hfree, _, h'⟩
  · cases h'.symm.trans h
    exact ⟨hs, by decide⟩
  · have hout : ¬ (1024 ≤ i ∧ i < 2048) := fun hwin => hfree (hs.taken i hwin (by omega))
    cases h'.symm.trans h
    refine ⟨⟨htotal, ?_, ?_⟩, mt (overlapsHeap_iff (by omega)).mp hout⟩
    · intro q hq hlt
      rw [taken_usedBlocks, taken_bitmapSet (by omega) (by omega)]
      exact Or.inr (hs.taken q hq hlt)
    · intro page hpage
      dsimp only at hpage
      split at hpage
      · exact hs.live page hpage
      · rcases List.mem_cons.mp hpage with rfl | hpage
        · rw [toNat_ofNat_of_lt (by omega), Nat.mul_div_cancel_left i (by decide)]
          exact hout
        · exact hs.live page hpage

theorem WindowReserved.free {n : Nat} {s : PmmRun} (hs : WindowReserved n s) {page : Word}
    (hpage : page ∈ s.live) :
    WindowReserved n ⟨pmmFreePage page s.pmm, s.live.erase page⟩ := by
  have hlive : ∀ q ∈ s.live.erase page, ¬ (1024 ≤ q.toNat / 4096 ∧ q.toNat / 4096 < 2048) :=
    fun q hq => hs.live q (List.mem_of_mem_erase hq)
  have hlt := page.isLt
  rcases pmmFreePage_cases page s.pmm with ⟨h, _⟩ | ⟨_, _, h⟩
  · rw [h]
    exact ⟨hs.total, hs.taken, hlive⟩
  · rw [h]
    refine ⟨hs.total, fun q hq hqn => ?_, hlive⟩
    rw [taken_usedBlocks, taken_bitmapClear (by omega) (by omega)]
    refine ⟨?_, hs.taken q hq hqn⟩
    rintro rfl
    exact hs.live page hpage hq

theorem heapInitOn_totalBlocks (s : Pmm) : (heapInitOn s).totalBlocks = s.totalBlocks := rfl

theorem heapInitOn_memoryBitmap (s : Pmm) : (heapInitOn s).memoryBitmap = s.memoryBitmap := rfl

theorem pmmHeapInit_memoryBitmap (mbi : MultibootInfo) (kernelEnd : Word) (mem : Mem) :
    (pmmHeapInit mbi kernelEnd mem).memoryBitmap = alignPage kernelEnd := by
  rw [pmmHeapInit, heapInitOn_memoryBitmap, (pmmInit_frame mbi kernelEnd mem).1]

theorem pmmHeapInit_total (mbi : MultibootInfo) (kernelEnd : Word) (mem : Mem) :
    (pmmHeapInit mbi kernelEnd mem).totalBlocks.toNat = totalBlocksOf mbi := by
  rw [pmmHeapInit, heapInitOn_totalBlocks, (pmmInit_frame mbi kernelEnd mem).2.2, totalBlocksOf]

theorem reachable_reserved (hrel : ¬ ReleasesHeapPage mbi kernelEnd) {s : PmmRun}
    (h : (pmmSystem mbi kernelEnd).Reachable s) : WindowReserved (totalBlocksOf mbi) s := by
  refine h.invariant (P := WindowReserved (totalBlocksOf mbi)) ?_ ?_
  · rintro s ⟨mem, rfl⟩
    refine ⟨pmmHeapInit_total mbi kernelEnd mem, fun q hq hlt => ?_, fun _ hp => ?_⟩
    · rw [pmmHeapInit_taken hq]
      exact fun hrange => hrel (releasesHeapPage_iff.mpr ⟨q, hq, hrange⟩)
    · exact absurd hp List.not_mem_nil
  · intro s op t _ hs hst
    cases hst with
    | alloc h => exact (hs.alloc (totalBlocksOf_lt mbi) h).1
    | free hp => exact hs.free hp

/-! ## A run that reaches the window -/

theorem exists_heap_page {q : Nat} (hq : 1024 ≤ q ∧ q < 2048) {s : PmmRun}
    (hs : (pmmSystem mbi kernelEnd).Reachable s) (htotal : s.pmm.totalBlocks.toNat < 2 ^ 20)
    (hlt : q < s.pmm.totalBlocks.toNat) (hfree : ¬ Taken s.pmm q) :
    ∃ s page t, (pmmSystem mbi kernelEnd).Reachable s ∧ pmmAllocPage s.pmm = (page, t) ∧
      page ≠ 0#32 ∧ OverlapsHeap page := by
  obtain ⟨ops, t, u, hrun, _, hcall⟩ := exists_alloc_run (S := pmmSystem mbi kernelEnd) (d := q)
    (fun _ _ _ h => h) htotal hlt hfree (fun j hj => by omega)
  exact ⟨t, _, u, hs.run hrun, hcall, ofNat_ne_zero (by omega) (by omega),
    (overlapsHeap_iff (by omega)).mpr hq⟩

theorem exists_heap_page_of_released (hrel : ReleasesHeapPage mbi kernelEnd) :
    ∃ s page t, (pmmSystem mbi kernelEnd).Reachable s ∧ pmmAllocPage s.pmm = (page, t) ∧
      page ≠ 0#32 ∧ OverlapsHeap page := by
  obtain ⟨q, hq, hrange⟩ := releasesHeapPage_iff.mp hrel
  have htotal := pmmHeapInit_total mbi kernelEnd fun _ => 0#8
  have hlt := totalBlocksOf_lt mbi
  refine exists_heap_page hq (.init ⟨fun _ => 0#8, rfl⟩) (htotal ▸ hlt) (htotal ▸ hrange.2) ?_
  rw [pmmHeapInit_taken hq]
  exact fun h => h hrange

/-- The pages that runs hand out stay clear of the heap window if and only if
`pmm_init` releases no page of it. -/
theorem pages_avoid_heap_iff (mbi : MultibootInfo) (kernelEnd : Word) :
    (∀ s page t, (pmmSystem mbi kernelEnd).Reachable s → pmmAllocPage s.pmm = (page, t) →
      page ≠ 0#32 → ¬ OverlapsHeap page) ↔ ¬ ReleasesHeapPage mbi kernelEnd := by
  constructor
  · intro hall hrel
    obtain ⟨s, page, t, hs, hcall, hpage, hover⟩ := exists_heap_page_of_released hrel
    exact hall s page t hs hcall hpage hover
  · intro hrel s page t hs hcall _
    exact ((reachable_reserved hrel hs).alloc (totalBlocksOf_lt mbi) hcall).2

/-- 32 MB of memory (no `MULTIBOOT_FLAG_MEM`) and a kernel that ends at 2 MB. -/
theorem page_in_heap :
    ∃ s page t, (pmmSystem ⟨0#32, 0#32, 0#32⟩ 0x200000#32).Reachable s ∧
      pmmAllocPage s.pmm = (page, t) ∧ page ≠ 0#32 ∧ OverlapsHeap page :=
  exists_heap_page_of_released (by unfold ReleasesHeapPage; decide)

end Zenix
