import Zenix.Mm.Pmm

/-!
# The bitmap as a set of pages

`Taken s i` says that the bitmap has page `i` in use. The specification of each
function says what it does to that set.

Results:
1. `pmmInit_taken`: after `pmm_init` the pages from `free_start` on are free and
   all others are in use.
2. `pmmInit_sameOff`: it writes to the bitmap and nowhere else.
3. `pmmAllocPage_cases`: an allocation takes the lowest free page, or there is
   none.
4. `pmmFreePage_cases`: a release frees at most the page of its argument.
-/

namespace Zenix
open ByteMemory Bitmap

/-- The bitmap has page `i` in use. -/
def Taken (s : Pmm) (i : Nat) : Prop := bitAt s.mem s.memoryBitmap (BitVec.ofNat 32 i) = true

instance (s : Pmm) (i : Nat) : Decidable (Taken s i) := inferInstanceAs (Decidable (_ = _))

theorem bitmapTest_eq_zero {s : Pmm} {i : Nat} :
    bitmapTest s (BitVec.ofNat 32 i) = 0#32 ↔ ¬ Taken s i := by
  rw [bitmapTest, Taken, ← and_mask_ne_zero, not_not]

theorem taken_bitmapSet {s : Pmm} {i j : Nat} (hi : i < 2 ^ 32) (hj : j < 2 ^ 32) :
    Taken (bitmapSet s (BitVec.ofNat 32 i)) j ↔ j = i ∨ Taken s j := by
  rw [Taken, bitmapSet, bitAt_setBit, Bool.or_eq_true, decide_eq_true_eq, ofNat_inj hj hi, Taken]

theorem taken_bitmapClear {s : Pmm} {i j : Nat} (hi : i < 2 ^ 32) (hj : j < 2 ^ 32) :
    Taken (bitmapClear s (BitVec.ofNat 32 i)) j ↔ j ≠ i ∧ Taken s j := by
  rw [Taken, bitmapClear, bitAt_clearBit, Bool.and_eq_true, Bool.not_eq_true', decide_eq_false_iff_not,
    ofNat_inj hj hi, Taken]

/-- `used_blocks` does not show in the bitmap. -/
theorem taken_usedBlocks {s : Pmm} {n : Word} {i : Nat} :
    Taken { s with usedBlocks := n } i ↔ Taken s i := Iff.rfl

/-! ## `pmm_init` -/

/-- The words that `bitmapFill` stores to. -/
theorem fillAddr_eq (base : Word) {n : Nat} (hn : n < 2 ^ 15) :
    base + 4#32 * BitVec.ofNat 32 n = wordAddr base (BitVec.ofNat 32 (32 * n)) := by
  unfold wordAddr
  congr 2
  apply BitVec.eq_of_toNat_eq
  rw [BitVec.toNat_udiv, toNat_ofNat_of_lt (a := 32 * n) (by omega), toNat_ofNat_of_lt (by omega)]
  show n = 32 * n / 32
  omega

theorem bitAt_bitmapFill {base : Word} {m : Mem} {n i : Nat} (hn : n ≤ 2 ^ 15) (hi : i < 32 * n) :
    bitAt (bitmapFill base n m) base (BitVec.ofNat 32 i) = true := by
  induction n with
  | zero => omega
  | succ n ih =>
    have hi' : (BitVec.ofNat 32 i).toNat = i := toNat_ofNat_of_lt (by omega)
    have hn' : (BitVec.ofNat 32 (32 * n)).toNat = 32 * n := toNat_ofNat_of_lt (by omega)
    rw [bitmapFill, fillAddr_eq base (by omega), bitAt_store, hi', hn']
    split
    · have hlt : i % 32 < 32 := Nat.mod_lt _ (by decide)
      rw [show 0xFFFFFFFF#32 = BitVec.allOnes 32 from rfl, BitVec.getLsbD_allOnes, decide_eq_true hlt]
    · exact ih (by omega) (by omega)

/-- The rounds of `releaseBlocks` touch the bitmap and the count only. -/
theorem releaseBlocks_frame (n : Nat) (i : Word) (s : Pmm) :
    (releaseBlocks n i s).memoryBitmap = s.memoryBitmap ∧
      (releaseBlocks n i s).totalMemory = s.totalMemory ∧
      (releaseBlocks n i s).totalBlocks = s.totalBlocks := by
  induction n generalizing i s with
  | zero => exact ⟨rfl, rfl, rfl⟩
  | succ n ih => exact ih _ _

theorem taken_releaseBlocks {n i j : Nat} {s : Pmm} (hin : i + n < 2 ^ 32) (hj : j < 2 ^ 32) :
    Taken (releaseBlocks n (BitVec.ofNat 32 i) s) j ↔ ¬ (i ≤ j ∧ j < i + n) ∧ Taken s j := by
  induction n generalizing i s with
  | zero =>
    unfold releaseBlocks
    exact (and_iff_right (by omega)).symm
  | succ n ih =>
    rw [releaseBlocks, ofNat_add_ofNat]
    rw [ih (by omega), taken_usedBlocks, taken_bitmapClear (by omega) hj, ← and_assoc]
    exact and_congr_left fun _ => by omega

theorem alignPage_dvd (addr : Word) : (alignPage addr).toNat % 4096 = 0 := by
  have h : (alignPage addr).toNat = (addr + 4095#32).toNat / 2 ^ 12 * 2 ^ 12 :=
    toNat_and_not_mask (addr + 4095#32) 12
  omega

/-- The blocks that `pmm_init` counts. -/
def totalBlocksOf (mbi : MultibootInfo) : Nat := (totalMemoryOf mbi / 4096#32).toNat

/-- The first page that `pmm_init` releases. -/
def freeStartOf (kernelEnd : Word) : Nat := (freeStartAddr (alignPage kernelEnd) / 4096#32).toNat

theorem totalBlocksOf_lt (mbi : MultibootInfo) : totalBlocksOf mbi < 2 ^ 20 := by
  have hlt := (totalMemoryOf mbi).isLt
  rw [totalBlocksOf, BitVec.toNat_udiv, show (4096#32).toNat = 4096 from rfl]
  omega

theorem freeStartOf_lt (kernelEnd : Word) : freeStartOf kernelEnd < 2 ^ 20 := by
  have hlt := (freeStartAddr (alignPage kernelEnd)).isLt
  rw [freeStartOf, BitVec.toNat_udiv, show (4096#32).toNat = 4096 from rfl]
  omega

theorem pmmInit_frame (mbi : MultibootInfo) (kernelEnd : Word) (mem : Mem) :
    (pmmInit mbi kernelEnd mem).memoryBitmap = alignPage kernelEnd ∧
      (pmmInit mbi kernelEnd mem).totalMemory = totalMemoryOf mbi ∧
      (pmmInit mbi kernelEnd mem).totalBlocks = totalMemoryOf mbi / 4096#32 :=
  releaseBlocks_frame _ _ _

theorem pmmInit_taken {mbi : MultibootInfo} {kernelEnd : Word} {mem : Mem} {i : Nat}
    (hi : i < 2 ^ 20) :
    Taken (pmmInit mbi kernelEnd mem) i ↔ ¬ (freeStartOf kernelEnd ≤ i ∧ i < totalBlocksOf mbi) := by
  have htotal := totalBlocksOf_lt mbi
  have hstart := freeStartOf_lt kernelEnd
  have hword : freeStartAddr (alignPage kernelEnd) / 4096#32 =
      BitVec.ofNat 32 (freeStartOf kernelEnd) := by
    rw [freeStartOf, BitVec.ofNat_toNat, BitVec.setWidth_eq]
  have hfill : Taken
      { mem := bitmapFill (alignPage kernelEnd) (BITMAP_SIZE / 4#32).toNat mem
        memoryBitmap := alignPage kernelEnd
        totalMemory := totalMemoryOf mbi
        totalBlocks := totalMemoryOf mbi / 4096#32
        usedBlocks := totalMemoryOf mbi / 4096#32 } i :=
    bitAt_bitmapFill (by decide) (by show i < 32 * 32768; omega)
  simp only [pmmInit]
  rw [hword, taken_releaseBlocks, and_iff_left hfill]
  · show ¬ (_ ∧ i < freeStartOf kernelEnd + (totalBlocksOf mbi - _)) ↔ _
    rw [toNat_ofNat_of_lt (by omega)]
    omega
  · show freeStartOf kernelEnd + (totalBlocksOf mbi - _) < 2 ^ 32
    omega
  · omega

/-- The word of a bit lies in the bitmap. -/
theorem wordAddr_bounds {base : Word} (hbase : base.toNat + 0x20000 ≤ 2 ^ 32) {i : Nat}
    (hi : i < 2 ^ 20) :
    base.toNat ≤ (wordAddr base (BitVec.ofNat 32 i)).toNat ∧
      (wordAddr base (BitVec.ofNat 32 i)).toNat + 4 ≤ base.toNat + 0x20000 := by
  have hoff := wordOffset_toNat (BitVec.ofNat 32 i)
  rw [toNat_ofNat_of_lt (by omega)] at hoff
  unfold wordAddr
  rw [toNat_add_of_lt (by omega), hoff]
  omega

theorem storeWord_sameOff {m : Mem} {base v : Word} (hbase : base.toNat + 0x20000 ≤ 2 ^ 32)
    {i : Nat} (hi : i < 2 ^ 20) :
    SameOff m (store32 m (wordAddr base (BitVec.ofNat 32 i)) v) base.toNat
      (base.toNat + 0x20000) := by
  obtain ⟨hlo, hhi⟩ := wordAddr_bounds hbase hi
  exact (store32_sameOff (by omega)).mono hlo hhi

theorem releaseBlocks_sameOff {n i : Nat} {s : Pmm}
    (hbase : s.memoryBitmap.toNat + 0x20000 ≤ 2 ^ 32) (hn : i + n ≤ 2 ^ 20) :
    SameOff s.mem (releaseBlocks n (BitVec.ofNat 32 i) s).mem s.memoryBitmap.toNat
      (s.memoryBitmap.toNat + 0x20000) := by
  induction n generalizing i s with
  | zero => exact SameOff.refl _ _ _
  | succ n ih =>
    have hclear : SameOff s.mem (bitmapClear s (BitVec.ofNat 32 i)).mem s.memoryBitmap.toNat
        (s.memoryBitmap.toNat + 0x20000) := storeWord_sameOff hbase (by omega)
    rw [releaseBlocks, ofNat_add_ofNat]
    exact hclear.trans (ih (s := { bitmapClear s (BitVec.ofNat 32 i) with
      usedBlocks := s.usedBlocks - 1#32 }) hbase (by omega))

theorem bitmapFill_sameOff {base : Word} {m : Mem} {n : Nat} (hn : n ≤ 2 ^ 15)
    (hbase : base.toNat + 0x20000 ≤ 2 ^ 32) :
    SameOff m (bitmapFill base n m) base.toNat (base.toNat + 0x20000) := by
  induction n with
  | zero => exact SameOff.refl _ _ _
  | succ n ih =>
    rw [bitmapFill, fillAddr_eq base (by omega)]
    exact (ih (by omega)).trans (storeWord_sameOff hbase (by omega))

/-- `pmm_init` writes to the bitmap and nowhere else. -/
theorem pmmInit_sameOff (mbi : MultibootInfo) {kernelEnd : Word} (mem : Mem)
    (hbase : (alignPage kernelEnd).toNat + 0x20000 ≤ 2 ^ 32) :
    SameOff mem (pmmInit mbi kernelEnd mem).mem (alignPage kernelEnd).toNat
      ((alignPage kernelEnd).toNat + 0x20000) := by
  have hword : freeStartAddr (alignPage kernelEnd) / 4096#32 =
      BitVec.ofNat 32 (freeStartOf kernelEnd) := by
    rw [freeStartOf, BitVec.ofNat_toNat, BitVec.setWidth_eq]
  have htotal := totalBlocksOf_lt mbi
  have hstart := freeStartOf_lt kernelEnd
  have hwords : (BITMAP_SIZE / 4#32).toNat ≤ 2 ^ 15 := by decide
  -- `unfold` would make the kernel run the loop that fills the bitmap
  rw [pmmInit, hword]
  refine (bitmapFill_sameOff hwords hbase).trans ?_
  refine releaseBlocks_sameOff (s := ⟨_, alignPage kernelEnd, _, _, _⟩) hbase ?_
  rw [toNat_ofNat_of_lt (by omega)]
  change _ + (totalBlocksOf mbi - _) ≤ _
  omega

/-! ## Allocation and release -/

theorem bitmapFindFree_cases (s : Pmm) :
    (bitmapFindFree s = -1#32 ∧ ∀ i, i < s.totalBlocks.toNat → Taken s i) ∨
      ∃ i, i < s.totalBlocks.toNat ∧ bitmapFindFree s = BitVec.ofNat 32 i ∧ ¬ Taken s i ∧
        ∀ j, j < i → Taken s j := by
  unfold bitmapFindFree
  cases hfind : (List.range s.totalBlocks.toNat).find?
      fun i => bitmapTest s (BitVec.ofNat 32 i) = 0#32 with
  | none =>
    refine Or.inl ⟨rfl, fun i hi => ?_⟩
    have h := List.find?_eq_none.mp hfind i (List.mem_range.mpr hi)
    rw [decide_eq_true_eq, bitmapTest_eq_zero, not_not] at h
    exact h
  | some i =>
    obtain ⟨hfree, hi, hlow⟩ := List.find?_range_eq_some.mp hfind
    rw [decide_eq_true_eq, bitmapTest_eq_zero] at hfree
    refine Or.inr ⟨i, List.mem_range.mp hi, rfl, hfree, fun j hj => ?_⟩
    have h := hlow j hj
    simpa [bitmapTest_eq_zero] using h

/-- `pmm_alloc_page` returns NULL and changes nothing when all pages are in use,
and otherwise takes the lowest free page. -/
theorem pmmAllocPage_cases {s : Pmm} (htotal : s.totalBlocks.toNat < 2 ^ 20) :
    (pmmAllocPage s = (0#32, s) ∧ ∀ i, i < s.totalBlocks.toNat → Taken s i) ∨
      ∃ i, i < s.totalBlocks.toNat ∧ ¬ Taken s i ∧ (∀ j, j < i → Taken s j) ∧
        pmmAllocPage s = (BitVec.ofNat 32 (4096 * i),
          { bitmapSet s (BitVec.ofNat 32 i) with usedBlocks := s.usedBlocks + 1#32 }) := by
  rcases bitmapFindFree_cases s with ⟨hfind, hall⟩ | ⟨i, hi, hfind, hfree, hlow⟩
  · refine Or.inl ⟨?_, hall⟩
    rw [pmmAllocPage, hfind]
    rfl
  · refine Or.inr ⟨i, hi, hfree, hlow, ?_⟩
    have hnat : (BitVec.ofNat 32 i).toNat = i := toNat_ofNat_of_lt (by omega)
    have hpos : (BitVec.ofNat 32 i).slt 0#32 = false := by
      rw [BitVec.slt, decide_eq_false_iff_not, BitVec.toInt_eq_toNat_of_lt (by rw [hnat]; omega)]
      exact Int.not_lt.mpr (Int.natCast_nonneg _)
    simp only [pmmAllocPage, hfind, hpos, Bool.false_eq_true, if_false]
    rw [Nat.mul_comm, BitVec.ofNat_mul]
    rfl

/-- `pmm_free_page` frees the page that its argument lies in, if that is a page
in use. -/
theorem pmmFreePage_cases (page : Word) (s : Pmm) :
    (pmmFreePage page s = s ∧
        (s.totalBlocks.toNat ≤ page.toNat / 4096 ∨ ¬ Taken s (page.toNat / 4096))) ∨
      (page.toNat / 4096 < s.totalBlocks.toNat ∧ Taken s (page.toNat / 4096) ∧
        pmmFreePage page s =
          { bitmapClear s (BitVec.ofNat 32 (page.toNat / 4096)) with
            usedBlocks := s.usedBlocks - 1#32 }) := by
  have hnum : page / 4096#32 = BitVec.ofNat 32 (page.toNat / 4096) := by
    apply BitVec.eq_of_toNat_eq
    have hlt := page.isLt
    rw [BitVec.toNat_udiv, toNat_ofNat_of_lt (a := page.toNat / 4096) (by omega)]
    rfl
  have hle : s.totalBlocks ≤ BitVec.ofNat 32 (page.toNat / 4096) ↔
      s.totalBlocks.toNat ≤ page.toNat / 4096 := by
    have hlt := page.isLt
    rw [BitVec.le_def, toNat_ofNat_of_lt (a := page.toNat / 4096) (by omega)]
  simp only [pmmFreePage, hnum]
  cases Decidable.em (s.totalBlocks.toNat ≤ page.toNat / 4096) with
  | inl hout =>
    rw [if_pos (hle.mpr hout)]
    exact Or.inl ⟨rfl, Or.inl hout⟩
  | inr hin =>
    rw [if_neg (mt hle.mp hin)]
    cases Decidable.em (Taken s (page.toNat / 4096)) with
    | inl ht =>
      rw [if_neg (mt bitmapTest_eq_zero.mp (not_not.mpr ht))]
      exact Or.inr ⟨Nat.lt_of_not_le hin, ht, rfl⟩
    | inr ht =>
      rw [if_pos (bitmapTest_eq_zero.mpr ht)]
      exact Or.inl ⟨rfl, Or.inr ht⟩

end Zenix
