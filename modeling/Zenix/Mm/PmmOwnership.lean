import Zenix.Mm.PmmRuns

/-!
# Ownership of physical pages

From `pmm_init` on, the pool behind the bitmap is split between the free pages
and the pages handed out. `PagesOwned` says so in terms of the bitmap; it is
kept by both calls.

Results:
1. `page_ownership`: an allocation returns the lowest free page of the pool or,
   when there is none, NULL; what it returns is live once; a page freed can be
   allocated again.
-/

namespace Zenix
open ByteMemory Bitmap

/-- `bitmap_end` of `pmm_init`. -/
def bitmapEnd (kernelEnd : Word) : Word := alignPage kernelEnd + BITMAP_SIZE

/-- The page-aligned addresses of `[align_up(bitmap_end), total_blocks * PAGE_SIZE)`. -/
def PoolPage (mbi : MultibootInfo) (kernelEnd page : Word) : Prop :=
  page.toNat % 4096 = 0 ∧ (alignPage (bitmapEnd kernelEnd)).toNat ≤ page.toNat ∧
    page.toNat < totalBlocksOf mbi * 4096

/-- `pmm_init`, and then any calls. -/
def pagePoolSystem (mbi : MultibootInfo) (kernelEnd : Word) : TransitionSystem PmmRun PmmOp where
  init := fun s => ∃ mem, s = ⟨pmmInit mbi kernelEnd mem, []⟩
  step := PmmStep

/-- The bitmap has in use what lies below the pool and the pages handed out. -/
structure PagesOwned (mbi : MultibootInfo) (kernelEnd : Word) (s : PmmRun) : Prop where
  total : s.pmm.totalBlocks.toNat = totalBlocksOf mbi
  taken : ∀ i, i < totalBlocksOf mbi →
    (Taken s.pmm i ↔ i < freeStartOf kernelEnd ∨ pageAt i ∈ s.live)
  pool : ∀ page ∈ s.live, PoolPage mbi kernelEnd page
  nodup : s.live.Nodup

variable {mbi : MultibootInfo} {kernelEnd : Word}

/-! ## The pool in terms of page numbers -/

theorem toNat_alignPage {addr : Word} (h : addr.toNat < 2 ^ 31) :
    (alignPage addr).toNat = (addr.toNat + 4095) / 4096 * 4096 := by
  have hsum : (addr + 4095#32).toNat = addr.toNat + 4095 := toNat_add_ofNat (by omega)
  have hmask : (alignPage addr).toNat = (addr + 4095#32).toNat / 2 ^ 12 * 2 ^ 12 :=
    toNat_and_not_mask (addr + 4095#32) 12
  rw [hmask, hsum, show 2 ^ 12 = 4096 from rfl]

theorem toNat_bitmapEnd (hk : kernelEnd.toNat < 2 ^ 31) :
    (bitmapEnd kernelEnd).toNat = (alignPage kernelEnd).toNat + 0x20000 := by
  have hbase := toNat_alignPage hk
  exact toNat_add_ofNat (n := 0x20000) (by omega)

theorem freeStart_eq (kernelEnd : Word) :
    (alignPage (bitmapEnd kernelEnd)).toNat = 4096 * freeStartOf kernelEnd := by
  have hmod := alignPage_dvd (bitmapEnd kernelEnd)
  have hdiv : freeStartOf kernelEnd = (alignPage (bitmapEnd kernelEnd)).toNat / 4096 :=
    BitVec.toNat_udiv
  omega

/-- The bitmap keeps page 0 out of the pool. -/
theorem freeStartOf_pos (hk : kernelEnd.toNat < 2 ^ 31) (hb : (bitmapEnd kernelEnd).toNat < 2 ^ 31) :
    0 < freeStartOf kernelEnd := by
  have hend := toNat_bitmapEnd hk
  have hstart := toNat_alignPage hb
  have heq := freeStart_eq kernelEnd
  omega

theorem poolPage_iff {page : Word} :
    PoolPage mbi kernelEnd page ↔
      ∃ i, freeStartOf kernelEnd ≤ i ∧ i < totalBlocksOf mbi ∧ page = pageAt i := by
  have htotal := totalBlocksOf_lt mbi
  rw [PoolPage, freeStart_eq]
  constructor
  · rintro ⟨hmod, hlo, hhi⟩
    refine ⟨page.toNat / 4096, by omega, by omega, ?_⟩
    rw [pageAt, Nat.mul_div_cancel' (Nat.dvd_of_mod_eq_zero hmod), BitVec.ofNat_toNat,
      BitVec.setWidth_eq]
  · rintro ⟨i, hlo, hhi, rfl⟩
    rw [pageAt_toNat (by omega)]
    exact ⟨by omega, by omega, by omega⟩

theorem poolPage_pageAt {i : Nat} (hlo : freeStartOf kernelEnd ≤ i) (hhi : i < totalBlocksOf mbi) :
    PoolPage mbi kernelEnd (pageAt i) :=
  poolPage_iff.mpr ⟨i, hlo, hhi, rfl⟩

/-! ## What every run keeps -/

theorem pmmInit_pagesOwned (mem : Mem) :
    PagesOwned mbi kernelEnd ⟨pmmInit mbi kernelEnd mem, []⟩ := by
  have htotal := totalBlocksOf_lt mbi
  constructor
  case total => exact congrArg BitVec.toNat (pmmInit_frame mbi kernelEnd mem).2.2
  case taken =>
    intro i hi
    rw [pmmInit_taken (by omega)]
    constructor
    · intro h
      exact Or.inl (by omega)
    · rintro (h | h)
      · omega
      · exact absurd h List.not_mem_nil
  case pool => exact fun _ h => absurd h List.not_mem_nil
  case nodup => exact List.nodup_nil

namespace PagesOwned
variable {s : PmmRun}

theorem total_lt (hs : PagesOwned mbi kernelEnd s) : s.pmm.totalBlocks.toNat < 2 ^ 20 := by
  rw [hs.total]
  exact totalBlocksOf_lt mbi

/-- The two outcomes of `pmm_alloc_page` in terms of the pool. -/
theorem alloc_cases (hs : PagesOwned mbi kernelEnd s) :
    (pmmAllocPage s.pmm = (0#32, s.pmm) ∧ ∀ q, PoolPage mbi kernelEnd q → q ∈ s.live) ∨
      ∃ i t, freeStartOf kernelEnd ≤ i ∧ i < totalBlocksOf mbi ∧ pageAt i ∉ s.live ∧
        (∀ j, freeStartOf kernelEnd ≤ j → j < i → pageAt j ∈ s.live) ∧
        pmmAllocPage s.pmm = (pageAt i, t) ∧ t.totalBlocks = s.pmm.totalBlocks ∧
        ∀ j, j < 2 ^ 20 → (Taken t j ↔ j = i ∨ Taken s.pmm j) := by
  have htotal := hs.total
  rcases pmmAllocPage_taken hs.total_lt with ⟨hcall, hall⟩ | ⟨i, t, hi, hfree, hlow, hcall, hsame, _, ht⟩
  · refine Or.inl ⟨hcall, fun q hq => ?_⟩
    obtain ⟨i, hlo, hhi, rfl⟩ := poolPage_iff.mp hq
    rcases (hs.taken i hhi).mp (hall i (by omega)) with h | h
    · omega
    · exact h
  · rw [hs.taken i (by omega), not_or] at hfree
    refine Or.inr ⟨i, t, by omega, by omega, hfree.2, fun j hlo hj => ?_, hcall, hsame, ht⟩
    rcases (hs.taken j (by omega)).mp (hlow j hj) with h | h
    · omega
    · exact h

theorem alloc (hs : PagesOwned mbi kernelEnd s) (hpos : 0 < freeStartOf kernelEnd) {page : Word}
    {t : Pmm} (h : pmmAllocPage s.pmm = (page, t)) :
    PagesOwned mbi kernelEnd ⟨t, if page = 0#32 then s.live else page :: s.live⟩ := by
  have hlt := totalBlocksOf_lt mbi
  rcases hs.alloc_cases with ⟨hcall, _⟩ | ⟨i, u, hlo, hhi, hnew, _, hcall, hsame, ht⟩
  · cases hcall.symm.trans h
    exact hs
  · cases hcall.symm.trans h
    have hne : pageAt i ≠ 0#32 := pageAt_ne_zero (by omega) (by omega)
    rw [if_neg hne]
    constructor
    case total => exact (congrArg BitVec.toNat hsame).trans hs.total
    case taken =>
      intro j hj
      rw [ht j (by omega), hs.taken j hj, List.mem_cons, pageAt_inj (by omega) (by omega)]
      exact or_left_comm
    case pool =>
      intro page hpage
      rcases List.mem_cons.mp hpage with rfl | hpage
      · exact poolPage_pageAt hlo hhi
      · exact hs.pool page hpage
    case nodup => exact List.nodup_cons.mpr ⟨hnew, hs.nodup⟩

/-- Freeing a live page takes exactly that page out of use. -/
theorem free_taken (hs : PagesOwned mbi kernelEnd s) {i : Nat} (hlo : freeStartOf kernelEnd ≤ i)
    (hhi : i < totalBlocksOf mbi) (hlive : pageAt i ∈ s.live) :
    (pmmFreePage (pageAt i) s.pmm).totalBlocks = s.pmm.totalBlocks ∧
      ∀ j, j < 2 ^ 20 → (Taken (pmmFreePage (pageAt i) s.pmm) j ↔ j ≠ i ∧ Taken s.pmm j) := by
  have hlt := totalBlocksOf_lt mbi
  have hnum : (pageAt i).toNat / 4096 = i := by
    rw [pageAt_toNat (by omega)]
    omega
  have htaken : Taken s.pmm i := (hs.taken i hhi).mpr (Or.inr hlive)
  have hcases := pmmFreePage_taken (pageAt i) s.pmm
  rw [hnum, hs.total] at hcases
  rcases hcases with ⟨_, h | h⟩ | ⟨_, _, hsame, _, ht⟩
  · omega
  · exact absurd htaken h
  · exact ⟨hsame, ht⟩

theorem free (hs : PagesOwned mbi kernelEnd s) {page : Word} (hlive : page ∈ s.live) :
    PagesOwned mbi kernelEnd ⟨pmmFreePage page s.pmm, s.live.erase page⟩ := by
  have hlt := totalBlocksOf_lt mbi
  obtain ⟨i, hlo, hhi, rfl⟩ := poolPage_iff.mp (hs.pool page hlive)
  obtain ⟨hsame, ht⟩ := hs.free_taken hlo hhi hlive
  constructor
  case total => exact (congrArg BitVec.toNat hsame).trans hs.total
  case taken =>
    intro j hj
    rw [ht j (by omega), hs.taken j hj, hs.nodup.mem_erase_iff, Ne, Ne,
      pageAt_inj (by omega) (by omega)]
    constructor
    · rintro ⟨hne, h | h⟩
      · exact Or.inl h
      · exact Or.inr ⟨hne, h⟩
    · rintro (h | ⟨hne, h⟩)
      · exact ⟨by omega, Or.inl h⟩
      · exact ⟨hne, Or.inr h⟩
  case pool => exact fun q hq => hs.pool q (List.mem_of_mem_erase hq)
  case nodup => exact hs.nodup.erase _

end PagesOwned

theorem reachable_pagesOwned (hpos : 0 < freeStartOf kernelEnd) {s : PmmRun}
    (h : (pagePoolSystem mbi kernelEnd).Reachable s) : PagesOwned mbi kernelEnd s := by
  refine h.invariant (P := PagesOwned mbi kernelEnd) ?_ ?_
  · rintro s ⟨mem, rfl⟩
    exact pmmInit_pagesOwned mem
  · intro s op t _ hs hst
    cases hst with
    | alloc hcall => exact hs.alloc hpos hcall
    | free hlive => exact hs.free hlive

/-! ## The calls from any reachable state -/

namespace PagesOwned
variable {s : PmmRun}

/-- What a successful allocation returns. -/
theorem alloc_page (hs : PagesOwned mbi kernelEnd s) {page : Word} {t : Pmm}
    (h : pmmAllocPage s.pmm = (page, t)) (hpage : page ≠ 0#32) :
    PoolPage mbi kernelEnd page ∧ page ∉ s.live ∧
      ∀ q, PoolPage mbi kernelEnd q → q.toNat < page.toNat → q ∈ s.live := by
  have hlt := totalBlocksOf_lt mbi
  rcases hs.alloc_cases with ⟨hcall, _⟩ | ⟨i, u, hlo, hhi, hnew, hlow, hcall, _⟩
  · cases hcall.symm.trans h
    exact absurd rfl hpage
  · cases hcall.symm.trans h
    refine ⟨poolPage_pageAt hlo hhi, hnew, fun q hq hqlt => ?_⟩
    obtain ⟨j, hjlo, hjhi, rfl⟩ := poolPage_iff.mp hq
    rw [pageAt_toNat (by omega), pageAt_toNat (by omega)] at hqlt
    exact hlow j hjlo (by omega)

theorem alloc_null_iff (hs : PagesOwned mbi kernelEnd s) (hpos : 0 < freeStartOf kernelEnd) :
    (pmmAllocPage s.pmm).1 = 0#32 ↔ ∀ q, PoolPage mbi kernelEnd q → q ∈ s.live := by
  have hlt := totalBlocksOf_lt mbi
  rcases hs.alloc_cases with ⟨hcall, hall⟩ | ⟨i, u, hlo, hhi, hnew, _, hcall, _⟩
  · rw [hcall]
    exact iff_of_true rfl hall
  · rw [hcall]
    have hne : pageAt i ≠ 0#32 := pageAt_ne_zero (by omega) (by omega)
    exact iff_of_false hne fun hall => hnew (hall _ (poolPage_pageAt hlo hhi))

/-- After a page has been freed, allocations alone lead to a call that returns
it. -/
theorem free_realloc (hs : PagesOwned mbi kernelEnd s) {page : Word} (hlive : page ∈ s.live) :
    ∃ ops t u, (pagePoolSystem mbi kernelEnd).Run
        ⟨pmmFreePage page s.pmm, s.live.erase page⟩ ops t ∧
      (∀ op ∈ ops, op.IsAlloc) ∧ pmmAllocPage t.pmm = (page, u) := by
  have hlt := totalBlocksOf_lt mbi
  obtain ⟨i, hlo, hhi, rfl⟩ := poolPage_iff.mp (hs.pool page hlive)
  obtain ⟨_, ht⟩ := hs.free_taken hlo hhi hlive
  have hfreed := hs.free hlive
  refine exists_alloc_run (d := i) (fun _ _ _ h => h) hfreed.total_lt ?_ ?_ (fun j hj => by omega)
  · rw [hfreed.total]
    exact hhi
  · rw [ht i (by omega)]
    exact fun h => h.1 rfl

end PagesOwned

/-- In every state of every run: the pages handed out are distinct pages of the
pool, `pmm_alloc_page` returns the lowest page of the pool that is not handed
out, it returns NULL exactly when there is none, and a page freed can be
allocated again. -/
theorem page_ownership (mbi : MultibootInfo) (kernelEnd : Word) (hk : kernelEnd.toNat < 2 ^ 31)
    (hb : (bitmapEnd kernelEnd).toNat < 2 ^ 31) {s : PmmRun}
    (hs : (pagePoolSystem mbi kernelEnd).Reachable s) :
    s.pmm.totalBlocks.toNat = totalBlocksOf mbi ∧ s.live.Nodup ∧
      (∀ page t, pmmAllocPage s.pmm = (page, t) → page ≠ 0#32 →
        PoolPage mbi kernelEnd page ∧ page ∉ s.live ∧
          ∀ q, PoolPage mbi kernelEnd q → q.toNat < page.toNat → q ∈ s.live) ∧
      ((pmmAllocPage s.pmm).1 = 0#32 ↔ ∀ q, PoolPage mbi kernelEnd q → q ∈ s.live) ∧
      (∀ page t, PmmStep s (.free page) t →
        ∃ ops u v, (pagePoolSystem mbi kernelEnd).Run t ops u ∧ (∀ op ∈ ops, op.IsAlloc) ∧
          pmmAllocPage u.pmm = (page, v)) := by
  have hpos := freeStartOf_pos hk hb
  have howned := reachable_pagesOwned hpos hs
  refine ⟨howned.total, howned.nodup, fun page t h => howned.alloc_page h,
    howned.alloc_null_iff hpos, fun page t hstep => ?_⟩
  cases hstep with
  | free hlive => exact howned.free_realloc hlive

/-- A kernel that ends at 2 MB, on a machine with 32 MB: of two pages handed out the first is
freed, and it is the next one handed out. -/
theorem page_ownership_freed :
    ∃ s t page, (pagePoolSystem ⟨0#32, 0#32, 0#32⟩ 0x200000#32).Reachable s ∧
      PmmStep s (.free page) t ∧ page ≠ 0#32 ∧ (pmmAllocPage t.pmm).1 = page := by
  have howned := fun s hs => page_ownership ⟨0#32, 0#32, 0#32⟩ 0x200000#32 (by decide) (by decide)
    (s := s) hs
  have hinit : (pagePoolSystem ⟨0#32, 0#32, 0#32⟩ 0x200000#32).Reachable
      ⟨pmmInit ⟨0#32, 0#32, 0#32⟩ 0x200000#32 fun _ => 0#8, []⟩ := .init ⟨fun _ => 0#8, rfl⟩
  have hpool : PoolPage ⟨0#32, 0#32, 0#32⟩ 0x200000#32 0x220000#32 :=
    ⟨by decide, by decide, by decide⟩
  obtain ⟨_, _, hfirst, hnull, _⟩ := howned _ hinit
  generalize pmmInit ⟨0#32, 0#32, 0#32⟩ 0x200000#32 (fun _ => 0#8) = pmm at hinit hfirst hnull
  generalize hcall : pmmAllocPage pmm = first at hnull
  obtain ⟨page, t⟩ := first
  have hne : page ≠ 0#32 := fun h => absurd (hnull.mp h _ hpool) List.not_mem_nil
  obtain ⟨hpage, _, hlow⟩ := hfirst page t hcall hne
  have hone := hinit.step (PmmStep.alloc hcall)
  dsimp only at hone
  rw [if_neg hne] at hone
  -- a second page, or none
  obtain ⟨q, u, hsecond⟩ : ∃ q u, pmmAllocPage t = (q, u) := ⟨_, _, rfl⟩
  have htwo := hone.step (PmmStep.alloc hsecond)
  dsimp only at htwo
  have hlive : page ∈ if q = 0#32 then [page] else [q, page] := by
    split
    · exact List.mem_cons_self
    · exact List.mem_cons_of_mem _ List.mem_cons_self
  generalize (if q = 0#32 then [page] else [q, page]) = live at htwo hlive
  have hfreed := htwo.step (PmmStep.free hlive)
  obtain ⟨_, hnodup, _⟩ := howned _ htwo
  obtain ⟨_, _, hnext, hfull, _⟩ := howned _ hfreed
  have hgone : page ∉ live.erase page := hnodup.not_mem_erase
  obtain ⟨page', v, hagain⟩ : ∃ page' v, pmmAllocPage (pmmFreePage page u) = (page', v) :=
    ⟨_, _, rfl⟩
  rw [hagain] at hfull
  have hne' : page' ≠ 0#32 := fun h => hgone (hfull.mp h _ hpage)
  obtain ⟨hpage', _, hlow'⟩ := hnext page' v hagain hne'
  refine ⟨_, _, page, htwo, .free hlive, hne, ?_⟩
  dsimp only
  rw [hagain]
  -- the freed page is the lowest of the pool
  refine BitVec.eq_of_toNat_eq (Nat.le_antisymm ?_ ?_)
  · exact Nat.not_lt.mp fun hlt => hgone (hlow' page hpage hlt)
  · exact Nat.not_lt.mp fun hlt => List.not_mem_nil (hlow page' hpage' hlt)

end Zenix
