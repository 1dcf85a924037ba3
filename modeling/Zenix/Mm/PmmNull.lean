import Mathlib.Data.List.Infix
import Zenix.Mm.PmmAccounting

/-!
# What NULL means

`pmm_alloc_page` returns the address of a page, or 0 when there is none. Page 0 has the
address 0. `pmm_init` leaves it in use; `pmm_free_page` frees it like any other page, and
the argument NULL is an address in it.

Results:
1. `Pmm.ZeroTaken.apply`: page 0 stays in use unless it is freed.
2. `pmmFreePage_zero`: freeing any address in page 0 makes it free.
3. `null_means_full_iff`: the runs in which NULL always means that no page is free.
4. `null_page_allocated`: one call of `pmm_free_page(NULL)`, and page 0 is handed out.
-/

namespace Zenix
open ByteMemory Bitmap

/-! ## Runs -/

def PmmCall.apply (s : Pmm) : PmmCall → Pmm
  | .alloc => (pmmAllocPage s).2
  | .free page => pmmFreePage page s

/-- The calls, one after the other. -/
def pmmCalls (calls : List PmmCall) (s : Pmm) : Pmm := calls.foldl PmmCall.apply s

/-! ## The property -/

/-- If `pmm_alloc_page` returns 0 then no page is free and nothing has changed. -/
def NullMeansFull (s : Pmm) : Prop :=
  (pmmAllocPage s).1 = 0#32 →
    (∀ i, i < s.totalBlocks.toNat → Taken s i) ∧ (pmmAllocPage s).2 = s

/-- The call frees an address in page 0. -/
def PmmCall.FreesZero : PmmCall → Prop
  | .alloc => False
  | .free page => page.toNat < 4096

/-! ## Page 0 -/

/-- Page 0 is in use. -/
structure Pmm.ZeroTaken (s : Pmm) : Prop where
  total : s.totalBlocks.toNat < 2 ^ 20
  taken : Taken s 0

/-- With page 0 in use, the address that is returned is not 0. -/
theorem Pmm.ZeroTaken.nullMeansFull {s : Pmm} (hs : s.ZeroTaken) : NullMeansFull s := by
  intro hnull
  rcases pmmAllocPage_taken hs.total with ⟨hcall, hall⟩ | ⟨i, t, hi, hfree, _, hcall, _⟩
  · exact ⟨hall, by rw [hcall]⟩
  · have hlt := hs.total
    have hpos : 0 < i := Nat.pos_of_ne_zero fun hzero => hfree (hzero ▸ hs.taken)
    rw [hcall] at hnull
    exact absurd hnull (pageAt_ne_zero hpos (by omega))

/-- With page 0 free, it is page 0 that is returned. -/
theorem pmmAllocPage_zero {s : Pmm} (htotal : s.totalBlocks.toNat < 2 ^ 20)
    (hpos : 0 < s.totalBlocks.toNat) (hfree : ¬ Taken s 0) :
    ∃ t, pmmAllocPage s = (0#32, t) ∧ Taken t 0 := by
  rcases pmmAllocPage_taken htotal with ⟨_, hall⟩ | ⟨i, t, _, _, hlow, hcall, _, _, htaken⟩
  · exact absurd (hall 0 hpos) hfree
  · obtain rfl : i = 0 := Nat.eq_zero_of_not_pos fun hi => hfree (hlow 0 hi)
    exact ⟨t, hcall, (htaken 0 (by decide)).mpr (Or.inl rfl)⟩

theorem not_nullMeansFull {s : Pmm} (htotal : s.totalBlocks.toNat < 2 ^ 20)
    (hpos : 0 < s.totalBlocks.toNat) (hfree : ¬ Taken s 0) : ¬ NullMeansFull s := by
  obtain ⟨t, hcall, _⟩ := pmmAllocPage_zero htotal hpos hfree
  exact fun hnull => hfree ((hnull (by rw [hcall])).1 0 hpos)

theorem PmmCall.apply_total {s : Pmm} (htotal : s.totalBlocks.toNat < 2 ^ 20) (c : PmmCall) :
    (c.apply s).totalBlocks = s.totalBlocks := by
  cases c with
  | alloc =>
    unfold PmmCall.apply
    rcases pmmAllocPage_taken htotal with ⟨hcall, _⟩ | ⟨i, t, _, _, _, hcall, hsame, _⟩
    · rw [hcall]
    · rw [hcall]
      exact hsame
  | free page =>
    show (pmmFreePage page s).totalBlocks = s.totalBlocks
    rcases pmmFreePage_taken page s with ⟨hsame, _⟩ | ⟨_, _, hsame, _⟩
    · rw [hsame]
    · exact hsame

/-- Page 0 stays in use unless it is freed. -/
theorem Pmm.ZeroTaken.apply {s : Pmm} (hs : s.ZeroTaken) {c : PmmCall} (hc : ¬ c.FreesZero) :
    (c.apply s).ZeroTaken := by
  refine ⟨(PmmCall.apply_total hs.total c).symm ▸ hs.total, ?_⟩
  cases c with
  | alloc =>
    unfold PmmCall.apply
    rcases pmmAllocPage_taken hs.total with ⟨hcall, _⟩ | ⟨i, t, _, _, _, hcall, _, _, htaken⟩
    · rw [hcall]
      exact hs.taken
    · rw [hcall]
      exact (htaken 0 (by decide)).mpr (Or.inr hs.taken)
  | free page =>
    have hpage : 4096 ≤ page.toNat := Nat.not_lt.mp hc
    show Taken (pmmFreePage page s) 0
    rcases pmmFreePage_taken page s with ⟨hsame, _⟩ | ⟨_, _, _, _, htaken⟩
    · rw [hsame]
      exact hs.taken
    · exact (htaken 0 (by decide)).mpr ⟨by omega, hs.taken⟩

/-- Any address in page 0 frees it. -/
theorem pmmFreePage_zero {s : Pmm} (hpos : 0 < s.totalBlocks.toNat) {page : Word}
    (hpage : page.toNat < 4096) : ¬ Taken (pmmFreePage page s) 0 := by
  have hzero : page.toNat / 4096 = 0 := Nat.div_eq_of_lt hpage
  rcases pmmFreePage_taken page s with ⟨hsame, hwhy⟩ | ⟨_, _, _, _, htaken⟩
  · rw [hzero] at hwhy
    rw [hsame]
    exact hwhy.resolve_left (Nat.not_le.mpr hpos)
  · rw [htaken 0 (by decide), hzero]
    exact fun h => h.1 rfl

/-! ## The runs -/

theorem pmmCalls_total {s : Pmm} (htotal : s.totalBlocks.toNat < 2 ^ 20) (calls : List PmmCall) :
    (pmmCalls calls s).totalBlocks = s.totalBlocks := by
  induction calls generalizing s with
  | nil => rfl
  | cons c calls ih =>
    have hsame := PmmCall.apply_total htotal c
    exact (ih (hsame.symm ▸ htotal)).trans hsame

theorem pmmCalls_concat (calls : List PmmCall) (c : PmmCall) (s : Pmm) :
    pmmCalls (calls ++ [c]) s = c.apply (pmmCalls calls s) := List.foldl_concat ..

theorem Pmm.ZeroTaken.calls {s : Pmm} (hs : s.ZeroTaken) {calls : List PmmCall}
    (hcalls : ∀ c ∈ calls, ¬ c.FreesZero) : (pmmCalls calls s).ZeroTaken := by
  induction calls generalizing s with
  | nil => exact hs
  | cons c calls ih =>
    exact ih (hs.apply (hcalls c List.mem_cons_self)) fun d hd =>
      hcalls d (List.mem_cons_of_mem _ hd)

/-- The runs from any state. -/
theorem pmmCalls_nullMeansFull_iff {s : Pmm} (htotal : s.totalBlocks.toNat < 2 ^ 20)
    (calls : List PmmCall) :
    (∀ before, before <+: calls → NullMeansFull (pmmCalls before s)) ↔
      s.totalBlocks.toNat = 0 ∨ Taken s 0 ∧ ∀ c ∈ calls, ¬ c.FreesZero := by
  have hkept : ∀ before, (pmmCalls before s).totalBlocks = s.totalBlocks :=
    pmmCalls_total htotal
  constructor
  · intro hfull
    rcases Nat.eq_zero_or_pos s.totalBlocks.toNat with hnone | hpos
    · exact Or.inl hnone
    refine Or.inr ⟨?_, fun c hc hzero => ?_⟩
    · by_contra hfree
      exact not_nullMeansFull htotal hpos hfree (hfull [] List.nil_prefix)
    · obtain ⟨pre, post, rfl⟩ := List.append_of_mem hc
      have hafter := hfull (pre ++ [c]) ⟨post, by rw [List.append_assoc, List.singleton_append]⟩
      cases c with
      | alloc => exact hzero
      | free page =>
        refine not_nullMeansFull ?_ ?_ ?_ hafter
        · rw [hkept]
          exact htotal
        · rw [hkept]
          exact hpos
        · rw [pmmCalls_concat]
          exact pmmFreePage_zero (by rw [hkept]; exact hpos) hzero
  · rintro (hnone | ⟨htaken, hcalls⟩) before ⟨after, rfl⟩
    · -- without pages nothing is ever allocated
      intro _
      rw [← hkept before] at hnone
      rcases pmmAllocPage_taken (by rw [hnone]; decide) with ⟨hcall, hall⟩ | ⟨i, _, hi, _⟩
      · exact ⟨hall, by rw [hcall]⟩
      · omega
    · have hzero : s.ZeroTaken := ⟨htotal, htaken⟩
      exact (hzero.calls fun c hc => hcalls c (List.mem_append_left _ hc)).nullMeansFull

section Run
variable (mbi : MultibootInfo) (kernelEnd : Word) (mem : Mem)

theorem pmmInit_total : (pmmInit mbi kernelEnd mem).totalBlocks.toNat = totalBlocksOf mbi := by
  rw [(pmmInit_frame mbi kernelEnd mem).2.2, totalBlocksOf]

/-- In a run from `pmm_init` NULL means at every moment that no page is free, exactly when
there are no pages, or page 0 does not lie in the region that `pmm_init` releases and no
call frees an address in it. -/
theorem null_means_full_iff (calls : List PmmCall) :
    (∀ before, before <+: calls → NullMeansFull (pmmCalls before (pmmInit mbi kernelEnd mem))) ↔
      totalBlocksOf mbi = 0 ∨ 0 < freeStartOf kernelEnd ∧ ∀ c ∈ calls, ¬ c.FreesZero := by
  have htaken : Taken (pmmInit mbi kernelEnd mem) 0 ↔
      ¬ (freeStartOf kernelEnd ≤ 0 ∧ 0 < totalBlocksOf mbi) := pmmInit_taken (by decide)
  rw [pmmCalls_nullMeansFull_iff (pmmInit_total mbi kernelEnd mem ▸ totalBlocksOf_lt mbi),
    pmmInit_total, htaken]
  rcases Nat.eq_zero_or_pos (totalBlocksOf mbi) with hnone | hpos
  · exact iff_of_true (.inl hnone) (.inl hnone)
  · rw [or_iff_right (Nat.ne_of_gt hpos), or_iff_right (Nat.ne_of_gt hpos), and_iff_left hpos,
      Nat.not_le]

end Run

/-- A kernel that ends at 2 MB, on a machine of 32 MB: `pmm_free_page(NULL)`, and the next
call returns the address of page 0, which it has taken. -/
theorem null_page_allocated :
    ∃ s t, s = pmmCalls [.free 0#32] (pmmInit ⟨0#32, 0#32, 0#32⟩ 0x200000#32 fun _ => 0#8) ∧
      pmmAllocPage s = (0#32, t) ∧ ¬ Taken s 0 ∧ Taken t 0 ∧ ¬ NullMeansFull s := by
  obtain ⟨s, hs⟩ : ∃ s, s = pmmInit ⟨0#32, 0#32, 0#32⟩ 0x200000#32 fun _ => 0#8 := ⟨_, rfl⟩
  have hpages : s.totalBlocks.toNat = 8192 := by
    rw [hs, pmmInit_total]
    decide
  rw [← hs]
  have hsame : (pmmFreePage 0#32 s).totalBlocks = s.totalBlocks :=
    PmmCall.apply_total (by omega) (.free 0#32)
  have hfree : ¬ Taken (pmmFreePage 0#32 s) 0 := pmmFreePage_zero (by omega) (by decide)
  have hlt : (pmmFreePage 0#32 s).totalBlocks.toNat < 2 ^ 20 := by
    rw [hsame]
    omega
  have hpos : 0 < (pmmFreePage 0#32 s).totalBlocks.toNat := by
    rw [hsame]
    omega
  obtain ⟨t, hcall, htaken⟩ := pmmAllocPage_zero hlt hpos hfree
  exact ⟨_, t, rfl, hcall, hfree, htaken, not_nullMeansFull hlt hpos hfree⟩

end Zenix
