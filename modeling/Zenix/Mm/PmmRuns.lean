import Zenix.Lib.Transition
import Zenix.Mm.PmmRefinement

/-!
# Runs of the physical memory manager

The calls of `pmm_alloc_page` and `pmm_free_page`, with the pages that are
handed out and not freed since.

Results:
1. `pmmAllocPage_taken`, `pmmFreePage_taken`: what the calls do to the set of
   pages in use.
2. `exists_alloc_run`: repeated allocation works its way up to any free page.
-/

namespace Zenix
open ByteMemory Bitmap

/-- The physical memory manager and the pages it has handed out. -/
structure PmmRun where
  pmm : Pmm
  live : List Word

inductive PmmOp where
  | alloc (page : Word)
  | free (page : Word)

/-- Calls of `pmm_alloc_page`, labelled with what they return, and of
`pmm_free_page` on live pages. -/
inductive PmmStep : PmmRun → PmmOp → PmmRun → Prop
  | alloc {s : PmmRun} {page : Word} {t : Pmm} : pmmAllocPage s.pmm = (page, t) →
      PmmStep s (.alloc page) ⟨t, if page = 0#32 then s.live else page :: s.live⟩
  | free {s : PmmRun} {page : Word} : page ∈ s.live →
      PmmStep s (.free page) ⟨pmmFreePage page s.pmm, s.live.erase page⟩

def PmmOp.IsAlloc (op : PmmOp) : Prop := ∃ page, op = .alloc page

/-- The address of page `i`. -/
def pageAt (i : Nat) : Word := BitVec.ofNat 32 (4096 * i)

theorem pageAt_toNat {i : Nat} (hi : i < 2 ^ 20) : (pageAt i).toNat = 4096 * i :=
  toNat_ofNat_of_lt (by omega)

theorem pageAt_inj {i j : Nat} (hi : i < 2 ^ 20) (hj : j < 2 ^ 20) : pageAt i = pageAt j ↔ i = j := by
  rw [pageAt, pageAt, ofNat_inj (by omega) (by omega)]
  omega

theorem pageAt_ne_zero {i : Nat} (hpos : 0 < i) (hi : i < 2 ^ 20) : pageAt i ≠ 0#32 := by
  intro h
  have hnat := congrArg BitVec.toNat h
  rw [pageAt_toNat hi, show (0#32).toNat = 0 from rfl] at hnat
  omega

/-! ## What the calls do to the set of pages in use -/

theorem pmmAllocPage_taken {s : Pmm} (htotal : s.totalBlocks.toNat < 2 ^ 20) :
    (pmmAllocPage s = (0#32, s) ∧ ∀ i, i < s.totalBlocks.toNat → Taken s i) ∨
      ∃ i t, i < s.totalBlocks.toNat ∧ ¬ Taken s i ∧ (∀ j, j < i → Taken s j) ∧
        pmmAllocPage s = (pageAt i, t) ∧ t.totalBlocks = s.totalBlocks ∧
        t.usedBlocks = s.usedBlocks + 1#32 ∧ ∀ j, j < 2 ^ 20 → (Taken t j ↔ j = i ∨ Taken s j) := by
  rcases pmmAllocPage_cases htotal with h | ⟨i, hi, hfree, hlow, hcall⟩
  · exact Or.inl h
  · refine Or.inr ⟨i, _, hi, hfree, hlow, hcall, rfl, rfl, fun j hj => ?_⟩
    rw [taken_usedBlocks, taken_bitmapSet (by omega) (by omega)]

theorem pmmFreePage_taken (page : Word) (s : Pmm) :
    (pmmFreePage page s = s ∧
        (s.totalBlocks.toNat ≤ page.toNat / 4096 ∨ ¬ Taken s (page.toNat / 4096))) ∨
      (page.toNat / 4096 < s.totalBlocks.toNat ∧ Taken s (page.toNat / 4096) ∧
        (pmmFreePage page s).totalBlocks = s.totalBlocks ∧
        (pmmFreePage page s).usedBlocks = s.usedBlocks - 1#32 ∧
        ∀ j, j < 2 ^ 20 →
          (Taken (pmmFreePage page s) j ↔ j ≠ page.toNat / 4096 ∧ Taken s j)) := by
  have hlt := page.isLt
  rcases pmmFreePage_cases page s with h | ⟨hin, htaken, hcall⟩
  · exact Or.inl h
  · rw [hcall]
    refine Or.inr ⟨hin, htaken, rfl, rfl, fun j hj => ?_⟩
    rw [taken_usedBlocks, taken_bitmapClear (by omega) (by omega)]

/-! ## Reaching a free page -/

/-- Repeated allocation works its way up to a free page `q`: `d` bounds how far
below `q` the lowest free page is. -/
theorem exists_alloc_run {S : TransitionSystem PmmRun PmmOp}
    (hS : ∀ s op t, PmmStep s op t → S.step s op t) {d q : Nat} {s : PmmRun}
    (htotal : s.pmm.totalBlocks.toNat < 2 ^ 20) (hlt : q < s.pmm.totalBlocks.toNat)
    (hfree : ¬ Taken s.pmm q) (hlow : ∀ j, j + d < q → Taken s.pmm j) :
    ∃ ops t u, S.Run s ops t ∧ (∀ op ∈ ops, op.IsAlloc) ∧ pmmAllocPage t.pmm = (pageAt q, u) := by
  have hnil : ∀ op ∈ ([] : List PmmOp), op.IsAlloc := fun _ h => absurd h List.not_mem_nil
  induction d generalizing s with
  | zero =>
    rcases pmmAllocPage_taken htotal with ⟨_, hall⟩ | ⟨i, t, hi, hfree', hlow', hcall, _⟩
    · exact absurd (hall q hlt) hfree
    · obtain rfl : i = q := by
        rcases Nat.lt_trichotomy i q with h | h | h
        · exact absurd (hlow i h) hfree'
        · exact h
        · exact absurd (hlow' q h) hfree
      exact ⟨[], s, t, .nil, hnil, hcall⟩
  | succ d ih =>
    rcases pmmAllocPage_taken htotal with ⟨_, hall⟩ | ⟨i, t, hi, hfree', hlow', hcall, hsame, _, htaken⟩
    · exact absurd (hall q hlt) hfree
    · rcases Decidable.em (i = q) with rfl | hne
      · exact ⟨[], s, t, .nil, hnil, hcall⟩
      · -- the page taken lies below `q`, and the ones below it are all taken now
        have hiq : i < q := by
          rcases Nat.lt_trichotomy i q with h | h | h
          · exact h
          · exact absurd h hne
          · exact absurd (hlow' q h) hfree
        have hfreet : ¬ Taken t q := by
          rw [htaken q (by omega)]
          rintro (h | h)
          · exact hne h.symm
          · exact hfree h
        have hlowt : ∀ j, j + d < q → Taken t j := by
          intro j hj
          rw [htaken j (by omega)]
          rcases Nat.lt_trichotomy j i with h | h | h
          · exact Or.inr (hlow' j h)
          · exact Or.inl h
          · exact absurd (hlow i (by omega)) hfree'
        have hstep := hS s _ _ (PmmStep.alloc hcall)
        obtain ⟨ops, v, u, hrun, halloc, hpage⟩ :=
          ih (s := ⟨t, if pageAt i = 0#32 then s.live else pageAt i :: s.live⟩)
            (hsame ▸ htotal) (hsame ▸ hlt) hfreet hlowt
        refine ⟨.alloc (pageAt i) :: ops, v, u, .cons hstep hrun, ?_, hpage⟩
        intro op hop
        rcases List.mem_cons.mp hop with rfl | hop
        · exact ⟨pageAt i, rfl⟩
        · exact halloc op hop

end Zenix
