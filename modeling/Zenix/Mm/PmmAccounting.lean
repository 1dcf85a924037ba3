import Mathlib.Data.Finset.Card
import Mathlib.Data.Finset.Range
import Zenix.Lib.AccessLog
import Zenix.Mm.PmmRuns

/-!
# Frame accounting

The functions of pmm.c once more, with a log of the indices into
`memory_bitmap`, and the runs of all calls, whatever their arguments.

Results:
1. `pmmInitLogged_value`, `pmmAllocPageLogged_value`, `pmmFreePageLogged_value`:
   without the log they are the functions of the model.
2. `frame_accounting`: `used_blocks` counts the bits set, no access is outside
   the bitmap, and used and free memory add up.
-/

namespace Zenix
open ByteMemory Bitmap Logged

/-! ## The functions with their accesses -/

/-- The index of the bitmap word that holds `bit`. -/
def wordIndex (bit : Word) : Nat := (bit / 32#32).toNat

/-- `|=` reads the word and writes it. -/
def bitmapSetLogged (s : Pmm) (bit : Word) : Logged Nat Pmm := do
  touch (wordIndex bit)
  touch (wordIndex bit)
  pure (bitmapSet s bit)

def bitmapClearLogged (s : Pmm) (bit : Word) : Logged Nat Pmm := do
  touch (wordIndex bit)
  touch (wordIndex bit)
  pure (bitmapClear s bit)

def bitmapTestLogged (s : Pmm) (bit : Word) : Logged Nat Word := do
  touch (wordIndex bit)
  pure (bitmapTest s bit)

/-- `n` rounds of the search loop, from block `i` on. -/
def bitmapFindFreeFrom (s : Pmm) : Nat → Nat → Logged Nat Word
  | 0, _ => pure (-1#32)
  | n + 1, i => do
      let b ← bitmapTestLogged s (BitVec.ofNat 32 i)
      if b = 0#32 then pure (BitVec.ofNat 32 i) else bitmapFindFreeFrom s n (i + 1)

def bitmapFindFreeLogged (s : Pmm) : Logged Nat Word := bitmapFindFreeFrom s s.totalBlocks.toNat 0

def bitmapFillLogged (base : Word) : Nat → Mem → Logged Nat Mem
  | 0, m => pure m
  | n + 1, m => do
      let m ← bitmapFillLogged base n m
      touch n
      pure (store32 m (base + 4#32 * BitVec.ofNat 32 n) 0xFFFFFFFF#32)

def releaseBlocksLogged : Nat → Word → Pmm → Logged Nat Pmm
  | 0, _, s => pure s
  | n + 1, i, s => do
      let s ← bitmapClearLogged s i
      releaseBlocksLogged n (i + 1#32) { s with usedBlocks := s.usedBlocks - 1#32 }

def pmmInitLogged (mbi : MultibootInfo) (kernelEnd : Word) (mem : Mem) : Logged Nat Pmm := do
  let totalMemory := totalMemoryOf mbi
  let totalBlocks := totalMemory / 4096#32
  let memoryBitmap := alignPage kernelEnd
  let mem ← bitmapFillLogged memoryBitmap (BITMAP_SIZE / 4#32).toNat mem
  let freeStart := freeStartAddr memoryBitmap / 4096#32
  let freeEnd := totalMemory / 4096#32
  releaseBlocksLogged (freeEnd.toNat - freeStart.toNat) freeStart
    { mem := mem
      memoryBitmap := memoryBitmap
      totalMemory := totalMemory
      totalBlocks := totalBlocks
      usedBlocks := totalBlocks }

def pmmAllocPageLogged (s : Pmm) : Logged Nat (Word × Pmm) := do
  let page ← bitmapFindFreeLogged s
  if page.slt 0#32 then pure (0#32, s)
  else
    let s ← bitmapSetLogged s page
    pure (page * 4096#32, { s with usedBlocks := s.usedBlocks + 1#32 })

def pmmFreePageLogged (page : Word) (s : Pmm) : Logged Nat Pmm := do
  let pageNum := page / 4096#32
  if s.totalBlocks ≤ pageNum then pure s
  else
    let b ← bitmapTestLogged s pageNum
    if b = 0#32 then pure s
    else
      let s ← bitmapClearLogged s pageNum
      pure { s with usedBlocks := s.usedBlocks - 1#32 }

/-! ## Without the log -/

theorem bitmapFindFreeFrom_value (s : Pmm) (n i : Nat) :
    (bitmapFindFreeFrom s n i).value =
      match (List.range' i n).find? fun j => bitmapTest s (BitVec.ofNat 32 j) = 0#32 with
      | some j => BitVec.ofNat 32 j
      | none => -1#32 := by
  induction n generalizing i with
  | zero => rfl
  | succ n ih =>
    rw [List.range'_succ, List.find?_cons, bitmapFindFreeFrom, value_bind,
      show (bitmapTestLogged s (BitVec.ofNat 32 i)).value = bitmapTest s (BitVec.ofNat 32 i) from rfl]
    cases Decidable.em (bitmapTest s (BitVec.ofNat 32 i) = 0#32) with
    | inl h =>
      rw [if_pos h, decide_eq_true h]
      rfl
    | inr h =>
      rw [if_neg h, decide_eq_false h]
      exact ih (i + 1)

theorem bitmapFindFreeLogged_value (s : Pmm) : (bitmapFindFreeLogged s).value = bitmapFindFree s := by
  unfold bitmapFindFreeLogged bitmapFindFree
  rw [List.range_eq_range']
  exact bitmapFindFreeFrom_value s _ 0

theorem bitmapFillLogged_value (base : Word) (n : Nat) (m : Mem) :
    (bitmapFillLogged base n m).value = bitmapFill base n m := by
  induction n with
  | zero => rfl
  | succ n ih =>
    rw [bitmapFill, ← ih]
    rfl

theorem releaseBlocksLogged_value (n : Nat) (i : Word) (s : Pmm) :
    (releaseBlocksLogged n i s).value = releaseBlocks n i s := by
  induction n generalizing i s with
  | zero => rfl
  | succ n ih => exact ih _ _

/-- The two loops of `pmm_init`. -/
theorem fill_release_value (base : Word) (n k : Nat) (i : Word) (f : Mem → Pmm) (m : Mem) :
    (bitmapFillLogged base n m >>= fun m => releaseBlocksLogged k i (f m)).value =
      releaseBlocks k i (f (bitmapFill base n m)) := by
  rw [value_bind, releaseBlocksLogged_value, bitmapFillLogged_value]

theorem pmmInitLogged_value (mbi : MultibootInfo) (kernelEnd : Word) (mem : Mem) :
    (pmmInitLogged mbi kernelEnd mem).value = pmmInit mbi kernelEnd mem := by
  unfold pmmInitLogged pmmInit
  exact fill_release_value _ _ _ _ (fun m => ⟨m, _, _, _, _⟩) _

theorem pmmAllocPageLogged_value (s : Pmm) : (pmmAllocPageLogged s).value = pmmAllocPage s := by
  rw [pmmAllocPageLogged, value_bind, bitmapFindFreeLogged_value]
  simp only [pmmAllocPage]
  split
  · rfl
  · rfl

theorem pmmFreePageLogged_value (page : Word) (s : Pmm) :
    (pmmFreePageLogged page s).value = pmmFreePage page s := by
  simp only [pmmFreePageLogged, pmmFreePage]
  split
  · rfl
  · rw [value_bind, show (bitmapTestLogged s (page / 4096#32)).value =
      bitmapTest s (page / 4096#32) from rfl]
    split
    · rfl
    · rfl

/-! ## Where the accesses are -/

/-- The index is one of a word of the bitmap. -/
def InBitmap (k : Nat) : Prop := k < BITMAP_SIZE.toNat / 4

theorem inBitmap_wordIndex {bit : Word} (h : bit.toNat < 2 ^ 20) : InBitmap (wordIndex bit) := by
  rw [InBitmap, wordIndex, BitVec.toNat_udiv]
  show bit.toNat / 32 < 0x20000 / 4
  omega

theorem bitmapTestLogged_all {s : Pmm} {bit : Word} (h : bit.toNat < 2 ^ 20) :
    (bitmapTestLogged s bit).All InBitmap :=
  (all_touch (inBitmap_wordIndex h)).bind (all_pure _)

theorem bitmapSetLogged_all {s : Pmm} {bit : Word} (h : bit.toNat < 2 ^ 20) :
    (bitmapSetLogged s bit).All InBitmap :=
  (all_touch (inBitmap_wordIndex h)).bind ((all_touch (inBitmap_wordIndex h)).bind (all_pure _))

theorem bitmapClearLogged_all {s : Pmm} {bit : Word} (h : bit.toNat < 2 ^ 20) :
    (bitmapClearLogged s bit).All InBitmap :=
  (all_touch (inBitmap_wordIndex h)).bind ((all_touch (inBitmap_wordIndex h)).bind (all_pure _))

theorem bitmapFindFreeFrom_all {s : Pmm} {n i : Nat} (h : i + n ≤ 2 ^ 20) :
    (bitmapFindFreeFrom s n i).All InBitmap := by
  induction n generalizing i with
  | zero => exact all_pure _
  | succ n ih =>
    have hbit : (BitVec.ofNat 32 i).toNat = i := toNat_ofNat_of_lt (by omega)
    refine (bitmapTestLogged_all (by omega)).bind ?_
    split
    · exact all_pure _
    · exact ih (by omega)

theorem bitmapFillLogged_all {base : Word} {n : Nat} {m : Mem} (h : n ≤ BITMAP_SIZE.toNat / 4) :
    (bitmapFillLogged base n m).All InBitmap := by
  induction n with
  | zero => exact all_pure _
  | succ n ih =>
    have hn : InBitmap n := h
    exact (ih (by omega)).bind ((all_touch hn).bind (all_pure _))

theorem releaseBlocksLogged_all {n i : Nat} {s : Pmm} (h : i + n ≤ 2 ^ 20) :
    (releaseBlocksLogged n (BitVec.ofNat 32 i) s).All InBitmap := by
  induction n generalizing i s with
  | zero => exact all_pure _
  | succ n ih =>
    have hbit : (BitVec.ofNat 32 i).toNat = i := toNat_ofNat_of_lt (by omega)
    refine (bitmapClearLogged_all (by omega)).bind ?_
    rw [ofNat_add_ofNat]
    exact ih (by omega)

theorem pmmInitLogged_all (mbi : MultibootInfo) (kernelEnd : Word) (mem : Mem) :
    (pmmInitLogged mbi kernelEnd mem).All InBitmap := by
  have hstart := freeStartOf_lt kernelEnd
  have htotal := totalBlocksOf_lt mbi
  have hword : freeStartAddr (alignPage kernelEnd) / 4096#32 =
      BitVec.ofNat 32 (freeStartOf kernelEnd) := by
    rw [freeStartOf, BitVec.ofNat_toNat, BitVec.setWidth_eq]
  refine (bitmapFillLogged_all (by decide)).bind ?_
  dsimp only
  rw [hword]
  refine releaseBlocksLogged_all ?_
  rw [toNat_ofNat_of_lt (by omega)]
  unfold totalBlocksOf at htotal
  omega

theorem pmmAllocPageLogged_all {s : Pmm} (htotal : s.totalBlocks.toNat < 2 ^ 20) :
    (pmmAllocPageLogged s).All InBitmap := by
  refine (bitmapFindFreeFrom_all (by omega)).bind ?_
  rw [show (bitmapFindFreeFrom s s.totalBlocks.toNat 0).value = bitmapFindFree s from
    bitmapFindFreeLogged_value s]
  split
  · exact all_pure _
  · next hpos =>
    refine (bitmapSetLogged_all ?_).bind (all_pure _)
    rcases bitmapFindFree_cases s with ⟨hfind, _⟩ | ⟨i, hi, hfind, _⟩
    · rw [hfind] at hpos
      exact absurd rfl hpos
    · rw [hfind, toNat_ofNat_of_lt (by omega)]
      omega

theorem pmmFreePageLogged_all (page : Word) (s : Pmm) :
    (pmmFreePageLogged page s).All InBitmap := by
  have hnum : (page / 4096#32).toNat < 2 ^ 20 := by
    have hlt := page.isLt
    rw [BitVec.toNat_udiv, show (4096#32).toNat = 4096 from rfl]
    omega
  unfold pmmFreePageLogged
  dsimp only
  split
  · exact all_pure _
  · refine (bitmapTestLogged_all hnum).bind ?_
    split
    · exact all_pure _
    · exact (bitmapClearLogged_all hnum).bind (all_pure _)

/-! ## Counting the bits -/

/-- The number of blocks below `total_blocks` whose bit is set. -/
def usedCount (s : Pmm) : Nat := ((Finset.range s.totalBlocks.toNat).filter (Taken s)).card

theorem card_filter_insert {n i : Nat} {P Q : Nat → Prop} [DecidablePred P] [DecidablePred Q]
    (hi : i < n) (hP : ¬ P i) (hQ : ∀ j, j < n → (Q j ↔ j = i ∨ P j)) :
    ((Finset.range n).filter Q).card = ((Finset.range n).filter P).card + 1 := by
  have hset : (Finset.range n).filter Q = insert i ((Finset.range n).filter P) := by
    ext j
    rw [Finset.mem_insert, Finset.mem_filter, Finset.mem_filter, Finset.mem_range]
    constructor
    · rintro ⟨hj, h⟩
      exact ((hQ j hj).mp h).imp_right fun h => ⟨hj, h⟩
    · rintro (rfl | ⟨hj, h⟩)
      · exact ⟨hi, (hQ j hi).mpr (Or.inl rfl)⟩
      · exact ⟨hj, (hQ j hj).mpr (Or.inr h)⟩
  rw [hset, Finset.card_insert_of_notMem fun h => hP (Finset.mem_filter.mp h).2]

theorem releaseBlocks_usedBlocks (n : Nat) (i : Word) (s : Pmm) :
    (releaseBlocks n i s).usedBlocks = s.usedBlocks - BitVec.ofNat 32 n := by
  induction n generalizing i s with
  | zero => exact (BitVec.sub_zero _).symm
  | succ n ih =>
    rw [releaseBlocks, ih, Nat.add_comm n 1, ← ofNat_add_ofNat]
    exact BitVec.sub_sub _ _ _

/-- What the counter is kept to. -/
structure Accounted (mbi : MultibootInfo) (s : Pmm) : Prop where
  total : s.totalBlocks.toNat = totalBlocksOf mbi
  used : s.usedBlocks.toNat = usedCount s

variable {mbi : MultibootInfo} {kernelEnd : Word}

theorem Accounted.total_lt {s : Pmm} (hs : Accounted mbi s) : s.totalBlocks.toNat < 2 ^ 20 := by
  rw [hs.total]
  exact totalBlocksOf_lt mbi

theorem usedCount_le (s : Pmm) : usedCount s ≤ s.totalBlocks.toNat := by
  have h := Finset.card_filter_le (Finset.range s.totalBlocks.toNat) (Taken s)
  rwa [Finset.card_range] at h

theorem pmmInit_usedBlocks (mbi : MultibootInfo) (kernelEnd : Word) (mem : Mem) :
    (pmmInit mbi kernelEnd mem).usedBlocks.toNat = min (freeStartOf kernelEnd) (totalBlocksOf mbi) := by
  have htotal := totalBlocksOf_lt mbi
  simp only [pmmInit, releaseBlocks_usedBlocks]
  show (totalMemoryOf mbi / 4096#32 -
    BitVec.ofNat 32 (totalBlocksOf mbi - freeStartOf kernelEnd)).toNat = _
  have hword : (BitVec.ofNat 32 (totalBlocksOf mbi - freeStartOf kernelEnd)).toNat =
      totalBlocksOf mbi - freeStartOf kernelEnd := toNat_ofNat_of_lt (by omega)
  rw [BitVec.toNat_sub, hword]
  unfold totalBlocksOf at *
  omega

theorem pmmInit_accounted (mbi : MultibootInfo) (kernelEnd : Word) (mem : Mem) :
    Accounted mbi (pmmInit mbi kernelEnd mem) := by
  have hlt := totalBlocksOf_lt mbi
  have htotal : (pmmInit mbi kernelEnd mem).totalBlocks.toNat = totalBlocksOf mbi :=
    congrArg BitVec.toNat (pmmInit_frame mbi kernelEnd mem).2.2
  have hset : (Finset.range (totalBlocksOf mbi)).filter (Taken (pmmInit mbi kernelEnd mem)) =
      Finset.range (min (freeStartOf kernelEnd) (totalBlocksOf mbi)) := by
    ext j
    rw [Finset.mem_filter, Finset.mem_range, Finset.mem_range]
    constructor
    · rintro ⟨hj, h⟩
      rw [pmmInit_taken (by omega)] at h
      omega
    · intro hj
      rw [pmmInit_taken (by omega)]
      omega
  constructor
  case total => exact htotal
  case used => rw [pmmInit_usedBlocks, usedCount, htotal, hset, Finset.card_range]

theorem Accounted.alloc {s : Pmm} (hs : Accounted mbi s) : Accounted mbi (pmmAllocPage s).2 := by
  have hlt := hs.total_lt
  rcases pmmAllocPage_taken hlt with ⟨hcall, _⟩ | ⟨i, t, hi, hfree, _, hcall, hsame, hused, ht⟩
  · rw [hcall]
    exact hs
  · rw [hcall]
    have hcount : usedCount t = usedCount s + 1 := by
      rw [usedCount, usedCount, hsame]
      exact card_filter_insert hi hfree fun j hj => ht j (by omega)
    have hle := usedCount_le t
    rw [hsame] at hle
    constructor
    case total => exact (congrArg BitVec.toNat hsame).trans hs.total
    case used =>
      have hadd : (s.usedBlocks + 1#32).toNat = s.usedBlocks.toNat + 1 :=
        toNat_add_ofNat (by rw [hs.used]; omega)
      rw [hused, hadd, hs.used, hcount]

theorem Accounted.free {s : Pmm} (hs : Accounted mbi s) (page : Word) :
    Accounted mbi (pmmFreePage page s) := by
  have hlt := hs.total_lt
  rcases pmmFreePage_taken page s with ⟨hcall, _⟩ | ⟨hin, htaken, hsame, hused, ht⟩
  · rw [hcall]
    exact hs
  · have hcount : usedCount s = usedCount (pmmFreePage page s) + 1 := by
      rw [usedCount, usedCount, hsame]
      refine card_filter_insert hin ?_ fun j hj => ?_
      · rw [ht _ (by omega)]
        exact fun h => h.1 rfl
      · rw [ht j (by omega)]
        constructor
        · intro h
          rcases Decidable.em (j = page.toNat / 4096) with he | he
          · exact Or.inl he
          · exact Or.inr ⟨he, h⟩
        · rintro (rfl | h)
          · exact htaken
          · exact h.2
    constructor
    case total => exact (congrArg BitVec.toNat hsame).trans hs.total
    case used =>
      have hused' := hs.used
      rw [hused, BitVec.toNat_sub, show (1#32).toNat = 1 from rfl]
      omega

/-! ## Runs -/

inductive PmmCall where
  | alloc
  | free (page : Word)

def PmmCall.exec : PmmCall → Pmm → Logged Nat Pmm
  | .alloc, s => do
      let r ← pmmAllocPageLogged s
      pure r.2
  | .free page, s => pmmFreePageLogged page s

/-- `pmm_init` and then any calls with any arguments. A state carries the
accesses of the whole run. -/
def frameSystem (mbi : MultibootInfo) (kernelEnd : Word) :
    TransitionSystem (Logged Nat Pmm) PmmCall where
  init := fun s => ∃ mem, s = pmmInitLogged mbi kernelEnd mem
  step := fun s c t => t = s >>= c.exec

theorem Accounted.exec {s : Pmm} (hs : Accounted mbi s) (c : PmmCall) :
    Accounted mbi (c.exec s).value ∧ (c.exec s).All InBitmap := by
  cases c with
  | alloc =>
    refine ⟨?_, (pmmAllocPageLogged_all hs.total_lt).bind (all_pure _)⟩
    rw [PmmCall.exec, value_bind, pmmAllocPageLogged_value]
    exact hs.alloc
  | free page =>
    refine ⟨?_, pmmFreePageLogged_all page s⟩
    rw [PmmCall.exec, pmmFreePageLogged_value]
    exact hs.free page

theorem reachable_accounted {s : Logged Nat Pmm} (h : (frameSystem mbi kernelEnd).Reachable s) :
    Accounted mbi s.value ∧ s.All InBitmap := by
  refine h.invariant (P := fun s => Accounted mbi s.value ∧ s.All InBitmap) ?_ ?_
  · rintro s ⟨mem, rfl⟩
    refine ⟨?_, pmmInitLogged_all mbi kernelEnd mem⟩
    rw [pmmInitLogged_value]
    exact pmmInit_accounted mbi kernelEnd mem
  · rintro s c t _ ⟨hs, hlog⟩ rfl
    obtain ⟨ht, hlog'⟩ := hs.exec c
    exact ⟨ht, hlog.bind hlog'⟩

/-- Used and free memory as reported are those of the counts. -/
theorem Accounted.reported {s : Pmm} (hs : Accounted mbi s) :
    (pmmGetUsedMemory s).toNat + (pmmGetFreeMemory s).toNat = s.totalBlocks.toNat * 4096 := by
  have hlt := hs.total_lt
  have hle := usedCount_le s
  have hused := hs.used
  rw [pmmGetUsedMemory, pmmGetFreeMemory, BitVec.toNat_mul, BitVec.toNat_mul, BitVec.toNat_sub,
    show (4096#32).toNat = 4096 from rfl]
  omega

/-- After any calls with any arguments: `used_blocks` is the number of bits set
below `total_blocks`, all accesses so far were to words of the bitmap, and used
and free memory add up to all blocks. -/
theorem frame_accounting (mbi : MultibootInfo) (kernelEnd : Word) {s : Logged Nat Pmm}
    (h : (frameSystem mbi kernelEnd).Reachable s) :
    s.value.usedBlocks.toNat = usedCount s.value ∧
      s.value.usedBlocks.toNat ≤ s.value.totalBlocks.toNat ∧
      (∀ k ∈ s.log, k < BITMAP_SIZE.toNat / 4) ∧
      (pmmGetUsedMemory s.value).toNat + (pmmGetFreeMemory s.value).toNat =
        s.value.totalBlocks.toNat * 4096 := by
  obtain ⟨hs, hlog⟩ := reachable_accounted h
  exact ⟨hs.used, hs.used ▸ usedCount_le s.value, hlog, hs.reported⟩

/-- A run that frees an address nobody was given. -/
theorem frame_accounting_free :
    ∃ s, (frameSystem ⟨0#32, 0#32, 0#32⟩ 0x200000#32).Reachable s ∧
      s.value.usedBlocks.toNat = usedCount s.value := by
  have hinit : (frameSystem ⟨0#32, 0#32, 0#32⟩ 0x200000#32).Reachable
      (pmmInitLogged ⟨0#32, 0#32, 0#32⟩ 0x200000#32 fun _ => 0#8) := .init ⟨fun _ => 0#8, rfl⟩
  have hfree := hinit.step (a := .free 0x1234567#32) rfl
  exact ⟨_, hfree, (frame_accounting ⟨0#32, 0#32, 0#32⟩ 0x200000#32 hfree).1⟩

end Zenix
