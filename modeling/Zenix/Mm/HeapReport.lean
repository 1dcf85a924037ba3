import Zenix.Mm.HeapSafety

/-!
# The free memory that the heap reports

`heap_get_free` takes the bytes in use and one header from the size of the window. Every
block has a header.

Results:
1. `Represents.reported`: the report is too large by the headers behind the first one.
2. `free_reported_iff`: in every state of every run it is right exactly when nothing is
   allocated or one allocation has the whole heap.
3. `free_overstated`: after the first allocation it is too large by 12 bytes.
-/

namespace Zenix
open ByteMemory FirstFit

/-! ## The property -/

/-- The bytes of the free blocks. -/
def freeBytes (bs : List Block) : Nat := ((bs.filter fun b => !b.used).map fun b => b.size).sum

/-- The report is what the free blocks of the list add up to, and with the used bytes and
the headers it makes up the window. -/
def ReportsFree (h : Heap) : Prop :=
  ∃ bs, BlockList h.mem h.heapStart bs ∧ (heapGetFree h).toNat = freeBytes bs ∧
    HEAP_SIZE.toNat = (heapGetUsed h).toNat + (heapGetFree h).toNat + 12 * bs.length

/-- Nothing is allocated, or the block of the only allocation takes up the window. -/
def UnsplitHeap (s : HeapRun) : Prop :=
  s.live = [] ∨ ∃ p n, s.live = [(p, n)] ∧
    (blockSize s.heap.mem (p - sizeofHeapBlock)).toNat = HEAP_SIZE.toNat - 12

/-! ## The report and the chunk list -/

/-- Headers, used and free bytes make up the range. -/
theorem span_eq_parts (a : Nat) (cs : List Chunk) :
    span 12 cs = 12 * cs.length + usedBytes cs + freeBytes (layout 12 a cs) := by
  induction cs generalizing a with
  | nil => rfl
  | cons c cs ih =>
    have htail := ih (a + 12 + c.size)
    unfold freeBytes at htail ⊢
    rw [span, usedBytes, List.length_cons, layout, List.filter_cons]
    cases c.used with
    | true =>
      simp only [Bool.not_true, Bool.false_eq_true, if_false, if_true]
      omega
    | false =>
      simp only [Bool.not_false, Bool.false_eq_true, if_false, if_true, List.map_cons, List.sum_cons]
      omega

theorem length_layout (a : Nat) (cs : List Chunk) : (layout 12 a cs).length = cs.length := by
  induction cs generalizing a with
  | nil => rfl
  | cons c cs ih => rw [layout, List.length_cons, List.length_cons, ih]

/-- A window is not empty. -/
theorem Represents.length_pos {h : Heap} {cs : List Chunk} (hr : Represents h cs) :
    0 < cs.length := by
  cases cs with
  | nil => exact absurd hr.fills (by decide)
  | cons c cs => exact Nat.succ_pos _

/-- The report counts the headers behind the first one as free. -/
theorem Represents.reported {h : Heap} {cs : List Chunk} (hr : Represents h cs) :
    (heapGetFree h).toNat + 12 =
      freeBytes (layout 12 0x400000 cs) + 12 * cs.length := by
  have hparts := span_eq_parts 0x400000 cs
  have hfill := hr.fills
  have hpos := hr.length_pos
  rw [heapGetFree, hr.used, HEAP_SIZE, sizeofHeapBlock, ofNat_sub_ofNat (by omega),
    ofNat_sub_ofNat (by omega), toNat_ofNat_of_lt (by omega)]
  omega

theorem reportsFree_iff {h : Heap} {cs : List Chunk} (hr : Represents h cs) :
    ReportsFree h ↔ cs.length = 1 := by
  have hfree := hr.reported
  have hparts := span_eq_parts 0x400000 cs
  have hfill := hr.fills
  have hsize : HEAP_SIZE.toNat = 0x400000 := rfl
  have hused : (heapGetUsed h).toNat = usedBytes cs := by
    rw [heapGetUsed, hr.used, toNat_ofNat_of_lt (by omega)]
  constructor
  · rintro ⟨bs, hbs, hreport, _⟩
    obtain rfl := hbs.unique hr.invariant.list
    omega
  · intro hone
    refine ⟨_, hr.invariant.list, by omega, ?_⟩
    rw [length_layout, hused]
    omega

/-! ## The live blocks of an unsplit heap -/

/-- Two free chunks are not neighbours. -/
theorem coalesced_free {cs : List Chunk} (h : Coalesced cs) (hfree : ∀ c ∈ cs, c.used = false) :
    cs.length ≤ 1 := by
  cases cs with
  | nil => exact Nat.zero_le _
  | cons c cs =>
    cases cs with
    | nil => exact Nat.le_refl _
    | cons d cs =>
      have hc := hfree c List.mem_cons_self
      have hd := hfree d (List.mem_cons_of_mem _ List.mem_cons_self)
      rcases (List.isChain_cons_cons.mp h).1 with hu | hu
      · exact absurd (hc.symm.trans hu) (by decide)
      · exact absurd (hd.symm.trans hu) (by decide)

theorem RunInvariant.live_nil {s : HeapRun} {cs : List Chunk} (hs : RunInvariant s cs)
    (hlive : s.live = []) : ∀ c ∈ cs, c.used = false := by
  intro c hc
  have hperm := hs.live
  rw [hlive] at hperm
  have hnone : usedBlocks 12 0x400000 cs = [] := List.map_eq_nil_iff.mp hperm.symm.eq_nil
  obtain ⟨pre, post, rfl⟩ := List.append_of_mem hc
  by_contra hused
  have hmem : (⟨0x400000 + span 12 pre, c.size, c.used⟩ : Block) ∈
      usedBlocks 12 0x400000 (pre ++ c :: post) :=
    mem_usedBlocks.mpr ⟨mem_layout.mpr ⟨pre, c, post, rfl, rfl⟩, Bool.of_not_eq_false hused⟩
  rw [hnone] at hmem
  exact absurd hmem List.not_mem_nil

/-- The chunk of a live pointer, by its size in the header. -/
theorem RunInvariant.unsplit_iff {s : HeapRun} {cs : List Chunk} (hs : RunInvariant s cs) :
    UnsplitHeap s ↔ cs.length = 1 := by
  have hfill := hs.heap.fills
  have hwindow : HEAP_SIZE.toNat = 0x400000 := rfl
  constructor
  · rintro (hnone | ⟨p, n, hone, hsize⟩)
    · have hle := coalesced_free hs.heap.coalesced (hs.live_nil hnone)
      have hpos := hs.heap.length_pos
      omega
    · obtain ⟨pre, c, post, rfl, _, rfl⟩ := hs.chunk (p := p) (n := n) (by rw [hone]; simp)
      have hc := (headers_cons.mp (headers_append.mp hs.heap.headers).2).1
      have hlen := length_le_span 12 (pre ++ post)
      rw [span_append, span] at hfill
      rw [span_append] at hlen
      rw [header_of_pointer, hc.size, toNat_ofNat_of_lt (by omega)] at hsize
      rw [List.length_append, List.length_cons]
      rw [List.length_append] at hlen
      omega
  · intro hlen
    obtain ⟨c, rfl⟩ := List.length_eq_one_iff.mp hlen
    have hc := (headers_cons.mp hs.heap.headers).1
    rw [span, span] at hfill
    have hperm := hs.live
    rw [usedBlocks, layout, layout, List.filter_cons] at hperm
    cases hu : c.used with
    | false =>
      rw [hu, if_neg Bool.false_ne_true] at hperm
      exact Or.inl (List.map_eq_nil_iff.mp hperm.eq_nil)
    | true =>
      rw [hu, if_pos rfl] at hperm
      obtain ⟨⟨p, n⟩, hone, hp⟩ := List.map_eq_singleton_iff.mp (List.perm_singleton.mp hperm)
      refine Or.inr ⟨p, n, hone, ?_⟩
      rw [show p = BitVec.ofNat 32 (0x400000 + 12) from hp, header_of_pointer, hc.size,
        toNat_ofNat_of_lt (by omega)]
      omega

/-- In every state of every run: the report is right exactly when the heap is not split. -/
theorem free_reported_iff {s : HeapRun} (h : heapSystem.Reachable s) :
    ReportsFree s.heap ↔ UnsplitHeap s := by
  obtain ⟨cs, hs⟩ := reachable_run h
  rw [reportsFree_iff hs.heap, hs.unsplit_iff]

/-- A word is allocated and freed again. -/
theorem free_reported_iff_freed :
    ∃ h₁ h₂, kmalloc 4#32 (heapInit fun _ => 0#8) = some (0x40000C#32, h₁) ∧
      kfree 0x40000C#32 h₁ = some h₂ ∧ ReportsFree h₂ := by
  obtain ⟨h₁, _, hk₁, hone, _⟩ := fresh_twoWords
  obtain ⟨h₂, hk₂, hfreed⟩ := reachable_kfree hone List.mem_cons_self
  exact ⟨h₁, h₂, hk₁, hk₂, (free_reported_iff hfreed).mpr (Or.inl rfl)⟩

/-- One word of the fresh heap is allocated: 12 bytes are reported that no block has. -/
theorem free_overstated :
    ∃ p h, kmalloc 4#32 (heapInit fun _ => 0#8) = some (p, h) ∧
      heapSystem.Reachable ⟨h, [(p, 4#32)]⟩ ∧ (heapGetFree h).toNat = 0x3FFFF0 ∧
      (∀ bs, BlockList h.mem h.heapStart bs → freeBytes bs = 0x3FFFE4) ∧ ¬ ReportsFree h := by
  obtain ⟨h, _, hk, hstep, hr, _⟩ := fresh_twoWords
  refine ⟨_, h, hk, hstep, ?_, fun bs hbs => ?_, ?_⟩
  · rw [heapGetFree, hr.used]
    decide
  · rw [hbs.unique hr.invariant.list]
    decide
  · rw [reportsFree_iff hr]
    decide

end Zenix
