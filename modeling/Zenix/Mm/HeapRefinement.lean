import Zenix.Lib.FirstFit
import Zenix.Mm.Heap

/-!
# The heap refines first-fit allocation

Memory holds the headers of a chunk list that fills the window (`Represents`).
`heap_init`, `kmalloc` and `kfree` compute, on that chunk list, the one-chunk
range, the first fit and the coalescing release of `FirstFit`.

Results:
1. `heapInit_represents`.
2. `kmalloc_none`, `kmalloc_some`: what `kmalloc` returns and what it leaves.
3. `kfree_spec`: the same for `kfree` on a used block.
-/

namespace Zenix
open ByteMemory FirstFit

/-! ## Headers in memory -/

/-- The `next` pointer of a block that ends at `x`. -/
def linkTo (x : Nat) : Word := if x = 0x800000 then 0#32 else BitVec.ofNat 32 x

/-- The header of a block of `s` bytes is in memory at `a`. -/
structure HeaderAt (m : Mem) (a s : Nat) (u : Bool) : Prop where
  size : blockSize m (BitVec.ofNat 32 a) = BitVec.ofNat 32 s
  used : blockUsed m (BitVec.ofNat 32 a) = if u then 1#32 else 0#32
  next : blockNext m (BitVec.ofNat 32 a) = linkTo (a + 12 + s)

/-- Memory holds the chunk list `cs`, laid out from `a`. -/
def Headers (m : Mem) (a : Nat) (cs : List Chunk) : Prop :=
  ∀ b ∈ layout 12 a cs, HeaderAt m b.addr b.size b.used

/-- The heap state is the chunk list `cs`, which fills the window. -/
structure Represents (h : Heap) (cs : List Chunk) : Prop where
  start : h.heapStart = HEAP_START
  headers : Headers h.mem 0x400000 cs
  fills : 0x400000 + span 12 cs = 0x800000
  coalesced : Coalesced cs
  aligned : Aligned 4 cs
  used : h.heapUsed = BitVec.ofNat 32 (usedBytes cs)

/-- `m'` agrees with `m` outside the headers of `cs`. -/
def SamePayload (m m' : Mem) (a : Nat) (cs : List Chunk) : Prop :=
  ∀ x : Word, (∀ b ∈ layout 12 a cs, x.toNat < b.addr ∨ b.addr + 12 ≤ x.toNat) → m' x = m x

section Fields

variable (m : Mem) (b v : Word)

@[simp] theorem size_setSize : blockSize (setSize m b v) b = v := load32_store32_same _ _ _
@[simp] theorem used_setUsed : blockUsed (setUsed m b v) b = v := load32_store32_same _ _ _
@[simp] theorem next_setNext : blockNext (setNext m b v) b = v := load32_store32_same _ _ _

@[simp] theorem used_setSize : blockUsed (setSize m b v) b = blockUsed m b :=
  load32_store32_ne (by bv_omega) (by bv_omega)
@[simp] theorem next_setSize : blockNext (setSize m b v) b = blockNext m b :=
  load32_store32_ne (by bv_omega) (by bv_omega)
@[simp] theorem size_setUsed : blockSize (setUsed m b v) b = blockSize m b :=
  load32_store32_ne (by bv_omega) (by bv_omega)
@[simp] theorem next_setUsed : blockNext (setUsed m b v) b = blockNext m b :=
  load32_store32_ne (by bv_omega) (by bv_omega)
@[simp] theorem size_setNext : blockSize (setNext m b v) b = blockSize m b :=
  load32_store32_ne (by bv_omega) (by bv_omega)
@[simp] theorem used_setNext : blockUsed (setNext m b v) b = blockUsed m b :=
  load32_store32_ne (by bv_omega) (by bv_omega)

end Fields

section Frames

variable {m : Mem} {a : Nat} {v : Word} (h : a + 12 ≤ 2 ^ 32)
include h

theorem setSize_sameOff : SameOff m (setSize m (BitVec.ofNat 32 a) v) a (a + 12) := by
  have ha : (BitVec.ofNat 32 a).toNat = a := toNat_ofNat_of_lt (by omega)
  have hs := store32_sameOff (m := m) (a := BitVec.ofNat 32 a) (v := v) (by omega)
  exact hs.mono (by omega) (by omega)

theorem setUsed_sameOff : SameOff m (setUsed m (BitVec.ofNat 32 a) v) a (a + 12) := by
  have ha : (BitVec.ofNat 32 a + 4#32).toNat = a + 4 := by
    rw [ofNat_add_ofNat, toNat_ofNat_of_lt (by omega)]
  have hs := store32_sameOff (m := m) (a := BitVec.ofNat 32 a + 4#32) (v := v) (by omega)
  exact hs.mono (by omega) (by omega)

theorem setNext_sameOff : SameOff m (setNext m (BitVec.ofNat 32 a) v) a (a + 12) := by
  have ha : (BitVec.ofNat 32 a + 8#32).toNat = a + 8 := by
    rw [ofNat_add_ofNat, toNat_ofNat_of_lt (by omega)]
  have hs := store32_sameOff (m := m) (a := BitVec.ofNat 32 a + 8#32) (v := v) (by omega)
  exact hs.mono (by omega) (by omega)

theorem mergeInto_sameOff {next : Word} :
    SameOff m (mergeInto m (BitVec.ofNat 32 a) next) a (a + 12) :=
  (setSize_sameOff h).trans (setNext_sameOff h)

end Frames

section Loads

variable {m m' : Mem} {a : Nat} (hs : SameOn m m' a (a + 12)) (h : a + 12 ≤ 2 ^ 32)
include hs h

theorem blockSize_congr :
    blockSize m' (BitVec.ofNat 32 a) = blockSize m (BitVec.ofNat 32 a) := by
  have ha : (BitVec.ofNat 32 a).toNat = a := toNat_ofNat_of_lt (by omega)
  exact load32_congr hs (by omega) (by omega) h

theorem blockUsed_congr :
    blockUsed m' (BitVec.ofNat 32 a) = blockUsed m (BitVec.ofNat 32 a) := by
  have ha : (BitVec.ofNat 32 a + 4#32).toNat = a + 4 := by
    rw [ofNat_add_ofNat, toNat_ofNat_of_lt (by omega)]
  exact load32_congr hs (by omega) (by omega) h

theorem blockNext_congr :
    blockNext m' (BitVec.ofNat 32 a) = blockNext m (BitVec.ofNat 32 a) := by
  have ha : (BitVec.ofNat 32 a + 8#32).toNat = a + 8 := by
    rw [ofNat_add_ofNat, toNat_ofNat_of_lt (by omega)]
  exact load32_congr hs (by omega) (by omega) h

end Loads

theorem HeaderAt.congr {m m' : Mem} {a s : Nat} {u : Bool} (hb : HeaderAt m a s u)
    (hs : SameOn m m' a (a + 12)) (h : a + 12 ≤ 2 ^ 32) : HeaderAt m' a s u where
  size := (blockSize_congr hs h).trans hb.size
  used := (blockUsed_congr hs h).trans hb.used
  next := (blockNext_congr hs h).trans hb.next

/-! ## Headers of a chunk list -/

theorem headers_nil (m : Mem) (a : Nat) : Headers m a [] := by
  intro b hb
  cases hb

theorem headers_cons {m : Mem} {a : Nat} {c : Chunk} {cs : List Chunk} :
    Headers m a (c :: cs) ↔
      HeaderAt m a c.size c.used ∧ Headers m (a + 12 + c.size) cs := by
  simp only [Headers, layout, List.mem_cons, forall_eq_or_imp]

theorem headers_append {m : Mem} {a : Nat} {cs ds : List Chunk} :
    Headers m a (cs ++ ds) ↔ Headers m a cs ∧ Headers m (a + span 12 cs) ds := by
  simp only [Headers, layout_append, List.mem_append, or_imp, forall_and]

theorem Headers.congr {m m' : Mem} {a : Nat} {cs : List Chunk} (h : Headers m a cs)
    (hs : ∀ b ∈ layout 12 a cs, SameOn m m' b.addr (b.addr + 12))
    (hmax : a + span 12 cs ≤ 2 ^ 32) : Headers m' a cs := by
  intro b hb
  have hbd := layout_bounds hb
  exact (h b hb).congr (hs b hb) (by omega)

/-- A change below or above a chunk list keeps its headers. -/
theorem Headers.frame {m m' : Mem} {a lo hi : Nat} {cs : List Chunk} (h : Headers m a cs)
    (hs : SameOff m m' lo hi) (hd : a + span 12 cs ≤ lo ∨ hi ≤ a)
    (hmax : a + span 12 cs ≤ 2 ^ 32) : Headers m' a cs := by
  refine h.congr (fun b hb => hs.sameOn ?_) hmax
  have hbd := layout_bounds hb
  omega

theorem linkTo_of_ne {x : Nat} (h : x ≠ 0x800000) : linkTo x = BitVec.ofNat 32 x := by
  rw [linkTo, if_neg h]

theorem linkTo_hi : linkTo 0x800000 = 0#32 := by
  rw [linkTo, if_pos rfl]

theorem ofNat_ne_zero {x : Nat} (h : 0 < x) (hlt : x < 2 ^ 32) : BitVec.ofNat 32 x ≠ 0#32 := by
  rw [Ne, ofNat_inj hlt (by omega)]
  omega

theorem used_eq_zero (u : Bool) : (if u then 1#32 else 0#32) = 0#32 ↔ u = false := by
  cases u <;> simp

theorem HeaderAt.used_iff {m : Mem} {a s : Nat} {u : Bool} (h : HeaderAt m a s u) :
    blockUsed m (BitVec.ofNat 32 a) = 0#32 ↔ u = false := by
  rw [h.used, used_eq_zero]

/-! ## Initialisation -/

/-- The one free chunk of a fresh heap. -/
def freshChunk : Chunk := ⟨0x400000 - 12, false⟩

theorem heapInit_represents (m : Mem) : Represents (heapInit m) [freshChunk] where
  start := rfl
  headers := by
    rw [headers_cons]
    refine ⟨⟨?_, ?_, ?_⟩, headers_nil _ _⟩ <;> simp [heapInit, HEAP_START, HEAP_SIZE,
      sizeofHeapBlock, freshChunk, linkTo]
  fills := rfl
  coalesced := List.IsChain.singleton _
  aligned := by
    intro c hc
    rw [List.mem_singleton.mp hc]
    decide
  used := rfl

theorem heapInit_sameOff (m : Mem) : SameOff m (heapInit m).mem 0x400000 (0x400000 + 12) :=
  ((setSize_sameOff (by omega)).trans (setUsed_sameOff (by omega))).trans
    (setNext_sameOff (by omega))

/-! ## Allocation -/

/-- The walk of `kmalloc` stops at the first chunk that fits. -/
theorem kmallocLoop_spec {h : Heap} {size : Word} {a fuel : Nat} {cs : List Chunk}
    (hcs : Headers h.mem a cs) (hfill : a + span 12 cs = 0x800000) (ha : 0 < a)
    (hfuel : cs.length < fuel) :
    kmallocLoop fuel size (linkTo a) h =
      match firstFit size.toNat cs with
      | none => some (0#32, h)
      | some (pre, _, _) => some (takeBlock size (BitVec.ofNat 32 (a + span 12 pre)) h) := by
  induction cs generalizing a fuel with
  | nil =>
    obtain ⟨f, rfl⟩ := Nat.exists_eq_succ_of_ne_zero (by omega : fuel ≠ 0)
    have hstop : a = 0x800000 := by simpa [span] using hfill
    subst hstop
    rw [linkTo_hi, kmallocLoop, if_pos rfl]
    rfl
  | cons c cs ih =>
    obtain ⟨f, rfl⟩ := Nat.exists_eq_succ_of_ne_zero (by omega : fuel ≠ 0)
    obtain ⟨hc, htail⟩ := headers_cons.mp hcs
    unfold span at hfill
    have hne : BitVec.ofNat 32 a ≠ 0#32 := ofNat_ne_zero ha (by omega)
    rw [linkTo_of_ne (by omega), kmallocLoop, if_neg hne]
    -- the test of the loop is `Fits`
    have hfits : (blockUsed h.mem (BitVec.ofNat 32 a) = 0#32 ∧
        size ≤ blockSize h.mem (BitVec.ofNat 32 a)) ↔ Fits size.toNat c := by
      rw [hc.used_iff, hc.size, BitVec.le_def, toNat_ofNat_of_lt (by omega)]
      rfl
    unfold firstFit
    by_cases hf : Fits size.toNat c
    · rw [if_pos (hfits.mpr hf), if_pos hf]
      rfl
    · have hlen : cs.length < f := by simpa using hfuel
      rw [if_neg (mt hfits.mp hf), if_neg hf, hc.next, ih htail (by omega) (by omega) hlen]
      cases firstFit size.toNat cs with
      | none => rfl
      | some r =>
        obtain ⟨pre, d, post⟩ := r
        simp only [Option.map_some, span]
        rw [show a + 12 + c.size + span 12 pre = a + (12 + c.size + span 12 pre) by omega]

/-- Splitting the free block at `x` leaves two free blocks in its place. -/
theorem splitBlock_spec {m : Mem} {x n : Nat} {c : Chunk}
    (hc : HeaderAt m x c.size false) (hn : n + 12 + 4 < c.size)
    (hhi : x + 12 + c.size ≤ 0x800000) :
    Headers (splitBlock (BitVec.ofNat 32 n) (BitVec.ofNat 32 x) m) x
        [⟨n, false⟩, ⟨c.size - n - 12, false⟩] ∧
      SameOff m (splitBlock (BitVec.ofNat 32 n) (BitVec.ofNat 32 x) m) x (x + 12 + c.size) := by
  obtain ⟨y, hy⟩ : ∃ y, y = x + 12 + n := ⟨_, rfl⟩
  have hnew : BitVec.ofNat 32 x + sizeofHeapBlock + BitVec.ofNat 32 n = BitVec.ofNat 32 y := by
    rw [sizeofHeapBlock, ofNat_add_ofNat, ofNat_add_ofNat, hy]
  have hrest : blockSize m (BitVec.ofNat 32 x) - BitVec.ofNat 32 n - sizeofHeapBlock =
      BitVec.ofNat 32 (c.size - n - 12) := by
    rw [hc.size, sizeofHeapBlock, ofNat_sub_ofNat (by omega),
      ofNat_sub_ofNat (by omega)]
  simp only [splitBlock, hnew, hrest]
  -- `m₂`: size and flag of the new header; `m₃`: its link; `m₅`: the old header
  obtain ⟨m₂, hm₂⟩ : ∃ m₂, m₂ = setUsed
      (setSize m (BitVec.ofNat 32 y) (BitVec.ofNat 32 (c.size - n - 12))) (BitVec.ofNat 32 y) 0#32 :=
    ⟨_, rfl⟩
  rw [← hm₂]
  have h02 : SameOff m m₂ y (y + 12) :=
    hm₂ ▸ (setSize_sameOff (by omega)).trans (setUsed_sameOff (by omega))
  have hnext : blockNext m₂ (BitVec.ofNat 32 x) = linkTo (x + 12 + c.size) := by
    rw [blockNext_congr (h02.sameOn (by omega)) (by omega), hc.next]
  rw [hnext]
  obtain ⟨m₃, hm₃⟩ : ∃ m₃, m₃ = setNext m₂ (BitVec.ofNat 32 y) (linkTo (x + 12 + c.size)) :=
    ⟨_, rfl⟩
  rw [← hm₃]
  have h03 : SameOff m m₃ y (y + 12) := h02.trans (hm₃ ▸ setNext_sameOff (by omega))
  have h35 : SameOff m₃ (setNext (setSize m₃ (BitVec.ofNat 32 x) (BitVec.ofNat 32 n))
      (BitVec.ofNat 32 x) (BitVec.ofNat 32 y)) x (x + 12) :=
    (setSize_sameOff (by omega)).trans (setNext_sameOff (by omega))
  have hx₃ : HeaderAt m₃ x c.size false := hc.congr (h03.sameOn (by omega)) (by omega)
  have hy₃ : HeaderAt m₃ y (c.size - n - 12) false := by
    refine ⟨?_, ?_, ?_⟩
    · rw [hm₃, size_setNext, hm₂, size_setUsed, size_setSize]
    · rw [hm₃, used_setNext, hm₂, used_setUsed]
      rfl
    · rw [hm₃, next_setNext]
      congr 1
      omega
  constructor
  · rw [headers_cons, headers_cons]
    refine ⟨⟨?_, ?_, ?_⟩, ?_, headers_nil _ _⟩
    · rw [size_setNext, size_setSize]
    · rw [used_setNext, used_setSize, hx₃.used]
    · rw [next_setNext, linkTo_of_ne (by dsimp only; omega), hy]
    · have hy₅ := hy₃.congr (h35.sameOn (by omega)) (by omega)
      rwa [hy] at hy₅ ⊢
  · exact (h03.mono (by omega) (by omega)).trans (h35.mono (by omega) (by omega))

/-- Setting the flag of a block changes the flag and nothing else. -/
theorem HeaderAt.setUsed {m : Mem} {a s : Nat} {u : Bool} (hb : HeaderAt m a s u) (v : Bool) :
    HeaderAt (setUsed m (BitVec.ofNat 32 a) (if v then 1#32 else 0#32)) a s v where
  size := by rw [size_setUsed, hb.size]
  used := used_setUsed _ _ _
  next := by rw [next_setUsed, hb.next]

/-- Taking the free block at `x`: its headers become those of `carve`, and
nothing outside the block changes. -/
theorem takeBlock_spec {h : Heap} {x n : Nat} {c : Chunk}
    (hc : HeaderAt h.mem x c.size false) (hn : n ≤ c.size)
    (hhi : x + 12 + c.size ≤ 0x800000) :
    ∃ m', takeBlock (BitVec.ofNat 32 n) (BitVec.ofNat 32 x) h =
        (BitVec.ofNat 32 (x + 12),
          ⟨m', h.heapStart, h.heapUsed + BitVec.ofNat 32 (granted 12 4 n c)⟩) ∧
      Headers m' x (carve 12 4 n c) ∧ SameOff h.mem m' x (x + 12 + c.size) := by
  have hsplit : BitVec.ofNat 32 n + sizeofHeapBlock + 4#32 < blockSize h.mem (BitVec.ofNat 32 x) ↔
      n + 12 + 4 < c.size := by
    rw [hc.size, sizeofHeapBlock, ofNat_add_ofNat, ofNat_add_ofNat, BitVec.lt_def,
      toNat_ofNat_of_lt (by omega), toNat_ofNat_of_lt (by omega)]
  have hptr : BitVec.ofNat 32 x + sizeofHeapBlock = BitVec.ofNat 32 (x + 12) := by
    rw [sizeofHeapBlock, ofNat_add_ofNat]
  rw [takeBlock, hptr]
  by_cases hs : n + 12 + 4 < c.size
  · rw [if_pos (hsplit.mpr hs), granted, if_pos hs, carve, if_pos hs]
    obtain ⟨hheads, hoff⟩ := splitBlock_spec hc hs hhi
    obtain ⟨hx, hy⟩ := headers_cons.mp hheads
    refine ⟨_, ?_, headers_cons.mpr ⟨hx.setUsed true, ?_⟩, hoff.trans ?_⟩
    · rw [if_pos rfl, size_setUsed, hx.size]
    · refine hy.frame (setUsed_sameOff (a := x) (by omega)) (Or.inr ?_) ?_
      · dsimp only; omega
      · simp only [span]; omega
    · exact (setUsed_sameOff (by omega)).mono (by omega) (by omega)
  · rw [if_neg (mt hsplit.mp hs), granted, if_neg hs, carve, if_neg hs]
    refine ⟨_, ?_, headers_cons.mpr ⟨hc.setUsed true, headers_nil _ _⟩, ?_⟩
    · rw [if_pos rfl, size_setUsed, hc.size]
    · exact (setUsed_sameOff (by omega)).mono (by omega) (by omega)

/-! ## `kmalloc` -/

theorem alignSize_toNat (size : Word) :
    (alignSize size).toNat = (size.toNat + 3) % 2 ^ 32 / 4 * 4 := by
  have h := toNat_and_not_mask (size + 3#32) 2
  rw [BitVec.toNat_add] at h
  exact h

theorem alignSize_dvd (size : Word) : 4 ∣ (alignSize size).toNat := by
  rw [alignSize_toNat]
  exact Nat.dvd_mul_left _ _

/-- The chunk lists that fill the window are short enough for the walks. -/
theorem Represents.fuel {h : Heap} {cs : List Chunk} (hr : Represents h cs) :
    cs.length < walkFuel := by
  have hlen := length_le_span 12 cs
  have hfill := hr.fills
  unfold walkFuel
  omega

theorem kmalloc_zero (h : Heap) : kmalloc 0#32 h = some (0#32, h) := rfl

/-- The walk that `kmalloc` makes, in terms of the chunk list. -/
theorem kmalloc_walk {h : Heap} {cs : List Chunk} (hr : Represents h cs) {size : Word}
    (hsize : size ≠ 0#32) :
    kmalloc size h =
      match firstFit (alignSize size).toNat cs with
      | none => some (0#32, h)
      | some (pre, _, _) =>
          some (takeBlock (alignSize size) (BitVec.ofNat 32 (0x400000 + span 12 pre)) h) := by
  have hstart : h.heapStart = linkTo 0x400000 := hr.start.trans (by decide)
  rw [kmalloc, if_neg hsize, hstart]
  exact kmallocLoop_spec hr.headers hr.fills (by decide) hr.fuel

/-- Without a free chunk that is large enough, `kmalloc` returns NULL and
changes nothing. -/
theorem kmalloc_none {h : Heap} {cs : List Chunk} (hr : Represents h cs) {size : Word}
    (hsize : size ≠ 0#32) (hff : firstFit (alignSize size).toNat cs = none) :
    kmalloc size h = some (0#32, h) := by
  rw [kmalloc_walk hr hsize, hff]

/-- Otherwise it takes the first one, and changes no byte outside of it. -/
theorem kmalloc_some {h : Heap} {cs pre post : List Chunk} {c : Chunk} (hr : Represents h cs)
    {size : Word} (hsize : size ≠ 0#32)
    (hff : firstFit (alignSize size).toNat cs = some (pre, c, post)) :
    ∃ h', kmalloc size h = some (BitVec.ofNat 32 (0x400000 + span 12 pre + 12), h') ∧
      Represents h' (pre ++ carve 12 4 (alignSize size).toNat c ++ post) ∧
      SameOff h.mem h'.mem (0x400000 + span 12 pre) (0x400000 + span 12 pre + 12 + c.size) := by
  obtain ⟨rfl, ⟨hfree, hn⟩, _⟩ := firstFit_some hff
  have hfill := hr.fills
  rw [span_append, span] at hfill
  obtain ⟨hpre, hback⟩ := headers_append.mp hr.headers
  obtain ⟨hc, hpost⟩ := headers_cons.mp hback
  rw [hfree] at hc
  obtain ⟨m', htake, hcarve, hoff⟩ := takeBlock_spec hc hn (by omega)
  rw [BitVec.ofNat_toNat, BitVec.setWidth_eq] at htake
  refine ⟨⟨m', h.heapStart, h.heapUsed + BitVec.ofNat 32 (granted 12 4 (alignSize size).toNat c)⟩,
    ?_, ?_, hoff⟩
  · rw [kmalloc_walk hr hsize, hff]
    exact congrArg some htake
  · obtain ⟨hpal, hcal⟩ := aligned_append.mp hr.aligned
    obtain ⟨hcal, hpostal⟩ := aligned_cons.mp hcal
    refine ⟨hr.start, ?_, ?_, coalesced_carve hr.coalesced hfree, ?_, ?_⟩
    · rw [List.append_assoc, headers_append, headers_append, span_carve]
      refine ⟨hpre.frame hoff (Or.inl (le_refl _)) (by omega), hcarve, ?_⟩
      rw [show 0x400000 + span 12 pre + (12 + c.size) = 0x400000 + span 12 pre + 12 + c.size by omega]
      exact hpost.frame hoff (Or.inr (le_refl _)) (by omega)
    · rw [span_append, span_append, span_carve]
      omega
    · rw [aligned_append, aligned_append]
      exact ⟨⟨hpal, aligned_carve (by decide) (alignSize_dvd size) hcal⟩, hpostal⟩
    · -- the free chunk counted nothing before, and counts `granted` bytes now
      rw [hr.used, ofNat_add_ofNat, usedBytes_append, usedBytes_append, usedBytes_append,
        used_carve, usedBytes, hfree, if_neg (by decide)]
      dsimp only
      congr 1
      omega

/-! ## Merging -/

/-- Swallowing a free neighbour: two headers become one. -/
theorem mergeInto_spec {m : Mem} {a : Nat} {d e : Chunk} {es : List Chunk} {u : Bool}
    (hd : HeaderAt m a d.size u) (htail : Headers m (a + 12 + d.size) (e :: es))
    (hhi : a + span 12 (d :: e :: es) ≤ 0x800000) :
    let m' := mergeInto m (BitVec.ofNat 32 a) (BitVec.ofNat 32 (a + 12 + d.size))
    HeaderAt m' a (d.size + 12 + e.size) u ∧
      Headers m' (a + 12 + (d.size + 12 + e.size)) es := by
  intro m'
  obtain ⟨he, hes⟩ := headers_cons.mp htail
  simp only [span] at hhi
  have hsum : blockSize m (BitVec.ofNat 32 a) +
      (sizeofHeapBlock + blockSize m (BitVec.ofNat 32 (a + 12 + d.size))) =
      BitVec.ofNat 32 (d.size + 12 + e.size) := by
    rw [hd.size, he.size, sizeofHeapBlock, ofNat_add_ofNat, ofNat_add_ofNat]
    congr 1
    omega
  have hoff : SameOff m m' a (a + 12) := mergeInto_sameOff (by omega)
  constructor
  · have hsize : SameOff m (setSize m (BitVec.ofNat 32 a) (BitVec.ofNat 32 (d.size + 12 + e.size)))
        a (a + 12) := setSize_sameOff (by omega)
    have hlink := (he.congr (hsize.sameOn (by omega)) (by omega)).next
    simp only [m', mergeInto, hsum]
    refine ⟨?_, ?_, ?_⟩
    · rw [size_setNext, size_setSize]
    · rw [used_setNext, used_setSize, hd.used]
    · rw [next_setNext, hlink]
      congr 1
      omega
  · rw [show a + 12 + (d.size + 12 + e.size) = a + 12 + d.size + 12 + e.size by omega]
    exact hes.frame hoff (by omega) (by omega)

/-- "Merge with next block if free" is `absorb`. -/
theorem mergeNext_spec {m : Mem} {a : Nat} {d : Chunk} {ds : List Chunk}
    (hfree : d.used = false) (hds : Headers m a (d :: ds)) (hhi : a + span 12 (d :: ds) = 0x800000) :
    Headers (mergeNext m (BitVec.ofNat 32 a)) a (absorb 12 d ds) ∧
      SameOff m (mergeNext m (BitVec.ofNat 32 a)) a (a + 12) := by
  obtain ⟨hd, htail⟩ := headers_cons.mp hds
  have hhi' := hhi
  simp only [span] at hhi'
  constructor
  · cases ds with
    | nil =>
      -- the block is the last one: its link is NULL
      have hnext : blockNext m (BitVec.ofNat 32 a) = 0#32 := by
        rw [hd.next, show a + 12 + d.size = 0x800000 by simpa [span, Nat.add_assoc] using hhi,
          linkTo_hi]
      rw [mergeNext, hnext, if_neg (by simp)]
      exact hds
    | cons e es =>
      obtain ⟨he, hes⟩ := headers_cons.mp htail
      simp only [span] at hhi'
      have hnext : blockNext m (BitVec.ofNat 32 a) = BitVec.ofNat 32 (a + 12 + d.size) := by
        rw [hd.next, linkTo_of_ne (by omega)]
      have hne : BitVec.ofNat 32 (a + 12 + d.size) ≠ 0#32 := ofNat_ne_zero (by omega) (by omega)
      rw [absorb_cons, mergeNext, hnext, hfree, Bool.false_or]
      cases heu : e.used with
      | true =>
        rw [if_neg (by simp [he.used_iff, heu]), if_pos rfl]
        exact hds
      | false =>
        obtain ⟨hmerged, hrest⟩ := mergeInto_spec hd htail (Nat.le_of_eq hhi)
        rw [if_pos ⟨hne, he.used_iff.mpr heu⟩, if_neg (by simp), headers_cons]
        exact ⟨hfree ▸ hmerged, hrest⟩
  · rw [mergeNext]
    split
    · exact mergeInto_sameOff (by omega)
    · exact SameOff.refl _ _ _

/-! ## The search for the previous block -/

/-- No block of the list links to `block`: the search runs off its end. -/
theorem findPrev_miss {m : Mem} {block : Word} {a fuel : Nat} {cs : List Chunk}
    (hcs : Headers m a cs) (hfill : a + span 12 cs = 0x800000) (ha : 0 < a)
    (hmiss : ∀ b ∈ layout 12 a cs, linkTo (b.addr + 12 + b.size) ≠ block)
    (hfuel : cs.length < fuel) : findPrev fuel m block (linkTo a) = some 0#32 := by
  induction cs generalizing a fuel with
  | nil =>
    obtain ⟨f, rfl⟩ := Nat.exists_eq_succ_of_ne_zero (by omega : fuel ≠ 0)
    have hstop : a = 0x800000 := by simpa [span] using hfill
    rw [hstop, linkTo_hi, findPrev, if_neg (by simp)]
  | cons c cs ih =>
    obtain ⟨f, rfl⟩ := Nat.exists_eq_succ_of_ne_zero (by omega : fuel ≠ 0)
    obtain ⟨hc, htail⟩ := headers_cons.mp hcs
    unfold span at hfill
    simp only [layout, List.mem_cons, forall_eq_or_imp] at hmiss
    have hne : BitVec.ofNat 32 a ≠ 0#32 := ofNat_ne_zero ha (by omega)
    have hgo : blockNext m (BitVec.ofNat 32 a) ≠ block := by rw [hc.next]; exact hmiss.1
    have hlen : cs.length < f := by simpa using hfuel
    rw [linkTo_of_ne (by omega), findPrev, if_pos ⟨hne, hgo⟩, hc.next]
    exact ih htail (by omega) (by omega) hmiss.2 hlen

/-- The chunk `p` that ends where `block` begins is the one found. -/
theorem findPrev_hit {m : Mem} {a fuel : Nat} {pre post : List Chunk} {p : Chunk}
    (hcs : Headers m a (pre ++ p :: post)) (ha : 0 < a)
    (hhi : a + span 12 (pre ++ [p]) < 0x800000) (hfuel : (pre ++ p :: post).length < fuel) :
    findPrev fuel m (BitVec.ofNat 32 (a + span 12 (pre ++ [p]))) (linkTo a) =
      some (BitVec.ofNat 32 (a + span 12 pre)) := by
  induction pre generalizing a fuel with
  | nil =>
    obtain ⟨f, rfl⟩ := Nat.exists_eq_succ_of_ne_zero (by omega : fuel ≠ 0)
    obtain ⟨hp, _⟩ := headers_cons.mp hcs
    simp only [List.nil_append, span, Nat.add_zero] at hhi ⊢
    have hstop : blockNext m (BitVec.ofNat 32 a) = BitVec.ofNat 32 (a + (12 + p.size)) := by
      rw [hp.next, linkTo_of_ne (by omega), Nat.add_assoc]
    rw [linkTo_of_ne (by omega), findPrev, if_neg (by simp [hstop])]
  | cons c pre ih =>
    obtain ⟨f, rfl⟩ := Nat.exists_eq_succ_of_ne_zero (by omega : fuel ≠ 0)
    obtain ⟨hc, htail⟩ := headers_cons.mp hcs
    simp only [List.cons_append, span] at hhi ⊢
    have hpos : 12 ≤ span 12 (pre ++ [p]) := by rw [span_append]; simp only [span]; omega
    have hne : BitVec.ofNat 32 a ≠ 0#32 := ofNat_ne_zero ha (by omega)
    have hgo : blockNext m (BitVec.ofNat 32 a) ≠
        BitVec.ofNat 32 (a + (12 + c.size + span 12 (pre ++ [p]))) := by
      rw [hc.next, linkTo_of_ne (by omega), Ne, ofNat_inj (by omega) (by omega)]
      omega
    have hlen : (pre ++ p :: post).length < f := by simpa using hfuel
    rw [linkTo_of_ne (by omega), findPrev, if_pos ⟨hne, hgo⟩, hc.next]
    have hrec := ih htail (by omega) (by omega) hlen
    rw [show a + 12 + c.size + span 12 (pre ++ [p]) = a + (12 + c.size + span 12 (pre ++ [p])) by omega,
      show a + 12 + c.size + span 12 pre = a + (12 + c.size + span 12 pre) by omega] at hrec
    exact hrec

/-- The first block has no previous block to merge with. -/
theorem mergePrev_first {m : Mem} {cs : List Chunk} (hcs : Headers m 0x400000 cs)
    (hfill : 0x400000 + span 12 cs = 0x800000) (hlen : cs.length < walkFuel) :
    mergePrev m HEAP_START (BitVec.ofNat 32 0x400000) = some m := by
  have hmiss : ∀ b ∈ layout 12 0x400000 cs,
      linkTo (b.addr + 12 + b.size) ≠ BitVec.ofNat 32 0x400000 := by
    intro b hb
    have hbd := layout_bounds hb
    unfold linkTo
    split
    · decide
    · rw [Ne, ofNat_inj (by omega) (by omega)]
      omega
  have hfind := findPrev_miss hcs hfill (by decide) hmiss hlen
  rw [mergePrev, show HEAP_START = linkTo 0x400000 by decide, hfind]
  rfl

/-- "Merge with previous block" is `absorb` on the block before. -/
theorem mergePrev_spec {m : Mem} {pre ds : List Chunk} {p d : Chunk} (hfree : d.used = false)
    (hcs : Headers m 0x400000 (pre ++ p :: d :: ds))
    (hfill : 0x400000 + span 12 (pre ++ p :: d :: ds) = 0x800000)
    (hlen : (pre ++ p :: d :: ds).length < walkFuel) :
    ∃ m', mergePrev m HEAP_START (BitVec.ofNat 32 (0x400000 + span 12 (pre ++ [p]))) = some m' ∧
      Headers m' 0x400000 (pre ++ absorb 12 p (d :: ds)) ∧
      SameOff m m' (0x400000 + span 12 pre) (0x400000 + span 12 pre + 12) := by
  obtain ⟨y, hy⟩ : ∃ y, y = 0x400000 + span 12 pre := ⟨_, rfl⟩
  have hx : 0x400000 + span 12 (pre ++ [p]) = y + 12 + p.size := by
    rw [span_append, hy]
    simp only [span]
    omega
  have hfill' := hfill
  rw [span_append] at hfill'
  simp only [span] at hfill'
  have hfind := findPrev_hit hcs (by decide) (by omega) hlen
  obtain ⟨hpre, hback⟩ := headers_append.mp hcs
  rw [← hy] at hback hfind ⊢
  obtain ⟨hp, htail⟩ := headers_cons.mp hback
  have hne : BitVec.ofNat 32 y ≠ 0#32 := ofNat_ne_zero (by omega) (by omega)
  rw [mergePrev, show HEAP_START = linkTo 0x400000 by decide, hfind, Option.map_some, hx,
    absorb_cons, hfree, Bool.or_false]
  cases hpu : p.used with
  | true =>
    rw [if_neg (by simp [hp.used_iff, hpu]), if_pos rfl]
    exact ⟨m, rfl, hcs, SameOff.refl _ _ _⟩
  | false =>
    have hle : y + span 12 (p :: d :: ds) ≤ 0x800000 := by
      simp only [span]
      omega
    obtain ⟨hmerged, hrest⟩ := mergeInto_spec hp htail hle
    have hoff : SameOff m (mergeInto m (BitVec.ofNat 32 y) (BitVec.ofNat 32 (y + 12 + p.size)))
        y (y + 12) := mergeInto_sameOff (by omega)
    rw [if_pos ⟨hne, hp.used_iff.mpr hpu⟩, if_neg (by simp)]
    refine ⟨_, rfl, ?_, hoff⟩
    rw [headers_append, ← hy, headers_cons]
    exact ⟨hpre.frame hoff (by omega) (by omega), hpu ▸ hmerged, hrest⟩

/-! ## `kfree` -/

/-- `kfree` ignores NULL. -/
theorem kfree_null (h : Heap) : kfree 0#32 h = some h := rfl

/-- Clearing the flag of a block and merging it to the right: the list that the
search for the previous block walks. -/
theorem clearMerge_spec {m : Mem} {pre post : List Chunk} {c : Chunk}
    (hcs : Headers m 0x400000 (pre ++ c :: post))
    (hfill : 0x400000 + span 12 (pre ++ c :: post) = 0x800000) :
    let b := BitVec.ofNat 32 (0x400000 + span 12 pre)
    let m' := mergeNext (setUsed m b 0#32) b
    Headers m' 0x400000 (pre ++ absorb 12 c.clear post) ∧
      blockSize (setUsed m b 0#32) b = BitVec.ofNat 32 c.size ∧
      SameOff m m' (0x400000 + span 12 pre) (0x400000 + span 12 pre + 12) := by
  intro b m'
  obtain ⟨hpre, hback⟩ := headers_append.mp hcs
  obtain ⟨hc, hpost⟩ := headers_cons.mp hback
  rw [span_append, span] at hfill
  have hoff : SameOff m (setUsed m b 0#32) (0x400000 + span 12 pre) (0x400000 + span 12 pre + 12) :=
    setUsed_sameOff (by omega)
  have hcleared : Headers (setUsed m b 0#32) (0x400000 + span 12 pre) (c.clear :: post) :=
    headers_cons.mpr ⟨hc.setUsed false, hpost.frame hoff (by omega) (by omega)⟩
  obtain ⟨hmerged, hoff'⟩ := mergeNext_spec rfl hcleared (by simp only [span, Chunk.clear]; omega)
  refine ⟨?_, (headers_cons.mp hcleared).1.size, hoff.trans hoff'⟩
  rw [headers_append]
  exact ⟨hpre.frame (hoff.trans hoff') (by omega) (by omega), hmerged⟩

/-- The header in front of a pointer. -/
theorem header_of_pointer (a : Nat) :
    BitVec.ofNat 32 (a + 12) - sizeofHeapBlock = BitVec.ofNat 32 a := by
  rw [sizeofHeapBlock, ofNat_sub_ofNat (Nat.le_add_left 12 a), Nat.add_sub_cancel]

/-- `kfree` returns early where the flag is clear. -/
theorem kfree_idle {h : Heap} {a : Nat} (ha : a + 12 < 2 ^ 32)
    (hu : blockUsed h.mem (BitVec.ofNat 32 a) = 0#32) :
    kfree (BitVec.ofNat 32 (a + 12)) h = some h := by
  have hptr : BitVec.ofNat 32 (a + 12) ≠ 0#32 := ofNat_ne_zero (by omega) ha
  simp only [kfree, if_neg hptr, header_of_pointer, if_pos hu]

/-- Behind the two early returns, `kfree` clears the flag and merges. -/
theorem kfree_inUse {h : Heap} {a : Nat} (ha : a + 12 < 2 ^ 32)
    (hu : blockUsed h.mem (BitVec.ofNat 32 a) ≠ 0#32) :
    let cleared := setUsed h.mem (BitVec.ofNat 32 a) 0#32
    kfree (BitVec.ofNat 32 (a + 12)) h =
      (mergePrev (mergeNext cleared (BitVec.ofNat 32 a)) h.heapStart (BitVec.ofNat 32 a)).map
        fun m => { h with mem := m, heapUsed := h.heapUsed - blockSize cleared (BitVec.ofNat 32 a) } := by
  have hptr : BitVec.ofNat 32 (a + 12) ≠ 0#32 := ofNat_ne_zero (by omega) ha
  simp only [kfree, if_neg hptr, header_of_pointer, if_neg hu]

/-- Releasing a used block clears it and merges it with its free neighbours. No
byte outside the headers of the old list changes. -/
theorem kfree_spec {h : Heap} {pre post : List Chunk} {c : Chunk}
    (hr : Represents h (pre ++ c :: post)) (hu : c.used = true) :
    ∃ h', kfree (BitVec.ofNat 32 (0x400000 + span 12 pre + 12)) h = some h' ∧
      Represents h' (coalesce 12 (pre ++ c.clear :: post)) ∧
      SamePayload h.mem h'.mem 0x400000 (pre ++ c :: post) := by
  have hfill := hr.fills
  obtain ⟨hmerged, hsize, hoff⟩ := clearMerge_spec hr.headers hr.fills
  have hc := (headers_cons.mp (headers_append.mp hr.headers).2).1
  rw [span_append, span] at hfill
  have hused : blockUsed h.mem (BitVec.ofNat 32 (0x400000 + span 12 pre)) ≠ 0#32 := by
    rw [Ne, hc.used_iff, hu]
    decide
  rw [kfree_inUse (by omega) hused, hsize, hr.start]
  -- what the new state has to satisfy apart from the headers
  have hcount : h.heapUsed - BitVec.ofNat 32 c.size =
      BitVec.ofNat 32 (usedBytes (coalesce 12 (pre ++ c.clear :: post))) := by
    rw [hr.used, used_coalesce, usedBytes_append, usedBytes_append, usedBytes, usedBytes, if_pos hu,
      ofNat_sub_ofNat (by omega)]
    simp only [Chunk.clear, Bool.false_eq_true, if_false]
    congr 1
    omega
  have hrep : ∀ m', Headers m' 0x400000 (coalesce 12 (pre ++ c.clear :: post)) →
      Represents ⟨m', HEAP_START, h.heapUsed - BitVec.ofNat 32 c.size⟩
        (coalesce 12 (pre ++ c.clear :: post)) := by
    intro m' hm'
    refine ⟨rfl, hm', ?_, coalesced_coalesce _, ?_, hcount⟩
    · rw [span_coalesce, span_append, span, Chunk.clear]
      omega
    · obtain ⟨hpal, hcal⟩ := aligned_append.mp hr.aligned
      obtain ⟨hcal, hpostal⟩ := aligned_cons.mp hcal
      exact aligned_coalesce (by decide)
        (aligned_append.mpr ⟨hpal, aligned_cons.mpr ⟨hcal, hpostal⟩⟩)
  have hcin : (⟨0x400000 + span 12 pre, c.size, c.used⟩ : Block) ∈
      layout 12 0x400000 (pre ++ c :: post) := mem_layout.mpr ⟨pre, c, post, rfl, rfl⟩
  have hfill' : 0x400000 + span 12 (pre ++ absorb 12 c.clear post) = 0x800000 := by
    rw [span_append, span_absorb, Chunk.clear]
    omega
  have hlen : (pre ++ absorb 12 c.clear post).length < walkFuel := by
    have hle := length_le_span 12 (pre ++ absorb 12 c.clear post)
    unfold walkFuel
    omega
  rcases List.eq_nil_or_concat pre with rfl | ⟨pre', p, rfl⟩
  · rw [List.nil_append] at hmerged hfill' hlen
    simp only [span, Nat.add_zero] at hmerged hoff ⊢
    rw [mergePrev_first hmerged hfill' hlen]
    refine ⟨_, rfl, hrep _ ?_, fun y hy => hoff y (hy ⟨_, c.size, c.used⟩ hcin)⟩
    rw [List.nil_append, coalesce_clear_head hr.coalesced]
    exact hmerged
  · rw [List.concat_eq_append] at *
    have hshape : coalesce 12 (pre' ++ [p] ++ c.clear :: post) =
        pre' ++ absorb 12 p (absorb 12 c.clear post) := by
      rw [List.append_assoc, List.singleton_append]
      apply coalesce_clear
      simpa using hr.coalesced
    have hpin : (⟨0x400000 + span 12 pre', p.size, p.used⟩ : Block) ∈
        layout 12 0x400000 (pre' ++ [p] ++ c :: post) :=
      mem_layout.mpr ⟨pre', p, c :: post, by simp, rfl⟩
    obtain ⟨d, ds, hd, hdu⟩ := absorb_free_head 12 (c := c.clear) post rfl
    rw [hd] at hmerged hfill' hlen hshape
    rw [List.append_assoc, List.singleton_append] at hmerged hfill' hlen
    obtain ⟨m', hm', hheads, hoff'⟩ := mergePrev_spec hdu hmerged hfill' hlen
    rw [hm']
    refine ⟨_, rfl, hrep m' (hshape ▸ hheads), ?_⟩
    intro y hy
    exact (hoff' y (hy _ hpin)).trans (hoff y (hy _ hcin))

end Zenix
