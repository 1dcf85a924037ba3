import Mathlib.Data.List.Nodup
import Zenix.Lib.Transition
import Zenix.Mm.HeapRefinement

/-!
# The heap over whole runs

A run starts with `heap_init` and continues with calls of `kmalloc`, calls of
`kfree` on live pointers and arbitrary writes of the clients that leave the
block headers alone. `live` records the pointers handed out and not freed since,
with the sizes that were asked for.

Results:
1. `heap_invariant`: the block list tiles the window, is coalesced, and
   `heap_used` counts its used blocks; every call returns.
2. `kmalloc_adequate_iff`: the memory returned is what was asked for exactly
   when rounding the size up does not wrap.
3. `kmalloc_wraps`: a request of `2^32 - 1` bytes is granted with a block of
   size zero.
-/

namespace Zenix
open ByteMemory FirstFit

/-! ## The block list, as memory has it -/

/-- Following `next` from `p` visits the blocks `bs` and ends at NULL. -/
def BlockList (m : Mem) : Word → List Block → Prop
  | p, [] => p = 0#32
  | p, b :: bs =>
      p ≠ 0#32 ∧ p.toNat = b.addr ∧ (blockSize m p).toNat = b.size ∧
        (blockUsed m p ≠ 0#32 ↔ b.used = true) ∧ BlockList m (blockNext m p) bs

/-- The blocks cover `[lo, hi)` one after the other. -/
def Tiles : Nat → List Block → Nat → Prop
  | lo, [], hi => lo = hi
  | lo, b :: bs, hi => b.addr = lo ∧ Tiles (b.addr + 12 + b.size) bs hi

/-- What the allocator keeps true of its block list. -/
structure HeapInvariant (h : Heap) (bs : List Block) : Prop where
  list : BlockList h.mem h.heapStart bs
  increasing : bs.Pairwise fun b c => b.addr < c.addr
  tiles : Tiles HEAP_START.toNat bs (HEAP_START.toNat + HEAP_SIZE.toNat)
  aligned : ∀ b ∈ bs, b.size % 4 = 0
  coalesced : bs.IsChain fun b c => b.used = true ∨ c.used = true
  accounted : h.heapUsed.toNat = ((bs.filter fun b => b.used).map fun b => b.size).sum

/-! ## Runs -/

/-- A heap and its live allocations: pointer and requested size. -/
structure HeapRun where
  heap : Heap
  live : List (Word × Word)

inductive HeapOp where
  | kmalloc (size : Word)
  | kfree (ptr : Word)
  | write (mem : Mem)

/-- `m` differs from the memory of `h` only outside the block headers. -/
def KeepsHeaders (h : Heap) (m : Mem) : Prop :=
  ∀ bs, BlockList h.mem h.heapStart bs → ∀ b ∈ bs, SameOn h.mem m b.addr (b.addr + 12)

inductive HeapStep : HeapRun → HeapOp → HeapRun → Prop
  | kmalloc {s : HeapRun} {size p : Word} {h' : Heap} : kmalloc size s.heap = some (p, h') →
      HeapStep s (.kmalloc size) ⟨h', if p = 0#32 then s.live else (p, size) :: s.live⟩
  | kfreeNull {s : HeapRun} {h' : Heap} : kfree 0#32 s.heap = some h' →
      HeapStep s (.kfree 0#32) ⟨h', s.live⟩
  | kfree {s : HeapRun} {p size : Word} {h' : Heap} : (p, size) ∈ s.live →
      kfree p s.heap = some h' → HeapStep s (.kfree p) ⟨h', s.live.erase (p, size)⟩
  | write {s : HeapRun} {m : Mem} : KeepsHeaders s.heap m →
      HeapStep s (.write m) ⟨{ s.heap with mem := m }, s.live⟩

def heapSystem : TransitionSystem HeapRun HeapOp where
  init := fun s => ∃ m, s = ⟨heapInit m, []⟩
  step := HeapStep

/-! ## From the chunk list to the block list -/

theorem blockList_of_headers {m : Mem} {a : Nat} {cs : List Chunk} (hcs : Headers m a cs)
    (hfill : a + span 12 cs = 0x800000) (ha : 0 < a) : BlockList m (linkTo a) (layout 12 a cs) := by
  induction cs generalizing a with
  | nil =>
    rw [show a = 0x800000 by simpa [span] using hfill]
    exact linkTo_hi
  | cons c cs ih =>
    obtain ⟨hc, htail⟩ := headers_cons.mp hcs
    unfold span at hfill
    rw [linkTo_of_ne (by omega), layout, BlockList]
    refine ⟨ofNat_ne_zero ha (by omega), toNat_ofNat_of_lt (by omega), ?_, ?_, ?_⟩
    · rw [hc.size]
      exact toNat_ofNat_of_lt (by omega)
    · rw [Ne, hc.used_iff, Bool.not_eq_false]
    · rw [hc.next]
      exact ih htail (by omega) (by omega)

theorem tiles_layout (a : Nat) (cs : List Chunk) :
    Tiles a (layout 12 a cs) (a + span 12 cs) := by
  induction cs generalizing a with
  | nil => rfl
  | cons c cs ih =>
    refine ⟨rfl, ?_⟩
    rw [span, show a + (12 + c.size + span 12 cs) = a + 12 + c.size + span 12 cs by omega]
    exact ih _

theorem isChain_layout {a : Nat} {cs : List Chunk} (h : Coalesced cs) :
    (layout 12 a cs).IsChain fun b c => b.used = true ∨ c.used = true := by
  induction cs generalizing a with
  | nil => exact List.IsChain.nil
  | cons c cs ih =>
    cases cs with
    | nil => exact List.IsChain.singleton _
    | cons d ds =>
      obtain ⟨hcd, hds⟩ := List.isChain_cons_cons.mp h
      exact List.IsChain.cons_cons hcd (ih hds)

theorem usedBytes_layout (a : Nat) (cs : List Chunk) :
    usedBytes cs = ((usedBlocks 12 a cs).map fun b => b.size).sum := by
  induction cs generalizing a with
  | nil => rfl
  | cons c cs ih =>
    rw [usedBytes, usedBlocks_cons, List.map_append, List.sum_append, ← ih]
    cases c.used <;> simp

theorem Represents.invariant {h : Heap} {cs : List Chunk} (hr : Represents h cs) :
    HeapInvariant h (layout 12 0x400000 cs) where
  list := by
    rw [hr.start]
    exact blockList_of_headers hr.headers hr.fills (by decide)
  increasing := (layout_pairwise 12 0x400000 cs).imp fun h => by omega
  tiles := by
    have ht := tiles_layout 0x400000 cs
    rw [hr.fills] at ht
    exact ht
  aligned := by
    intro b hb
    obtain ⟨pre, c, post, rfl, rfl⟩ := mem_layout.mp hb
    exact Nat.mod_eq_zero_of_dvd (hr.aligned c (by simp))
  coalesced := isChain_layout hr.coalesced
  accounted := by
    have hle := usedBytes_le_span 12 cs
    have hfill := hr.fills
    rw [hr.used, toNat_ofNat_of_lt (by omega)]
    exact usedBytes_layout 0x400000 cs

/-! ## Live allocations -/

/-- The pointer that `kmalloc` returned for a block. -/
def payload (b : Block) : Word := BitVec.ofNat 32 (b.addr + 12)

/-- The state of a run: the chunk list, and the live pointers are the payloads
of its used chunks. -/
structure RunInvariant (s : HeapRun) (cs : List Chunk) : Prop where
  heap : Represents s.heap cs
  live : (s.live.map Prod.fst).Perm ((usedBlocks 12 0x400000 cs).map payload)

theorem mem_usedBlocks {a : Nat} {b : Block} {cs : List Chunk} :
    b ∈ usedBlocks 12 a cs ↔ b ∈ layout 12 a cs ∧ b.used = true := by
  rw [usedBlocks, List.mem_filter]

theorem payload_toNat {h : Heap} {cs : List Chunk} {b : Block} (hr : Represents h cs)
    (hb : b ∈ layout 12 0x400000 cs) : (payload b).toNat = b.addr + 12 := by
  have hbd := layout_bounds hb
  have hfill := hr.fills
  exact toNat_ofNat_of_lt (by omega)

theorem payload_inj {h : Heap} {cs : List Chunk} {b c : Block} (hr : Represents h cs)
    (hb : b ∈ layout 12 0x400000 cs) (hc : c ∈ layout 12 0x400000 cs)
    (heq : payload b = payload c) : b = c := by
  have haddr := congrArg BitVec.toNat heq
  rw [payload_toNat hr hb, payload_toNat hr hc] at haddr
  cases Decidable.em (b = c) with
  | inl h =>
    exact h
  | inr hne =>
    have hd := layout_disjoint hb hc hne
    omega

theorem usedBlocks_middle (pre post : List Chunk) {c : Chunk} (hu : c.used = true) :
    usedBlocks 12 0x400000 (pre ++ c :: post) =
      usedBlocks 12 0x400000 pre ++ ⟨0x400000 + span 12 pre, c.size, true⟩ ::
        usedBlocks 12 (0x400000 + span 12 pre + 12 + c.size) post := by
  rw [usedBlocks_append, usedBlocks_cons, if_pos hu]
  rfl

theorem usedBlocks_middle_free (pre post : List Chunk) {c : Chunk} (hu : c.used = false) :
    usedBlocks 12 0x400000 (pre ++ c :: post) =
      usedBlocks 12 0x400000 pre ++
        usedBlocks 12 (0x400000 + span 12 pre + 12 + c.size) post := by
  rw [usedBlocks_append, usedBlocks_cons, hu]
  rfl

theorem usedBlocks_taken (pre post : List Chunk) (c : Chunk) (n : Nat) :
    usedBlocks 12 0x400000 (pre ++ carve 12 4 n c ++ post) =
      usedBlocks 12 0x400000 pre ++ ⟨0x400000 + span 12 pre, granted 12 4 n c, true⟩ ::
        usedBlocks 12 (0x400000 + span 12 pre + 12 + c.size) post := by
  rw [List.append_assoc, usedBlocks_append, usedBlocks_append, usedBlocks_carve, span_carve,
    ← Nat.add_assoc]
  rfl

theorem usedBlocks_nodup (cs : List Chunk) : (usedBlocks 12 0x400000 cs).Nodup := by
  refine List.Nodup.filter _ ((layout_pairwise 12 0x400000 cs).imp ?_)
  rintro b c hbc rfl
  omega

theorem RunInvariant.live_nodup {s : HeapRun} {cs : List Chunk} (hs : RunInvariant s cs) :
    (s.live.map Prod.fst).Nodup := by
  rw [hs.live.nodup_iff]
  refine (usedBlocks_nodup cs).map_on fun b hb c hc heq => ?_
  exact payload_inj hs.heap (mem_usedBlocks.mp hb).1 (mem_usedBlocks.mp hc).1 heq

/-- The chunk behind a live pointer. -/
theorem RunInvariant.chunk {s : HeapRun} {cs : List Chunk} (hs : RunInvariant s cs) {p n : Word}
    (hp : (p, n) ∈ s.live) :
    ∃ pre c post, cs = pre ++ c :: post ∧ c.used = true ∧
      p = BitVec.ofNat 32 (0x400000 + span 12 pre + 12) := by
  have hmem : p ∈ (usedBlocks 12 0x400000 cs).map payload :=
    hs.live.mem_iff.mp (List.mem_map_of_mem (f := Prod.fst) hp)
  obtain ⟨b, hb, rfl⟩ := List.mem_map.mp hmem
  obtain ⟨hlay, hu⟩ := mem_usedBlocks.mp hb
  obtain ⟨pre, c, post, rfl, rfl⟩ := mem_layout.mp hlay
  exact ⟨pre, c, post, rfl, hu, rfl⟩

theorem BlockList.unique {m : Mem} {p : Word} {bs cs : List Block} (hb : BlockList m p bs)
    (hc : BlockList m p cs) : bs = cs := by
  induction bs generalizing p cs with
  | nil =>
    cases cs with
    | nil => rfl
    | cons c cs => exact absurd hb hc.1
  | cons b bs ih =>
    cases cs with
    | nil => exact absurd hc hb.1
    | cons c cs =>
      obtain ⟨_, hba, hbs, hbu, hbn⟩ := hb
      obtain ⟨_, hca, hcs, hcu, hcn⟩ := hc
      rw [ih hbn hcn]
      obtain ⟨ba, bsz, bu⟩ := b
      obtain ⟨ca, csz, cu⟩ := c
      have hu : bu = cu := Bool.eq_iff_iff.mpr (hbu.symm.trans hcu)
      simp only [List.cons.injEq, Block.mk.injEq, and_true]
      exact ⟨hba.symm.trans hca, hbs.symm.trans hcs, hu⟩

/-! ## Requests that round up -/

/-- Rounding `n` up to a multiple of 4 does not wrap, or there is no free block
to hand out. -/
def RoundsUp (s : HeapRun) (n : Word) : Prop :=
  n.toNat ≤ 0xFFFFFFFC ∨
    ∃ bs, BlockList s.heap.mem s.heap.heapStart bs ∧ ∀ b ∈ bs, b.used = true

/-- Every request of the run rounds up. -/
def RequestsRoundUp (s : HeapRun) : HeapOp → Prop
  | .kmalloc size => RoundsUp s size
  | _ => True

/-- Every live request fits in its block. -/
def Sized (s : HeapRun) (cs : List Chunk) : Prop :=
  ∀ q k, (q, k) ∈ s.live → ∃ b ∈ usedBlocks 12 0x400000 cs, q = payload b ∧ k.toNat ≤ b.size

theorem le_alignSize {n : Word} (h : n.toNat ≤ 0xFFFFFFFC) : n.toNat ≤ (alignSize n).toNat := by
  rw [alignSize_toNat]
  omega

theorem alignSize_wraps {n : Word} (h : ¬ n.toNat ≤ 0xFFFFFFFC) : (alignSize n).toNat = 0 := by
  rw [alignSize_toNat]
  omega

/-- A list without a free chunk leaves `kmalloc` nothing to return. -/
theorem RoundsUp.le {s : HeapRun} {cs pre post : List Chunk} {c : Chunk} {n : Word}
    (h : RoundsUp s n) (hr : Represents s.heap cs) (hcs : cs = pre ++ c :: post)
    (hfree : c.used = false) : n.toNat ≤ (alignSize n).toNat := by
  rcases h with h | ⟨bs, hbs, hused⟩
  · exact le_alignSize h
  · rw [hbs.unique hr.invariant.list] at hused
    have hc := hused _ (mem_layout.mpr ⟨pre, c, post, hcs, rfl⟩)
    rw [hfree] at hc
    cases hc

/-! ## The steps keep the invariant -/

/-- What `kmalloc` can do: it returns NULL and changes nothing, because the
request is empty or no free chunk is large enough, or it takes the first one. -/
theorem kmalloc_cases {h h' : Heap} {cs : List Chunk} (hr : Represents h cs) {size p : Word}
    (hk : kmalloc size h = some (p, h')) :
    (p = 0#32 ∧ h' = h ∧ (size = 0#32 ∨ firstFit (alignSize size).toNat cs = none)) ∨
      ∃ pre c post, cs = pre ++ c :: post ∧ c.used = false ∧ (alignSize size).toNat ≤ c.size ∧
        size ≠ 0#32 ∧ p ≠ 0#32 ∧ p.toNat = 0x400000 + span 12 pre + 12 ∧
        Represents h' (pre ++ carve 12 4 (alignSize size).toNat c ++ post) ∧
        SameOff h.mem h'.mem (0x400000 + span 12 pre) (0x400000 + span 12 pre + 12 + c.size) := by
  rcases Decidable.em (size = 0#32) with rfl | hsize
  · rw [kmalloc_zero] at hk
    cases hk
    exact Or.inl ⟨rfl, rfl, Or.inl rfl⟩
  · cases hff : firstFit (alignSize size).toNat cs with
    | none =>
      rw [kmalloc_none hr hsize hff] at hk
      cases hk
      exact Or.inl ⟨rfl, rfl, Or.inr rfl⟩
    | some r =>
      obtain ⟨pre, c, post⟩ := r
      obtain ⟨h'', hk', hrep, hoff⟩ := kmalloc_some hr hsize hff
      rw [hk'] at hk
      cases hk
      obtain ⟨rfl, ⟨hfree, hfits⟩, _⟩ := firstFit_some hff
      have hfill := hr.fills
      rw [span_append, span] at hfill
      exact Or.inr ⟨pre, c, post, rfl, hfree, hfits, hsize, ofNat_ne_zero (by omega) (by omega),
        toNat_ofNat_of_lt (by omega), hrep, hoff⟩

theorem kmalloc_total {h : Heap} {cs : List Chunk} (hr : Represents h cs) (size : Word) :
    ∃ p h', kmalloc size h = some (p, h') := by
  rcases Decidable.em (size = 0#32) with rfl | hsize
  · exact ⟨0#32, h, kmalloc_zero h⟩
  · cases hff : firstFit (alignSize size).toNat cs with
    | none => exact ⟨0#32, h, kmalloc_none hr hsize hff⟩
    | some r =>
      obtain ⟨h', hk, _⟩ := kmalloc_some hr hsize hff
      exact ⟨_, h', hk⟩

/-- A step keeps the invariant, and as long as requests round up it keeps live
requests inside their blocks. -/
theorem kmalloc_run {s : HeapRun} {cs : List Chunk} (hs : RunInvariant s cs) {size p : Word}
    {h' : Heap} (hk : kmalloc size s.heap = some (p, h')) :
    ∃ cs', RunInvariant ⟨h', if p = 0#32 then s.live else (p, size) :: s.live⟩ cs' ∧
      (RoundsUp s size → Sized s cs →
        Sized ⟨h', if p = 0#32 then s.live else (p, size) :: s.live⟩ cs') := by
  rcases kmalloc_cases hs.heap hk with
    ⟨rfl, rfl, _⟩ | ⟨pre, c, post, rfl, hfree, hfits, _, hp, hpa, hrep, _⟩
  · exact ⟨cs, hs, fun _ h => h⟩
  · have hpay : p = payload ⟨0x400000 + span 12 pre, granted 12 4 (alignSize size).toNat c, true⟩ := by
      rw [payload, ← hpa, BitVec.ofNat_toNat, BitVec.setWidth_eq]
    have hold := usedBlocks_middle_free pre post hfree
    have hnew := usedBlocks_taken pre post c (alignSize size).toNat
    rw [if_neg hp]
    refine ⟨_, ⟨hrep, ?_⟩, ?_⟩
    · have hlive := hs.live
      rw [hold, List.map_append] at hlive
      rw [hnew, List.map_cons, List.map_append, List.map_cons, ← hpay]
      exact (hlive.cons p).trans List.perm_middle.symm
    · intro hround hsz q k hq
      rw [hnew]
      cases List.mem_cons.mp hq with
      | inl heq =>
        cases heq
        have hle := hround.le hs.heap rfl hfree
        exact ⟨_, by simp, hpay, hle.trans (le_granted hfits)⟩
      | inr hq =>
        obtain ⟨b, hb, hqb⟩ := hsz q k hq
        rw [hold] at hb
        exact ⟨b, by simp only [List.mem_append, List.mem_cons] at hb ⊢; tauto, hqb⟩

theorem kfree_run {s : HeapRun} {cs : List Chunk} (hs : RunInvariant s cs) {p size : Word}
    (hp : (p, size) ∈ s.live) :
    ∃ h' cs', kfree p s.heap = some h' ∧ RunInvariant ⟨h', s.live.erase (p, size)⟩ cs' ∧
      (Sized s cs → Sized ⟨h', s.live.erase (p, size)⟩ cs') := by
  obtain ⟨pre, c, post, rfl, hu, rfl⟩ := hs.chunk hp
  obtain ⟨h', hk, hrep, _⟩ := kfree_spec hs.heap hu
  have hold := usedBlocks_middle pre post hu
  have hnew : usedBlocks 12 0x400000 (coalesce 12 (pre ++ c.clear :: post)) =
      usedBlocks 12 0x400000 pre ++ usedBlocks 12 (0x400000 + span 12 pre + 12 + c.size) post := by
    rw [usedBlocks_coalesce, usedBlocks_middle_free _ _ rfl]
    rfl
  have hperm := ((List.perm_cons_erase hp).map Prod.fst)
  refine ⟨h', _, hk, ⟨hrep, ?_⟩, ?_⟩
  · have hlive := hs.live
    rw [hold, List.map_append, List.map_cons] at hlive
    rw [hnew, List.map_append]
    exact List.Perm.cons_inv (hperm.symm.trans (hlive.trans List.perm_middle))
  · intro hsz q k hq
    obtain ⟨b, hb, hqb, hkb⟩ := hsz q k (List.mem_of_mem_erase hq)
    refine ⟨b, ?_, hqb, hkb⟩
    rw [hold] at hb
    rw [hnew]
    cases List.mem_append.mp hb with
    | inl hb =>
      exact List.mem_append_left _ hb
    | inr hb =>
      rcases List.mem_cons.mp hb with rfl | hb
      · -- the freed pointer occurs once among the live ones
        have hnodup := hperm.nodup_iff.mp hs.live_nodup
        rw [List.map_cons, List.nodup_cons] at hnodup
        exact absurd (List.mem_map.mpr ⟨(q, k), hq, hqb⟩) hnodup.1
      · exact List.mem_append_right _ hb

/-- Writes that spare the headers change nothing for the heap. -/
theorem Represents.write {h : Heap} {cs : List Chunk} (hr : Represents h cs) {m : Mem}
    (hm : ∀ b ∈ layout 12 0x400000 cs, SameOn h.mem m b.addr (b.addr + 12)) :
    Represents { h with mem := m } cs :=
  ⟨hr.start, hr.headers.congr hm (by rw [hr.fills]; decide), hr.fills, hr.coalesced, hr.aligned,
    hr.used⟩

theorem write_run {s : HeapRun} {cs : List Chunk} (hs : RunInvariant s cs) {m : Mem}
    (hm : KeepsHeaders s.heap m) : RunInvariant ⟨{ s.heap with mem := m }, s.live⟩ cs :=
  ⟨hs.heap.write (hm _ hs.heap.invariant.list), hs.live⟩

theorem heapStep_run {s t : HeapRun} {op : HeapOp} {cs : List Chunk} (hs : RunInvariant s cs)
    (hst : HeapStep s op t) :
    ∃ cs', RunInvariant t cs' ∧ (RequestsRoundUp s op → Sized s cs → Sized t cs') := by
  cases hst with
  | kmalloc hk => exact kmalloc_run hs hk
  | kfreeNull hk =>
    rw [kfree_null] at hk
    cases hk
    exact ⟨cs, hs, fun _ h => h⟩
  | kfree hp hk =>
    obtain ⟨h', cs', hk', hinv, hsz⟩ := kfree_run hs hp
    rw [hk'] at hk
    cases hk
    exact ⟨cs', hinv, fun _ => hsz⟩
  | write hm => exact ⟨cs, write_run hs hm, fun _ h => h⟩

theorem init_run {s : HeapRun} (h : heapSystem.init s) : RunInvariant s [freshChunk] := by
  obtain ⟨m, rfl⟩ := h
  exact ⟨heapInit_represents m, List.Perm.refl _⟩

theorem reachable_run {s : HeapRun} (h : heapSystem.Reachable s) : ∃ cs, RunInvariant s cs := by
  refine h.invariant (P := fun s => ∃ cs, RunInvariant s cs)
    (fun s hs => ⟨_, init_run hs⟩) ?_
  rintro s op t _ ⟨cs, hs⟩ hst
  obtain ⟨cs', ht, _⟩ := heapStep_run hs hst
  exact ⟨cs', ht⟩

theorem guarded_run {s : HeapRun} (h : (heapSystem.guarded RequestsRoundUp).Reachable s) :
    ∃ cs, RunInvariant s cs ∧ Sized s cs := by
  refine h.invariant (P := fun s => ∃ cs, RunInvariant s cs ∧ Sized s cs) ?_ ?_
  · rintro s hs
    refine ⟨_, init_run hs, ?_⟩
    obtain ⟨m, rfl⟩ := hs
    exact fun q k hq => absurd hq List.not_mem_nil
  · rintro s op t _ ⟨cs, hs, hsz⟩ ⟨hst, hg⟩
    obtain ⟨cs', ht, hsz'⟩ := heapStep_run hs hst
    exact ⟨cs', ht, hsz' hg hsz⟩

/-! ## The representation invariant -/

/-- In every state of every run the blocks tile the window, no two neighbours are
free, and `heap_used` is the number of used bytes. Every call returns. -/
theorem heap_invariant {s : HeapRun} (h : heapSystem.Reachable s) :
    (∃ bs, HeapInvariant s.heap bs) ∧
      (∀ size, ∃ p h', kmalloc size s.heap = some (p, h')) ∧
      ∀ p, p = 0#32 ∨ (∃ size, (p, size) ∈ s.live) → ∃ h', kfree p s.heap = some h' := by
  obtain ⟨cs, hs⟩ := reachable_run h
  refine ⟨⟨_, hs.heap.invariant⟩, kmalloc_total hs.heap, ?_⟩
  rintro p (rfl | ⟨size, hp⟩)
  · exact ⟨s.heap, kfree_null s.heap⟩
  · obtain ⟨h', _, hk, _⟩ := kfree_run hs hp
    exact ⟨h', hk⟩

/-- A live pointer is freed. -/
theorem reachable_kfree {s : HeapRun} (h : heapSystem.Reachable s) {p n : Word}
    (hp : (p, n) ∈ s.live) :
    ∃ h', kfree p s.heap = some h' ∧ heapSystem.Reachable ⟨h', s.live.erase (p, n)⟩ := by
  obtain ⟨cs, hs⟩ := reachable_run h
  obtain ⟨h', _, hk, _⟩ := kfree_run hs hp
  exact ⟨h', hk, h.step (HeapStep.kfree hp hk)⟩

/-- Two words, allocated one after the other on a fresh heap. -/
theorem fresh_twoWords :
    ∃ h₁ h₂, kmalloc 4#32 (heapInit fun _ => 0#8) = some (0x40000C#32, h₁) ∧
      heapSystem.Reachable ⟨h₁, [(0x40000C#32, 4#32)]⟩ ∧
      Represents h₁ [⟨4, true⟩, ⟨4194276, false⟩] ∧
      kmalloc 4#32 h₁ = some (0x40001C#32, h₂) ∧
      heapSystem.Reachable ⟨h₂, [(0x40001C#32, 4#32), (0x40000C#32, 4#32)]⟩ := by
  have hfresh : heapSystem.Reachable ⟨heapInit fun _ => 0#8, []⟩ := .init ⟨_, rfl⟩
  have hsize : (4#32 : Word) ≠ 0#32 := by decide
  have hfit₁ : firstFit (alignSize 4#32).toNat [freshChunk] = some ([], freshChunk, []) := by decide
  have hfit₂ : firstFit (alignSize 4#32).toNat [⟨4, true⟩, ⟨4194276, false⟩] =
      some ([⟨4, true⟩], ⟨4194276, false⟩, []) := by decide
  obtain ⟨h₁, hk₁, hr₁, _⟩ := kmalloc_some (heapInit_represents fun _ => 0#8) hsize hfit₁
  obtain ⟨h₂, hk₂, _⟩ := kmalloc_some hr₁ hsize hfit₂
  have hone : heapSystem.Reachable ⟨h₁, [(0x40000C#32, 4#32)]⟩ :=
    hfresh.step (HeapStep.kmalloc (p := 0x40000C#32) hk₁)
  exact ⟨h₁, h₂, hk₁, hone, hr₁, hk₂, hone.step (HeapStep.kmalloc (p := 0x40001C#32) hk₂)⟩

/-- Two words are allocated, and the first is freed. -/
theorem heap_invariant_freed :
    ∃ h₁ h₂ h₃, kmalloc 4#32 (heapInit fun _ => 0#8) = some (0x40000C#32, h₁) ∧
      kmalloc 4#32 h₁ = some (0x40001C#32, h₂) ∧ kfree 0x40000C#32 h₂ = some h₃ ∧
      ∃ bs, HeapInvariant h₃ bs := by
  obtain ⟨h₁, h₂, hk₁, _, _, hk₂, htwo⟩ := fresh_twoWords
  have hlive : (0x40000C#32, 4#32) ∈ [((0x40001C#32 : Word), (4#32 : Word)), (0x40000C#32, 4#32)] :=
    List.mem_cons_of_mem _ List.mem_cons_self
  obtain ⟨h₃, hk₃, hfreed⟩ := reachable_kfree htwo hlive
  exact ⟨h₁, h₂, h₃, hk₁, hk₂, hk₃, (heap_invariant hfreed).1⟩

/-! ## Adequacy -/

/-- The `n` bytes at `p` lie in the window, outside every header and outside
every range in `live`. -/
structure Adequate (h : Heap) (live : List (Word × Word)) (p n : Word) : Prop where
  inside : HEAP_START.toNat ≤ p.toNat ∧
    p.toNat + n.toNat ≤ HEAP_START.toNat + HEAP_SIZE.toNat
  headers : ∃ bs, BlockList h.mem h.heapStart bs ∧
    ∀ b ∈ bs, p.toNat + n.toNat ≤ b.addr ∨ b.addr + 12 ≤ p.toNat
  others : ∀ q k, (q, k) ∈ live → p.toNat + n.toNat ≤ q.toNat ∨ q.toNat + k.toNat ≤ p.toNat

/-- What `kmalloc(n)` returns is adequate. -/
def AdequateCall (s : HeapRun) (n : Word) : Prop :=
  ∀ p h', kmalloc n s.heap = some (p, h') → p ≠ 0#32 → Adequate h' s.live p n


theorem adequate_of_roundsUp {s : HeapRun} {cs : List Chunk} {n : Word} (hs : RunInvariant s cs)
    (hsz : Sized s cs) (hround : RoundsUp s n) : AdequateCall s n := by
  intro p h' hk hp
  obtain ⟨cs', hs', hsz'⟩ := kmalloc_run hs hk
  rw [if_neg hp] at hs' hsz'
  have hblock := hsz' hround hsz
  obtain ⟨b, hb, hpb, hnb⟩ := hblock p n (List.mem_cons_self ..)
  have hlay := (mem_usedBlocks.mp hb).1
  have hpa : p.toNat = b.addr + 12 := by rw [hpb, payload_toNat hs'.heap hlay]
  refine ⟨?_, ⟨_, hs'.heap.invariant.list, ?_⟩, ?_⟩
  · have hbd := layout_bounds hlay
    have hfill := hs'.heap.fills
    show 0x400000 ≤ p.toNat ∧ p.toNat + n.toNat ≤ 0x400000 + 0x400000
    omega
  · intro c hc
    rcases Decidable.em (b = c) with rfl | hne
    · omega
    · have hd := layout_disjoint hlay hc hne
      omega
  · intro q k hq
    obtain ⟨c, hc, hqc, hkc⟩ := hblock q k (List.mem_cons_of_mem _ hq)
    have hlay' := (mem_usedBlocks.mp hc).1
    have hqa : q.toNat = c.addr + 12 := by rw [hqc, payload_toNat hs'.heap hlay']
    -- the new pointer is not one of the live ones
    have hne : b ≠ c := by
      rintro rfl
      have hnodup := hs'.live_nodup
      rw [List.map_cons, List.nodup_cons] at hnodup
      exact hnodup.1 (List.mem_map.mpr ⟨(q, k), hq, hqc.trans hpb.symm⟩)
    have hd := layout_disjoint hlay hlay' hne
    omega

/-- A request that wraps is granted by any free block, and no block is that
large. -/
theorem roundsUp_of_adequate {s : HeapRun} {cs : List Chunk} {n : Word} (hs : RunInvariant s cs)
    (hn : n ≠ 0#32) (hcall : AdequateCall s n) : RoundsUp s n := by
  cases Decidable.em (n.toNat ≤ 0xFFFFFFFC) with
  | inl h =>
    exact Or.inl h
  | inr h =>
    refine Or.inr ⟨_, hs.heap.invariant.list, ?_⟩
    intro b hb
    obtain ⟨p, h', hk⟩ := kmalloc_total hs.heap n
    rcases kmalloc_cases hs.heap hk with ⟨_, _, hzero | hff⟩ | ⟨_, _, _, _, _, _, _, hp, _⟩
    · exact absurd hzero hn
    · obtain ⟨pre, c, post, rfl, rfl⟩ := mem_layout.mp hb
      have hfits := firstFit_none hff c (by simp)
      rw [alignSize_wraps h] at hfits
      simpa [Fits] using hfits
    · have hin := (hcall p h' hk hp).inside
      have hend : HEAP_START.toNat + HEAP_SIZE.toNat = 0x800000 := by decide
      omega

/-- In a run whose requests round up, what `kmalloc(n)` returns is adequate if
and only if this request rounds up as well. -/
theorem kmalloc_adequate_iff {s : HeapRun} {n : Word}
    (h : (heapSystem.guarded RequestsRoundUp).Reachable s) (hn : n ≠ 0#32) :
    AdequateCall s n ↔ RoundsUp s n := by
  obtain ⟨cs, hs, hsz⟩ := guarded_run h
  exact ⟨roundsUp_of_adequate hs hn, adequate_of_roundsUp hs hsz⟩

theorem fresh_guarded : (heapSystem.guarded RequestsRoundUp).Reachable ⟨heapInit fun _ => 0#8, []⟩ :=
  .init ⟨_, rfl⟩

/-- One word on the fresh heap. -/
theorem kmalloc_adequate_one : AdequateCall ⟨heapInit fun _ => 0#8, []⟩ 1#32 :=
  (kmalloc_adequate_iff fresh_guarded (by decide)).mpr (Or.inl (by decide))

/-- On the fresh heap `kmalloc(0xFFFFFFFF)` rounds up to a request of size zero. -/
theorem kmalloc_wraps :
    heapSystem.Reachable ⟨heapInit fun _ => 0#8, []⟩ ∧
      ¬ AdequateCall ⟨heapInit fun _ => 0#8, []⟩ 0xFFFFFFFF#32 := by
  have hs : RunInvariant ⟨heapInit fun _ => 0#8, []⟩ [freshChunk] := init_run ⟨_, rfl⟩
  refine ⟨.init ⟨_, rfl⟩, fun hcall => ?_⟩
  rcases roundsUp_of_adequate hs (by decide) hcall with h | ⟨bs, hbs, hused⟩
  · exact absurd h (by decide)
  · rw [hbs.unique hs.heap.invariant.list] at hused
    exact absurd (hused ⟨0x400000, 0x400000 - 12, false⟩ (by decide)) (by decide)

end Zenix
