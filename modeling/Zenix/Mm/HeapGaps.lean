import Zenix.Lib.FreeGaps
import Zenix.Mm.HeapSafety

/-!
# What the live blocks determine

The block list is coalesced in every state of every run, so its free blocks are
the maximal gaps between the live ones, and the live blocks alone determine the
whole list.

Results:
1. `kfree_confluent`: the order in which live pointers are freed does not matter,
   and freeing all of them restores the list of `heap_init`.
2. `kmalloc_complete`: `kmalloc` fails only when no gap between the live blocks
   is large enough, and otherwise takes the lowest one.
-/

namespace Zenix
open ByteMemory FirstFit

theorem Represents.ext {h h' : Heap} {cs ds : List Chunk} (hr : Represents h cs)
    (hr' : Represents h' ds)
    (hused : usedBlocks 12 0x400000 cs = usedBlocks 12 0x400000 ds) : cs = ds := by
  have hspan : span 12 cs = span 12 ds := by
    have hfill := hr.fills
    have hfill' := hr'.fills
    omega
  exact coalesced_ext (by decide) hr.coalesced hr'.coalesced hspan hused

/-! ## Freeing in any order -/

/-- `kfree` on each of the pointers, one after the other. -/
def freeAll : List Word → Heap → Option Heap
  | [], h => some h
  | p :: ps, h => (kfree p h).bind (freeAll ps)

/-- The two heaps have the same block list and the same `heap_used`. -/
def SameBlocks (h h' : Heap) : Prop :=
  (∃ bs, BlockList h.mem h.heapStart bs ∧ BlockList h'.mem h'.heapStart bs) ∧
    h.heapUsed = h'.heapUsed

/-- The one free block of `heap_init`. -/
def freshBlock : Block := ⟨0x400000, 0x400000 - 12, false⟩

theorem Represents.sameBlocks {h h' : Heap} {cs : List Chunk} (hr : Represents h cs)
    (hr' : Represents h' cs) : SameBlocks h h' :=
  ⟨⟨_, hr.invariant.list, hr'.invariant.list⟩, hr.used.trans hr'.used.symm⟩

/-- `kfree` takes its block out of the used ones. -/
theorem kfree_erase {h : Heap} {cs : List Chunk} {b : Block} (hr : Represents h cs)
    (hb : b ∈ usedBlocks 12 0x400000 cs) :
    ∃ h' cs', kfree (payload b) h = some h' ∧ Represents h' cs' ∧
      usedBlocks 12 0x400000 cs' = (usedBlocks 12 0x400000 cs).erase b := by
  obtain ⟨hlay, hu⟩ := mem_usedBlocks.mp hb
  obtain ⟨pre, c, post, rfl, rfl⟩ := mem_layout.mp hlay
  obtain ⟨h', hk, hrep, _⟩ := kfree_spec hr hu
  refine ⟨h', _, hk, hrep, ?_⟩
  have hnodup := usedBlocks_nodup (pre ++ c :: post)
  rw [usedBlocks_middle _ _ hu] at hnodup ⊢
  have hnot : (⟨0x400000 + span 12 pre, c.size, true⟩ : Block) ∉ usedBlocks 12 0x400000 pre :=
    fun hmem => (List.nodup_append.mp hnodup).2.2 _ hmem _ List.mem_cons_self rfl
  rw [usedBlocks_coalesce, usedBlocks_middle_free _ _ rfl, show c.used = true from hu,
    List.erase_append_right _ hnot, List.erase_cons_head]
  rfl

/-- Freeing a list of used blocks takes these out, whatever their order. -/
theorem freeAll_diff {h : Heap} {cs : List Chunk} {bs : List Block} (hr : Represents h cs)
    (hnodup : bs.Nodup) (hbs : ∀ b ∈ bs, b ∈ usedBlocks 12 0x400000 cs) :
    ∃ h' cs', freeAll (bs.map payload) h = some h' ∧ Represents h' cs' ∧
      usedBlocks 12 0x400000 cs' = (usedBlocks 12 0x400000 cs).diff bs := by
  induction bs generalizing h cs with
  | nil => exact ⟨h, cs, rfl, hr, rfl⟩
  | cons b bs ih =>
    obtain ⟨hb, hrest⟩ := List.nodup_cons.mp hnodup
    obtain ⟨h₁, cs₁, hk, hr₁, hused₁⟩ := kfree_erase hr (hbs b List.mem_cons_self)
    have hbs₁ : ∀ c ∈ bs, c ∈ usedBlocks 12 0x400000 cs₁ := by
      intro c hc
      have hne : c ≠ b := fun heq => hb (heq ▸ hc)
      rw [hused₁]
      exact (List.mem_erase_of_ne hne).mpr (hbs c (List.mem_cons_of_mem _ hc))
    obtain ⟨h₂, cs₂, hall, hr₂, hused₂⟩ := ih hr₁ hrest hbs₁
    refine ⟨h₂, cs₂, ?_, hr₂, ?_⟩
    · rw [List.map_cons, freeAll, hk, Option.bind_some, hall]
    · rw [hused₂, hused₁, List.diff_cons]

/-- The blocks behind a list of live pointers. -/
theorem RunInvariant.blocks {s : HeapRun} {cs : List Chunk} (hs : RunInvariant s cs)
    {ps : List Word} (hnodup : ps.Nodup) (hps : ∀ p ∈ ps, p ∈ s.live.map Prod.fst) :
    ∃ bs : List Block, ps = bs.map payload ∧ bs.Nodup ∧ ∀ b ∈ bs, b ∈ usedBlocks 12 0x400000 cs := by
  induction ps with
  | nil => exact ⟨[], rfl, List.nodup_nil, fun b hb => absurd hb List.not_mem_nil⟩
  | cons p ps ih =>
    obtain ⟨hp, hrest⟩ := List.nodup_cons.mp hnodup
    obtain ⟨bs, rfl, hbs, hused⟩ := ih hrest fun q hq => hps q (List.mem_cons_of_mem _ hq)
    obtain ⟨b, hb, rfl⟩ := List.mem_map.mp (hs.live.mem_iff.mp (hps p List.mem_cons_self))
    refine ⟨b :: bs, rfl, List.nodup_cons.mpr ⟨fun hmem => hp (List.mem_map_of_mem hmem), hbs⟩, ?_⟩
    intro c hc
    cases List.mem_cons.mp hc with
    | inl heq => exact heq ▸ hb
    | inr hmem => exact hused c hmem

/-- The order of the frees does not matter. -/
theorem freeAll_perm {s : HeapRun} {cs : List Chunk} (hs : RunInvariant s cs) {ps qs : List Word}
    (hnodup : ps.Nodup) (hps : ∀ p ∈ ps, p ∈ s.live.map Prod.fst) (hperm : ps.Perm qs) :
    ∃ h₁ h₂, freeAll ps s.heap = some h₁ ∧ freeAll qs s.heap = some h₂ ∧ SameBlocks h₁ h₂ := by
  obtain ⟨bs, rfl, hbs, hused⟩ := hs.blocks hnodup hps
  obtain ⟨ds, rfl, hds, hused'⟩ := hs.blocks (hperm.nodup_iff.mp hnodup)
    fun q hq => hps q (hperm.mem_iff.mpr hq)
  have hsub : ∀ b, b ∈ bs ↔ b ∈ ds := by
    have hmem : ∀ {l l' : List Block}, (∀ b ∈ l, b ∈ usedBlocks 12 0x400000 cs) →
        (∀ b ∈ l', b ∈ usedBlocks 12 0x400000 cs) →
        (∀ p, p ∈ l.map payload → p ∈ l'.map payload) → ∀ b, b ∈ l → b ∈ l' := by
      intro l l' hl hl' himp b hb
      obtain ⟨c, hc, heq⟩ := List.mem_map.mp (himp _ (List.mem_map_of_mem hb))
      have hcb := payload_inj hs.heap (mem_usedBlocks.mp (hl' c hc)).1
        (mem_usedBlocks.mp (hl b hb)).1 heq
      exact hcb ▸ hc
    exact fun b => ⟨hmem hused hused' (fun p => hperm.mem_iff.mp) b,
      hmem hused' hused (fun p => hperm.mem_iff.mpr) b⟩
  obtain ⟨h₁, cs₁, hall₁, hr₁, heq₁⟩ := freeAll_diff hs.heap hbs hused
  obtain ⟨h₂, cs₂, hall₂, hr₂, heq₂⟩ := freeAll_diff hs.heap hds hused'
  have hdiff := ((List.perm_ext_iff_of_nodup hbs hds).mpr hsub).diff_left (usedBlocks 12 0x400000 cs)
  obtain rfl := hr₁.ext hr₂ (heq₁.trans (hdiff.trans heq₂.symm))
  exact ⟨h₁, h₂, hall₁, hall₂, hr₁.sameBlocks hr₂⟩

/-- Freeing everything leaves the one chunk of a fresh heap. -/
theorem freeAll_live {s : HeapRun} {cs : List Chunk} (hs : RunInvariant s cs) {ps : List Word}
    (hps : ps.Perm (s.live.map Prod.fst)) :
    ∃ h', freeAll ps s.heap = some h' ∧ Represents h' [freshChunk] := by
  obtain ⟨bs, rfl, hbs, hused⟩ := hs.blocks (hps.nodup_iff.mpr hs.live_nodup)
    fun p => hps.mem_iff.mp
  obtain ⟨h', cs', hall, hr', heq⟩ := freeAll_diff hs.heap hbs hused
  have hempty : (usedBlocks 12 0x400000 cs).diff bs = [] := by
    refine List.eq_nil_iff_forall_not_mem.mpr fun b hb => ?_
    obtain ⟨hb, hnot⟩ := (usedBlocks_nodup cs).mem_sdiff_iff.mp hb
    have hlive := hs.live.mem_iff.mpr (List.mem_map_of_mem hb)
    obtain ⟨c, hc, hcb⟩ := List.mem_map.mp (hps.mem_iff.mpr hlive)
    have hcb := payload_inj hs.heap (mem_usedBlocks.mp (hused c hc)).1 (mem_usedBlocks.mp hb).1 hcb
    exact hnot (hcb ▸ hc)
  have hfresh : usedBlocks 12 0x400000 cs' = usedBlocks 12 0x400000 [freshChunk] :=
    heq.trans hempty
  obtain rfl := hr'.ext (heapInit_represents s.heap.mem) hfresh
  exact ⟨h', hall, hr'⟩

/-- In every reachable state, freeing two live pointers in either order leads to
the same block list and the same `heap_used`, and freeing all live pointers in any
order leads back to the single free block of `heap_init`. -/
theorem kfree_confluent {s : HeapRun} (h : heapSystem.Reachable s) :
    (∀ p q m n, (p, m) ∈ s.live → (q, n) ∈ s.live → p ≠ q →
      ∃ h₁ h₂, freeAll [p, q] s.heap = some h₁ ∧ freeAll [q, p] s.heap = some h₂ ∧
        SameBlocks h₁ h₂) ∧
      ∀ ps, ps.Perm (s.live.map Prod.fst) →
        ∃ h', freeAll ps s.heap = some h' ∧ BlockList h'.mem h'.heapStart [freshBlock] ∧
          h'.heapUsed = 0#32 ∧ ∀ m, SameBlocks h' (heapInit m) := by
  obtain ⟨cs, hs⟩ := reachable_run h
  constructor
  · intro p q m n hp hq hne
    refine freeAll_perm hs (by simp [hne]) ?_ (List.Perm.swap q p [])
    intro r hr
    simp only [List.mem_cons, List.not_mem_nil, or_false] at hr
    rcases hr with rfl | rfl
    · exact List.mem_map_of_mem (f := Prod.fst) hp
    · exact List.mem_map_of_mem (f := Prod.fst) hq
  · intro ps hps
    obtain ⟨h', hall, hr'⟩ := freeAll_live hs hps
    exact ⟨h', hall, hr'.invariant.list, hr'.used,
      fun m => hr'.sameBlocks (heapInit_represents m)⟩

/-- Two words are allocated, and freed in both orders. -/
theorem kfree_confluent_two :
    ∃ h₁ h₂ h₃ h₄, kmalloc 4#32 (heapInit fun _ => 0#8) = some (0x40000C#32, h₁) ∧
      kmalloc 4#32 h₁ = some (0x40001C#32, h₂) ∧
      freeAll [0x40000C#32, 0x40001C#32] h₂ = some h₃ ∧
      freeAll [0x40001C#32, 0x40000C#32] h₂ = some h₄ ∧ SameBlocks h₃ h₄ ∧
      h₃.heapUsed = 0#32 := by
  obtain ⟨h₁, h₂, hk₁, _, _, hk₂, htwo⟩ := fresh_twoWords
  obtain ⟨hpair, hall⟩ := kfree_confluent htwo
  obtain ⟨h₃, h₄, hfirst, hsecond, hsame⟩ := hpair 0x40000C#32 0x40001C#32 4#32 4#32
    (List.mem_cons_of_mem _ List.mem_cons_self) List.mem_cons_self (by decide)
  obtain ⟨h, hfreed, _, hused, _⟩ := hall [0x40000C#32, 0x40001C#32] (List.Perm.swap _ _ [])
  cases hfirst.symm.trans hfreed
  exact ⟨h₁, h₂, h₃, h₄, hk₁, hk₂, hfirst, hsecond, hsame, hused⟩

/-! ## Allocation and gaps -/

/-- The address `x` is in the header or in the payload of a live block; the size
of a block is the one in its header. -/
def LiveByte (s : HeapRun) (x : Nat) : Prop :=
  ∃ p n, (p, n) ∈ s.live ∧ p.toNat - sizeofHeapBlock.toNat ≤ x ∧
    x < p.toNat + (blockSize s.heap.mem (p - sizeofHeapBlock)).toNat

/-- `[lo, hi)` is a maximal interval of the heap that no live block occupies. -/
def HeapGap (s : HeapRun) (lo hi : Nat) : Prop :=
  Gap (LiveByte s) HEAP_START.toNat (HEAP_START.toNat + HEAP_SIZE.toNat) lo hi

theorem RunInvariant.header {s : HeapRun} {cs : List Chunk} (hs : RunInvariant s cs) {b : Block}
    (hb : b ∈ layout 12 0x400000 cs) : (payload b).toNat = b.addr + 12 ∧
      (blockSize s.heap.mem (payload b - sizeofHeapBlock)).toNat = b.size := by
  have hbd := layout_bounds hb
  have hfill := hs.heap.fills
  have hblock : payload b - sizeofHeapBlock = BitVec.ofNat 32 b.addr := header_of_pointer b.addr
  refine ⟨payload_toNat hs.heap hb, ?_⟩
  rw [hblock, (hs.heap.headers b hb).size]
  exact toNat_ofNat_of_lt (by omega)

theorem RunInvariant.liveByte_iff {s : HeapRun} {cs : List Chunk} (hs : RunInvariant s cs)
    (x : Nat) : LiveByte s x ↔ Occupied 12 0x400000 cs x := by
  have hsize : sizeofHeapBlock.toNat = 12 := rfl
  constructor
  · rintro ⟨p, n, hp, hlo, hhi⟩
    have hmem := hs.live.mem_iff.mp (List.mem_map_of_mem (f := Prod.fst) hp)
    obtain ⟨b, hb, rfl⟩ := List.mem_map.mp hmem
    obtain ⟨hpay, hhead⟩ := hs.header (mem_usedBlocks.mp hb).1
    exact ⟨b, hb, by omega, by omega⟩
  · rintro ⟨b, hb, hlo, hhi⟩
    obtain ⟨hpay, hhead⟩ := hs.header (mem_usedBlocks.mp hb).1
    obtain ⟨⟨p, n⟩, hp, rfl⟩ := List.mem_map.mp
      (hs.live.mem_iff.mpr (List.mem_map_of_mem (f := payload) hb))
    exact ⟨_, n, hp, by omega, by omega⟩

theorem RunInvariant.heapGap_iff {s : HeapRun} {cs : List Chunk} (hs : RunInvariant s cs)
    {lo hi : Nat} : HeapGap s lo hi ↔
      Gap (Occupied 12 0x400000 cs) 0x400000 (0x400000 + span 12 cs) lo hi := by
  have hocc : LiveByte s = Occupied 12 0x400000 cs := funext fun x => propext (hs.liveByte_iff x)
  rw [HeapGap, hocc, hs.heap.fills]
  rfl

/-- `kmalloc` takes the lowest gap with room for the rounded size and a header. -/
theorem RunInvariant.kmalloc_gap {s : HeapRun} {cs : List Chunk} (hs : RunInvariant s cs) {n : Word}
    (hn : 1 ≤ n.toNat) (hmax : n.toNat ≤ HEAP_SIZE.toNat) :
    ∃ p h', kmalloc n s.heap = some (p, h') ∧
      (p ≠ 0#32 ↔ ∃ lo hi, HeapGap s lo hi ∧ (n.toNat + 3) / 4 * 4 + 12 ≤ hi - lo) ∧
      (p ≠ 0#32 → ∃ lo hi, HeapGap s lo hi ∧ (n.toNat + 3) / 4 * 4 + 12 ≤ hi - lo ∧
        p.toNat = lo + 12 ∧ ∀ lo' hi', HeapGap s lo' hi' →
          (n.toNat + 3) / 4 * 4 + 12 ≤ hi' - lo' → lo ≤ lo') ∧
      (p = 0#32 → h' = s.heap) := by
  have hmax' : n.toNat ≤ 0x400000 := hmax
  have hround : (alignSize n).toNat = (n.toNat + 3) / 4 * 4 := by
    rw [alignSize_toNat, Nat.mod_eq_of_lt (by omega)]
  have hsize : n ≠ 0#32 := by
    rintro rfl
    exact absurd hn (by decide)
  rw [← hround]
  simp only [hs.heapGap_iff]
  cases hff : firstFit (alignSize n).toNat cs with
  | none =>
    refine ⟨0#32, s.heap, kmalloc_none hs.heap hsize hff, ⟨fun hp => absurd rfl hp, ?_⟩,
      fun hp => absurd rfl hp, fun _ => rfl⟩
    rintro ⟨lo, hi, hgap, hroom⟩
    exact absurd hroom (firstFit_no_gap (show 0 < 12 by decide) hs.heap.coalesced hff hgap)
  | some r =>
    obtain ⟨pre, c, post⟩ := r
    obtain ⟨h', hk, _⟩ := kmalloc_some hs.heap hsize hff
    obtain ⟨hgap, hlowest⟩ := firstFit_gap (a := 0x400000) (show 0 < 12 by decide) hs.heap.coalesced hff
    obtain ⟨hsplit, ⟨_, hfits⟩, _⟩ := firstFit_some hff
    have hfill := hs.heap.fills
    rw [hsplit, span_append, span] at hfill
    have hne : BitVec.ofNat 32 (0x400000 + span 12 pre + 12) ≠ 0#32 :=
      ofNat_ne_zero (by omega) (by omega)
    exact ⟨_, h', hk, ⟨fun _ => ⟨_, _, hgap, by omega⟩, fun _ => hne⟩,
      fun _ => ⟨_, _, hgap, by omega, toNat_ofNat_of_lt (by omega), hlowest⟩,
      fun hp => absurd hp hne⟩

/-- In every reachable state `kmalloc(n)` succeeds if and only if some maximal gap
between the live blocks has room for the rounded size and a header. It then takes
the lowest such gap; otherwise it changes nothing. -/
theorem kmalloc_complete {s : HeapRun} (h : heapSystem.Reachable s) {n : Word}
    (hn : 1 ≤ n.toNat) (hmax : n.toNat ≤ HEAP_SIZE.toNat) :
    ∃ p h', kmalloc n s.heap = some (p, h') ∧
      (p ≠ 0#32 ↔ ∃ lo hi, HeapGap s lo hi ∧ (n.toNat + 3) / 4 * 4 + 12 ≤ hi - lo) ∧
      (p ≠ 0#32 → ∃ lo hi, HeapGap s lo hi ∧ (n.toNat + 3) / 4 * 4 + 12 ≤ hi - lo ∧
        p.toNat = lo + 12 ∧ ∀ lo' hi', HeapGap s lo' hi' →
          (n.toNat + 3) / 4 * 4 + 12 ≤ hi' - lo' → lo ≤ lo') ∧
      (p = 0#32 → h' = s.heap) := by
  obtain ⟨cs, hs⟩ := reachable_run h
  exact hs.kmalloc_gap hn hmax

theorem kmalloc_complete_one :
    ∃ p h', kmalloc 1#32 (heapInit fun _ => 0#8) = some (p, h') ∧
      (p ≠ 0#32 ↔ ∃ lo hi, HeapGap ⟨heapInit fun _ => 0#8, []⟩ lo hi ∧ 16 ≤ hi - lo) := by
  obtain ⟨p, h', hk, hiff, _⟩ := kmalloc_complete (s := ⟨heapInit fun _ => 0#8, []⟩)
    (.init ⟨_, rfl⟩) (n := 1#32) (by decide) (by decide)
  exact ⟨p, h', hk, hiff⟩

end Zenix
