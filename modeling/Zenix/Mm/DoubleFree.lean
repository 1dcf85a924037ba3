import Zenix.Mm.HeapSafety

/-!
# Freeing a pointer again

`kfree` finds the flag of a block in the header in front of the pointer. Merging
takes headers out of the list and leaves their bytes where they are, inside the free
block that has swallowed them, with the flag cleared.

A run here remembers the freed pointers. A pointer is forgotten when an allocation
takes memory that its header lies in; only then can the header be overwritten.

Results:
1. `kfree_blockUsed`: what `kfree` does to the flags of all headers, those in the
   list and those that are not in it any more.
2. `kfree_stale`: `kfree` on a pointer that has been freed changes nothing.
3. `kfree_again`: so a second `kfree` changes nothing, whatever has been freed in
   between.
-/

namespace Zenix
open ByteMemory FirstFit

/-! ## Runs -/

structure FreeRun where
  heap : Heap
  live : List (Word × Word)
  freed : List Word

/-- The header in front of `q` lies outside the block of `p` and the header behind
that block, which is all that handing out `p` writes to. -/
def Spared (h : Heap) (p q : Word) : Prop :=
  q.toNat ≤ p.toNat - 12 ∨
    p.toNat + (blockSize h.mem (p - sizeofHeapBlock)).toNat + 24 ≤ q.toNat

instance (h : Heap) (p q : Word) : Decidable (Spared h p q) := inferInstanceAs (Decidable (_ ∨ _))

/-- `m` differs from the memory of `h` only outside the block headers and the free
blocks. -/
def KeepsFree (h : Heap) (m : Mem) : Prop :=
  ∀ bs, BlockList h.mem h.heapStart bs → ∀ b ∈ bs,
    SameOn h.mem m b.addr (b.addr + 12) ∧
      (b.used = false → SameOn h.mem m b.addr (b.addr + 12 + b.size))

inductive FreeStep : FreeRun → HeapOp → FreeRun → Prop
  | kmalloc {s : FreeRun} {size p : Word} {h' : Heap} : kmalloc size s.heap = some (p, h') →
      FreeStep s (.kmalloc size)
        ⟨h', if p = 0#32 then s.live else (p, size) :: s.live,
          if p = 0#32 then s.freed else s.freed.filter fun q => Spared h' p q⟩
  | kfree {s : FreeRun} {p size : Word} {h' : Heap} : (p, size) ∈ s.live →
      kfree p s.heap = some h' → FreeStep s (.kfree p) ⟨h', s.live.erase (p, size), p :: s.freed⟩
  | again {s : FreeRun} {p : Word} {h' : Heap} : p ∈ s.freed → kfree p s.heap = some h' →
      FreeStep s (.kfree p) ⟨h', s.live, s.freed⟩
  | write {s : FreeRun} {m : Mem} : KeepsFree s.heap m →
      FreeStep s (.write m) ⟨{ s.heap with mem := m }, s.live, s.freed⟩

/-- The calls, from `heap_init` on; `kfree` also on pointers that have been freed. -/
def freeSystem : TransitionSystem FreeRun HeapOp where
  init := fun s => ∃ m, s = ⟨heapInit m, [], []⟩
  step := FreeStep

/-! ## The flags after `kfree` -/

/-- Two headers are the same or do not overlap. -/
def HeadersApart (a b : Nat) : Prop := a = b ∨ a + 12 ≤ b ∨ b + 12 ≤ a

theorem mergeInto_used {m : Mem} {a x : Nat} {next : Word} (hap : HeadersApart a x)
    (ha : a + 12 ≤ 2 ^ 32) (hx : x + 12 ≤ 2 ^ 32) :
    blockUsed (mergeInto m (BitVec.ofNat 32 x) next) (BitVec.ofNat 32 a) =
      blockUsed m (BitVec.ofNat 32 a) := by
  rcases hap with rfl | hoff
  · rw [mergeInto, used_setNext, used_setSize]
  · exact blockUsed_congr ((mergeInto_sameOff hx).sameOn hoff) ha

/-- The search for the previous block ends at NULL or at a block of the list. -/
theorem findPrev_mem {m : Mem} {block current : Word} {a fuel : Nat} {cs : List Chunk}
    (hcs : Headers m a cs) (hfill : a + span 12 cs = 0x800000) (ha : 0 < a)
    (h : findPrev fuel m block (linkTo a) = some current) :
    current = 0#32 ∨ ∃ b ∈ layout 12 a cs, current = BitVec.ofNat 32 b.addr := by
  induction cs generalizing a fuel with
  | nil =>
    cases fuel with
    | zero => cases h
    | succ fuel =>
      rw [show a = 0x800000 by simpa [span] using hfill, linkTo_hi, findPrev, if_neg (by simp)] at h
      exact Or.inl (Option.some.inj h).symm
  | cons c cs ih =>
    cases fuel with
    | zero => cases h
    | succ fuel =>
      obtain ⟨hc, htail⟩ := headers_cons.mp hcs
      unfold span at hfill
      rw [linkTo_of_ne (by omega), findPrev] at h
      split at h
      · rw [hc.next] at h
        rcases ih htail (by omega) (by omega) h with hnull | ⟨b, hb, hcur⟩
        · exact Or.inl hnull
        · exact Or.inr ⟨b, List.mem_cons_of_mem _ hb, hcur⟩
      · exact Or.inr ⟨_, List.mem_cons_self, (Option.some.inj h).symm⟩

theorem mergeNext_used {m : Mem} {a x : Nat} (hap : HeadersApart a x) (ha : a + 12 ≤ 2 ^ 32)
    (hx : x + 12 ≤ 2 ^ 32) :
    blockUsed (mergeNext m (BitVec.ofNat 32 x)) (BitVec.ofNat 32 a) =
      blockUsed m (BitVec.ofNat 32 a) := by
  unfold mergeNext
  split
  · exact mergeInto_used hap ha hx
  · rfl

/-- The previous block is one of the list, so its header is the one at `a` or apart from it. -/
theorem mergePrev_used {m m' : Mem} {cs : List Chunk} {block : Word} {a : Nat}
    (hcs : Headers m 0x400000 cs) (hfill : 0x400000 + span 12 cs = 0x800000)
    (hap : ∀ b ∈ layout 12 0x400000 cs, HeadersApart a b.addr) (ha : a + 12 ≤ 2 ^ 32)
    (h : mergePrev m HEAP_START block = some m') :
    blockUsed m' (BitVec.ofNat 32 a) = blockUsed m (BitVec.ofNat 32 a) := by
  obtain ⟨current, hfind, rfl⟩ := Option.map_eq_some_iff.mp h
  rw [show HEAP_START = linkTo 0x400000 by decide] at hfind
  split
  · next htaken =>
    rcases findPrev_mem hcs hfill (by decide) hfind with hnull | ⟨b, hb, rfl⟩
    · exact absurd hnull htaken.1
    · have hbd := layout_bounds hb
      exact mergeInto_used (hap b hb) ha (by omega)
  · rfl

/-- `kfree` clears the flag of its block. It changes the flag of no other header, in
the list or not. -/
theorem kfree_blockUsed {h h' : Heap} {pre post : List Chunk} {c : Chunk} {a : Nat}
    (hr : Represents h (pre ++ c :: post)) (hu : c.used = true)
    (hk : kfree (BitVec.ofNat 32 (0x400000 + span 12 pre + 12)) h = some h')
    (hap : ∀ b ∈ layout 12 0x400000 (pre ++ c :: post), HeadersApart a b.addr)
    (ha : a + 12 ≤ 2 ^ 32) :
    blockUsed h'.mem (BitVec.ofNat 32 a) =
      if a = 0x400000 + span 12 pre then 0#32 else blockUsed h.mem (BitVec.ofNat 32 a) := by
  have hfill := hr.fills
  have hc := (headers_cons.mp (headers_append.mp hr.headers).2).1
  obtain ⟨hmerged, _, _⟩ := clearMerge_spec hr.headers hr.fills
  have hapc : HeadersApart a (0x400000 + span 12 pre) :=
    hap ⟨_, c.size, c.used⟩ (mem_layout.mpr ⟨pre, c, post, rfl, rfl⟩)
  rw [span_append, span] at hfill
  have hused : blockUsed h.mem (BitVec.ofNat 32 (0x400000 + span 12 pre)) ≠ 0#32 := by
    rw [Ne, hc.used_iff, hu]
    decide
  rw [kfree_inUse (by omega) hused, hr.start] at hk
  obtain ⟨m', hprev, rfl⟩ := Option.map_eq_some_iff.mp hk
  have hlist : 0x400000 + span 12 (pre ++ absorb 12 c.clear post) = 0x800000 := by
    rw [span_append, span_absorb, Chunk.clear]
    omega
  have hapart : ∀ b ∈ layout 12 0x400000 (pre ++ absorb 12 c.clear post), HeadersApart a b.addr := by
    intro b hb
    obtain ⟨d, hd, hda⟩ := addr_mem_clear hb
    exact hda ▸ hap d hd
  dsimp only
  -- the flag is cleared before the merges
  rw [mergePrev_used hmerged hlist hapart ha hprev, mergeNext_used hapc ha (by omega)]
  split
  · next heq => rw [heq, used_setUsed]
  · next hne => exact blockUsed_congr ((setUsed_sameOff (by omega)).sameOn (hapc.resolve_left hne)) ha

/-! ## Stale headers -/

theorem map_layout (a : Nat) (cs : List Chunk) :
    (layout 12 a cs).map (fun b => (⟨b.size, b.used⟩ : Chunk)) = cs := by
  induction cs generalizing a with
  | nil => rfl
  | cons c cs ih => rw [layout, List.map_cons, ih]

/-- Memory holds one chunk list. -/
theorem Represents.unique {h : Heap} {cs ds : List Chunk} (hr : Represents h cs)
    (hr' : Represents h ds) : cs = ds := by
  rw [← map_layout 0x400000 cs, ← map_layout 0x400000 ds,
    hr.invariant.list.unique hr'.invariant.list]

/-- The header in front of `q` has a cleared flag and lies in a free block: it is the
header of that block, or it stands in the payload. -/
def Stale (m : Mem) (cs : List Chunk) (q : Word) : Prop :=
  ∃ a, q = BitVec.ofNat 32 (a + 12) ∧ blockUsed m (BitVec.ofNat 32 a) = 0#32 ∧
    ∃ b ∈ layout 12 0x400000 cs, b.used = false ∧ Within 12 ⟨a, 0, false⟩ b

structure FreeInvariant (s : FreeRun) (cs : List Chunk) : Prop where
  run : RunInvariant ⟨s.heap, s.live⟩ cs
  stale : ∀ q ∈ s.freed, Stale s.heap.mem cs q

theorem within_apart {cs : List Chunk} {a : Nat} {b : Block} (hb : b ∈ layout 12 0x400000 cs)
    (hw : Within 12 ⟨a, 0, false⟩ b) : ∀ d ∈ layout 12 0x400000 cs, HeadersApart a d.addr := by
  intro d hd
  obtain ⟨haddr, hend⟩ := hw
  dsimp only at haddr hend
  rcases Decidable.em (b = d) with rfl | hne
  · exact haddr.imp_right Or.inr
  · have hdisj := layout_disjoint hb hd hne
    exact Or.inr (by omega)

/-- `kfree` on a pointer that has been freed changes nothing at all. -/
theorem kfree_stale {h : Heap} {cs : List Chunk} {q : Word} (hr : Represents h cs)
    (hq : Stale h.mem cs q) : kfree q h = some h := by
  obtain ⟨a, rfl, hused, b, hb, _, haddr, hend⟩ := hq
  have hbd := layout_bounds hb
  have hfill := hr.fills
  dsimp only at haddr hend
  exact kfree_idle (by omega) hused

/-! ## The steps -/

theorem Stale.kfree {h h' : Heap} {pre post : List Chunk} {c : Chunk} {q : Word}
    (hr : Represents h (pre ++ c :: post)) (hu : c.used = true)
    (hk : kfree (BitVec.ofNat 32 (0x400000 + span 12 pre + 12)) h = some h')
    (hq : Stale h.mem (pre ++ c :: post) q) :
    Stale h'.mem (coalesce 12 (pre ++ c.clear :: post)) q := by
  obtain ⟨a, rfl, hused, b, hb, hbu, hw⟩ := hq
  have hbd := layout_bounds hb
  have hfill := hr.fills
  obtain ⟨haddr, hend⟩ := hw
  dsimp only at haddr hend
  have hflag := kfree_blockUsed hr hu hk (within_apart hb ⟨haddr, hend⟩) (by omega)
  have hb' : b ∈ layout 12 0x400000 (pre ++ c.clear :: post) := by
    -- the block is free, so it is not the one that is released
    rw [layout_append, layout, List.mem_append, List.mem_cons] at hb ⊢
    refine hb.imp_right fun hb => Or.inr (hb.resolve_left ?_)
    rintro rfl
    exact absurd (hu.symm.trans hbu) (by decide)
  obtain ⟨b', hb'', hbu', hw'⟩ := within_coalesce hb'
  refine ⟨a, rfl, ?_, b', hb'', hbu'.trans hbu, Within.trans ⟨haddr, hend⟩ hw'⟩
  rw [hflag]
  split
  · rfl
  · exact hused

/-- The pointer that has just been freed. -/
theorem stale_freed {h h' : Heap} {pre post : List Chunk} {c : Chunk}
    (hr : Represents h (pre ++ c :: post)) (hu : c.used = true)
    (hk : kfree (BitVec.ofNat 32 (0x400000 + span 12 pre + 12)) h = some h') :
    Stale h'.mem (coalesce 12 (pre ++ c.clear :: post))
      (BitVec.ofNat 32 (0x400000 + span 12 pre + 12)) := by
  have hc : (⟨0x400000 + span 12 pre, c.size, c.used⟩ : Block) ∈
      layout 12 0x400000 (pre ++ c :: post) := mem_layout.mpr ⟨pre, c, post, rfl, rfl⟩
  have hclear : (⟨0x400000 + span 12 pre, c.size, false⟩ : Block) ∈
      layout 12 0x400000 (pre ++ c.clear :: post) := mem_layout.mpr ⟨pre, c.clear, post, rfl, rfl⟩
  have hw : Within 12 ⟨0x400000 + span 12 pre, 0, false⟩ ⟨0x400000 + span 12 pre, c.size, c.used⟩ :=
    ⟨Or.inl rfl, by dsimp only; omega⟩
  have hbd := layout_bounds hc
  have hfill := hr.fills
  dsimp only at hbd
  have hflag := kfree_blockUsed hr hu hk (within_apart hc hw) (by omega)
  rw [if_pos rfl] at hflag
  obtain ⟨b', hb', hbu', hw'⟩ := within_coalesce hclear
  have hsame : Within 12 ⟨0x400000 + span 12 pre, 0, false⟩ ⟨0x400000 + span 12 pre, c.size, false⟩ :=
    ⟨Or.inl rfl, by dsimp only; omega⟩
  exact ⟨_, rfl, hflag, b', hb', hbu', hsame.trans hw'⟩

/-- Handing out a block writes to its header and to the one behind it. -/
theorem takeBlock_sameOff {h : Heap} {x n : Nat} (hmax : x + 24 + n ≤ 2 ^ 32) :
    SameOff h.mem (takeBlock (BitVec.ofNat 32 n) (BitVec.ofNat 32 x) h).2.mem x (x + 24 + n) := by
  have hnew : BitVec.ofNat 32 x + sizeofHeapBlock + BitVec.ofNat 32 n =
      BitVec.ofNat 32 (x + 12 + n) := by
    rw [sizeofHeapBlock, ofNat_add_ofNat, ofNat_add_ofNat]
  have hused : ∀ m : Mem, SameOff m (setUsed m (BitVec.ofNat 32 x) 1#32) x (x + 24 + n) :=
    fun m => (setUsed_sameOff (by omega)).mono (by omega) (by omega)
  rw [takeBlock]
  dsimp only
  split
  · refine SameOff.trans ?_ (hused _)
    rw [splitBlock, hnew]
    exact ((((((setSize_sameOff (a := x + 12 + n) (by omega)).trans
      (setUsed_sameOff (a := x + 12 + n) (by omega))).trans
      (setNext_sameOff (a := x + 12 + n) (by omega))).mono (by omega) (by omega)).trans
      ((setSize_sameOff (a := x) (by omega)).mono (by omega) (by omega))).trans
      ((setNext_sameOff (a := x) (by omega)).mono (by omega) (by omega)))
  · exact hused _

/-- `kmalloc_cases` with the bytes that a successful call may change. -/
theorem kmalloc_sameOff {h h' : Heap} {cs : List Chunk} (hr : Represents h cs) {size p : Word}
    (hk : kmalloc size h = some (p, h')) (hp : p ≠ 0#32) :
    ∃ pre c post n, cs = pre ++ c :: post ∧ c.used = false ∧ n ≤ c.size ∧
      p = BitVec.ofNat 32 (0x400000 + span 12 pre + 12) ∧
      Represents h' (pre ++ carve 12 4 n c ++ post) ∧
      SameOff h.mem h'.mem (0x400000 + span 12 pre) (0x400000 + span 12 pre + 24 + n) := by
  have hsize : size ≠ 0#32 := by
    rintro rfl
    rw [kmalloc_zero] at hk
    cases hk
    exact hp rfl
  cases hff : firstFit (alignSize size).toNat cs with
  | none =>
    rw [kmalloc_none hr hsize hff] at hk
    cases hk
    exact absurd rfl hp
  | some r =>
    obtain ⟨pre, c, post⟩ := r
    have hwalk := kmalloc_walk hr hsize
    obtain ⟨h'', hk', hrep, _⟩ := kmalloc_some hr hsize hff
    rw [hk'] at hk
    cases hk
    obtain ⟨rfl, ⟨hfree, hfits⟩, _⟩ := firstFit_some hff
    have hfill := hr.fills
    rw [span_append, span] at hfill
    have hoff := takeBlock_sameOff (h := h) (x := 0x400000 + span 12 pre)
      (n := (alignSize size).toNat) (by omega)
    rw [BitVec.ofNat_toNat, BitVec.setWidth_eq] at hoff
    have htake : h' = (takeBlock (alignSize size) (BitVec.ofNat 32 (0x400000 + span 12 pre)) h).2 := by
      rw [hk', hff] at hwalk
      exact congrArg Prod.snd (Option.some.inj hwalk)
    exact ⟨pre, c, post, _, rfl, hfree, hfits, rfl, hrep, htake ▸ hoff⟩

/-- The size of the block that has been handed out is in its header. -/
theorem blockSize_granted {h : Heap} {pre post : List Chunk} {c : Chunk} {n : Nat}
    (hr : Represents h (pre ++ carve 12 4 n c ++ post)) :
    (blockSize h.mem (BitVec.ofNat 32 (0x400000 + span 12 pre))).toNat = granted 12 4 n c := by
  have hb : (⟨0x400000 + span 12 pre, granted 12 4 n c, true⟩ : Block) ∈
      layout 12 0x400000 (pre ++ carve 12 4 n c ++ post) := by
    refine (mem_usedBlocks.mp ?_).1
    rw [usedBlocks_taken]
    exact List.mem_append_right _ List.mem_cons_self
  have hbd := layout_bounds hb
  have hfill := hr.fills
  dsimp only at hbd
  rw [(hr.headers _ hb).size]
  exact toNat_ofNat_of_lt (by dsimp only; omega)

/-- A header that lies in a free block and outside of what has been taken from it lies
in a free block again. -/
theorem within_carve {pre post : List Chunk} {c : Chunk} {n a : Nat} {b : Block}
    (hb : b ∈ layout 12 0x400000 (pre ++ c :: post)) (hbu : b.used = false)
    (hw : Within 12 ⟨a, 0, false⟩ b)
    (hspare : a + 12 ≤ 0x400000 + span 12 pre ∨
      0x400000 + span 12 pre + 24 + granted 12 4 n c ≤ a) :
    ∃ b' ∈ layout 12 0x400000 (pre ++ carve 12 4 n c ++ post), b'.used = false ∧
      Within 12 ⟨a, 0, false⟩ b' := by
  have hold : (⟨0x400000 + span 12 pre, c.size, c.used⟩ : Block) ∈
      layout 12 0x400000 (pre ++ c :: post) := mem_layout.mpr ⟨pre, c, post, rfl, rfl⟩
  rw [layout_append, layout_append, span_append, span_carve, ← Nat.add_assoc, ← Nat.add_assoc]
  rw [layout_append, layout, List.mem_append, List.mem_cons] at hb
  rcases hb with hb | rfl | hb
  · exact ⟨b, List.mem_append_left _ (List.mem_append_left _ hb), hbu, hw⟩
  · obtain ⟨haddr, hend⟩ := hw
    dsimp only at haddr hend
    -- only a split leaves room behind what has been taken
    unfold granted at hspare
    unfold carve
    split at hspare
    · next hsplit =>
      rw [if_pos hsplit]
      refine ⟨⟨0x400000 + span 12 pre + 12 + n, c.size - n - 12, false⟩, ?_, rfl, Or.inr ?_, ?_⟩
      · simp only [layout]
        exact List.mem_append_left _ (List.mem_append_right _ (List.mem_cons_of_mem _
          List.mem_cons_self))
      · dsimp only
        omega
      · dsimp only
        omega
    · omega
  · exact ⟨b, List.mem_append_right _ hb, hbu, hw⟩

/-- An allocation that spares a stale header leaves it in a free block. -/
theorem Stale.kmalloc {h h' : Heap} {cs cs' : List Chunk} (hr : Represents h cs) {size p q : Word}
    (hk : kmalloc size h = some (p, h')) (hp : p ≠ 0#32) (hr' : Represents h' cs')
    (hq : Stale h.mem cs q) (hspare : Spared h' p q) : Stale h'.mem cs' q := by
  obtain ⟨pre, c, post, n, rfl, hfree, hn, rfl, hrep, hoff⟩ := kmalloc_sameOff hr hk hp
  obtain rfl := hr'.unique hrep
  obtain ⟨a, rfl, hused, b, hb, hbu, hw⟩ := hq
  have hbd := layout_bounds hb
  have hfill := hr.fills
  obtain ⟨haddr, hend⟩ := hw
  dsimp only at haddr hend
  rw [span_append, span] at hfill hbd
  rw [Spared, header_of_pointer, blockSize_granted hrep, toNat_ofNat_of_lt (by omega),
    toNat_ofNat_of_lt (by omega)] at hspare
  have hle : n ≤ granted 12 4 n c := le_granted hn
  refine ⟨a, rfl, ?_, within_carve hb hbu ⟨haddr, hend⟩ (by omega)⟩
  rw [blockUsed_congr (hoff.sameOn (by omega)) (by omega)]
  exact hused

theorem Stale.write {h : Heap} {cs : List Chunk} {m : Mem} {q : Word} (hr : Represents h cs)
    (hm : KeepsFree h m) (hq : Stale h.mem cs q) : Stale m cs q := by
  obtain ⟨a, rfl, hused, b, hb, hbu, hw⟩ := hq
  have hbd := layout_bounds hb
  have hfill := hr.fills
  have hkeep := (hm _ hr.invariant.list b hb).2 hbu
  refine ⟨a, rfl, ?_, b, hb, hbu, hw⟩
  obtain ⟨haddr, hend⟩ := hw
  dsimp only at haddr hend
  rw [blockUsed_congr (hkeep.mono (by omega) (by omega)) (by omega)]
  exact hused

/-- Every step keeps the invariant. -/
theorem freeStep_invariant {s t : FreeRun} {op : HeapOp} {cs : List Chunk}
    (hs : FreeInvariant s cs) (hst : FreeStep s op t) : ∃ cs', FreeInvariant t cs' := by
  cases hst with
  | kmalloc hk =>
    obtain ⟨cs', hrun, _⟩ := kmalloc_run hs.run hk
    refine ⟨cs', hrun, ?_⟩
    split
    · next hnull =>
      -- a failed call changes nothing
      rcases kmalloc_cases hs.run.heap hk with ⟨_, rfl, _⟩ | ⟨_, _, _, _, _, _, _, hp, _⟩
      · obtain rfl := hrun.heap.unique hs.run.heap
        exact hs.stale
      · exact absurd hnull hp
    · next hp =>
      intro q hq
      obtain ⟨hq, hspare⟩ := List.mem_filter.mp hq
      exact (hs.stale q hq).kmalloc hs.run.heap hk hp hrun.heap (of_decide_eq_true hspare)
  | @kfree p size h' hp hk =>
    obtain ⟨h'', cs', hk', hrun, _⟩ := kfree_run hs.run hp
    rw [hk'] at hk
    cases hk
    obtain ⟨pre, c, post, rfl, hu, rfl⟩ := hs.run.chunk hp
    obtain ⟨h'', hk, hrep, _⟩ := kfree_spec hs.run.heap hu
    rw [hk'] at hk
    cases hk
    obtain rfl := hrun.heap.unique hrep
    refine ⟨_, hrun, fun q hq => ?_⟩
    cases List.mem_cons.mp hq with
    | inl heq =>
      rw [heq]
      exact stale_freed hs.run.heap hu hk'
    | inr hmem => exact (hs.stale q hmem).kfree hs.run.heap hu hk'
  | again hp hk =>
    rw [kfree_stale hs.run.heap (hs.stale _ hp)] at hk
    cases hk
    exact ⟨cs, hs⟩
  | write hm =>
    refine ⟨cs, write_run hs.run fun bs hbs b hb => (hm bs hbs b hb).1, fun q hq => ?_⟩
    exact (hs.stale q hq).write hs.run.heap hm

theorem free_invariant {s : FreeRun} (h : freeSystem.Reachable s) : ∃ cs, FreeInvariant s cs := by
  refine h.invariant (P := fun s => ∃ cs, FreeInvariant s cs) ?_ ?_
  · rintro s ⟨m, rfl⟩
    exact ⟨_, init_run ⟨m, rfl⟩, fun q hq => absurd hq List.not_mem_nil⟩
  · rintro s op t _ ⟨cs, hs⟩ hst
    exact freeStep_invariant hs hst

/-! ## Double frees -/

/-- A call of `kfree`. -/
def IsKfree : HeapOp → Prop
  | .kfree _ => True
  | _ => False

/-- Calls of `kfree` forget no freed pointer. -/
theorem freed_kept {s t : FreeRun} {ops : List HeapOp} (hrun : freeSystem.Run s ops t)
    (hops : ∀ op ∈ ops, IsKfree op) {p : Word} (hp : p ∈ s.freed) : p ∈ t.freed := by
  induction hrun with
  | nil => exact hp
  | cons hst _ ih =>
    obtain ⟨hop, hops⟩ := List.forall_mem_cons.mp hops
    refine ih hops ?_
    cases hst with
    | kmalloc hk => exact absurd hop id
    | kfree hq hk => exact List.mem_cons_of_mem _ hp
    | again hq hk => exact hp
    | write hm => exact absurd hop id

/-- After `kfree(p)` and any calls of `kfree` on live or freed pointers, another
`kfree(p)` returns with the heap as it is: memory, and with it the block list and all
headers, and `heap_used`. None of the calls in between can fail to return. -/
theorem kfree_again {s : FreeRun} (h : freeSystem.Reachable s) {p size : Word}
    (hp : (p, size) ∈ s.live) :
    ∃ h₁, kfree p s.heap = some h₁ ∧ ∀ ops t,
      freeSystem.Run ⟨h₁, s.live.erase (p, size), p :: s.freed⟩ ops t →
      (∀ op ∈ ops, IsKfree op) →
      kfree p t.heap = some t.heap ∧
        ∀ q, q ∈ t.freed ∨ q ∈ t.live.map Prod.fst → ∃ h₂, kfree q t.heap = some h₂ := by
  obtain ⟨cs, hs⟩ := free_invariant h
  obtain ⟨h₁, _, hk, _⟩ := kfree_run hs.run hp
  refine ⟨h₁, hk, fun ops t hrun hops => ?_⟩
  obtain ⟨ds, ht⟩ := free_invariant ((h.step (FreeStep.kfree hp hk)).run hrun)
  have hmem := freed_kept hrun hops List.mem_cons_self
  refine ⟨kfree_stale ht.run.heap (ht.stale p hmem), ?_⟩
  rintro q (hq | hq)
  · exact ⟨_, kfree_stale ht.run.heap (ht.stale q hq)⟩
  · obtain ⟨⟨_, n⟩, hlive, rfl⟩ := List.mem_map.mp hq
    obtain ⟨h₂, _, hk₂, _⟩ := kfree_run ht.run hlive
    exact ⟨h₂, hk₂⟩

/-- Two blocks of one word: the second is freed, which merges it with the rest, then the
first, which swallows it, then the second again. -/
theorem kfree_again_fresh : ∃ h₁ h₂ h₃ h₄,
    kmalloc 4#32 (heapInit fun _ => 0#8) = some (0x40000C#32, h₁) ∧
      kmalloc 4#32 h₁ = some (0x40001C#32, h₂) ∧ kfree 0x40001C#32 h₂ = some h₃ ∧
      kfree 0x40000C#32 h₃ = some h₄ ∧ kfree 0x40001C#32 h₄ = some h₄ := by
  have hfresh : freeSystem.Reachable ⟨heapInit fun _ => 0#8, [], []⟩ := .init ⟨_, rfl⟩
  obtain ⟨h₁, h₂, hk₁, _, _, hk₂, _⟩ := fresh_twoWords
  have hone : freeSystem.Reachable ⟨h₁, [(0x40000C#32, 4#32)], []⟩ :=
    hfresh.step (FreeStep.kmalloc (p := 0x40000C#32) hk₁)
  have hreach : freeSystem.Reachable ⟨h₂, [(0x40001C#32, 4#32), (0x40000C#32, 4#32)], []⟩ :=
    hone.step (FreeStep.kmalloc (p := 0x40001C#32) hk₂)
  obtain ⟨h₃, hk₃, hagain⟩ := kfree_again hreach List.mem_cons_self
  obtain ⟨_, hcalls⟩ := hagain [] _ .nil (fun _ h => absurd h List.not_mem_nil)
  obtain ⟨h₄, hk₄⟩ := hcalls 0x40000C#32 (Or.inr (List.mem_map.mpr ⟨(0x40000C#32, 4#32),
    List.mem_cons_self, rfl⟩))
  have hlive : (0x40000C#32, 4#32) ∈ [((0x40000C#32 : Word), (4#32 : Word))] := List.mem_cons_self
  have hrun := TransitionSystem.Run.cons (S := freeSystem) (FreeStep.kfree hlive hk₄) .nil
  have hops : ∀ op ∈ [HeapOp.kfree 0x40000C#32], IsKfree op := by
    intro op hop
    rw [List.mem_singleton.mp hop]
    trivial
  exact ⟨h₁, h₂, h₃, h₄, hk₁, hk₂, hk₃, hk₄, (hagain _ _ hrun hops).1⟩

end Zenix
