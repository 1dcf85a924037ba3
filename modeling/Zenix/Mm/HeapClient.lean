import Zenix.Mm.HeapSafety

/-!
# What a client of the heap relies on

`Owns h bs` says that `bs` are the used blocks of a well-formed heap. The clients
may write to the payloads of these blocks and to all memory outside the window;
the allocator writes to neither.

Results:
1. `Owns.kmalloc`: an allocation adds a block, or fails and changes nothing.
2. `Owns.kfree`: a release of a used block returns and removes the block.
3. `Owns.write`: writes to client memory keep the heap as it is.
4. `Owns.kmallocFill`: an allocation whose memory is filled in at once.
-/

namespace Zenix
open ByteMemory FirstFit

/-- A byte outside the window or in the payload of one of the blocks. -/
def ClientByte (bs : List Block) (x : Word) : Prop :=
  x.toNat < 0x400000 ∨ 0x800000 ≤ x.toNat ∨
    ∃ b ∈ bs, b.addr + 12 ≤ x.toNat ∧ x.toNat < b.addr + 12 + b.size

/-- The bytes of the clients are unchanged. -/
def Kept (bs : List Block) (m m' : Mem) : Prop := ∀ x, ClientByte bs x → m' x = m x

/-- The used blocks of the heap, in any order. -/
def Owns (h : Heap) (bs : List Block) : Prop :=
  ∃ cs, Represents h cs ∧ (usedBlocks 12 0x400000 cs).Perm bs

theorem Kept.refl (bs : List Block) (m : Mem) : Kept bs m m := fun _ _ => rfl

theorem Kept.trans {bs : List Block} {m₁ m₂ m₃ : Mem} (h₁ : Kept bs m₁ m₂) (h₂ : Kept bs m₂ m₃) :
    Kept bs m₁ m₃ :=
  fun x hx => (h₂ x hx).trans (h₁ x hx)

theorem ClientByte.mono {bs bs' : List Block} {x : Word} (h : ClientByte bs x)
    (hsub : ∀ b ∈ bs, b ∈ bs') : ClientByte bs' x := by
  rcases h with h | h | ⟨b, hb, h⟩
  · exact Or.inl h
  · exact Or.inr (Or.inl h)
  · exact Or.inr (Or.inr ⟨b, hsub b hb, h⟩)

theorem Kept.mono {bs bs' : List Block} {m m' : Mem} (h : Kept bs' m m')
    (hsub : ∀ b ∈ bs, b ∈ bs') : Kept bs m m' :=
  fun x hx => h x (hx.mono hsub)

theorem Owns.perm {h : Heap} {bs bs' : List Block} (ho : Owns h bs) (hp : bs.Perm bs') :
    Owns h bs' := by
  obtain ⟨cs, hr, hperm⟩ := ho
  exact ⟨cs, hr, hperm.trans hp⟩

theorem Represents.owns {h : Heap} {cs : List Chunk} (hr : Represents h cs) :
    Owns h (usedBlocks 12 0x400000 cs) :=
  ⟨cs, hr, List.Perm.refl _⟩

theorem heapInit_owns (m : Mem) : Owns (heapInit m) [] := (heapInit_represents m).owns

theorem Kept.sameOn {bs : List Block} {b : Block} {m m' : Mem} (h : Kept bs m m') (hb : b ∈ bs) :
    SameOn m m' (b.addr + 12) (b.addr + 12 + b.size) :=
  fun x hlo hhi => h x (Or.inr (Or.inr ⟨b, hb, hlo, hhi⟩))

theorem Owns.kmalloc_total {h : Heap} {bs : List Block} (ho : Owns h bs) (n : Word) :
    ∃ p h', Zenix.kmalloc n h = some (p, h') := by
  obtain ⟨cs, hr, _⟩ := ho
  exact Zenix.kmalloc_total hr n

/-! ## The blocks -/

theorem Owns.mem_layout {h : Heap} {bs : List Block} (ho : Owns h bs) :
    ∃ cs, Represents h cs ∧ (usedBlocks 12 0x400000 cs).Perm bs ∧
      ∀ b ∈ bs, b ∈ layout 12 0x400000 cs := by
  obtain ⟨cs, hr, hperm⟩ := ho
  exact ⟨cs, hr, hperm, fun b hb => (mem_usedBlocks.mp (hperm.mem_iff.mpr hb)).1⟩

theorem Owns.bounds {h : Heap} {bs : List Block} (ho : Owns h bs) {b : Block} (hb : b ∈ bs) :
    0x400000 ≤ b.addr ∧ b.addr + 12 + b.size ≤ 0x800000 := by
  obtain ⟨cs, hr, _, hlay⟩ := ho.mem_layout
  have hbd := layout_bounds (hlay b hb)
  have hfill := hr.fills
  omega

theorem Owns.payload_toNat {h : Heap} {bs : List Block} (ho : Owns h bs) {b : Block} (hb : b ∈ bs) :
    (payload b).toNat = b.addr + 12 := by
  have hbd := ho.bounds hb
  exact toNat_ofNat_of_lt (by omega)

theorem Owns.payload_ne_zero {h : Heap} {bs : List Block} (ho : Owns h bs) {b : Block}
    (hb : b ∈ bs) : payload b ≠ 0#32 := by
  have hbd := ho.bounds hb
  exact ofNat_ne_zero (by omega) (by omega)

theorem Owns.payload_inj {h : Heap} {bs : List Block} (ho : Owns h bs) {b c : Block} (hb : b ∈ bs)
    (hc : c ∈ bs) (heq : payload b = payload c) : b = c := by
  obtain ⟨cs, hr, _, hlay⟩ := ho.mem_layout
  exact Zenix.payload_inj hr (hlay b hb) (hlay c hc) heq

theorem Owns.nodup {h : Heap} {bs : List Block} (ho : Owns h bs) : bs.Nodup := by
  obtain ⟨cs, _, hperm⟩ := ho
  exact hperm.nodup_iff.mp (usedBlocks_nodup cs)

theorem Owns.disjoint {h : Heap} {bs : List Block} (ho : Owns h bs) {b c : Block} (hb : b ∈ bs)
    (hc : c ∈ bs) (hne : b ≠ c) :
    b.addr + 12 + b.size ≤ c.addr ∨ c.addr + 12 + c.size ≤ b.addr := by
  obtain ⟨cs, _, _, hlay⟩ := ho.mem_layout
  exact layout_disjoint (hlay b hb) (hlay c hc) hne

/-- A field of a record in the payload of a block is client memory. -/
theorem Owns.load_kept {h : Heap} {bs kept : List Block} (ho : Owns h bs) {b : Block} (hb : b ∈ bs)
    {m : Mem} (hk : Kept kept h.mem m) (hkept : b ∈ kept) {k : Nat} (hsize : k + 4 ≤ b.size) :
    load32 m (payload b + BitVec.ofNat 32 k) = load32 h.mem (payload b + BitVec.ofNat 32 k) := by
  have hpay := ho.payload_toNat hb
  have hbd := ho.bounds hb
  have haddr : (payload b + BitVec.ofNat 32 k).toNat = (payload b).toNat + k :=
    toNat_add_ofNat (by omega)
  exact load32_congr (hk.sameOn hkept) (by omega) (by omega) (by omega)

/-- Client memory lies outside every header. -/
theorem clientByte_off_header {cs : List Chunk} {bs : List Block}
    (hfill : 0x400000 + span 12 cs = 0x800000) (hlay : ∀ b ∈ bs, b ∈ layout 12 0x400000 cs)
    {x : Word} (hx : ClientByte bs x) {b : Block} (hb : b ∈ layout 12 0x400000 cs) :
    x.toNat < b.addr ∨ b.addr + 12 ≤ x.toNat := by
  have hbd := layout_bounds hb
  rcases hx with hx | hx | ⟨c, hc, hlo, hhi⟩
  · omega
  · omega
  · rcases Decidable.em (c = b) with rfl | hne
    · exact Or.inr hlo
    · have hd := layout_disjoint (hlay c hc) hb hne
      omega

/-! ## The operations -/

theorem Owns.write {h : Heap} {bs : List Block} (ho : Owns h bs) {m : Mem}
    (hm : ∀ x, ¬ ClientByte bs x → m x = h.mem x) : Owns { h with mem := m } bs := by
  obtain ⟨cs, hr, hperm, hlay⟩ := ho.mem_layout
  refine ⟨cs, hr.write fun b hb x hlo hhi => hm x fun hx => ?_, hperm⟩
  have hoff := clientByte_off_header hr.fills hlay hx hb
  omega

/-- An allocation fails and changes nothing, or it adds a block of sufficient
size. -/
theorem Owns.kmalloc {h h' : Heap} {bs : List Block} (ho : Owns h bs) {n p : Word}
    (hk : kmalloc n h = some (p, h')) :
    (p = 0#32 ∧ h' = h) ∨
      ∃ b, p ≠ 0#32 ∧ p = payload b ∧ (n.toNat ≤ 0xFFFFFFFC → n.toNat ≤ b.size) ∧ b ∉ bs ∧
        Owns h' (b :: bs) ∧ Kept bs h.mem h'.mem := by
  obtain ⟨cs, hr, hperm, hlay⟩ := ho.mem_layout
  rcases kmalloc_cases hr hk with
    ⟨hp, rfl, _⟩ | ⟨pre, c, post, rfl, hfree, hfits, _, hp, hpa, hrep, hoff⟩
  · exact Or.inl ⟨hp, rfl⟩
  · right
    have hold := usedBlocks_middle_free pre post hfree
    have hnew := usedBlocks_taken pre post c (alignSize n).toNat
    have hc : (⟨0x400000 + span 12 pre, c.size, c.used⟩ : Block) ∈
        layout 12 0x400000 (pre ++ c :: post) := FirstFit.mem_layout.mpr ⟨pre, c, post, rfl, rfl⟩
    have hown : Owns h' (⟨0x400000 + span 12 pre, granted 12 4 (alignSize n).toNat c, true⟩ :: bs) := by
      refine ⟨_, hrep, ?_⟩
      rw [hnew]
      rw [hold] at hperm
      exact List.perm_middle.trans (hperm.cons _)
    refine ⟨_, hp, ?_, fun hn => (le_alignSize hn).trans (le_granted hfits), ?_, hown, ?_⟩
    · rw [payload, ← hpa, BitVec.ofNat_toNat, BitVec.setWidth_eq]
    · -- the chunk was free, so no used block had its address
      intro hb
      have hne : (⟨0x400000 + span 12 pre, granted 12 4 (alignSize n).toNat c, true⟩ : Block) ≠
          ⟨0x400000 + span 12 pre, c.size, c.used⟩ := by
        rw [hfree]
        simp
      have hd := layout_disjoint (hlay _ hb) hc hne
      dsimp only at hd
      omega
    · intro x hx
      apply hoff
      rcases hx with hx | hx | ⟨b, hb, hlo, hhi⟩
      · omega
      · have hfill := hr.fills
        rw [span_append, span] at hfill
        omega
      · have hu := (mem_usedBlocks.mp (hperm.mem_iff.mpr hb)).2
        have hne : b ≠ ⟨0x400000 + span 12 pre, c.size, c.used⟩ := by
          rintro rfl
          rw [hfree] at hu
          cases hu
        have hd := layout_disjoint (hlay b hb) hc hne
        dsimp only at hd
        omega

theorem Owns.kfree {h : Heap} {bs : List Block} (ho : Owns h bs) {b : Block} (hb : b ∈ bs) :
    ∃ h', kfree (payload b) h = some h' ∧ Owns h' (bs.erase b) ∧ Kept bs h.mem h'.mem := by
  obtain ⟨cs, hr, hperm, hlay⟩ := ho.mem_layout
  obtain ⟨hbl, hu⟩ := mem_usedBlocks.mp (hperm.mem_iff.mpr hb)
  obtain ⟨pre, c, post, rfl, rfl⟩ := FirstFit.mem_layout.mp hbl
  obtain ⟨h', hk, hrep, hsame⟩ := kfree_spec hr hu
  refine ⟨h', hk, ⟨_, hrep, ?_⟩, ?_⟩
  · rw [usedBlocks_coalesce, usedBlocks_middle_free _ _ rfl]
    rw [usedBlocks_middle _ _ hu] at hperm
    have herase := (List.perm_middle.symm.trans hperm).erase
      (⟨0x400000 + span 12 pre, c.size, true⟩ : Block)
    rw [List.erase_cons_head] at herase
    rw [show c.used = true from hu]
    exact herase
  · intro x hx
    exact hsame x fun d hd => clientByte_off_header hr.fills hlay hx hd

/-- A record inside the payload of a block is client memory. -/
theorem clientByte_of_payload {h : Heap} {bs : List Block} {b : Block} (ho : Owns h bs) (hb : b ∈ bs)
    {n : Nat} (hn : n ≤ b.size) {x : Word} (hlo : (payload b).toNat ≤ x.toNat)
    (hhi : x.toNat < (payload b).toNat + n) : ClientByte bs x := by
  rw [ho.payload_toNat hb] at hlo hhi
  exact Or.inr (Or.inr ⟨b, hb, hlo, by omega⟩)

theorem Owns.writeAt {h : Heap} {bs : List Block} {b : Block} (ho : Owns h bs) (hb : b ∈ bs)
    {n : Nat} (hn : n ≤ b.size) {m : Mem}
    (hm : SameOff h.mem m (payload b).toNat ((payload b).toNat + n)) :
    Owns { h with mem := m } bs := by
  refine ho.write fun x hx => hm x ?_
  cases Nat.lt_or_ge x.toNat (payload b).toNat with
  | inl hlo =>
    exact Or.inl hlo
  | inr hlo =>
    cases Nat.lt_or_ge x.toNat ((payload b).toNat + n) with
    | inl hhi =>
      exact absurd (clientByte_of_payload ho hb hn hlo hhi) hx
    | inr hhi =>
      exact Or.inr hhi

/-- The payload of one block and the memory of the clients of other blocks do not
meet. -/
theorem clientByte_off_block {h : Heap} {bs bs' : List Block} {b : Block} (ho : Owns h bs')
    (hb : b ∈ bs') (hsub : ∀ c ∈ bs, c ∈ bs') (hnew : b ∉ bs) {n : Nat} (hn : n ≤ b.size) {x : Word}
    (hx : ClientByte bs x) : x.toNat < (payload b).toNat ∨ (payload b).toNat + n ≤ x.toNat := by
  have hpay := ho.payload_toNat hb
  have hbd := ho.bounds hb
  rcases hx with hx | hx | ⟨c, hc, hlo, hhi⟩
  · omega
  · omega
  · have hne : b ≠ c := fun h => hnew (h ▸ hc)
    have hd := ho.disjoint hb (hsub c hc) hne
    omega

theorem clientByte_off_payload {h : Heap} {bs : List Block} {b : Block} (ho : Owns h (b :: bs))
    (hnew : b ∉ bs) {n : Nat} (hn : n ≤ b.size) {x : Word} (hx : ClientByte bs x) :
    x.toNat < (payload b).toNat ∨ (payload b).toNat + n ≤ x.toNat :=
  clientByte_off_block ho List.mem_cons_self (fun _ hc => List.mem_cons_of_mem _ hc) hnew hn hx

/-- Writes to the payload of a block keep the heap, and leave the other blocks as
they are. -/
theorem Owns.writePayload {h : Heap} {bs : List Block} {b : Block} (ho : Owns h (b :: bs))
    (hnew : b ∉ bs) {n : Nat} (hn : n ≤ b.size) {m : Mem}
    (hm : SameOff h.mem m (payload b).toNat ((payload b).toNat + n)) :
    Owns { h with mem := m } (b :: bs) ∧ Kept bs h.mem m :=
  ⟨ho.writeAt List.mem_cons_self hn hm,
    fun x hx => hm x (clientByte_off_payload ho hnew hn hx)⟩

/-- An allocation of `n` bytes that are filled in at once. -/
theorem Owns.kmallocFill {h h' : Heap} {bs : List Block} (ho : Owns h bs) {n p : Word}
    (hn : n.toNat ≤ 0xFFFFFFFC) {fill : Mem → Word → Mem}
    (hfill : ∀ m p, p.toNat + n.toNat ≤ 2 ^ 32 →
      SameOff m (fill m p) p.toNat (p.toNat + n.toNat))
    (hk : Zenix.kmalloc n h = some (p, h')) :
    (p = 0#32 ∧ h' = h) ∨
      ∃ b, p ≠ 0#32 ∧ p = payload b ∧ n.toNat ≤ b.size ∧ b ∉ bs ∧
        Owns { h' with mem := fill h'.mem p } (b :: bs) ∧ Kept bs h.mem (fill h'.mem p) := by
  cases ho.kmalloc hk with
  | inl hnull => exact Or.inl hnull
  | inr hblock =>
    obtain ⟨b, hp, rfl, hsize, hnew, ho', hkept⟩ := hblock
    have hbd := ho'.bounds List.mem_cons_self
    have hpay := ho'.payload_toNat List.mem_cons_self
    have hroom := hsize hn
    obtain ⟨ho'', hkept'⟩ := ho'.writePayload hnew hroom (hfill h'.mem (payload b) (by omega))
    exact Or.inr ⟨b, hp, rfl, hroom, hnew, ho'', hkept.trans hkept'⟩

/-- An allocation from the free chunk at the end of the window, and a write to
the memory it returns. -/
theorem kmalloc_last {h : Heap} (cs : List Chunk) {c : Chunk} (hr : Represents h (cs ++ [c]))
    {n : Word} (hn : n ≠ 0#32) (hff : firstFit (alignSize n).toNat (cs ++ [c]) = some (cs, c, []))
    (hsplit : (alignSize n).toNat + 12 + 4 < c.size) :
    ∃ p h', kmalloc n h = some (p, h') ∧ p ≠ 0#32 ∧
      p.toNat + (alignSize n).toNat ≤ 2 ^ 32 ∧
      ∀ m, SameOff h'.mem m p.toNat (p.toNat + (alignSize n).toNat) →
        Represents { h' with mem := m }
          (cs ++ [⟨(alignSize n).toNat, true⟩] ++ [⟨c.size - (alignSize n).toNat - 12, false⟩]) := by
  have hfill := hr.fills
  rw [span_append, span, span] at hfill
  obtain ⟨h', hk, hrep, _⟩ := kmalloc_some hr hn hff
  have hpa : (BitVec.ofNat 32 (0x400000 + span 12 cs + 12)).toNat = 0x400000 + span 12 cs + 12 :=
    toNat_ofNat_of_lt (by omega)
  refine ⟨_, h', hk, ofNat_ne_zero (by omega) (by omega), by omega, fun m hm => ?_⟩
  rw [carve, if_pos hsplit, List.append_nil] at hrep
  rw [List.append_assoc]
  refine hrep.write fun b hb => hm.sameOn ?_
  rw [layout_append, List.mem_append] at hb
  cases hb with
  | inl hb =>
    have hbd := layout_bounds hb
    omega
  | inr hb =>
    simp only [layout, List.mem_cons, List.not_mem_nil, or_false] at hb
    rcases hb with rfl | rfl <;> dsimp only <;> omega

end Zenix
