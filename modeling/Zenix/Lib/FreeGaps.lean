import Zenix.Lib.FirstFit

/-!
# The gaps between used chunks

In a coalesced chunk list the free chunks are the maximal gaps between the used
ones. So the used chunks and the length of the range determine the list.

Results:
1. `Gap.eq_of_mem`: two gaps that share an address are the same.
2. `gap_iff_free`: the gaps between the used blocks of a coalesced list are its
   free chunks.
3. `firstFit_gap`, `firstFit_no_gap`: first fit finds the lowest gap that is large
   enough, or there is none.
4. `coalesced_ext`: two coalesced lists with the same span and the same used
   blocks are equal.
-/

namespace FirstFit

/-! ## Intervals without an occupied address -/

/-- `[lo, hi)` is a nonempty part of `[a, e)`, and no address in it is occupied. -/
structure Vacant (occ : Nat → Prop) (a e lo hi : Nat) : Prop where
  inside : a ≤ lo ∧ hi ≤ e
  nonempty : lo < hi
  vacant : ∀ x, lo ≤ x → x < hi → ¬ occ x

/-- A vacant interval that no other one contains. -/
structure Gap (occ : Nat → Prop) (a e lo hi : Nat) : Prop extends Vacant occ a e lo hi where
  maximal : ∀ lo' hi', Vacant occ a e lo' hi' → lo' ≤ lo → hi ≤ hi' → lo' = lo ∧ hi' = hi

section Gaps
variable {occ : Nat → Prop} {a e lo hi lo' hi' x : Nat}

/-- Two vacant intervals that share an address form one. -/
theorem Vacant.union (h : Vacant occ a e lo hi) (h' : Vacant occ a e lo' hi') (hlo : lo ≤ x)
    (hhi : x < hi) (hlo' : lo' ≤ x) (hhi' : x < hi') :
    Vacant occ a e (min lo lo') (max hi hi') := by
  have hin := h.inside
  have hin' := h'.inside
  refine ⟨by omega, by omega, fun y hy hy' => ?_⟩
  cases Decidable.em (lo ≤ y ∧ y < hi) with
  | inl hmem => exact h.vacant y hmem.1 hmem.2
  | inr hout => exact h'.vacant y (by omega) (by omega)

theorem Gap.eq_of_mem (h : Gap occ a e lo hi) (h' : Gap occ a e lo' hi') (hlo : lo ≤ x)
    (hhi : x < hi) (hlo' : lo' ≤ x) (hhi' : x < hi') : lo = lo' ∧ hi = hi' := by
  have hunion := h.toVacant.union h'.toVacant hlo hhi hlo' hhi'
  obtain ⟨hl, hr⟩ := h.maximal _ _ hunion (by omega) (by omega)
  obtain ⟨hl', hr'⟩ := h'.maximal _ _ hunion (by omega) (by omega)
  omega

/-- A vacant interval with an occupied address, or an end of the range, on either
side. -/
theorem Vacant.gap (h : Vacant occ a e lo hi) (hleft : lo = a ∨ occ (lo - 1))
    (hright : hi = e ∨ occ hi) : Gap occ a e lo hi := by
  refine ⟨h, fun lo' hi' h' hlo hhi => ?_⟩
  have hin := h'.inside
  have hne := h.nonempty
  constructor
  · by_contra hdiff
    cases hleft with
    | inl hstart => omega
    | inr hocc => exact h'.vacant (lo - 1) (by omega) (by omega) hocc
  · by_contra hdiff
    cases hright with
    | inl hend => omega
    | inr hocc => exact h'.vacant hi (by omega) (by omega) hocc

end Gaps

/-! ## The gaps of a chunk list -/

/-- The addresses of the used blocks, headers included. -/
def Occupied (hd a : Nat) (cs : List Chunk) (x : Nat) : Prop :=
  ∃ b ∈ usedBlocks hd a cs, b.addr ≤ x ∧ x < b.addr + hd + b.size

/-- `[lo, hi)` is a free chunk of `cs`, header included. -/
def FreeChunk (hd a : Nat) (cs : List Chunk) (lo hi : Nat) : Prop :=
  ∃ pre c post, cs = pre ++ c :: post ∧ c.used = false ∧ lo = a + span hd pre ∧
    hi = lo + hd + c.size

section Chunks
variable {hd a : Nat} {cs : List Chunk}

theorem occupied_of_used {pre post : List Chunk} {c : Chunk} {x : Nat} (hu : c.used = true)
    (hlo : a + span hd pre ≤ x) (hhi : x < a + span hd pre + hd + c.size) :
    Occupied hd a (pre ++ c :: post) x := by
  refine ⟨⟨a + span hd pre, c.size, c.used⟩, ?_, hlo, hhi⟩
  exact List.mem_filter.mpr ⟨mem_layout.mpr ⟨pre, c, post, rfl, rfl⟩, hu⟩

/-- Every address of the range is in some chunk. -/
theorem exists_chunk {x : Nat} (hlo : a ≤ x) (hhi : x < a + span hd cs) :
    ∃ pre c post, cs = pre ++ c :: post ∧ a + span hd pre ≤ x ∧
      x < a + span hd pre + hd + c.size := by
  induction cs generalizing a with
  | nil =>
    unfold span at hhi
    omega
  | cons c cs ih =>
    unfold span at hhi
    cases Nat.lt_or_ge x (a + hd + c.size) with
    | inl hin => exact ⟨[], c, cs, rfl, hlo, hin⟩
    | inr hout =>
      obtain ⟨pre, d, post, rfl, hl, hr⟩ := ih (a := a + hd + c.size) hout (by omega)
      refine ⟨c :: pre, d, post, rfl, ?_, ?_⟩
      · unfold span
        omega
      · unfold span
        omega

theorem FreeChunk.gap (hhd : 0 < hd) (hcs : Coalesced cs) {lo hi : Nat}
    (h : FreeChunk hd a cs lo hi) : Gap (Occupied hd a cs) a (a + span hd cs) lo hi := by
  obtain ⟨pre, c, post, rfl, hfree, rfl, rfl⟩ := h
  have hspan : span hd (pre ++ c :: post) = span hd pre + (hd + c.size + span hd post) := by
    rw [span_append, span]
  refine Vacant.gap ⟨by omega, by omega, ?_⟩ ?_ ?_
  · rintro x hlo hhi ⟨b, hb, hbl, hbr⟩
    obtain ⟨hlay, hu⟩ := List.mem_filter.mp hb
    have hne : b ≠ ⟨a + span hd pre, c.size, c.used⟩ := by
      rintro rfl
      rw [hfree] at hu
      cases hu
    have hoff := layout_disjoint hlay (mem_layout.mpr ⟨pre, c, post, rfl, rfl⟩) hne
    dsimp only at hoff
    omega
  · -- the chunk before it is used
    rcases List.eq_nil_or_concat pre with rfl | ⟨pre', p, rfl⟩
    · exact Or.inl rfl
    · right
      rw [List.concat_eq_append, List.append_assoc, List.singleton_append] at hcs ⊢
      obtain ⟨hpc, _⟩ := List.isChain_cons_cons.mp (List.isChain_split.mp hcs).2
      have hp : p.used = true := hpc.resolve_right (by simp [hfree])
      have hlast : span hd (pre' ++ [p]) = span hd pre' + (hd + p.size) := by
        rw [span_append, span, span, Nat.add_zero]
      exact occupied_of_used hp (by omega) (by omega)
  · -- and so is the chunk after it
    cases post with
    | nil =>
      left
      rw [hspan, span]
      omega
    | cons d ds =>
      right
      obtain ⟨hcd, _⟩ := List.isChain_cons_cons.mp (List.isChain_split.mp hcs).2
      have hdu : d.used = true := hcd.resolve_left (by simp [hfree])
      have hpre : span hd (pre ++ [c]) = span hd pre + (hd + c.size) := by
        rw [span_append, span, span, Nat.add_zero]
      rw [show pre ++ c :: d :: ds = pre ++ [c] ++ d :: ds by simp]
      exact occupied_of_used hdu (by omega) (by omega)

theorem gap_iff_free (hhd : 0 < hd) (hcs : Coalesced cs) {lo hi : Nat} :
    Gap (Occupied hd a cs) a (a + span hd cs) lo hi ↔ FreeChunk hd a cs lo hi := by
  constructor
  · intro h
    have hin := h.inside
    have hne := h.nonempty
    obtain ⟨pre, c, post, hsplit, hl, hr⟩ := exists_chunk hin.1 (by omega : lo < a + span hd cs)
    have hfree : c.used = false := by
      by_contra hu
      rw [Bool.not_eq_false] at hu
      exact h.vacant lo (Nat.le_refl _) hne (hsplit ▸ occupied_of_used hu hl hr)
    have hchunk : FreeChunk hd a cs (a + span hd pre) (a + span hd pre + hd + c.size) :=
      ⟨pre, c, post, hsplit, hfree, rfl, rfl⟩
    obtain ⟨rfl, rfl⟩ := h.eq_of_mem (hchunk.gap hhd hcs) (Nat.le_refl lo) hne hl hr
    exact hchunk
  · exact fun h => h.gap hhd hcs

/-! ## First fit -/

/-- A chunk that starts below `c` is one of the chunks before it. -/
theorem mem_of_span_lt {pre pre' post post' : List Chunk} {c d : Chunk}
    (h : pre ++ c :: post = pre' ++ d :: post') (hlt : span hd pre' < span hd pre) : d ∈ pre := by
  rcases List.append_eq_append_iff.mp h with ⟨ds, rfl, _⟩ | ⟨ds, rfl, hds⟩
  · rw [span_append] at hlt
    omega
  · cases ds with
    | nil =>
      rw [List.append_nil] at hlt
      omega
    | cons e es =>
      rw [List.cons_append, List.cons.injEq] at hds
      rw [hds.1]
      simp

/-- The chunk that first fit takes is the lowest gap with room for `n` bytes and a
header. -/
theorem firstFit_gap (hhd : 0 < hd) (hcs : Coalesced cs) {n : Nat} {pre post : List Chunk}
    {c : Chunk} (h : firstFit n cs = some (pre, c, post)) :
    Gap (Occupied hd a cs) a (a + span hd cs) (a + span hd pre) (a + span hd pre + hd + c.size) ∧
      ∀ lo hi, Gap (Occupied hd a cs) a (a + span hd cs) lo hi → n + hd ≤ hi - lo →
        a + span hd pre ≤ lo := by
  obtain ⟨rfl, hfit, hfirst⟩ := firstFit_some h
  refine ⟨FreeChunk.gap hhd hcs ⟨pre, c, post, rfl, hfit.1, rfl, rfl⟩, fun lo hi hgap hn => ?_⟩
  obtain ⟨pre', d, post', heq, hfree, rfl, rfl⟩ := (gap_iff_free hhd hcs).mp hgap
  by_contra hbelow
  have hlt : span hd pre' < span hd pre := by omega
  exact hfirst d (mem_of_span_lt heq hlt) ⟨hfree, by omega⟩

theorem firstFit_no_gap (hhd : 0 < hd) (hcs : Coalesced cs) {n : Nat} (h : firstFit n cs = none)
    {lo hi : Nat} (hgap : Gap (Occupied hd a cs) a (a + span hd cs) lo hi) : ¬ n + hd ≤ hi - lo := by
  obtain ⟨pre, c, post, rfl, hfree, rfl, rfl⟩ := (gap_iff_free hhd hcs).mp hgap
  intro hn
  exact firstFit_none h c (by simp) ⟨hfree, by omega⟩

end Chunks

/-! ## The used blocks determine the list -/

theorem usedBlocks_addr_ge {hd a : Nat} {cs : List Chunk} {b : Block}
    (h : b ∈ usedBlocks hd a cs) : a ≤ b.addr :=
  (layout_bounds (List.mem_filter.mp h).1).1

theorem eq_nil_of_span {hd : Nat} {cs : List Chunk} (hhd : 0 < hd) (h : span hd cs = 0) :
    cs = [] := by
  cases cs with
  | nil => rfl
  | cons c cs =>
    unfold span at h
    omega

/-- Behind a free chunk comes a used one, or nothing. -/
theorem Coalesced.next_used {c d : Chunk} {cs : List Chunk} (h : Coalesced (c :: d :: cs))
    (hc : c.used = false) : d.used = true :=
  (List.isChain_cons_cons.mp h).1.resolve_left (by simp [hc])

/-- The first chunk of a coalesced list is used exactly when a used block starts
there, and a free first chunk ends at the first used block or at the end. -/
theorem coalesced_head_eq {hd a : Nat} {c d : Chunk} {cs ds : List Chunk} (hhd : 0 < hd)
    (hcs : Coalesced (c :: cs)) (hds : Coalesced (d :: ds))
    (hspan : span hd (c :: cs) = span hd (d :: ds))
    (hused : usedBlocks hd a (c :: cs) = usedBlocks hd a (d :: ds)) :
    c = d ∧ usedBlocks hd (a + hd + c.size) cs = usedBlocks hd (a + hd + d.size) ds := by
  obtain ⟨cn, cu⟩ := c
  obtain ⟨dn, du⟩ := d
  rw [usedBlocks_cons, usedBlocks_cons] at hused
  have hfar : ∀ {n m : Nat} {es : List Chunk}, ∀ b ∈ usedBlocks hd (a + hd + n) es,
      b ≠ ⟨a, m, true⟩ := by
    rintro n m es b hb rfl
    have hge := usedBlocks_addr_ge hb
    dsimp only at hge
    omega
  cases cu with
  | true =>
    cases du with
    | true =>
      simp only [if_true, List.singleton_append, List.cons.injEq, Block.mk.injEq] at hused
      obtain ⟨⟨_, rfl, _⟩, hrest⟩ := hused
      exact ⟨rfl, hrest⟩
    | false =>
      simp only [if_true, List.singleton_append, Bool.false_eq_true, if_false,
        List.nil_append] at hused
      exact absurd rfl (hfar (m := cn) ⟨a, cn, true⟩ (hused ▸ List.mem_cons_self))
  | false =>
    cases du with
    | true =>
      simp only [if_true, List.singleton_append, Bool.false_eq_true, if_false,
        List.nil_append] at hused
      exact absurd rfl (hfar (m := dn) ⟨a, dn, true⟩ (hused ▸ List.mem_cons_self))
    | false =>
      simp only [Bool.false_eq_true, if_false, List.nil_append] at hused
      refine ⟨?_, hused⟩
      cases cs with
      | nil =>
        cases ds with
        | nil =>
          simp only [span, Nat.add_zero, Nat.add_left_cancel_iff] at hspan
          rw [hspan]
        | cons e es =>
          rw [usedBlocks_cons, if_pos (hds.next_used rfl)] at hused
          cases hused
      | cons e es =>
        rw [usedBlocks_cons, if_pos (hcs.next_used rfl)] at hused
        cases ds with
        | nil => cases hused
        | cons f fs =>
          rw [usedBlocks_cons, if_pos (hds.next_used rfl)] at hused
          simp only [List.singleton_append, List.cons.injEq, Block.mk.injEq] at hused
          rw [show cn = dn by omega]

theorem coalesced_ext {hd a : Nat} {cs ds : List Chunk} (hhd : 0 < hd) (hcs : Coalesced cs)
    (hds : Coalesced ds) (hspan : span hd cs = span hd ds)
    (hused : usedBlocks hd a cs = usedBlocks hd a ds) : cs = ds := by
  induction cs generalizing a ds with
  | nil => exact (eq_nil_of_span hhd hspan.symm).symm
  | cons c cs ih =>
    cases ds with
    | nil => exact eq_nil_of_span hhd hspan
    | cons d ds =>
      obtain ⟨rfl, hrest⟩ := coalesced_head_eq hhd hcs hds hspan hused
      simp only [span, Nat.add_left_cancel_iff] at hspan
      rw [ih hcs.tail hds.tail hspan hrest]

end FirstFit
