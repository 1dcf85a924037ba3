import Mathlib.Algebra.Ring.Nat
import Mathlib.Data.List.Chain
import Mathlib.Algebra.BigOperators.Group.List.Basic

/-!
# First-fit allocation over a tiled range

A range of memory is cut into chunks, each a header of `hd` bytes followed by
`size` bytes of payload. The chunk list says nothing about addresses: they
follow from the sizes (`layout`). Allocation takes the first free chunk that is
large enough and splits it when more than `hd + slack` bytes are left over;
release clears the flag and merges every pair of neighbouring free chunks.

Results:
1. `span_carve`, `span_coalesce`: neither operation moves the end of the range.
2. `coalesced_carve`, `coalesced_coalesce`: no two neighbours are both free.
3. `used_carve`, `used_coalesce`: how the number of used bytes changes.
4. `coalesce_clear`: on a coalesced list, a release is at most one merge with
   the right neighbour and one with the left neighbour.
5. `layout_pairwise`: the chunks are laid out one after the other.
6. `usedBlocks_carve`, `usedBlocks_coalesce`: no operation moves or resizes a
   used chunk other than the one it takes or releases.
7. `within_coalesce`: a merge leaves every chunk inside a chunk of the new list.
-/

namespace FirstFit

structure Chunk where
  size : Nat
  used : Bool
deriving DecidableEq, Repr

/-- A chunk with the address of its header. -/
structure Block where
  addr : Nat
  size : Nat
  used : Bool
deriving DecidableEq, Repr

/-- The bytes that a list of chunks covers, headers included. -/
def span (hd : Nat) : List Chunk → Nat
  | [] => 0
  | c :: cs => hd + c.size + span hd cs

/-- The payload bytes of the used chunks. -/
def usedBytes : List Chunk → Nat
  | [] => 0
  | c :: cs => (if c.used then c.size else 0) + usedBytes cs

/-- The chunks with their addresses, the first header at `a`. -/
def layout (hd : Nat) : Nat → List Chunk → List Block
  | _, [] => []
  | a, c :: cs => ⟨a, c.size, c.used⟩ :: layout hd (a + hd + c.size) cs

/-- The used chunks with their addresses. -/
def usedBlocks (hd a : Nat) (cs : List Chunk) : List Block :=
  (layout hd a cs).filter fun b => b.used

/-- No two neighbouring chunks are both free. -/
def Coalesced (cs : List Chunk) : Prop :=
  cs.IsChain fun c d => c.used = true ∨ d.used = true

/-- Every size is a multiple of `k`. -/
def Aligned (k : Nat) (cs : List Chunk) : Prop := ∀ c ∈ cs, k ∣ c.size

/-- A free chunk of at least `n` bytes. -/
def Fits (n : Nat) (c : Chunk) : Prop := c.used = false ∧ n ≤ c.size

instance (n : Nat) (c : Chunk) : Decidable (Fits n c) := inferInstanceAs (Decidable (_ ∧ _))

/-- The first chunk that fits `n`, with the chunks before and after it. -/
def firstFit (n : Nat) : List Chunk → Option (List Chunk × Chunk × List Chunk)
  | [] => none
  | c :: cs =>
      if Fits n c then some ([], c, cs)
      else (firstFit n cs).map fun r => (c :: r.1, r.2)

/-- What becomes of a free chunk from which `n` bytes are taken. -/
def carve (hd slack n : Nat) (c : Chunk) : List Chunk :=
  if n + hd + slack < c.size then [⟨n, true⟩, ⟨c.size - n - hd, false⟩] else [⟨c.size, true⟩]

/-- The size of the used chunk that `carve` leaves. -/
def granted (hd slack n : Nat) (c : Chunk) : Nat :=
  if n + hd + slack < c.size then n else c.size

/-- Put `c` in front of `ds`, merged with the head of `ds` if both are free. -/
def absorb (hd : Nat) (c : Chunk) : List Chunk → List Chunk
  | [] => [c]
  | d :: ds => if c.used || d.used then c :: d :: ds else ⟨c.size + hd + d.size, false⟩ :: ds

/-- Merge all neighbouring free chunks. -/
def coalesce (hd : Nat) : List Chunk → List Chunk
  | [] => []
  | c :: cs => absorb hd c (coalesce hd cs)

/-- A chunk with its flag cleared. -/
def Chunk.clear (c : Chunk) : Chunk := ⟨c.size, false⟩

/-! ## Sizes -/

theorem absorb_cons {hd : Nat} (c d : Chunk) (ds : List Chunk) :
    absorb hd c (d :: ds) =
      if c.used || d.used then c :: d :: ds else ⟨c.size + hd + d.size, false⟩ :: ds := rfl

@[simp] theorem span_append {hd : Nat} (cs ds : List Chunk) :
    span hd (cs ++ ds) = span hd cs + span hd ds := by
  induction cs with
  | nil => simp [span]
  | cons c cs ih => simp only [List.cons_append, span, ih]; omega

@[simp] theorem usedBytes_append (cs ds : List Chunk) :
    usedBytes (cs ++ ds) = usedBytes cs + usedBytes ds := by
  induction cs with
  | nil => simp [usedBytes]
  | cons c cs ih => simp only [List.cons_append, usedBytes, ih]; omega

theorem length_le_span (hd : Nat) (cs : List Chunk) : hd * cs.length ≤ span hd cs := by
  induction cs with
  | nil => simp [span]
  | cons c cs ih => rw [List.length_cons, Nat.mul_succ, span]; omega

theorem usedBytes_le_span (hd : Nat) (cs : List Chunk) : usedBytes cs ≤ span hd cs := by
  induction cs with
  | nil => simp [usedBytes]
  | cons c cs ih => simp only [usedBytes, span]; split <;> omega

theorem span_carve {hd slack n : Nat} (c : Chunk) : span hd (carve hd slack n c) = hd + c.size := by
  unfold carve
  split <;> simp only [span] <;> omega

theorem used_carve {hd slack n : Nat} (c : Chunk) :
    usedBytes (carve hd slack n c) = granted hd slack n c := by
  unfold carve granted
  split <;> simp [usedBytes]

theorem le_granted {hd slack n : Nat} {c : Chunk} (h : n ≤ c.size) : n ≤ granted hd slack n c := by
  unfold granted
  split <;> omega

theorem span_absorb {hd : Nat} (c : Chunk) (ds : List Chunk) :
    span hd (absorb hd c ds) = hd + c.size + span hd ds := by
  cases ds with
  | nil => rfl
  | cons d ds =>
    rw [absorb_cons]
    split
    · simp only [span]
    · simp only [span]; omega

theorem span_coalesce {hd : Nat} (cs : List Chunk) : span hd (coalesce hd cs) = span hd cs := by
  induction cs with
  | nil => rfl
  | cons c cs ih => rw [coalesce, span_absorb, ih, span]

theorem used_absorb {hd : Nat} (c : Chunk) (ds : List Chunk) :
    usedBytes (absorb hd c ds) = (if c.used then c.size else 0) + usedBytes ds := by
  cases ds with
  | nil => rfl
  | cons d ds =>
    rw [absorb_cons]
    split
    · rfl
    · next h =>
      simp only [Bool.or_eq_true, not_or, Bool.not_eq_true] at h
      simp [usedBytes, h.1, h.2]

theorem used_coalesce {hd : Nat} (cs : List Chunk) : usedBytes (coalesce hd cs) = usedBytes cs := by
  induction cs with
  | nil => rfl
  | cons c cs ih => rw [coalesce, used_absorb, ih, usedBytes]

/-! ## Alignment -/

theorem aligned_append {k : Nat} {cs ds : List Chunk} :
    Aligned k (cs ++ ds) ↔ Aligned k cs ∧ Aligned k ds := by
  simp only [Aligned, List.mem_append, or_imp, forall_and]

theorem aligned_cons {k : Nat} {c : Chunk} {cs : List Chunk} :
    Aligned k (c :: cs) ↔ k ∣ c.size ∧ Aligned k cs := by
  simp only [Aligned, List.mem_cons, forall_eq_or_imp]

theorem aligned_carve {hd slack n k : Nat} {c : Chunk} (hhd : k ∣ hd) (hn : k ∣ n)
    (hc : k ∣ c.size) : Aligned k (carve hd slack n c) := by
  unfold carve
  split
  · intro d hd'
    simp only [List.mem_cons, List.not_mem_nil, or_false] at hd'
    rcases hd' with rfl | rfl
    · exact hn
    · exact Nat.dvd_sub (Nat.dvd_sub hc hn) hhd
  · intro d hd'
    rw [List.mem_singleton.mp hd']
    exact hc

theorem aligned_absorb {hd k : Nat} {c : Chunk} {ds : List Chunk} (hhd : k ∣ hd)
    (hc : k ∣ c.size) (hds : Aligned k ds) : Aligned k (absorb hd c ds) := by
  cases ds with
  | nil => exact aligned_cons.mpr ⟨hc, hds⟩
  | cons d ds =>
    obtain ⟨hd', hds'⟩ := aligned_cons.mp hds
    rw [absorb_cons]
    split
    · exact aligned_cons.mpr ⟨hc, hds⟩
    · exact aligned_cons.mpr ⟨Nat.dvd_add (Nat.dvd_add hc hhd) hd', hds'⟩

theorem aligned_coalesce {hd k : Nat} {cs : List Chunk} (hhd : k ∣ hd) (h : Aligned k cs) :
    Aligned k (coalesce hd cs) := by
  induction cs with
  | nil => exact h
  | cons c cs ih =>
    obtain ⟨hc, hcs⟩ := aligned_cons.mp h
    exact aligned_absorb hhd hc (ih hcs)

/-! ## Coalescing -/

theorem Coalesced.tail {c : Chunk} {cs : List Chunk} (h : Coalesced (c :: cs)) : Coalesced cs :=
  List.IsChain.tail h

/-- Used chunks may have any neighbours. -/
theorem Coalesced.cons_used {c : Chunk} {cs : List Chunk} (h : Coalesced cs) (hc : c.used = true) :
    Coalesced (c :: cs) := by
  cases cs with
  | nil => exact List.IsChain.singleton c
  | cons d ds => exact List.IsChain.cons_cons (Or.inl hc) h

theorem coalesced_absorb {hd : Nat} {c : Chunk} {ds : List Chunk} (h : Coalesced ds) :
    Coalesced (absorb hd c ds) := by
  cases ds with
  | nil => exact List.IsChain.singleton c
  | cons d ds =>
    rw [absorb_cons]
    split
    · next hu =>
      rw [Bool.or_eq_true] at hu
      exact List.IsChain.cons_cons hu h
    · next hu =>
      simp only [Bool.or_eq_true, not_or, Bool.not_eq_true] at hu
      cases ds with
      | nil => exact List.IsChain.singleton _
      | cons e es =>
        -- the chunk after the merged pair is used, because `d` was free
        obtain ⟨hde, hes⟩ := List.isChain_cons_cons.mp h
        have he : e.used = true := hde.resolve_left (by simp [hu.2])
        exact List.IsChain.cons_cons (Or.inr he) hes

theorem coalesced_coalesce {hd : Nat} (cs : List Chunk) : Coalesced (coalesce hd cs) := by
  induction cs with
  | nil => exact List.IsChain.nil
  | cons c cs ih => exact coalesced_absorb ih

/-- What a free chunk has absorbed begins with a free chunk. -/
theorem absorb_free_head (hd : Nat) {c : Chunk} (ds : List Chunk) (hc : c.used = false) :
    ∃ e es, absorb hd c ds = e :: es ∧ e.used = false := by
  cases ds with
  | nil => exact ⟨c, [], rfl, hc⟩
  | cons d ds =>
    rw [absorb_cons]
    split
    · exact ⟨c, d :: ds, rfl, hc⟩
    · exact ⟨_, ds, rfl, rfl⟩

theorem absorb_of_coalesced {hd : Nat} {c : Chunk} {ds : List Chunk} (h : Coalesced (c :: ds)) :
    absorb hd c ds = c :: ds := by
  cases ds with
  | nil => rfl
  | cons d ds =>
    have hu : (c.used || d.used) = true := by
      rw [Bool.or_eq_true]
      exact (List.isChain_cons_cons.mp h).1
    rw [absorb, if_pos hu]

theorem coalesce_of_coalesced {hd : Nat} {cs : List Chunk} (h : Coalesced cs) :
    coalesce hd cs = cs := by
  induction cs with
  | nil => rfl
  | cons c cs ih => rw [coalesce, ih h.tail, absorb_of_coalesced h]

/-- Taking the chunk `c` from a coalesced list keeps it coalesced: what is left
of `c` stands between the new used chunk and a used chunk. -/
theorem coalesced_carve {hd slack n : Nat} {pre post : List Chunk} {c : Chunk}
    (h : Coalesced (pre ++ c :: post)) (hc : c.used = false) :
    Coalesced (pre ++ carve hd slack n c ++ post) := by
  have hfront : ∀ d : Chunk, d.used = true → Coalesced (pre ++ [d]) := by
    intro d hd'
    refine List.IsChain.append (List.isChain_split.mp h).1.left_of_append (List.IsChain.singleton d) ?_
    intro x _ y hy
    simp only [List.head?_cons, Option.mem_some_iff] at hy
    exact Or.inr (hy ▸ hd')
  have hback : Coalesced (c :: post) := (List.isChain_split.mp h).2
  have hpost : ∀ d : Chunk, Coalesced (d :: post) := by
    intro d
    cases post with
    | nil => exact List.IsChain.singleton d
    | cons e es =>
      obtain ⟨hce, hes⟩ := List.isChain_cons_cons.mp hback
      exact List.IsChain.cons_cons (Or.inr (hce.resolve_left (by simp [hc]))) hes
  unfold carve
  split
  · rw [List.append_assoc]
    exact List.isChain_split.mpr ⟨hfront ⟨n, true⟩ rfl, Coalesced.cons_used (hpost _) rfl⟩
  · rw [List.append_assoc]
    exact List.isChain_split.mpr ⟨hfront ⟨c.size, true⟩ rfl, hpost _⟩

/-- Merging never changes a prefix that ends in a used chunk, or the last chunk
of which is the one that absorbs. -/
theorem coalesce_append {hd : Nat} {pre cs : List Chunk} (h : Coalesced (pre ++ coalesce hd cs)) :
    coalesce hd (pre ++ cs) = pre ++ coalesce hd cs := by
  induction pre with
  | nil => rfl
  | cons c pre ih =>
    rw [List.cons_append] at h
    rw [List.cons_append, coalesce, ih h.tail, absorb_of_coalesced h, List.cons_append]

/-- Releasing the first chunk of a coalesced range merges it at most with its
right neighbour. -/
theorem coalesce_clear_head {hd : Nat} {c : Chunk} {post : List Chunk}
    (h : Coalesced (c :: post)) :
    coalesce hd (c.clear :: post) = absorb hd c.clear post := by
  rw [coalesce, coalesce_of_coalesced h.tail]

/-- Releasing a chunk of a coalesced range merges it at most with its right
neighbour, and the result at most with its left neighbour. -/
theorem coalesce_clear {hd : Nat} {pre post : List Chunk} {p c : Chunk}
    (h : Coalesced (pre ++ p :: c :: post)) :
    coalesce hd (pre ++ p :: c.clear :: post) = pre ++ absorb hd p (absorb hd c.clear post) := by
  obtain ⟨hpre, hback⟩ := List.isChain_split.mp h
  have hclear : coalesce hd (p :: c.clear :: post) = absorb hd p (absorb hd c.clear post) := by
    rw [coalesce, coalesce_clear_head hback.tail]
  rw [← hclear]
  apply coalesce_append
  rw [hclear]
  -- the head of the merged tail is free only if `p` was
  have hhead : ∃ q qs, absorb hd p (absorb hd c.clear post) = q :: qs ∧
      (q.used = false → p.used = false) := by
    cases hds : absorb hd c.clear post with
    | nil => exact ⟨p, [], rfl, id⟩
    | cons d ds =>
      rw [absorb_cons]
      split
      · exact ⟨p, _, rfl, id⟩
      · next hu =>
        simp only [Bool.or_eq_true, not_or, Bool.not_eq_true] at hu
        exact ⟨_, _, rfl, fun _ => hu.1⟩
  obtain ⟨q, qs, heq, hq⟩ := hhead
  have htail : Coalesced (q :: qs) := by
    rw [← heq, ← hclear]
    exact coalesced_coalesce _
  rw [heq]
  refine List.isChain_split.mpr ⟨?_, htail⟩
  refine List.IsChain.append hpre.left_of_append (List.IsChain.singleton q) ?_
  intro x hx y hy
  simp only [List.head?_cons, Option.mem_some_iff] at hy
  subst hy
  have hxp : x.used = true ∨ p.used = true :=
    (List.isChain_append.mp hpre).2.2 x hx p rfl
  cases hqu : q.used with
  | true => exact Or.inr rfl
  | false => exact Or.inl (hxp.resolve_right (by simp [hq hqu]))

/-! ## First fit -/

theorem firstFit_some {n : Nat} {cs pre post : List Chunk} {c : Chunk}
    (h : firstFit n cs = some (pre, c, post)) :
    cs = pre ++ c :: post ∧ Fits n c ∧ ∀ d ∈ pre, ¬ Fits n d := by
  induction cs generalizing pre with
  | nil => simp [firstFit] at h
  | cons d cs ih =>
    unfold firstFit at h
    split at h
    · next hd =>
      simp only [Option.some.injEq, Prod.mk.injEq] at h
      obtain ⟨rfl, rfl, rfl⟩ := h
      exact ⟨rfl, hd, by simp⟩
    · next hd =>
      obtain ⟨r, hr, heq⟩ := Option.map_eq_some_iff.mp h
      obtain ⟨pre', c', post'⟩ := r
      simp only [Prod.mk.injEq] at heq
      obtain ⟨rfl, rfl, rfl⟩ := heq
      obtain ⟨rfl, hc, hpre⟩ := ih hr
      refine ⟨rfl, hc, ?_⟩
      intro e he
      rcases List.mem_cons.mp he with rfl | he
      · exact hd
      · exact hpre e he

theorem firstFit_none {n : Nat} {cs : List Chunk} (h : firstFit n cs = none) :
    ∀ c ∈ cs, ¬ Fits n c := by
  induction cs with
  | nil => simp
  | cons d cs ih =>
    unfold firstFit at h
    split at h
    · simp at h
    · next hd =>
      rw [Option.map_eq_none_iff] at h
      intro c hc
      rcases List.mem_cons.mp hc with rfl | hc
      · exact hd
      · exact ih h c hc

/-! ## Layout -/

theorem layout_append {hd a : Nat} (cs ds : List Chunk) :
    layout hd a (cs ++ ds) = layout hd a cs ++ layout hd (a + span hd cs) ds := by
  induction cs generalizing a with
  | nil => simp [layout, span]
  | cons c cs ih =>
    simp only [List.cons_append, layout, ih, span]
    rw [show a + hd + c.size + span hd cs = a + (hd + c.size + span hd cs) by omega]

theorem mem_layout {hd a : Nat} {b : Block} {cs : List Chunk} :
    b ∈ layout hd a cs ↔
      ∃ pre c post, cs = pre ++ c :: post ∧ b = ⟨a + span hd pre, c.size, c.used⟩ := by
  constructor
  · intro h
    induction cs generalizing a with
    | nil => simp [layout] at h
    | cons c cs ih =>
      rw [layout, List.mem_cons] at h
      rcases h with rfl | h
      · exact ⟨[], c, cs, rfl, by simp [span]⟩
      · obtain ⟨pre, d, post, rfl, rfl⟩ := ih h
        refine ⟨c :: pre, d, post, rfl, ?_⟩
        rw [span, show a + hd + c.size + span hd pre = a + (hd + c.size + span hd pre) by omega]
  · rintro ⟨pre, c, post, rfl, rfl⟩
    rw [layout_append]
    simp [layout]

theorem layout_bounds {hd a : Nat} {b : Block} {cs : List Chunk} (h : b ∈ layout hd a cs) :
    a ≤ b.addr ∧ b.addr + hd + b.size ≤ a + span hd cs := by
  obtain ⟨pre, c, post, rfl, rfl⟩ := mem_layout.mp h
  rw [span_append, span]
  constructor <;> dsimp only <;> omega

theorem layout_pairwise (hd a : Nat) (cs : List Chunk) :
    (layout hd a cs).Pairwise fun b c => b.addr + hd + b.size ≤ c.addr := by
  induction cs generalizing a with
  | nil => exact List.Pairwise.nil
  | cons c cs ih =>
    rw [layout, List.pairwise_cons]
    exact ⟨fun b hb => (layout_bounds hb).1, ih _⟩

/-- Two blocks of one layout are the same or do not overlap. -/
theorem layout_disjoint {hd a : Nat} {cs : List Chunk} {b c : Block} (hb : b ∈ layout hd a cs)
    (hc : c ∈ layout hd a cs) (hne : b ≠ c) :
    b.addr + hd + b.size ≤ c.addr ∨ c.addr + hd + c.size ≤ b.addr :=
  List.Pairwise.forall_of_forall_of_flip
    (R := fun b c => b ≠ c → b.addr + hd + b.size ≤ c.addr ∨ c.addr + hd + c.size ≤ b.addr)
    (fun _ _ h => absurd rfl h)
    ((layout_pairwise hd a cs).imp fun h _ => Or.inl h)
    ((layout_pairwise hd a cs).imp fun h _ => Or.inr h) hb hc hne

theorem usedBlocks_append {hd a : Nat} (cs ds : List Chunk) :
    usedBlocks hd a (cs ++ ds) = usedBlocks hd a cs ++ usedBlocks hd (a + span hd cs) ds := by
  rw [usedBlocks, layout_append, List.filter_append]
  rfl

theorem usedBlocks_cons {hd a : Nat} (c : Chunk) (cs : List Chunk) :
    usedBlocks hd a (c :: cs) =
      (if c.used then [⟨a, c.size, true⟩] else []) ++ usedBlocks hd (a + hd + c.size) cs := by
  rw [usedBlocks, layout, List.filter_cons]
  cases hc : c.used <;> simp [usedBlocks]

theorem usedBlocks_carve {hd slack n a : Nat} (c : Chunk) :
    usedBlocks hd a (carve hd slack n c) = [⟨a, granted hd slack n c, true⟩] := by
  unfold carve granted
  split <;> simp [usedBlocks, layout]

theorem usedBlocks_absorb {hd a : Nat} (c : Chunk) (ds : List Chunk) :
    usedBlocks hd a (absorb hd c ds) = usedBlocks hd a (c :: ds) := by
  cases ds with
  | nil => rfl
  | cons d ds =>
    rw [absorb_cons]
    split
    · rfl
    · next hu =>
      simp only [Bool.or_eq_true, not_or, Bool.not_eq_true] at hu
      rw [usedBlocks_cons, usedBlocks_cons, usedBlocks_cons, hu.1, hu.2]
      simp only [Bool.false_eq_true, if_false, List.nil_append]
      congr 1
      omega

theorem usedBlocks_coalesce {hd a : Nat} (cs : List Chunk) :
    usedBlocks hd a (coalesce hd cs) = usedBlocks hd a cs := by
  induction cs generalizing a with
  | nil => rfl
  | cons c cs ih => rw [coalesce, usedBlocks_absorb, usedBlocks_cons, ih, ← usedBlocks_cons]

/-! ## Chunks inside chunks -/

/-- The block `b` lies in the block `b'`: it is that block or stands in its payload. -/
def Within (hd : Nat) (b b' : Block) : Prop :=
  (b.addr = b'.addr ∨ b'.addr + hd ≤ b.addr) ∧ b.addr + b.size ≤ b'.addr + b'.size

theorem Within.refl (hd : Nat) (b : Block) : Within hd b b := ⟨Or.inl rfl, Nat.le_refl _⟩

theorem Within.trans {hd : Nat} {b c d : Block} (h : Within hd b c) (h' : Within hd c d) :
    Within hd b d := by
  obtain ⟨haddr, hend⟩ := h
  obtain ⟨haddr', hend'⟩ := h'
  refine ⟨?_, by omega⟩
  rcases haddr with heq | hle
  · rwa [heq]
  · exact Or.inr (by omega)

theorem within_absorb {hd a : Nat} {c : Chunk} {ds : List Chunk} {b : Block}
    (hb : b ∈ layout hd a (c :: ds)) :
    ∃ b' ∈ layout hd a (absorb hd c ds), b'.used = b.used ∧ Within hd b b' := by
  cases ds with
  | nil => exact ⟨b, hb, rfl, Within.refl hd b⟩
  | cons d ds =>
    rw [absorb_cons]
    split
    · exact ⟨b, hb, rfl, Within.refl hd b⟩
    · next hu =>
      simp only [Bool.or_eq_true, not_or, Bool.not_eq_true] at hu
      simp only [layout, List.mem_cons] at hb ⊢
      rcases hb with rfl | rfl | hb
      · exact ⟨_, Or.inl rfl, hu.1.symm, Or.inl rfl, by dsimp only; omega⟩
      · exact ⟨_, Or.inl rfl, hu.2.symm, Or.inr (by dsimp only; omega), by dsimp only; omega⟩
      · refine ⟨b, Or.inr ?_, rfl, Within.refl hd b⟩
        rw [show a + hd + (c.size + hd + d.size) = a + hd + c.size + hd + d.size by omega]
        exact hb

/-- A merge leaves every chunk inside a chunk of the new list. -/
theorem within_coalesce {hd a : Nat} {cs : List Chunk} {b : Block} (hb : b ∈ layout hd a cs) :
    ∃ b' ∈ layout hd a (coalesce hd cs), b'.used = b.used ∧ Within hd b b' := by
  induction cs generalizing a with
  | nil => cases hb
  | cons c cs ih =>
    -- inside the merged tail first, then inside what its head has absorbed
    have hmerged : ∃ b₁ ∈ layout hd a (c :: coalesce hd cs), b₁.used = b.used ∧ Within hd b b₁ := by
      cases List.mem_cons.mp hb with
      | inl heq => exact ⟨b, List.mem_cons.mpr (Or.inl heq), rfl, Within.refl hd b⟩
      | inr htail =>
        obtain ⟨b₁, hb₁, hrest⟩ := ih htail
        exact ⟨b₁, List.mem_cons_of_mem _ hb₁, hrest⟩
    obtain ⟨b₁, hb₁, hu₁, hw₁⟩ := hmerged
    obtain ⟨b₂, hb₂, hu₂, hw₂⟩ := within_absorb hb₁
    exact ⟨b₂, hb₂, hu₂.trans hu₁, hw₁.trans hw₂⟩

/-- No header stands where none was. -/
theorem addr_mem_absorb {hd a : Nat} {c : Chunk} {ds : List Chunk} {b : Block}
    (hb : b ∈ layout hd a (absorb hd c ds)) : ∃ b' ∈ layout hd a (c :: ds), b'.addr = b.addr := by
  cases ds with
  | nil => exact ⟨b, hb, rfl⟩
  | cons d ds =>
    rw [absorb_cons] at hb
    split at hb
    · exact ⟨b, hb, rfl⟩
    · simp only [layout, List.mem_cons] at hb ⊢
      rcases hb with rfl | hb
      · exact ⟨_, Or.inl rfl, rfl⟩
      · refine ⟨b, Or.inr (Or.inr ?_), rfl⟩
        rw [show a + hd + c.size + hd + d.size = a + hd + (c.size + hd + d.size) by omega]
        exact hb

/-- The same when a block is released in front of `post`. -/
theorem addr_mem_clear {hd a : Nat} {pre post : List Chunk} {c : Chunk} {b : Block}
    (hb : b ∈ layout hd a (pre ++ absorb hd c.clear post)) :
    ∃ d ∈ layout hd a (pre ++ c :: post), d.addr = b.addr := by
  rw [layout_append, List.mem_append] at hb
  rw [layout_append]
  cases hb with
  | inl hpre => exact ⟨b, List.mem_append_left _ hpre, rfl⟩
  | inr hpost =>
    obtain ⟨d, hd, hda⟩ := addr_mem_absorb hpost
    cases List.mem_cons.mp hd with
    | inl heq => exact ⟨_, List.mem_append_right _ List.mem_cons_self, by rw [← hda, heq]⟩
    | inr htail => exact ⟨d, List.mem_append_right _ (List.mem_cons_of_mem _ htail), hda⟩

end FirstFit
