import Zenix.Fs.ResolvePath

/-!
# Segments of a path

`vfs_resolve_path` leaves the inner loop at a `/`, at the end of the path, or when the
buffer is full. In the last case the rest of the segment is taken for the next component.

Results:
1. `resolveFrom_segments_iff`: the loop takes segments until it comes to a long one.
2. `segments_only_iff`: the names that are looked up are the segments of the path, in
   order, exactly when the walk along the segments comes to no long one.
3. `long_segment_split`: a segment of 128 characters names a child of another directory.
-/

namespace Zenix.VfsComplete
open ByteMemory

/-! ## The property -/

/-- The parts of the path between two `/`, without the one in front of a leading `/`. -/
def segments (path : List Byte) : List (List Byte) := (skipSlash path).splitOn slash

/-- The names that were passed to `finddir`, in order. -/
def lookedUp (log : List Callback) : List (List Byte) :=
  log.filterMap fun c =>
    match c with
    | .finddir _ name => some name
    | _ => none

section Functions
variable {W : Type} (nodeAt : W → Word → FsNode W)

/-- The first name is the first segment, the second name is the second segment, and so on. -/
def SegmentsOnly (root : Word) (path : List Byte) (w : W) : Prop :=
  lookedUp (vfsResolvePath nodeAt root path w).log <+: segments path

/-- The walk along the segments, from one node that is found to the next, comes to a segment
of more than 127 characters in a node that has a `finddir`. -/
def ReachesLong : List (List Byte) → Word → W → Prop
  | [], _, _ => False
  | seg :: segs, current, w =>
      match (nodeAt w current).finddirFn with
      | none => False
      | some finddir =>
          MAX_FILENAME - 1 < seg.length ∨
            ((finddir current seg w).1 ≠ 0#32 ∧
              ReachesLong segs (finddir current seg w).1 (finddir current seg w).2)

end Functions

/-! ## The first segment -/

/-- What stands in front of the first `/`. -/
theorem exists_segment (path : List Byte) :
    ∃ seg rest, path = seg ++ rest ∧ slash ∉ seg ∧ (rest = [] ∨ ∃ r, rest = slash :: r) := by
  induction path with
  | nil => exact ⟨[], [], rfl, List.not_mem_nil, Or.inl rfl⟩
  | cons c path ih =>
    rcases Decidable.em (c = slash) with rfl | hc
    · exact ⟨[], slash :: path, rfl, List.not_mem_nil, Or.inr ⟨path, rfl⟩⟩
    · obtain ⟨seg, rest, rfl, hseg, hrest⟩ := ih
      refine ⟨c :: seg, rest, rfl, ?_, hrest⟩
      rw [List.mem_cons, not_or]
      exact ⟨Ne.symm hc, hseg⟩

/-- The buffer holds the beginning of a long segment. -/
theorem takeComponent_long {n : Nat} {seg : List Byte} (rest : List Byte) (hseg : slash ∉ seg)
    (hlen : n ≤ seg.length) : takeComponent n (seg ++ rest) = (seg.take n, seg.drop n ++ rest) := by
  induction n generalizing seg with
  | zero => rfl
  | succ n ih =>
    cases seg with
    | nil => exact absurd hlen (Nat.not_succ_le_zero n)
    | cons c seg =>
      rw [List.mem_cons, not_or] at hseg
      rw [List.cons_append, takeComponent, if_neg (Ne.symm hseg.1),
        ih hseg.2 (Nat.le_of_succ_le_succ hlen)]
      rfl

section Functions
variable {W : Type} (nodeAt : W → Word → FsNode W)

/-! ## The loop -/

theorem resolveFrom_nil (n : Nat) (current : Word) (w : W) :
    resolveFrom nodeAt n [] current w = pure (current, w) := by
  cases n <;> rfl

theorem not_reachesLong_empty (current : Word) (w : W) : ¬ ReachesLong nodeAt [[]] current w := by
  rw [ReachesLong]
  cases (nodeAt w current).finddirFn with
  | none => exact id
  | some finddir =>
    rintro (hlen | ⟨_, hrest⟩)
    · exact absurd hlen (Nat.not_lt_zero _)
    · exact hrest

/-- The segments of a path that starts with `seg`. -/
theorem splitOn_segment {seg rest : List Byte} (hseg : slash ∉ seg)
    (hrest : rest = [] ∨ ∃ r, rest = slash :: r) :
    ∃ segs, (seg ++ rest).splitOn slash = seg :: segs ∧
      (segs = [] ∧ skipSlash rest = [] ∨ segs = (skipSlash rest).splitOn slash) := by
  rcases hrest with rfl | ⟨r, rfl⟩
  · rw [List.append_nil, List.splitOn_eq_singleton hseg]
    exact ⟨[], rfl, Or.inl ⟨rfl, rfl⟩⟩
  · rw [List.splitOn_append_cons_self_of_not_mem hseg, skipSlash, if_pos rfl]
    exact ⟨_, rfl, Or.inr rfl⟩

/-- The names that the loop looks up are the segments until it comes to a long one. -/
theorem resolveFrom_segments_iff (n : Nat) {path : List Byte} (current : Word) (w : W)
    (hn : path.length ≤ n) :
    lookedUp (resolveFrom nodeAt n path current w).log <+: path.splitOn slash ↔
      ¬ ReachesLong nodeAt (path.splitOn slash) current w := by
  induction n generalizing path current w with
  | zero =>
    obtain rfl := List.eq_nil_of_length_eq_zero (Nat.le_zero.mp hn)
    exact iff_of_true List.nil_prefix (not_reachesLong_empty nodeAt current w)
  | succ n ih =>
    cases path with
    | nil => exact iff_of_true List.nil_prefix (not_reachesLong_empty nodeAt current w)
    | cons c tail =>
      have hnext : (skipSlash (takeComponent (MAX_FILENAME - 1) (c :: tail)).2).length ≤ n :=
        Nat.le_trans (skipSlash_takeComponent_length (MAX_FILENAME - 2) c tail)
          (Nat.le_of_succ_le_succ hn)
      obtain ⟨seg, rest, hpath, hseg, hrest⟩ := exists_segment (c :: tail)
      obtain ⟨segs, hsplit, hsegs⟩ := splitOn_segment hseg hrest
      rw [← hpath] at hsplit
      rw [hsplit, resolveFrom, ReachesLong]
      cases (nodeAt w current).finddirFn with
      | none => exact iff_of_true List.nil_prefix id
      | some finddir =>
        dsimp only
        rw [Logged.log_bind]
        change (takeComponent (MAX_FILENAME - 1) (c :: tail)).1 :: lookedUp _ <+: seg :: segs ↔ _
        rcases Nat.lt_or_ge (MAX_FILENAME - 1) seg.length with hlong | hshort
        · -- the name is shorter than the segment
          refine iff_of_false (fun hpre => ?_) (not_not.mpr (Or.inl hlong))
          have hname := (List.cons_prefix_cons.mp hpre).1
          rw [hpath, takeComponent_long rest hseg (Nat.le_of_lt hlong)] at hname
          have hlen := congrArg List.length hname
          rw [List.length_take, Nat.min_eq_left (Nat.le_of_lt hlong)] at hlen
          omega
        · rw [hpath, takeComponent_name hseg hshort hrest] at hnext ⊢
          rw [List.cons_prefix_cons, and_iff_right rfl, or_iff_right (Nat.not_lt.mpr hshort)]
          split
          · next hnull => exact iff_of_true List.nil_prefix fun h => h.1 hnull
          · next hfound =>
            rw [and_iff_right hfound]
            rcases hsegs with ⟨rfl, hend⟩ | rfl
            · rw [hend, resolveFrom_nil]
              exact iff_of_true List.nil_prefix id
            · exact ih _ _ hnext

end Functions

/-- For every tree and every path: the names that are looked up are the segments of the path,
in order, if and only if the walk from the root does not come to a segment of more than 127
characters. -/
theorem segments_only_iff {W : Type} (nodeAt : W → Word → FsNode W) (root : Word) (path : List Byte)
    (w : W) : SegmentsOnly nodeAt root path w ↔
      ¬ (root ≠ 0#32 ∧ ReachesLong nodeAt (segments path) root w) := by
  unfold SegmentsOnly vfsResolvePath
  split
  · next hnull => exact iff_of_true List.nil_prefix fun h => h.1 hnull
  · next hroot =>
    rw [and_iff_right hroot]
    split
    · next hslash =>
      subst hslash
      exact iff_of_true List.nil_prefix (not_reachesLong_empty nodeAt root w)
    · exact resolveFrom_segments_iff nodeAt _ root w (Nat.le_refl _)

/-! ## A segment of 128 characters -/

/-- A tree of two directories and a file: 2 is the entry `x..x` (127 times) of the root, and 3
is the entry `y` of 2. -/
def splitTree (w : Unit) (node : Word) : FsNode Unit :=
  { smallTree w node with
    finddirFn := some fun dir name w =>
      (if dir = 1#32 ∧ name = List.replicate 127 0x78#8 then 2#32
        else if dir = 2#32 ∧ name = [0x79#8] then 3#32 else 0#32, w) }

/-- `/x..xy`. -/
def longPath : List Byte := slash :: (List.replicate 127 0x78#8 ++ [0x79#8])

/-- `/x..xy` resolves to the entry `y` of `x..x`. -/
theorem long_segment_split :
    (vfsResolvePath splitTree 1#32 longPath ()).value.1 = 3#32 ∧
      lookedUp (vfsResolvePath splitTree 1#32 longPath ()).log =
        [List.replicate 127 0x78#8, [0x79#8]] ∧
      segments longPath = [List.replicate 127 0x78#8 ++ [0x79#8]] ∧
      ¬ SegmentsOnly splitTree 1#32 longPath () := by
  have hlog : lookedUp (vfsResolvePath splitTree 1#32 longPath ()).log =
      [List.replicate 127 0x78#8, [0x79#8]] := by decide +kernel
  have hsegs : segments longPath = [List.replicate 127 0x78#8 ++ [0x79#8]] :=
    List.splitOn_eq_singleton (by decide +kernel)
  refine ⟨by decide +kernel, hlog, hsegs, fun hpre => ?_⟩
  rw [SegmentsOnly, hlog, hsegs] at hpre
  exact absurd hpre.length_le (by decide)

end Zenix.VfsComplete
