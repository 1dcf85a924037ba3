import Zenix.Fs.ParentPath
import Zenix.Fs.PathSegments

/-!
# Slashes in a path

`vfs_resolve_path` skips one `/` behind a component, so two of them have an empty
component between them. `vfs_create`, `vfs_mkdir` and `vfs_unlink` take what stands behind
the last `/` for the name, also when nothing does.

Results:
1. `vfsResolvePath_pieces`: the node of a path is the fold of the lookups of its pieces.
2. `pieces_filter`, `nil_mem_pieces`: the pieces come from the names in the path, and an
   empty one from two adjacent `/`.
3. `slashes_irrelevant_iff`: when the slashes of a path do not matter.
4. `slashes_matter`: paths where they do.
-/

namespace Zenix.VfsComplete
open ByteMemory

/-! ## Paths without redundant slashes -/

/-- Each run of `/` is replaced by a single one. -/
def squeeze : List Byte → List Byte
  | [] => []
  | c :: path => if c = slash ∧ path.head? = some slash then squeeze path else c :: squeeze path

/-- A `/` at the end is dropped. -/
def dropSlash (text : List Byte) : List Byte :=
  if text.getLast? = some slash then text.dropLast else text

/-- Single slashes, and none at the end when there is a component. -/
def normalPath (path : List Byte) : List Byte :=
  if squeeze path = [slash] then [slash] else dropSlash (squeeze path)

/-- Two adjacent slashes. -/
def Doubled (text : List Byte) : Prop := [slash, slash] <:+: text

/-- The names in a text. -/
def namesOf (text : List Byte) : List (List Byte) :=
  (text.splitOn slash).filter fun name => name ≠ []

/-- The rest of a text behind a segment. -/
def SegmentEnd (rest : List Byte) : Prop := rest = [] ∨ ∃ r, rest = slash :: r

/-! ## Pieces -/

/-- What the loop of `vfs_resolve_path` looks up, as long as everything is found. -/
def piecesFrom : Nat → List Byte → List (List Byte)
  | 0, _ => []
  | _ + 1, [] => []
  | n + 1, c :: text =>
      let r := takeComponent (MAX_FILENAME - 1) (c :: text)
      r.1 :: piecesFrom n (skipSlash r.2)

def pieces (text : List Byte) : List (List Byte) := piecesFrom text.length text

theorem piecesFrom_rounds {n m : Nat} {text : List Byte} (hn : text.length ≤ n) (hm : text.length ≤ m) :
    piecesFrom n text = piecesFrom m text := by
  induction n generalizing m text with
  | zero =>
    obtain rfl := List.eq_nil_of_length_eq_zero (Nat.le_zero.mp hn)
    cases m <;> rfl
  | succ n ih =>
    cases text with
    | nil => cases m <;> rfl
    | cons c text =>
      cases m with
      | zero => exact absurd hm (Nat.not_succ_le_zero _)
      | succ m =>
        have hlen : (skipSlash (takeComponent (MAX_FILENAME - 1) (c :: text)).2).length ≤
            text.length := skipSlash_takeComponent_length (MAX_FILENAME - 2) c text
        rw [piecesFrom, piecesFrom, ih (Nat.le_trans hlen (Nat.le_of_succ_le_succ hn))
          (Nat.le_trans hlen (Nat.le_of_succ_le_succ hm))]

theorem pieces_cons (c : Byte) (text : List Byte) :
    pieces (c :: text) = (takeComponent (MAX_FILENAME - 1) (c :: text)).1 ::
      pieces (skipSlash (takeComponent (MAX_FILENAME - 1) (c :: text)).2) := by
  have hlen : (skipSlash (takeComponent (MAX_FILENAME - 1) (c :: text)).2).length ≤ text.length :=
    skipSlash_takeComponent_length (MAX_FILENAME - 2) c text
  rw [pieces, List.length_cons, piecesFrom, piecesFrom_rounds hlen (Nat.le_refl _)]
  rfl

section Segment
variable {seg rest : List Byte} (hseg : slash ∉ seg) (hrest : SegmentEnd rest)
include hseg

/-- A long segment fills the buffer and goes on. -/
theorem pieces_long (hlong : MAX_FILENAME - 1 < seg.length) :
    pieces (seg ++ rest) =
      seg.take (MAX_FILENAME - 1) :: pieces (seg.drop (MAX_FILENAME - 1) ++ rest) := by
  obtain ⟨c, tail, rfl⟩ := List.exists_cons_of_length_pos (Nat.zero_lt_of_lt hlong)
  have htake := takeComponent_long rest hseg (Nat.le_of_lt hlong)
  obtain ⟨d, tail', hdrop⟩ : ∃ d tail', (c :: tail).drop (MAX_FILENAME - 1) = d :: tail' :=
    List.exists_cons_of_length_pos (by rw [List.length_drop]; omega)
  have hd : d ≠ slash := by
    rintro rfl
    exact hseg (List.mem_of_mem_drop (hdrop ▸ List.mem_cons_self))
  rw [List.cons_append] at htake ⊢
  rw [pieces_cons, htake, hdrop, List.cons_append, skipSlash, if_neg hd]

include hrest

theorem pieces_short (hshort : seg.length ≤ MAX_FILENAME - 1) (hne : seg ++ rest ≠ []) :
    pieces (seg ++ rest) = seg :: pieces (skipSlash rest) := by
  have htake := takeComponent_name hseg hshort hrest
  obtain ⟨c, text, htext⟩ := List.exists_cons_of_ne_nil hne
  rw [htext] at htake ⊢
  rw [pieces_cons, htake]

theorem namesOf_segment :
    namesOf (seg ++ rest) = (if seg = [] then [] else [seg]) ++ namesOf (skipSlash rest) := by
  have hfirst : [seg].filter (fun name => name ≠ []) = if seg = [] then [] else [seg] := by
    by_cases hnil : seg = [] <;> simp [hnil]
  rcases hrest with rfl | ⟨r, rfl⟩
  · rw [List.append_nil, namesOf, List.splitOn_eq_singleton hseg, hfirst]
    exact (List.append_nil _).symm
  · rw [namesOf, List.splitOn_append_cons_self_of_not_mem hseg, ← List.singleton_append,
      List.filter_append, hfirst, skipSlash, if_pos rfl]
    rfl

end Segment

/-- The cases of the loop: a text starts with a long segment or with a short one. -/
theorem pieces_induction {motive : List Byte → Prop} (nil : motive [])
    (long : ∀ seg rest, slash ∉ seg → SegmentEnd rest → MAX_FILENAME - 1 < seg.length →
      motive (seg.drop (MAX_FILENAME - 1) ++ rest) → motive (seg ++ rest))
    (short : ∀ seg rest, slash ∉ seg → SegmentEnd rest → seg.length ≤ MAX_FILENAME - 1 →
      seg ++ rest ≠ [] → motive (skipSlash rest) → motive (seg ++ rest)) (text : List Byte) :
    motive text := by
  induction hn : text.length using Nat.strongRecOn generalizing text with
  | ind n ih =>
    cases text with
    | nil => exact nil
    | cons c tail =>
      obtain ⟨seg, rest, htext, hseg, hrest⟩ := exists_segment (c :: tail)
      rw [htext] at hn ⊢
      rw [List.length_append] at hn
      rcases Nat.lt_or_ge (MAX_FILENAME - 1) seg.length with hlong | hshort
      · refine long seg rest hseg hrest hlong (ih _ ?_ _ rfl)
        rw [List.length_append, List.length_drop, ← hn]
        simp only [MAX_FILENAME] at hlong ⊢
        omega
      · refine short seg rest hseg hrest hshort (htext ▸ List.cons_ne_nil _ _) (ih _ ?_ _ rfl)
        rcases hrest with rfl | ⟨r, rfl⟩
        · rw [List.append_nil] at htext
          rw [← hn, ← htext]
          exact Nat.zero_lt_succ _
        · rw [skipSlash, if_pos rfl, ← hn, List.length_cons]
          omega

theorem pieces_name {seg : List Byte} (hseg : slash ∉ seg) (hne : seg ≠ [])
    (hshort : seg.length ≤ MAX_FILENAME - 1) : pieces seg = [seg] := by
  have hpieces := pieces_short hseg (Or.inl rfl) hshort (by rwa [List.append_nil])
  rwa [List.append_nil] at hpieces

/-- But for the empty ones, the pieces are those of the names. -/
theorem pieces_filter (text : List Byte) :
    (pieces text).filter (fun piece => piece ≠ []) = (namesOf text).flatMap pieces := by
  induction text using pieces_induction with
  | nil => rfl
  | long seg rest hseg hrest hlong ih =>
    have hpos : 0 < seg.length := Nat.zero_lt_of_lt hlong
    have hne : seg ≠ [] := List.ne_nil_of_length_pos hpos
    have hfirst : seg.take (MAX_FILENAME - 1) ≠ [] :=
      List.ne_nil_of_length_pos (by rw [List.length_take]; exact Nat.lt_min.mpr ⟨by decide, hpos⟩)
    have hlast : seg.drop (MAX_FILENAME - 1) ≠ [] :=
      List.ne_nil_of_length_pos (by rw [List.length_drop]; omega)
    have hdrop : slash ∉ seg.drop (MAX_FILENAME - 1) := fun h => hseg (List.mem_of_mem_drop h)
    have hwhole : pieces (seg ++ []) = _ := pieces_long hseg hlong
    rw [List.append_nil, List.append_nil] at hwhole
    rw [pieces_long hseg hlong, List.filter_cons_of_pos (by simpa using hfirst), ih,
      namesOf_segment hdrop hrest, if_neg hlast, namesOf_segment hseg hrest, if_neg hne,
      List.flatMap_append, List.flatMap_append, List.flatMap_singleton, List.flatMap_singleton, hwhole]
    rfl
  | short seg rest hseg hrest hshort hne ih =>
    rw [pieces_short hseg hrest hshort hne, namesOf_segment hseg hrest]
    rcases Decidable.em (seg = []) with rfl | hseg'
    · rw [List.filter_cons_of_neg (by simp), ih, if_pos rfl]
      rfl
    · rw [List.filter_cons_of_pos (by simpa using hseg'), ih, if_neg hseg', List.flatMap_append,
        List.flatMap_singleton, pieces_name hseg hseg' hshort]
      rfl

theorem doubled_cons (c : Byte) (text : List Byte) :
    Doubled (c :: text) ↔ (c = slash ∧ text.head? = some slash) ∨ Doubled text := by
  rw [Doubled, List.infix_cons_iff, List.cons_prefix_cons]
  refine or_congr (and_congr eq_comm ?_) Iff.rfl
  cases text with
  | nil => simp
  | cons d text => simp [List.cons_prefix_cons, eq_comm]

theorem doubled_segment {seg rest : List Byte} (hseg : slash ∉ seg) :
    Doubled (seg ++ rest) ↔ Doubled rest := by
  induction seg with
  | nil => exact Iff.rfl
  | cons c seg ih =>
    rw [List.mem_cons, not_or] at hseg
    rw [List.cons_append, doubled_cons, ih hseg.2]
    exact or_iff_right fun h => hseg.1 h.1.symm

theorem not_doubled_nil : ¬ Doubled [] := fun h => absurd h.length_le (by decide)

/-- A text in the loop has an empty piece when it starts with a `/` or two are adjacent. -/
theorem nil_mem_pieces_iff (text : List Byte) :
    [] ∈ pieces text ↔ text.head? = some slash ∨ Doubled text := by
  induction text using pieces_induction with
  | nil => exact iff_of_false List.not_mem_nil (not_or.mpr ⟨by simp, not_doubled_nil⟩)
  | long seg rest hseg hrest hlong ih =>
    have hhead : ∀ l : List Byte, slash ∉ l → 0 < l.length → (l ++ rest).head? ≠ some slash := by
      intro l hl hpos heq
      obtain ⟨c, l, rfl⟩ := List.exists_cons_of_length_pos hpos
      rw [List.cons_append, List.head?_cons, Option.some.injEq] at heq
      exact hl (heq ▸ List.mem_cons_self)
    have hdrop : slash ∉ seg.drop (MAX_FILENAME - 1) := fun h => hseg (List.mem_of_mem_drop h)
    have hfirst : seg.take (MAX_FILENAME - 1) ≠ [] :=
      List.ne_nil_of_length_pos (by
        rw [List.length_take]
        exact Nat.lt_min.mpr ⟨by decide, Nat.zero_lt_of_lt hlong⟩)
    rw [pieces_long hseg hlong, List.mem_cons, ih, or_iff_right hfirst.symm, doubled_segment hdrop,
      doubled_segment hseg, or_iff_right (hhead _ hdrop (by rw [List.length_drop]; omega)),
      or_iff_right (hhead _ hseg (Nat.zero_lt_of_lt hlong))]
  | short seg rest hseg hrest hshort hne ih =>
    rw [pieces_short hseg hrest hshort hne, List.mem_cons, ih, doubled_segment hseg]
    rcases hrest with rfl | ⟨r, rfl⟩
    · rw [List.append_nil] at hne ⊢
      have hhead : seg.head? ≠ some slash := fun h => hseg (List.mem_of_mem_head? h)
      simp [hhead, hne.symm, skipSlash, not_doubled_nil]
    · rw [skipSlash, if_pos rfl, doubled_cons]
      cases seg with
      | nil => simp
      | cons c seg =>
        have hc : c ≠ slash := fun h => hseg (h ▸ List.mem_cons_self)
        simp [hc]

/-- Behind the leading `/`. -/
theorem nil_mem_pieces (text : List Byte) : [] ∈ pieces (skipSlash text) ↔ Doubled text := by
  rw [nil_mem_pieces_iff]
  cases text with
  | nil => exact iff_of_false (not_or.mpr ⟨by simp [skipSlash], not_doubled_nil⟩) not_doubled_nil
  | cons c text =>
    rw [skipSlash, doubled_cons]
    rcases Decidable.em (c = slash) with hc | hc
    · rw [if_pos hc, and_iff_right hc]
    · rw [if_neg hc, List.head?_cons, doubled_cons]
      simp [hc]

theorem namesOf_skipSlash (text : List Byte) : namesOf (skipSlash text) = namesOf text := by
  cases text with
  | nil => rfl
  | cons c text =>
    rcases Decidable.em (c = slash) with rfl | hc
    · have hnames : namesOf ([] ++ slash :: text) = _ :=
        namesOf_segment List.not_mem_nil (Or.inr ⟨text, rfl⟩)
      rw [if_pos rfl, List.nil_append, List.nil_append] at hnames
      exact hnames.symm
    · rw [skipSlash, if_neg hc]

/-- Without adjacent slashes the pieces depend on the names only. -/
theorem pieces_of_not_doubled {text : List Byte} (h : ¬ Doubled text) :
    pieces (skipSlash text) = (namesOf text).flatMap pieces := by
  rw [← namesOf_skipSlash, ← pieces_filter]
  symm
  rw [List.filter_eq_self]
  intro piece hpiece
  refine decide_eq_true fun hnil => h ((nil_mem_pieces text).mp ?_)
  rwa [hnil] at hpiece

/-! ## The walk -/

section Walk
variable {W : Type} (nodeAt : W → Word → FsNode W)

/-- The lookups of the pieces of a text, one after the other from the root. -/
def walk (root : Word) (text : List Byte) (w : W) : Word × W :=
  (pieces (skipSlash text)).foldl (lookupComponent nodeAt) (root, w)

theorem resolveFrom_pieces (n : Nat) (text : List Byte) {current : Word} (w : W)
    (hcurrent : current ≠ 0#32) : (resolveFrom nodeAt n text current w).value =
      (piecesFrom n text).foldl (lookupComponent nodeAt) (current, w) := by
  induction n generalizing text current w with
  | zero => rfl
  | succ n ih =>
    cases text with
    | nil => rfl
    | cons c text =>
      rw [resolveFrom, piecesFrom, List.foldl_cons, lookupComponent, if_neg hcurrent]
      cases (nodeAt w current).finddirFn with
      | none => exact (foldl_lookup_null nodeAt _ rfl).symm
      | some finddir =>
        dsimp only
        rw [Logged.value_bind]
        split
        · next hnull =>
          rw [foldl_lookup_null nodeAt _ hnull]
          exact Prod.ext hnull.symm rfl
        · next hfound => exact ih _ _ hfound

theorem vfsResolvePath_pieces (root : Word) (text : List Byte) (w : W) :
    (vfsResolvePath nodeAt root text w).value = walk nodeAt root text w := by
  unfold vfsResolvePath walk
  split
  · next hroot =>
    rw [foldl_lookup_null nodeAt _ hroot, hroot]
    rfl
  · next hroot =>
    split
    · next hslash =>
      rw [hslash]
      rfl
    · exact resolveFrom_pieces nodeAt _ _ w hroot

/-- No directory has an entry with an empty name. -/
def NoEmptyNames : Prop :=
  ∀ w node finddir, (nodeAt w node).finddirFn = some finddir → (finddir node [] w).1 = 0#32

variable {nodeAt}

/-- A walk that looks up an empty name finds nothing. -/
theorem walk_doubled (hempty : NoEmptyNames nodeAt) (root : Word) {text : List Byte} (w : W)
    (h : Doubled text) : (walk nodeAt root text w).1 = 0#32 := by
  have hstep : ∀ s : Word × W, (lookupComponent nodeAt s []).1 = 0#32 := by
    intro s
    unfold lookupComponent
    split
    · next hnull => exact hnull
    · cases hfind : (nodeAt s.2 s.1).finddirFn with
      | none => rfl
      | some finddir => exact hempty _ _ _ hfind
  obtain ⟨before, after, hpieces⟩ := List.append_of_mem ((nil_mem_pieces text).mpr h)
  rw [walk, hpieces, List.foldl_append, List.foldl_cons, foldl_lookup_null nodeAt after (hstep _)]
  exact hstep _

theorem walk_congr {text text' : List Byte} (h : ¬ Doubled text) (h' : ¬ Doubled text')
    (hnames : namesOf text = namesOf text') (root : Word) (w : W) :
    walk nodeAt root text w = walk nodeAt root text' w := by
  rw [walk, walk, pieces_of_not_doubled h, pieces_of_not_doubled h', hnames]

end Walk

/-! ## `normalPath` -/

theorem squeeze_head? (text : List Byte) : (squeeze text).head? = text.head? := by
  induction text with
  | nil => rfl
  | cons c text ih =>
    rw [squeeze]
    split
    · next h => rw [ih, h.2, h.1, List.head?_cons]
    · rfl

theorem squeeze_not_doubled (text : List Byte) : ¬ Doubled (squeeze text) := by
  induction text with
  | nil => exact not_doubled_nil
  | cons c text ih =>
    rw [squeeze]
    split
    · exact ih
    · next h =>
      rw [doubled_cons, squeeze_head?]
      exact not_or.mpr ⟨h, ih⟩

theorem splitOn_slash (text : List Byte) :
    (slash :: text).splitOn slash = [] :: text.splitOn slash :=
  List.splitOn_append_cons_self_of_not_mem List.not_mem_nil text

theorem splitOn_other {c : Byte} (hc : c ≠ slash) (text : List Byte) :
    (c :: text).splitOn slash = (text.splitOn slash).modifyHead (c :: ·) := by
  rw [List.splitOn_cons_eq_if_modifyHead, if_neg (by simpa using hc)]

/-- A text that starts with a `/` has an empty first segment. -/
theorem splitOn_head {text seg : List Byte} {segs : List (List Byte)}
    (hhead : text.head? = some slash) (h : text.splitOn slash = seg :: segs) : seg = [] := by
  obtain ⟨rest, rfl⟩ := List.head?_eq_some_iff.mp hhead
  rw [splitOn_slash] at h
  exact (List.cons.inj h).1.symm

/-- The segments of a text change by empty ones only, and the first one stays. -/
theorem squeeze_segments (text : List Byte) :
    ∃ seg segs segs', text.splitOn slash = seg :: segs ∧ (squeeze text).splitOn slash = seg :: segs' ∧
      segs.filter (fun name => name ≠ []) = segs'.filter fun name => name ≠ [] := by
  induction text with
  | nil => exact ⟨[], [], [], rfl, rfl, rfl⟩
  | cons c text ih =>
    obtain ⟨seg, segs, segs', htext, hsqueeze, hsame⟩ := ih
    rw [squeeze]
    split
    · next h =>
      obtain ⟨rfl, hhead⟩ := h
      obtain rfl := splitOn_head hhead htext
      refine ⟨[], [] :: segs, segs', ?_, hsqueeze, ?_⟩
      · rw [splitOn_slash, htext]
      · rw [List.filter_cons_of_neg (by simp)]
        exact hsame
    · rcases Decidable.em (c = slash) with rfl | hc
      · refine ⟨[], seg :: segs, seg :: segs', ?_, ?_, ?_⟩
        · rw [splitOn_slash, htext]
        · rw [splitOn_slash, hsqueeze]
        · rw [List.filter_cons, List.filter_cons, hsame]
      · refine ⟨c :: seg, segs, segs', ?_, ?_, hsame⟩
        · rw [splitOn_other hc, htext]
          rfl
        · rw [splitOn_other hc, hsqueeze]
          rfl

theorem namesOf_squeeze (text : List Byte) : namesOf (squeeze text) = namesOf text := by
  obtain ⟨seg, segs, segs', htext, hsqueeze, hsame⟩ := squeeze_segments text
  rw [namesOf, namesOf, htext, hsqueeze, List.filter_cons, List.filter_cons, hsame]

/-- What `dropSlash` drops. -/
theorem dropSlash_cases (text : List Byte) :
    (text.getLast? ≠ some slash ∧ dropSlash text = text) ∨ text = dropSlash text ++ [slash] := by
  unfold dropSlash
  split
  · next h =>
    obtain ⟨front, rfl⟩ := List.getLast?_eq_some_iff.mp h
    rw [List.dropLast_concat]
    exact Or.inr rfl
  · next h => exact Or.inl ⟨h, rfl⟩

theorem namesOf_dropSlash (text : List Byte) : namesOf (dropSlash text) = namesOf text := by
  rcases dropSlash_cases text with ⟨_, h⟩ | h
  · rw [h]
  · have hend : namesOf (dropSlash text ++ [slash]) = namesOf (dropSlash text) := by
      rw [namesOf, List.splitOn_append_cons_self, List.filter_append, List.splitOn_nil]
      exact List.append_nil _
    rw [← hend, ← h]

theorem dropSlash_front (text : List Byte) : dropSlash text <+: text := by
  rcases dropSlash_cases text with ⟨_, h⟩ | h
  · rw [h]
  · exact ⟨[slash], h.symm⟩

theorem normalPath_not_doubled (path : List Byte) : ¬ Doubled (normalPath path) := by
  unfold normalPath
  split
  · exact fun h => absurd h.length_le (by decide)
  · exact fun h => squeeze_not_doubled path (h.trans (dropSlash_front _).isInfix)

theorem namesOf_normalPath (path : List Byte) : namesOf (normalPath path) = namesOf path := by
  unfold normalPath
  split
  · next h => rw [← h, namesOf_squeeze]
  · rw [namesOf_dropSlash, namesOf_squeeze]

/-! ## The directory text -/

theorem resolvedText_eq (dir : List Byte) : resolvedText dir = dir.take (MAX_PATH - 1) := by
  unfold resolvedText
  split
  · rfl
  · next h => exact (List.take_of_length_le (by simp only [MAX_PATH] at h ⊢; omega)).symm

/-- As far as no slashes are adjacent, nothing is squeezed out. -/
theorem take_squeeze (n : Nat) {text : List Byte} (h : ¬ Doubled (text.take n)) :
    (squeeze text).take n = text.take n := by
  induction n generalizing text with
  | zero => rfl
  | succ n ih =>
    cases text with
    | nil => rfl
    | cons c text =>
      rw [List.take_succ_cons, doubled_cons, not_or] at h
      rw [squeeze]
      split
      · next hrun =>
        obtain ⟨rfl, hhead⟩ := hrun
        -- the `/` behind it is cut off
        cases n with
        | zero =>
          have hfirst : (squeeze text).head? = some slash := (squeeze_head? text).trans hhead
          obtain ⟨rest, hrest⟩ := List.head?_eq_some_iff.mp hfirst
          rw [hrest]
          rfl
        | succ n =>
          refine absurd ⟨rfl, ?_⟩ h.1
          rw [List.head?_take, if_neg (Nat.succ_ne_zero n), hhead]
      · rw [List.take_succ_cons, List.take_succ_cons, ih h.2]

/-- The text that fits, before and after the slashes are removed. -/
theorem resolvedText_names {dir : List Byte} (h : ¬ Doubled (resolvedText dir)) :
    namesOf (resolvedText (dropSlash (squeeze dir))) = namesOf (resolvedText dir) ∧
      ¬ Doubled (resolvedText (dropSlash (squeeze dir))) := by
  rw [resolvedText_eq] at h
  rw [resolvedText_eq, resolvedText_eq]
  refine ⟨?_, fun hdoubled => squeeze_not_doubled dir ?_⟩
  · rw [← take_squeeze _ h]
    rcases dropSlash_cases (squeeze dir) with ⟨_, hkept⟩ | hdropped
    · rw [hkept]
    · rcases Nat.lt_or_ge (dropSlash (squeeze dir)).length (MAX_PATH - 1) with hlt | hge
      · have hlen := congrArg List.length hdropped
        rw [List.length_append, List.length_singleton] at hlen
        rw [List.take_of_length_le (Nat.le_of_lt hlt), List.take_of_length_le (by omega),
          namesOf_dropSlash]
      · rw [congrArg (List.take (MAX_PATH - 1)) hdropped, List.take_append_of_le_length hge]
  · exact hdoubled.trans ((List.take_prefix _ _).trans (dropSlash_front _)).isInfix

/-! ## The last slash -/

theorem Splits.unique {path dir name dir' name' : List Byte} (h : Splits path dir name)
    (h' : Splits path dir' name') : dir = dir' ∧ name = name' := by
  rcases h with ⟨hno, rfl, rfl⟩ | ⟨hpath, hname⟩ <;> rcases h' with ⟨hno', rfl, hname'⟩ | ⟨hpath', hname'⟩
  · exact ⟨rfl, hname'.symm⟩
  · exact absurd (hpath' ▸ List.mem_append_right _ List.mem_cons_self) hno
  · exact absurd (hpath ▸ List.mem_append_right _ List.mem_cons_self) hno'
  · -- the last slash is found at one index only
    have hindex : dir.length = dir'.length := by
      have hlast : lastSlashFrom (dir ++ slash :: name) 0 none = _ := lastSlashFrom_append hname
      have hlast' : lastSlashFrom (dir' ++ slash :: name') 0 none = _ := lastSlashFrom_append hname'
      rw [← hpath] at hlast
      rw [← hpath', hlast] at hlast'
      simpa using hlast'
    obtain ⟨hdir, hrest⟩ := List.append_inj (hpath.symm.trans hpath') hindex
    exact ⟨hdir, (List.cons.inj hrest).2⟩

theorem squeeze_of_notMem {text : List Byte} (h : slash ∉ text) : squeeze text = text := by
  induction text with
  | nil => rfl
  | cons c text ih =>
    rw [List.mem_cons, not_or] at h
    rw [squeeze, if_neg fun hrun => h.1 hrun.1.symm, ih h.2]

theorem dropSlash_cons {c : Byte} {text : List Byte} (h : c ≠ slash ∨ text ≠ []) :
    dropSlash (c :: text) = c :: dropSlash text := by
  cases text with
  | nil =>
    have hc : c ≠ slash := h.resolve_right fun hnil => hnil rfl
    simp [dropSlash, hc]
  | cons d text =>
    unfold dropSlash
    rw [List.getLast?_cons_cons]
    split <;> rfl

/-- The run in front of the name. -/
theorem squeeze_append {name : List Byte} (hname : slash ∉ name) (dir : List Byte) :
    squeeze (dir ++ slash :: name) = dropSlash (squeeze dir) ++ slash :: name := by
  have hhead : name.head? ≠ some slash := fun h => hname (List.mem_of_mem_head? h)
  induction dir with
  | nil =>
    have hfirst : squeeze (slash :: name) = slash :: squeeze name := if_neg fun h => hhead h.2
    rw [List.nil_append, hfirst, squeeze_of_notMem hname]
    rfl
  | cons c dir ih =>
    rw [List.cons_append, squeeze, squeeze, ih]
    cases dir with
    | nil =>
      rcases Decidable.em (c = slash) with rfl | hc
      · rfl
      · rw [if_neg fun h => hc h.1, if_neg fun h => hc h.1, dropSlash_cons (Or.inl hc)]
        rfl
    | cons d dir =>
      rw [List.cons_append, List.head?_cons, List.head?_cons]
      split
      · rfl
      · have hne : squeeze (d :: dir) ≠ [] := by
          intro hnil
          have hfirst := squeeze_head? (d :: dir)
          rw [hnil] at hfirst
          cases hfirst
        rw [dropSlash_cons (Or.inr hne)]
        rfl

/-- No `/` is left at the end. -/
theorem dropSlash_squeeze_last (text : List Byte) :
    (dropSlash (squeeze text)).getLast? ≠ some slash := by
  intro h
  rcases dropSlash_cases (squeeze text) with ⟨hlast, hkept⟩ | hdropped
  · exact hlast (hkept ▸ h)
  · obtain ⟨front, hfront⟩ := List.getLast?_eq_some_iff.mp h
    refine squeeze_not_doubled text ?_
    rw [hdropped, hfront, List.append_assoc]
    exact (List.suffix_append front [slash, slash]).isInfix

theorem normalPath_of_notMem {path : List Byte} (h : slash ∉ path) : normalPath path = path := by
  have hend : path.getLast? ≠ some slash := fun hlast => h (List.mem_of_getLast? hlast)
  have honly : path ≠ [slash] := fun heq => h (heq ▸ List.mem_singleton_self slash)
  unfold normalPath
  rw [squeeze_of_notMem h, if_neg honly, dropSlash, if_neg hend]

/-- A path that ends in a name keeps it. -/
theorem normalPath_name {dir name : List Byte} (hname : slash ∉ name) (hne : name ≠ []) :
    normalPath (dir ++ slash :: name) = dropSlash (squeeze dir) ++ slash :: name := by
  obtain ⟨c, rest, rfl⟩ := List.exists_cons_of_ne_nil hne
  have hlast : (dropSlash (squeeze dir) ++ slash :: c :: rest).getLast? ≠ some slash := by
    rw [List.getLast?_append_cons, List.getLast?_cons_cons]
    exact fun h => hname (List.mem_of_getLast? h)
  have hlong : dropSlash (squeeze dir) ++ slash :: c :: rest ≠ [slash] := by
    intro h
    have hlen := congrArg List.length h
    simp only [List.length_append, List.length_cons, List.length_nil] at hlen
    omega
  unfold normalPath
  rw [squeeze_append hname, if_neg hlong, dropSlash, if_neg hlast]

/-- A `/` at the end is dropped, except from a path that is made of slashes only. -/
theorem normalPath_slash (dir : List Byte) :
    normalPath (dir ++ [slash]) =
      if dropSlash (squeeze dir) = [] then [slash] else dropSlash (squeeze dir) := by
  have hdrop : dropSlash (dropSlash (squeeze dir) ++ [slash]) = dropSlash (squeeze dir) := by
    rw [dropSlash, List.getLast?_concat, if_pos rfl, List.dropLast_concat]
  unfold normalPath
  rw [squeeze_append List.not_mem_nil, hdrop]
  exact if_congr List.append_left_eq_self rfl rfl

/-- The directory of the path without redundant slashes, where the name is the same. -/
theorem splits_normalPath {path dir name dir' : List Byte} (h : Splits path dir name)
    (h' : Splits (normalPath path) dir' name) : dir' = dropSlash (squeeze dir) := by
  rcases h with ⟨hno, rfl, hpath⟩ | ⟨rfl, hname⟩
  · rw [normalPath_of_notMem hno] at h'
    exact (h'.unique (Or.inl ⟨hno, rfl, hpath⟩)).1
  · rcases Decidable.em (name = []) with rfl | hne
    · rw [normalPath_slash] at h'
      split at h'
      · next hnone =>
        rw [hnone]
        exact (h'.unique (Or.inr ⟨rfl, List.not_mem_nil⟩)).1
      · next hsome =>
        -- what is left does not end in a `/`, so its name is not empty
        rcases h' with ⟨_, _, hnil⟩ | ⟨hend, _⟩
        · exact absurd hnil.symm hsome
        · refine absurd ?_ (dropSlash_squeeze_last dir)
          rw [hend, List.getLast?_concat]
    · rw [normalPath_name hname hne] at h'
      exact (h'.unique (Or.inr ⟨rfl, hname⟩)).1

/-! ## The property -/

section Law
variable {W : Type} (nodeAt : W → Word → FsNode W)

/-- Redundant slashes change neither the node that the path resolves to nor the callback that
`vfs_create`, `vfs_mkdir` and `vfs_unlink` invoke, with its arguments. -/
structure SlashesIrrelevant (path : List Byte) (s : Vfs W) : Prop where
  resolve : (vfsResolvePath nodeAt s.root path s.world).value.1 =
    (vfsResolvePath nodeAt s.root (normalPath path) s.world).value.1
  update : ∀ (op : ParentOp) (c : Callback), c.IsUpdate →
    (c ∈ (op.exec nodeAt path s).log ↔ c ∈ (op.exec nodeAt (normalPath path) s).log)

/-- No two slashes are adjacent, or the path without them names nothing either. And for each
operation: the path ends in the same name as without redundant slashes and no two slashes
are adjacent in the directory text, or neither directory text names a directory with the
callback. -/
structure SlashesHarmless (path : List Byte) (s : Vfs W) : Prop where
  resolve : ¬ Doubled path ∨ (walk nodeAt s.root (normalPath path) s.world).1 = 0#32
  update : ∀ (op : ParentOp) (dir name dir' name' : List Byte), Splits path dir name →
    Splits (normalPath path) dir' name' →
      (name = name' ∧ ¬ Doubled (resolvedText dir)) ∨
      (op.Absent nodeAt (walk nodeAt s.root (resolvedText dir) s.world) ∧
        op.Absent nodeAt (walk nodeAt s.root (resolvedText dir') s.world))

theorem ParentOp.callback_name {op : ParentOp} {node node' : Word} {name name' : List Byte}
    (h : op.callback node name = op.callback node' name') : name = name' := by
  cases op with
  | create flags => cases h; rfl
  | mkdir mode => cases h; rfl
  | unlink => cases h; rfl

variable {nodeAt}

theorem resolve_same_iff (hempty : NoEmptyNames nodeAt) (path : List Byte) (root : Word) (w : W) :
    (vfsResolvePath nodeAt root path w).value.1 =
        (vfsResolvePath nodeAt root (normalPath path) w).value.1 ↔
      ¬ Doubled path ∨ (walk nodeAt root (normalPath path) w).1 = 0#32 := by
  rw [vfsResolvePath_pieces, vfsResolvePath_pieces]
  rcases Classical.em (Doubled path) with hdoubled | hsingle
  · rw [walk_doubled hempty root w hdoubled, or_iff_right (not_not.mpr hdoubled)]
    exact eq_comm
  · refine iff_of_true ?_ (Or.inl hsingle)
    rw [walk_congr hsingle (normalPath_not_doubled path) (namesOf_normalPath path).symm]

/-- The operation on two paths, in terms of their directories and names. -/
theorem update_same_iff (hempty : NoEmptyNames nodeAt) {path dir name dir' name' : List Byte}
    (h : Splits path dir name) (h' : Splits (normalPath path) dir' name') (op : ParentOp) (s : Vfs W) :
    (∀ c : Callback, c.IsUpdate →
        (c ∈ (op.exec nodeAt path s).log ↔ c ∈ (op.exec nodeAt (normalPath path) s).log)) ↔
      (name = name' ∧ ¬ Doubled (resolvedText dir)) ∨
      (op.Absent nodeAt (walk nodeAt s.root (resolvedText dir) s.world) ∧
        op.Absent nodeAt (walk nodeAt s.root (resolvedText dir') s.world)) := by
  have hcases := exec_cases nodeAt h op s
  have hcases' := exec_cases nodeAt h' op s
  rw [directory, vfsResolvePath_pieces] at hcases hcases'
  constructor
  · intro hsame
    rcases hcases with ⟨habsent, _, hnone⟩ | ⟨hpresent, hlog⟩
    · rcases hcases' with ⟨habsent', _, _⟩ | ⟨_, hlog'⟩
      · exact Or.inr ⟨habsent, habsent'⟩
      · have hup := op.callback_isUpdate (walk nodeAt s.root (resolvedText dir') s.world).1 name'
        exact absurd hup (hnone _ ((hsame _ hup).mpr ((hlog' _ hup).mpr rfl)))
    · have hup := op.callback_isUpdate (walk nodeAt s.root (resolvedText dir) s.world).1 name
      have hin := (hsame _ hup).mp ((hlog _ hup).mpr rfl)
      rcases hcases' with ⟨_, _, hnone'⟩ | ⟨_, hlog'⟩
      · exact absurd hup (hnone' _ hin)
      · refine Or.inl ⟨ParentOp.callback_name ((hlog' _ hup).mp hin), fun hdoubled => hpresent ?_⟩
        exact Or.inl (walk_doubled hempty _ _ hdoubled)
  · rintro (⟨rfl, hsingle⟩ | ⟨habsent, habsent'⟩) c hup
    · obtain rfl := splits_normalPath h h'
      obtain ⟨hnames, hsingle'⟩ := resolvedText_names hsingle
      rw [walk_congr hsingle' hsingle hnames] at hcases'
      rcases hcases with ⟨habsent, _, hnone⟩ | ⟨hpresent, hlog⟩
      · rcases hcases' with ⟨_, _, hnone'⟩ | ⟨hpresent', _⟩
        · exact iff_of_false (fun hc => hnone c hc hup) fun hc => hnone' c hc hup
        · exact absurd habsent hpresent'
      · rcases hcases' with ⟨habsent', _, _⟩ | ⟨_, hlog'⟩
        · exact absurd habsent' hpresent
        · rw [hlog c hup, hlog' c hup]
    · rcases hcases with ⟨_, _, hnone⟩ | ⟨hpresent, _⟩
      · rcases hcases' with ⟨_, _, hnone'⟩ | ⟨hpresent', _⟩
        · exact iff_of_false (fun hc => hnone c hc hup) fun hc => hnone' c hc hup
        · exact absurd habsent' hpresent'
      · exact absurd habsent hpresent

/-- On every tree without empty names and for every path, the redundant slashes do not
matter if and only if they are harmless. -/
theorem slashes_irrelevant_iff (hempty : NoEmptyNames nodeAt) (path : List Byte) (s : Vfs W) :
    SlashesIrrelevant nodeAt path s ↔ SlashesHarmless nodeAt path s := by
  constructor
  · rintro ⟨hresolve, hupdate⟩
    exact ⟨(resolve_same_iff hempty path s.root s.world).mp hresolve,
      fun op dir name dir' name' h h' => (update_same_iff hempty h h' op s).mp (hupdate op)⟩
  · rintro ⟨hresolve, hupdate⟩
    refine ⟨(resolve_same_iff hempty path s.root s.world).mpr hresolve, fun op => ?_⟩
    obtain ⟨dir, name, h⟩ := exists_splits path
    obtain ⟨dir', name', h'⟩ := exists_splits (normalPath path)
    exact (update_same_iff hempty h h' op s).mpr (hupdate op dir name dir' name' h h')

end Law

/-! ## `/a//b` and `/a/` -/

/-- `smallTree`, with an `unlink` in every node. -/
def slashTree (w : Unit) (node : Word) : FsNode Unit :=
  { smallTree w node with unlinkFn := some fun _ _ w => (0#32, w) }

theorem slashTree_noEmptyNames : NoEmptyNames slashTree := by
  intro w node finddir hfind
  cases hfind
  dsimp only
  rw [if_neg (by simp), if_neg (by simp)]

def slashVfs : Vfs Unit := ⟨1#32, fun _ => ⟨0#32, 0#32, 0#32, false⟩, ()⟩

theorem slashes_irrelevant_iff_small :
    NoEmptyNames slashTree ∧
      (SlashesIrrelevant slashTree [slash, 0x61#8, slash] slashVfs ↔
        SlashesHarmless slashTree [slash, 0x61#8, slash] slashVfs) :=
  ⟨slashTree_noEmptyNames, slashes_irrelevant_iff slashTree_noEmptyNames _ _⟩

/-- `/a//b` is not found. `vfs_unlink("/a/")` is not `vfs_unlink("/a")`: it asks the
directory `a` to delete the empty name. -/
theorem slashes_matter :
    NoEmptyNames slashTree ∧
      normalPath [slash, 0x61#8, slash, slash, 0x62#8] = [slash, 0x61#8, slash, 0x62#8] ∧
      ¬ SlashesIrrelevant slashTree [slash, 0x61#8, slash, slash, 0x62#8] slashVfs ∧
      normalPath [slash, 0x61#8, slash] = [slash, 0x61#8] ∧
      ¬ SlashesIrrelevant slashTree [slash, 0x61#8, slash] slashVfs := by
  refine ⟨slashTree_noEmptyNames, by decide, fun h => ?_, by decide, fun h => ?_⟩
  · exact absurd h.resolve (by decide)
  · have hcall := (h.update .unlink (.unlink 2#32 []) trivial).mp (by decide)
    exact absurd hcall (by decide)

end Zenix.VfsComplete
