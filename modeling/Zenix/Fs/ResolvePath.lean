import Mathlib.Computability.StateTransition
import Zenix.Fs.VfsComplete

/-!
# The loops of vfs_resolve_path (kernel/fs/vfs_complete.c)

`vfs_resolve_path` copies one component after the other into a buffer of 128 bytes.
Here it is a machine that takes one iteration or one statement at a time, so that it
might write anywhere and might run forever.

Results:
1. `resolve_writes`: what is written lies in the buffer.
2. `resolve_returns`: the machine stops with the result of `vfsResolvePath`.
3. `resolve_path_is_fold`: on a well-formed path that is a fold of the lookups.
-/

namespace Zenix.VfsComplete
open ByteMemory StateTransition

/-- The bytes before the terminator. -/
structure CString where
  bytes : List Byte
  noNul : 0#8 ∉ bytes

/-! ## The machine -/

inductive ResolvePoint where
  /-- The checks in front of the loop. -/
  | entry
  /-- `while (*path)`. -/
  | outer
  /-- `while (*path && *path != '/' && i < MAX_FILENAME - 1)`. -/
  | inner
  /-- `component[i] = '\0'`, and the `/` behind the component. -/
  | close
  | lookup
  | returned
deriving DecidableEq

/-- The variables of `vfs_resolve_path`. `path` is the rest of the string. -/
structure ResolveState (W : Type) where
  point : ResolvePoint
  path : List Byte
  component : Nat → Byte
  i : Nat
  current : Word
  world : W

/-- The string that `component` points to. -/
def componentName (component : Nat → Byte) : List Byte :=
  ((List.range MAX_FILENAME).map component).takeWhile fun c => c ≠ 0#8

section Machine
variable {W : Type} (nodeAt : W → Word → FsNode W) (root : Word)

def resolveStep (s : ResolveState W) : Option (ResolveState W) :=
  match s.point with
  | .entry =>
      if root = 0#32 then some { s with point := .returned, current := 0#32 }
      else if s.path = [slash] then some { s with point := .returned, current := root }
      else some { s with point := .outer, current := root, path := skipSlash s.path }
  | .outer =>
      match s.path with
      | [] => some { s with point := .returned }
      | _ :: _ => some { s with point := .inner, i := 0 }
  | .inner =>
      match s.path with
      | [] => some { s with point := .close }
      | c :: path =>
          if c ≠ slash ∧ s.i < MAX_FILENAME - 1 then
            some { s with component := Function.update s.component s.i c, i := s.i + 1, path := path }
          else some { s with point := .close }
  | .close =>
      some { s with
        point := .lookup, component := Function.update s.component s.i 0#8, path := skipSlash s.path }
  | .lookup =>
      match (nodeAt s.world s.current).finddirFn with
      | none => some { s with point := .returned, current := 0#32 }
      | some finddir =>
          let found := finddir s.current (componentName s.component) s.world
          some { s with
            point := if found.1 = 0#32 then .returned else .outer
            current := found.1, world := found.2 }
  | .returned => none

/-- The element of `component` that the next step writes. -/
def ResolveState.writes (s : ResolveState W) : Option Nat :=
  match s.point, s.path with
  | .inner, c :: _ => if c ≠ slash ∧ s.i < MAX_FILENAME - 1 then some s.i else none
  | .close, _ => some s.i
  | _, _ => none

/-- The call, with whatever is in the buffer. -/
def resolveCall (path : CString) (component : Nat → Byte) (w : W) : ResolveState W where
  point := .entry
  path := path.bytes
  component := component
  i := 0
  current := 0#32
  world := w

/-! ## The buffer -/

/-- The index is in the buffer where it is used. -/
def ResolveState.InBuffer (s : ResolveState W) : Prop :=
  s.point = .inner ∨ s.point = .close → s.i < MAX_FILENAME

theorem resolveStep_inBuffer {s t : ResolveState W} (h : resolveStep nodeAt root s = some t)
    (hs : s.InBuffer) : t.InBuffer := by
  obtain ⟨point, path, component, i, current, w⟩ := s
  cases point with
  | entry =>
    simp only [resolveStep] at h
    split at h
    · cases h; simp [ResolveState.InBuffer]
    · split at h <;> cases h <;> simp [ResolveState.InBuffer]
  | outer =>
    cases path with
    | nil => cases h; simp [ResolveState.InBuffer]
    | cons c path =>
      cases h
      intro _
      exact Nat.zero_lt_succ _
  | inner =>
    have hi : i < MAX_FILENAME := hs (Or.inl rfl)
    cases path with
    | nil => cases h; exact fun _ => hi
    | cons c path =>
      simp only [resolveStep] at h
      split at h
      · next htake =>
        cases h
        intro _
        have := htake.2
        simp only [MAX_FILENAME] at this ⊢
        omega
      · cases h; exact fun _ => hi
  | close => cases h; simp [ResolveState.InBuffer]
  | lookup =>
    simp only [resolveStep] at h
    split at h
    · cases h; simp [ResolveState.InBuffer]
    · cases h
      intro hpoint
      dsimp only at hpoint
      split at hpoint <;> simp at hpoint
  | returned => cases h

/-- Whatever the path is, every write of the run is to `component[0]` up to
`component[127]`. -/
theorem resolve_writes {path : CString} {component : Nat → Byte} {w : W} {s : ResolveState W}
    (h : Reaches (resolveStep nodeAt root) (resolveCall path component w) s) {i : Nat}
    (hi : s.writes = some i) : i < MAX_FILENAME := by
  have hs : s.InBuffer := by
    clear hi
    induction h with
    | refl => simp [ResolveState.InBuffer, resolveCall]
    | tail _ hstep ih => exact resolveStep_inBuffer nodeAt root hstep ih
  obtain ⟨point, rest, component', j, current, w'⟩ := s
  cases point with
  | inner =>
    cases rest with
    | nil => cases hi
    | cons c rest =>
      simp only [ResolveState.writes] at hi
      split at hi
      · cases hi; exact hs (Or.inl rfl)
      · cases hi
  | close => cases hi; exact hs (Or.inr rfl)
  | entry => cases hi
  | outer => cases hi
  | lookup => cases hi
  | returned => cases hi

/-! ## The inner loop -/

/-- `component` with `name` from the index `i` on. -/
def writeBytes (component : Nat → Byte) : Nat → List Byte → Nat → Byte
  | _, [] => component
  | i, c :: name => writeBytes (Function.update component i c) (i + 1) name

theorem writeBytes_before (component : Nat → Byte) (name : List Byte) {i k : Nat} (h : k < i) :
    writeBytes component i name k = component k := by
  induction name generalizing component i with
  | nil => rfl
  | cons c name ih =>
    rw [writeBytes, ih _ (Nat.lt_succ_of_lt h), Function.update_of_ne (Nat.ne_of_lt h)]

theorem writeBytes_within (component : Nat → Byte) (name : List Byte) {i k : Nat}
    (h : k < name.length) : writeBytes component i name (i + k) = name[k] := by
  induction name generalizing component i k with
  | nil => exact absurd h (Nat.not_lt_zero _)
  | cons c name ih =>
    rw [writeBytes]
    cases k with
    | zero =>
      have hlast := writeBytes_before (Function.update component i c) name (Nat.lt_succ_self i)
      exact hlast.trans (Function.update_self i c component)
    | succ k =>
      rw [List.getElem_cons_succ, ← ih _ (Nat.lt_of_succ_lt_succ h),
        show i + (k + 1) = i + 1 + k by omega]

/-- The buffer reads back as the component. -/
theorem componentName_writeBytes (component : Nat → Byte) {name : List Byte}
    (hlen : name.length < MAX_FILENAME) (hnul : 0#8 ∉ name) :
    componentName (Function.update (writeBytes component 0 name) name.length 0#8) = name := by
  refine takeWhile_terminated hlen hnul (fun i hi => ?_) (Function.update_self _ _ _)
  have hwrite := writeBytes_within component name hi (i := 0)
  rw [Nat.zero_add] at hwrite
  rw [Function.update_of_ne (Nat.ne_of_lt hi), hwrite]

theorem takeComponent_append (n : Nat) (path : List Byte) :
    (takeComponent n path).1 ++ (takeComponent n path).2 = path := by
  induction n generalizing path with
  | zero => rfl
  | succ n ih =>
    cases path with
    | nil => rfl
    | cons c path =>
      rw [takeComponent]
      split
      · rfl
      · rw [List.cons_append, ih]

theorem takeComponent_le (n : Nat) (path : List Byte) : (takeComponent n path).1.length ≤ n := by
  induction n generalizing path with
  | zero => exact Nat.le_refl _
  | succ n ih =>
    cases path with
    | nil => exact Nat.zero_le _
    | cons c path =>
      rw [takeComponent]
      split
      · exact Nat.zero_le _
      · exact Nat.succ_le_succ (ih path)

/-- The inner loop moves what `takeComponent` moves. -/
theorem inner_reaches (path : List Byte) (component : Nat → Byte) {i n : Nat} (current : Word) (w : W)
    (hn : i + n = MAX_FILENAME - 1) :
    Reaches (resolveStep nodeAt root) ⟨.inner, path, component, i, current, w⟩
      ⟨.close, (takeComponent n path).2, writeBytes component i (takeComponent n path).1,
        i + (takeComponent n path).1.length, current, w⟩ := by
  induction n generalizing path component i with
  | zero =>
    -- the buffer is full: the rest of the component is left for the next round
    refine Relation.ReflTransGen.single ?_
    cases path with
    | nil => rfl
    | cons c path =>
      have hfull : ¬ (c ≠ slash ∧ i < MAX_FILENAME - 1) := fun h => by omega
      exact if_neg hfull
  | succ n ih =>
    cases path with
    | nil => exact Relation.ReflTransGen.single rfl
    | cons c path =>
      rw [takeComponent]
      rcases Decidable.em (c = slash) with hc | hc
      · rw [if_pos hc]
        exact Relation.ReflTransGen.single (if_neg fun h => h.1 hc)
      · have hlt : i < MAX_FILENAME - 1 := by omega
        have hstep : resolveStep nodeAt root ⟨.inner, c :: path, component, i, current, w⟩ =
            some ⟨.inner, path, Function.update component i c, i + 1, current, w⟩ :=
          if_pos ⟨hc, hlt⟩
        rw [if_neg hc]
        have hrest := ih path (Function.update component i c) (i := i + 1) (by omega)
        rw [show i + 1 + (takeComponent n path).1.length =
          i + ((takeComponent n path).1.length + 1) by omega] at hrest
        exact Relation.ReflTransGen.head hstep hrest

/-! ## The outer loop -/

theorem skipSlash_suffix (path : List Byte) : skipSlash path <:+ path := by
  cases path with
  | nil => exact List.suffix_refl _
  | cons c path =>
    rw [skipSlash]
    split
    · exact List.suffix_cons c path
    · exact List.suffix_refl _

/-- What is left of a string behind a component. -/
theorem notMem_skipSlash_rest {n : Nat} {path : List Byte} (hnul : 0#8 ∉ path) :
    0#8 ∉ skipSlash (takeComponent n path).2 := by
  intro h
  apply hnul
  rw [← takeComponent_append n path]
  exact List.mem_append_right _ ((skipSlash_suffix _).subset h)

/-- From the head of the loop to the lookup of the component. -/
theorem component_reaches (c : Byte) (path : List Byte) (component : Nat → Byte) (i : Nat)
    (current : Word) (w : W) (hnul : 0#8 ∉ c :: path) :
    ∃ component' j,
      componentName component' = (takeComponent (MAX_FILENAME - 1) (c :: path)).1 ∧
        Reaches (resolveStep nodeAt root) ⟨.outer, c :: path, component, i, current, w⟩
          ⟨.lookup, skipSlash (takeComponent (MAX_FILENAME - 1) (c :: path)).2, component', j,
            current, w⟩ := by
  have hname : 0#8 ∉ (takeComponent (MAX_FILENAME - 1) (c :: path)).1 := by
    intro h
    apply hnul
    rw [← takeComponent_append (MAX_FILENAME - 1) (c :: path)]
    exact List.mem_append_left _ h
  have hlen := takeComponent_le (MAX_FILENAME - 1) (c :: path)
  refine ⟨_, (takeComponent (MAX_FILENAME - 1) (c :: path)).1.length,
    componentName_writeBytes component (Nat.lt_of_le_of_lt hlen (by decide)) hname, ?_⟩
  have hinner := inner_reaches nodeAt root (c :: path) component (i := 0) current w
    (Nat.zero_add (MAX_FILENAME - 1))
  rw [Nat.zero_add] at hinner
  have hstart : resolveStep nodeAt root ⟨.outer, c :: path, component, i, current, w⟩ =
      some ⟨.inner, c :: path, component, 0, current, w⟩ := rfl
  have hclose : Reaches (resolveStep nodeAt root) ⟨.outer, c :: path, component, i, current, w⟩ _ :=
    Relation.ReflTransGen.head hstart hinner
  exact hclose.tail rfl

/-- The loop returns what `resolveFrom` does. -/
theorem outer_returns (n : Nat) {path : List Byte} (hn : path.length ≤ n) (hnul : 0#8 ∉ path)
    (component : Nat → Byte) (i : Nat) (current : Word) (w : W) :
    ∃ s, Reaches (resolveStep nodeAt root) ⟨.outer, path, component, i, current, w⟩ s ∧
      s.point = .returned ∧ (s.current, s.world) = (resolveFrom nodeAt n path current w).value := by
  induction n generalizing path component i current w with
  | zero =>
    obtain rfl := List.eq_nil_of_length_eq_zero (Nat.le_zero.mp hn)
    exact ⟨_, Relation.ReflTransGen.single rfl, rfl, rfl⟩
  | succ n ih =>
    cases path with
    | nil => exact ⟨_, Relation.ReflTransGen.single rfl, rfl, rfl⟩
    | cons c path =>
      obtain ⟨component', j, hname, hreach⟩ :=
        component_reaches nodeAt root c path component i current w hnul
      unfold resolveFrom
      cases hfind : (nodeAt w current).finddirFn with
      | none =>
        -- the node is no directory
        have hstep : resolveStep nodeAt root
            ⟨.lookup, skipSlash (takeComponent (MAX_FILENAME - 1) (c :: path)).2, component', j,
              current, w⟩ =
            some ⟨.returned, skipSlash (takeComponent (MAX_FILENAME - 1) (c :: path)).2, component',
              j, 0#32, w⟩ := by
          simp only [resolveStep, hfind]
        exact ⟨_, hreach.tail hstep, rfl, rfl⟩
      | some finddir =>
        dsimp only
        have hstep : resolveStep nodeAt root
            ⟨.lookup, skipSlash (takeComponent (MAX_FILENAME - 1) (c :: path)).2, component', j,
              current, w⟩ =
            some ⟨if (finddir current (takeComponent (MAX_FILENAME - 1) (c :: path)).1 w).1 = 0#32
                then .returned else .outer,
              skipSlash (takeComponent (MAX_FILENAME - 1) (c :: path)).2, component', j,
              (finddir current (takeComponent (MAX_FILENAME - 1) (c :: path)).1 w).1,
              (finddir current (takeComponent (MAX_FILENAME - 1) (c :: path)).1 w).2⟩ := by
          simp only [resolveStep, hfind, hname]
        -- the loop goes on only with a node that was found
        rcases Decidable.em
          ((finddir current (takeComponent (MAX_FILENAME - 1) (c :: path)).1 w).1 = 0#32) with h0 | h0
        · rw [if_pos h0] at hstep
          refine ⟨_, hreach.tail hstep, rfl, ?_⟩
          rw [Logged.value_bind, if_pos h0, h0]
          rfl
        · rw [if_neg h0] at hstep
          have hlen : (skipSlash (takeComponent (MAX_FILENAME - 1) (c :: path)).2).length ≤ n :=
            Nat.le_trans (skipSlash_takeComponent_length (MAX_FILENAME - 2) c path)
              (Nat.le_of_succ_le_succ hn)
          obtain ⟨s, hs, hpoint, hval⟩ := ih hlen (notMem_skipSlash_rest hnul) component' j _ _
          refine ⟨s, (hreach.tail hstep).trans hs, hpoint, ?_⟩
          rw [Logged.value_bind, if_neg h0]
          exact hval

/-- The machine stops, with the node that `vfsResolvePath` finds. -/
theorem resolve_returns (path : CString) (component : Nat → Byte) (w : W) :
    ∃ s ∈ eval (resolveStep nodeAt root) (resolveCall path component w),
      (s.current, s.world) = (vfsResolvePath nodeAt root path.bytes w).value := by
  unfold vfsResolvePath resolveCall
  rcases Decidable.em (root = 0#32) with hroot | hroot
  · have hstep : resolveStep nodeAt root ⟨.entry, path.bytes, component, 0, 0#32, w⟩ =
        some ⟨.returned, path.bytes, component, 0, 0#32, w⟩ := if_pos hroot
    rw [if_pos hroot]
    exact ⟨_, mem_eval.mpr ⟨Relation.ReflTransGen.single hstep, rfl⟩, rfl⟩
  rcases Decidable.em (path.bytes = [slash]) with hslash | hslash
  · have hstep : resolveStep nodeAt root ⟨.entry, path.bytes, component, 0, 0#32, w⟩ =
        some ⟨.returned, path.bytes, component, 0, root, w⟩ :=
      (if_neg hroot).trans (if_pos hslash)
    rw [if_neg hroot, if_pos hslash]
    exact ⟨_, mem_eval.mpr ⟨Relation.ReflTransGen.single hstep, rfl⟩, rfl⟩
  · have hstep : resolveStep nodeAt root ⟨.entry, path.bytes, component, 0, 0#32, w⟩ =
        some ⟨.outer, skipSlash path.bytes, component, 0, root, w⟩ :=
      (if_neg hroot).trans (if_neg hslash)
    rw [if_neg hroot, if_neg hslash]
    obtain ⟨s, hs, hpoint, hval⟩ := outer_returns nodeAt root (skipSlash path.bytes).length
      (Nat.le_refl _) (fun h => path.noNul ((skipSlash_suffix _).subset h)) component 0 root w
    have hstop : resolveStep nodeAt root s = none := by
      unfold resolveStep
      rw [hpoint]
    exact ⟨s, mem_eval.mpr ⟨Relation.ReflTransGen.head hstep hs, hstop⟩, hval⟩

end Machine

/-! ## Well-formed paths -/

/-- A name that fits into the buffer. -/
structure IsComponent (name : List Byte) : Prop where
  nonempty : 1 ≤ name.length
  fits : name.length ≤ 127
  noSlash : slash ∉ name

/-- The names with a `/` between each two, and one at the end. -/
def joinComponents (names : List (List Byte)) (trailing : Bool) : List Byte :=
  [slash].intercalate names ++ if trailing then [slash] else []

/-- The path consists of the names, with an optional `/` at the start and, when there is
a name, at the end. -/
structure PathOf (path : List Byte) (names : List (List Byte)) : Prop where
  components : ∀ name ∈ names, IsComponent name
  text : ∃ leading trailing : Bool, (trailing = true → names ≠ []) ∧
    path = (if leading then [slash] else []) ++ joinComponents names trailing

section Fold
variable {W : Type} (nodeAt : W → Word → FsNode W)

/-- One lookup; NULL stays NULL. -/
def lookupComponent (s : Word × W) (name : List Byte) : Word × W :=
  if s.1 = 0#32 then s
  else
    match (nodeAt s.2 s.1).finddirFn with
    | none => (0#32, s.2)
    | some finddir => finddir s.1 name s.2

theorem foldl_lookup_null (names : List (List Byte)) {s : Word × W} (h : s.1 = 0#32) :
    names.foldl (lookupComponent nodeAt) s = s := by
  induction names with
  | nil => rfl
  | cons name names ih =>
    have hnull : lookupComponent nodeAt s name = s := if_pos h
    rw [List.foldl_cons, hnull, ih]

/-- A component ends at a `/` or at the end of the path. -/
theorem takeComponent_name {n : Nat} {name rest : List Byte} (hname : slash ∉ name)
    (hlen : name.length ≤ n) (hrest : rest = [] ∨ ∃ r, rest = slash :: r) :
    takeComponent n (name ++ rest) = (name, rest) := by
  induction name generalizing n with
  | nil =>
    rcases hrest with rfl | ⟨r, rfl⟩
    · cases n <;> rfl
    · cases n with
      | zero => rfl
      | succ n => exact if_pos rfl
  | cons c name ih =>
    rw [List.mem_cons, not_or] at hname
    cases n with
    | zero => exact absurd hlen (Nat.not_succ_le_zero _)
    | succ n =>
      rw [List.cons_append, takeComponent, if_neg (Ne.symm hname.1),
        ih hname.2 (Nat.le_of_succ_le_succ hlen)]

/-- The first name, and what the loop goes on with. -/
theorem joinComponents_cons (name : List Byte) (names : List (List Byte)) (trailing : Bool) :
    ∃ rest, joinComponents (name :: names) trailing = name ++ rest ∧
      (rest = [] ∨ ∃ r, rest = slash :: r) ∧
      skipSlash rest = if names = [] then [] else joinComponents names trailing := by
  cases names with
  | nil =>
    refine ⟨if trailing then [slash] else [], ?_, ?_, ?_⟩
    · rw [joinComponents, List.intercalate_singleton]
    · cases trailing with
      | false => exact Or.inl rfl
      | true => exact Or.inr ⟨[], rfl⟩
    · cases trailing <;> rfl
  | cons next names =>
    refine ⟨slash :: joinComponents (next :: names) trailing, ?_, Or.inr ⟨_, rfl⟩, ?_⟩
    · rw [joinComponents, List.intercalate_cons_cons]
      simp only [joinComponents, List.append_assoc, List.cons_append, List.nil_append]
    · rw [skipSlash, if_pos rfl, if_neg (List.cons_ne_nil _ _)]

/-- The loop goes through the names. -/
theorem resolveFrom_join {names : List (List Byte)} (hnames : ∀ name ∈ names, IsComponent name)
    (hne : names ≠ []) (trailing : Bool) {n : Nat} {current : Word} (w : W)
    (hn : (joinComponents names trailing).length ≤ n) (hcurrent : current ≠ 0#32) :
    (resolveFrom nodeAt n (joinComponents names trailing) current w).value =
      names.foldl (lookupComponent nodeAt) (current, w) := by
  induction names generalizing n current w with
  | nil => exact absurd rfl hne
  | cons name names ih =>
    obtain ⟨rest, htext, hrest, hskip⟩ := joinComponents_cons name names trailing
    have hname : IsComponent name := hnames name List.mem_cons_self
    obtain ⟨c, tail, rfl⟩ := List.exists_cons_of_length_pos hname.nonempty
    rw [htext] at hn ⊢
    have htake : takeComponent (MAX_FILENAME - 1) (c :: (tail ++ rest)) = (c :: tail, rest) :=
      takeComponent_name hname.noSlash hname.fits hrest
    rw [List.cons_append] at hn ⊢
    obtain _ | n := n
    · exact absurd hn (Nat.not_succ_le_zero _)
    rw [List.foldl_cons, lookupComponent, if_neg hcurrent]
    unfold resolveFrom
    rw [htake]
    dsimp only
    cases (nodeAt w current).finddirFn with
    | none => exact (foldl_lookup_null nodeAt names rfl).symm
    | some finddir =>
      dsimp only
      rw [Logged.value_bind]
      split
      · next hnull =>
        rw [foldl_lookup_null nodeAt names hnull]
        exact Prod.ext hnull.symm rfl
      · next hfound =>
        rw [hskip]
        split
        · next hlast =>
          rw [hlast]
          cases n <;> rfl
        · next hmore =>
          have hlen : (joinComponents names trailing).length ≤ n := by
            rw [if_neg hmore] at hskip
            rw [← hskip]
            refine Nat.le_trans (skipSlash_length rest) ?_
            rw [List.length_cons, List.length_append] at hn
            omega
          exact ih (fun m hm => hnames m (List.mem_cons_of_mem _ hm)) hmore _ hlen hfound

/-- `vfsResolvePath` on a well-formed path. -/
theorem vfsResolvePath_pathOf {path : List Byte} {names : List (List Byte)} (h : PathOf path names)
    {root : Word} (hroot : root ≠ 0#32) (w : W) :
    (vfsResolvePath nodeAt root path w).value = names.foldl (lookupComponent nodeAt) (root, w) := by
  obtain ⟨hnames, leading, trailing, htrailing, rfl⟩ := h
  unfold vfsResolvePath
  rw [if_neg hroot]
  cases names with
  | nil =>
    have hnone : trailing = false := by
      cases trailing with
      | false => rfl
      | true => exact absurd rfl (htrailing rfl)
    subst hnone
    cases leading <;> rfl
  | cons name names =>
    obtain ⟨rest, htext, _, _⟩ := joinComponents_cons name names trailing
    have hname : IsComponent name := hnames name List.mem_cons_self
    obtain ⟨c, tail, rfl⟩ := List.exists_cons_of_length_pos hname.nonempty
    have hc : c ≠ slash := fun hc => hname.noSlash (hc ▸ List.mem_cons_self)
    have hskip : skipSlash ((if leading then [slash] else []) ++
        joinComponents ((c :: tail) :: names) trailing) =
        joinComponents ((c :: tail) :: names) trailing := by
      rw [htext]
      cases leading with
      | false => exact if_neg hc
      | true =>
        change skipSlash (slash :: (c :: tail ++ rest)) = _
        rw [skipSlash, if_pos rfl]
    have hslash : (if leading then [slash] else []) ++
        joinComponents ((c :: tail) :: names) trailing ≠ [slash] := by
      rw [htext]
      cases leading with
      | false => exact fun he => hc (List.cons.inj he).1
      | true => exact fun he => List.cons_ne_nil _ _ (List.cons.inj he).2
    rw [if_neg hslash, hskip]
    exact resolveFrom_join nodeAt hnames (List.cons_ne_nil _ _) trailing w (Nat.le_refl _) hroot

/-- Every call returns and writes to the buffer only. On a well-formed path the result is
the fold of the lookups from the root. -/
theorem resolve_path_is_fold (root : Word) (path : CString) (component : Nat → Byte) (w : W) :
    (∃ s ∈ eval (resolveStep nodeAt root) (resolveCall path component w),
      ∀ names, PathOf path.bytes names → root ≠ 0#32 →
        (s.current, s.world) = names.foldl (lookupComponent nodeAt) (root, w)) ∧
    ∀ s, Reaches (resolveStep nodeAt root) (resolveCall path component w) s →
      ∀ i, s.writes = some i → i < 128 := by
  obtain ⟨s, hs, hval⟩ := resolve_returns nodeAt root path component w
  refine ⟨⟨s, hs, fun names hpath hroot => ?_⟩, fun t ht i hi => resolve_writes nodeAt root ht hi⟩
  rw [hval, vfsResolvePath_pathOf nodeAt hpath hroot]

end Fold

/-- Two directories and a file: `a` is node 2 in the root, and `b` is node 3 in `a`. -/
def smallTree (_ : Unit) (_ : Word) : FsNode Unit where
  length := 0#32
  readFn := none
  writeFn := none
  openFn := none
  closeFn := none
  finddirFn := some fun dir name w =>
    (if dir = 1#32 ∧ name = [0x61#8] then 2#32
      else if dir = 2#32 ∧ name = [0x62#8] then 3#32 else 0#32, w)
  createFn := none
  mkdirFn := none
  unlinkFn := none

/-- `/a/b/`. -/
theorem resolve_path_is_fold_small :
    ∃ s ∈ eval (resolveStep smallTree 1#32)
        (resolveCall ⟨[slash, 0x61#8, slash, 0x62#8, slash], by decide⟩ (fun _ => 0xFF#8) ()),
      (s.current, s.world) = (3#32, ()) := by
  obtain ⟨⟨s, hs, hfold⟩, _⟩ := resolve_path_is_fold smallTree 1#32
    ⟨[slash, 0x61#8, slash, 0x62#8, slash], by decide⟩ (fun _ => 0xFF#8) ()
  have hpath : PathOf [slash, 0x61#8, slash, 0x62#8, slash] [[0x61#8], [0x62#8]] := by
    refine ⟨?_, true, true, by simp, by decide⟩
    intro name hname
    simp only [List.mem_cons, List.not_mem_nil, or_false] at hname
    rcases hname with rfl | rfl <;> exact ⟨by decide, by decide, by decide⟩
  exact ⟨s, hs, (hfold [[0x61#8], [0x62#8]] hpath (by decide)).trans rfl⟩

end Zenix.VfsComplete
