import Mathlib.Tactic.Common

/-!
# Text terminals

A terminal is a grid of cells with a cursor on one of them. A key stores a value
under the cursor and advances it, or moves the cursor: to the next line, one cell
back (which it blanks), or to the next tab stop. Past the end of a row the cursor
goes to the next line, and below the last row the screen scrolls by one line.

Results:
1. `press_map`, `run_map`: a terminal commutes with every encoding of its cells.
2. `run_forall`, `exists_put`: which values a screen shows.
3. `press_fits`, `run_fits`: what printing keys do when nothing scrolls.
4. `backspace_press_iff`: exactly when a backspace takes a printing key back.
5. `scrolledOff_map`: the lines that leave the screen under every encoding.
-/

universe u v

/-- A screen and its cursor, which is always on the screen. -/
@[ext]
structure Terminal (rows cols : Nat) (α : Type u) where
  cells : Fin rows → Fin cols → α
  row : Fin rows
  column : Fin cols

namespace Terminal

inductive Key (α : Type u) where
  | put (a : α)
  | newline
  | backspace
  | tab

variable {α : Type u} {β : Type v} {rows cols : Nat}

def Key.map (f : α → β) : Key α → Key β
  | .put a => .put (f a)
  | .newline => .newline
  | .backspace => .backspace
  | .tab => .tab

/-- `a` under the cursor. -/
def set (a : α) (t : Terminal rows cols α) : Terminal rows cols α :=
  { t with cells := fun r c => if r = t.row ∧ c = t.column then a else t.cells r c }

/-- Every row moves up by one. -/
def scroll (blank : α) (t : Terminal rows cols α) : Terminal rows cols α :=
  { t with cells := fun r c => if h : r.val + 1 < rows then t.cells ⟨r.val + 1, h⟩ c else blank }

/-- The start of the next row; in the last row the screen scrolls instead. -/
def lineFeed (blank : α) (t : Terminal rows cols α) : Terminal rows cols α :=
  let column : Fin cols := ⟨0, Nat.zero_lt_of_lt t.column.isLt⟩
  if h : t.row.val + 1 < rows then { t with row := ⟨t.row.val + 1, h⟩, column }
  else { t.scroll blank with column }

/-- Column `c` of the row, or the next line when the row has no such column. -/
def moveTo (blank : α) (c : Nat) (t : Terminal rows cols α) : Terminal rows cols α :=
  if h : c < cols then { t with column := ⟨c, h⟩ } else t.lineFeed blank

/-- One cell back, which becomes blank; nothing at the start of a row. -/
def erase (blank : α) (t : Terminal rows cols α) : Terminal rows cols α :=
  if t.column.val = 0 then t
  else ({ t with column := ⟨t.column.val - 1, by omega⟩ } : Terminal rows cols α).set blank

/-- One key. The tab stops are the multiples of `w`. -/
def press (blank : α) (w : Nat) (k : Key α) (t : Terminal rows cols α) : Terminal rows cols α :=
  match k with
  | .put a => (t.set a).moveTo blank (t.column + 1)
  | .newline => t.lineFeed blank
  | .backspace => t.erase blank
  | .tab => t.moveTo blank ((t.column / w + 1) * w)

/-- A blank screen with the cursor at its start. -/
def cleared (hrows : 0 < rows) (hcols : 0 < cols) (blank : α) : Terminal rows cols α where
  cells := fun _ _ => blank
  row := ⟨0, hrows⟩
  column := ⟨0, hcols⟩

def run (blank : α) (w : Nat) (ks : List (Key α)) (t : Terminal rows cols α) :
    Terminal rows cols α :=
  ks.foldl (fun t k => t.press blank w k) t

/-! ## Other cells -/

def map (f : α → β) (t : Terminal rows cols α) : Terminal rows cols β :=
  { t with cells := fun r c => f (t.cells r c) }

section Map
variable (f : α → β) (blank : α) (t : Terminal rows cols α)

theorem set_map (a : α) : (t.set a).map f = (t.map f).set (f a) := by
  refine Terminal.ext (funext fun r => funext fun c => ?_) rfl rfl
  exact apply_ite f _ _ _

theorem scroll_map : (t.scroll blank).map f = (t.map f).scroll (f blank) := by
  refine Terminal.ext (funext fun r => funext fun c => ?_) rfl rfl
  exact apply_dite f _ _ _

theorem lineFeed_map : (t.lineFeed blank).map f = (t.map f).lineFeed (f blank) := by
  by_cases h : t.row.val + 1 < rows
  · have h' : (t.map f).row.val + 1 < rows := h
    simp only [lineFeed, dif_pos h, dif_pos h']
    rfl
  · have h' : ¬ (t.map f).row.val + 1 < rows := h
    simp only [lineFeed, dif_neg h, dif_neg h', ← scroll_map]
    rfl

theorem moveTo_map (c : Nat) : (t.moveTo blank c).map f = (t.map f).moveTo (f blank) c := by
  unfold moveTo
  split
  · rfl
  · exact lineFeed_map f blank t

theorem erase_map : (t.erase blank).map f = (t.map f).erase (f blank) := by
  by_cases h : t.column.val = 0
  · have h' : (t.map f).column.val = 0 := h
    rw [erase, erase, if_pos h, if_pos h']
  · have h' : ¬ (t.map f).column.val = 0 := h
    rw [erase, erase, if_neg h, if_neg h', set_map]
    rfl

theorem press_map (w : Nat) (k : Key α) :
    (t.press blank w k).map f = (t.map f).press (f blank) w (k.map f) := by
  cases k with
  | put a =>
    have hset := moveTo_map f blank (t.set a) (t.column + 1)
    rw [set_map] at hset
    exact hset
  | newline => exact lineFeed_map f blank t
  | backspace => exact erase_map f blank t
  | tab => exact moveTo_map f blank t _

theorem run_map (w : Nat) (ks : List (Key α)) :
    (t.run blank w ks).map f = (t.map f).run (f blank) w (ks.map (Key.map f)) := by
  induction ks generalizing t with
  | nil => rfl
  | cons k ks ih =>
    have hrest := ih (t.press blank w k)
    rw [press_map] at hrest
    exact hrest

end Map

/-! ## The values shown -/

section Shown
variable {P : α → Prop} {blank : α} {t : Terminal rows cols α}

theorem set_forall {a : α} (ha : P a) (ht : ∀ r c, P (t.cells r c)) (r : Fin rows)
    (c : Fin cols) : P ((t.set a).cells r c) := by
  show P (if r = t.row ∧ c = t.column then a else t.cells r c)
  split
  · exact ha
  · exact ht r c

theorem scroll_forall (hblank : P blank) (ht : ∀ r c, P (t.cells r c)) (r : Fin rows)
    (c : Fin cols) : P ((t.scroll blank).cells r c) := by
  show P (if h : r.val + 1 < rows then t.cells ⟨r.val + 1, h⟩ c else blank)
  split
  · exact ht _ c
  · exact hblank

theorem lineFeed_forall (hblank : P blank) (ht : ∀ r c, P (t.cells r c)) (r : Fin rows)
    (c : Fin cols) : P ((t.lineFeed blank).cells r c) := by
  unfold lineFeed
  split
  · exact ht r c
  · exact scroll_forall hblank ht r c

theorem moveTo_forall (hblank : P blank) (n : Nat) (ht : ∀ r c, P (t.cells r c)) (r : Fin rows)
    (c : Fin cols) : P ((t.moveTo blank n).cells r c) := by
  unfold moveTo
  split
  · exact ht r c
  · exact lineFeed_forall hblank ht r c

theorem press_forall (hblank : P blank) (w : Nat) {k : Key α} (hk : ∀ a, k = .put a → P a)
    (ht : ∀ r c, P (t.cells r c)) (r : Fin rows) (c : Fin cols) :
    P ((t.press blank w k).cells r c) := by
  cases k with
  | put a => exact moveTo_forall hblank _ (set_forall (hk a rfl) ht) r c
  | newline => exact lineFeed_forall hblank ht r c
  | backspace =>
    show P ((t.erase blank).cells r c)
    unfold erase
    split
    · exact ht r c
    · exact set_forall hblank (by exact ht) r c
  | tab => exact moveTo_forall hblank _ ht r c

/-- Every cell of a run is blank, was there before, or has been put. -/
theorem run_forall (hblank : P blank) (w : Nat) {ks : List (Key α)}
    (hks : ∀ a, .put a ∈ ks → P a) (ht : ∀ r c, P (t.cells r c)) (r : Fin rows) (c : Fin cols) :
    P ((t.run blank w ks).cells r c) := by
  induction ks generalizing t with
  | nil => exact ht r c
  | cons k ks ih =>
    refine ih (t := t.press blank w k) (fun a ha => hks a (List.mem_cons_of_mem _ ha)) ?_
    exact press_forall hblank w (fun a ha => hks a (ha ▸ List.mem_cons_self)) ht

/-- A value that is put is shown afterwards, also when the screen scrolls. -/
theorem exists_put (hrows : 1 < rows) (w : Nat) (a : α) :
    ∃ r c, (t.press blank w (.put a)).cells r c = a := by
  have hset : (t.set a).cells t.row t.column = a := if_pos ⟨rfl, rfl⟩
  show ∃ r c, ((t.set a).moveTo blank (t.column + 1)).cells r c = a
  unfold moveTo
  split
  · exact ⟨t.row, t.column, hset⟩
  · unfold lineFeed
    split
    · exact ⟨t.row, t.column, hset⟩
    · next hlast =>
      -- the last row has become the one above it
      have hrow : t.row.val - 1 + 1 = t.row.val := by
        have : t.row.val + 1 ≥ rows := by simpa [set] using hlast
        omega
      refine ⟨⟨t.row.val - 1, by omega⟩, t.column, ?_⟩
      have hlt : t.row.val - 1 + 1 < rows := hrow ▸ t.row.isLt
      show (if h : t.row.val - 1 + 1 < rows then (t.set a).cells ⟨t.row.val - 1 + 1, h⟩ t.column
        else blank) = a
      rw [dif_pos hlt, show (⟨t.row.val - 1 + 1, hlt⟩ : Fin rows) = t.row from Fin.ext hrow]
      exact hset

end Shown

/-! ## Reading order -/

/-- The place of the cursor in reading order. -/
def position (t : Terminal rows cols α) : Nat := t.row * cols + t.column

theorem position_inj {r r' : Fin rows} {c c' : Fin cols}
    (h : r.val * cols + c = r'.val * cols + c') : r = r' ∧ c = c' := by
  have hcols : 0 < cols := Nat.zero_lt_of_lt c.isLt
  have hcol : c.val = c'.val := by
    have hmod := congrArg (· % cols) h
    simpa only [Nat.mul_add_mod_of_lt c.isLt, Nat.mul_add_mod_of_lt c'.isLt] using hmod
  have hrow : r.val * cols = r'.val * cols := by omega
  exact ⟨Fin.ext (Nat.eq_of_mul_eq_mul_right hcols hrow), Fin.ext hcol⟩

theorem ext_position {t u : Terminal rows cols α} (hcells : t.cells = u.cells)
    (hposition : t.position = u.position) : t = u := by
  obtain ⟨hrow, hcolumn⟩ := position_inj hposition
  exact Terminal.ext hcells hrow hcolumn

theorem position_mod (t : Terminal rows cols α) : t.position % cols = t.column :=
  Nat.mul_add_mod_of_lt t.column.isLt

/-- The key prints something or leaves a gap. -/
def Key.Printing : Key α → Prop
  | .put _ | .tab => True
  | .newline | .backspace => False

/-- Where a printing key moves the cursor. -/
def Key.advance (w : Nat) : Key α → Nat → Nat
  | .tab, p => (p / w + 1) * w
  | _, p => p + 1

section Fits
variable (blank : α) {w : Nat} {k : Key α} {t : Terminal rows cols α}

/-- A move within the row, or to the start of a next row that the screen has. -/
theorem moveTo_fits {n : Nat} (hn : n ≤ cols) (hfit : t.row * cols + n < rows * cols) :
    (t.moveTo blank n).cells = t.cells ∧ (t.moveTo blank n).position = t.row * cols + n := by
  unfold moveTo
  split
  · exact ⟨rfl, rfl⟩
  · next hend =>
    have hnext : t.row.val + 1 < rows := by
      refine Nat.lt_of_mul_lt_mul_right (a := cols) ?_
      rw [Nat.succ_mul]
      omega
    unfold lineFeed
    rw [dif_pos hnext]
    refine ⟨rfl, ?_⟩
    show (t.row.val + 1) * cols + 0 = _
    rw [Nat.succ_mul]
    omega

/-- The next tab stop of a row, counted from the start of the screen. -/
theorem tab_stop (hw : w ∣ cols) (r c : Nat) (hc : c < cols) :
    (c / w + 1) * w ≤ cols ∧ ((r * cols + c) / w + 1) * w = r * cols + (c / w + 1) * w := by
  obtain ⟨m, rfl⟩ := hw
  have hpos : 0 < w := Nat.pos_of_ne_zero (by rintro rfl; omega)
  constructor
  · rw [Nat.mul_comm w m]
    exact Nat.mul_le_mul_right w (Nat.div_lt_of_lt_mul hc)
  · rw [Nat.mul_left_comm r w m, Nat.mul_add_div hpos, Nat.mul_comm w (r * m), Nat.add_assoc,
      Nat.add_mul]

theorem Key.Printing.lt_advance (hk : k.Printing) (hcols : 0 < cols) (hw : w ∣ cols) (p : Nat) :
    p < k.advance w p := by
  cases k with
  | put a => exact Nat.lt_succ_self p
  | tab =>
    have hpos : 0 < w := Nat.pos_of_dvd_of_pos hw hcols
    show p < (p / w + 1) * w
    rw [Nat.mul_comm]
    exact Nat.lt_mul_div_succ p hpos
  | newline => exact hk.elim
  | backspace => exact hk.elim

theorem press_fits (hw : w ∣ cols) (hk : k.Printing)
    (hfit : k.advance w t.position < rows * cols) :
    (t.press blank w k).position = k.advance w t.position ∧
      ∀ r c, r.val * cols + c.val ≠ t.position →
        (t.press blank w k).cells r c = t.cells r c := by
  cases k with
  | put a =>
    have hmove := moveTo_fits blank (t := t.set a) t.column.isLt hfit
    refine ⟨hmove.2, fun r c hne => ?_⟩
    show ((t.set a).moveTo blank (t.column + 1)).cells r c = t.cells r c
    rw [hmove.1]
    refine if_neg fun hat => hne ?_
    rw [hat.1, hat.2]
    rfl
  | tab =>
    obtain ⟨hle, hstop⟩ := tab_stop hw t.row t.column t.column.isLt
    have hadvance : Key.advance w (.tab : Key α) t.position =
        t.row * cols + (t.column / w + 1) * w := hstop
    rw [hadvance] at hfit ⊢
    have hmove := moveTo_fits blank hle hfit
    exact ⟨hmove.2, fun r c _ => congrFun (congrFun hmove.1 r) c⟩
  | newline => exact hk.elim
  | backspace => exact hk.elim

/-- Where a row of printing keys moves the cursor. -/
def advances (w : Nat) (ks : List (Key α)) (p : Nat) : Nat := ks.foldl (fun p k => k.advance w p) p

theorem le_advances (hcols : 0 < cols) (hw : w ∣ cols) {ks : List (Key α)}
    (hks : ∀ k ∈ ks, k.Printing) (p : Nat) : p ≤ advances w ks p := by
  induction ks generalizing p with
  | nil => exact Nat.le_refl p
  | cons k ks ih =>
    have hk := (hks k List.mem_cons_self).lt_advance hcols hw p
    exact Nat.le_trans (Nat.le_of_lt hk) (ih (fun k' hk' => hks k' (List.mem_cons_of_mem _ hk')) _)

theorem Key.printing_map (f : α → β) : (k.map f).Printing ↔ k.Printing := by
  cases k <;> rfl

theorem Key.advance_map (f : α → β) (p : Nat) : (k.map f).advance w p = k.advance w p := by
  cases k <;> rfl

theorem advances_map (f : α → β) (ks : List (Key α)) (p : Nat) :
    advances w (ks.map (Key.map f)) p = advances w ks p := by
  induction ks generalizing p with
  | nil => rfl
  | cons k ks ih =>
    have hrest := ih ((k.map f).advance w p)
    rw [Key.advance_map] at hrest
    exact (congrArg _ (Key.advance_map f p)).trans hrest

/-- A row of printing keys leaves the cells after the cursor as they were. -/
theorem run_fits (hw : w ∣ cols) {ks : List (Key α)} (hks : ∀ k ∈ ks, k.Printing)
    (hfit : advances w ks t.position < rows * cols) :
    (t.run blank w ks).position = advances w ks t.position ∧
      ∀ r c, advances w ks t.position ≤ r.val * cols + c.val →
        (t.run blank w ks).cells r c = t.cells r c := by
  have hcols : 0 < cols := Nat.zero_lt_of_lt t.column.isLt
  induction ks generalizing t with
  | nil => exact ⟨rfl, fun _ _ _ => rfl⟩
  | cons k ks ih =>
    have hk := hks k List.mem_cons_self
    have hrest : ∀ k' ∈ ks, k'.Printing := fun k' hk' => hks k' (List.mem_cons_of_mem _ hk')
    have hlt := hk.lt_advance hcols hw t.position
    have hle := le_advances hcols hw hrest (k.advance w t.position)
    obtain ⟨hposition, hcells⟩ := press_fits blank hw hk (Nat.lt_of_le_of_lt hle hfit)
    have ih' := ih (t := t.press blank w k) hrest
    rw [hposition] at ih'
    -- what the rest keeps lies after the cell of the first key
    obtain ⟨hend, hkept⟩ := ih' hfit
    refine ⟨hend, fun r c hafter => (hkept r c hafter).trans (hcells r c ?_)⟩
    change advances w ks (k.advance w t.position) ≤ _ at hafter
    omega

/-- Past the start of a row, a backspace goes back by one position and blanks it. -/
theorem erase_position (h : t.column.val ≠ 0) :
    (t.erase blank).position + 1 = t.position ∧
      ∀ r c, (t.erase blank).cells r c =
        if r.val * cols + c + 1 = t.position then blank else t.cells r c := by
  have herase : t.erase blank =
      ({ t with column := ⟨t.column.val - 1, by omega⟩ } : Terminal rows cols α).set blank :=
    if_neg h
  have hback : t.row.val * cols + (t.column.val - 1) + 1 = t.position := by
    unfold position
    omega
  rw [herase]
  refine ⟨hback, fun r c => ?_⟩
  show (if r = t.row ∧ c = ⟨t.column.val - 1, _⟩ then blank else t.cells r c) = _
  refine if_congr ⟨?_, fun hat => ?_⟩ rfl rfl
  · rintro ⟨rfl, rfl⟩
    exact hback
  · exact position_inj (by show r.val * cols + c = t.row * cols + (t.column.val - 1); omega)

/-- A backspace takes a printing key back exactly when the key has moved the cursor by
one cell of its row, over a blank. -/
theorem backspace_press_iff (hw : w ∣ cols) (hk : k.Printing)
    (hfit : k.advance w t.position < rows * cols) :
    (t.press blank w k).press blank w .backspace = t ↔
      k.advance w t.position = t.position + 1 ∧ (t.position + 1) % cols ≠ 0 ∧
        t.cells t.row t.column = blank := by
  obtain ⟨hposition, hcells⟩ := press_fits blank hw hk hfit
  have hmod := position_mod (t.press blank w k)
  rw [hposition] at hmod
  show (t.press blank w k).erase blank = t ↔ _
  generalize t.press blank w k = u at *
  by_cases hzero : u.column.val = 0
  · -- the key has gone to a new row, where a backspace does nothing
    have hstay : u.erase blank = u := if_pos hzero
    rw [hstay]
    constructor
    · rintro rfl
      have hlt := hk.lt_advance (Nat.zero_lt_of_lt u.column.isLt) hw u.position
      omega
    · rintro ⟨hone, hrow, _⟩
      rw [hone, hzero] at hmod
      exact absurd hmod hrow
  · obtain ⟨hback, herased⟩ := erase_position blank hzero
    constructor
    · intro heq
      rw [heq] at hback herased
      have hone : k.advance w t.position = t.position + 1 := by omega
      refine ⟨hone, ?_, ?_⟩
      · rw [← hone, hmod]
        exact hzero
      · rw [herased]
        exact if_pos hback
    · rintro ⟨hone, _, hblank⟩
      refine ext_position (funext fun r => funext fun c => ?_) (by omega)
      rw [herased]
      by_cases hat : r.val * cols + c = t.position
      · obtain ⟨rfl, rfl⟩ := position_inj hat
        rw [if_pos (by omega), hblank]
      · rw [if_neg (by omega), hcells r c hat]

end Fits

/-! ## Lines that leave the screen -/

section ScrolledOff

def topRow (t : Terminal rows cols α) : Fin cols → α :=
  t.cells ⟨0, Nat.zero_lt_of_lt t.row.isLt⟩

/-- What a line feed pushes off the screen. -/
def lineFeedOff (t : Terminal rows cols α) : List (Fin cols → α) :=
  if t.row.val + 1 < rows then [] else [t.topRow]

def moveToOff (c : Nat) (t : Terminal rows cols α) : List (Fin cols → α) :=
  if c < cols then [] else t.lineFeedOff

/-- What a key pushes off the screen, which may be a row that it has put its value in. -/
def pressOff (w : Nat) (k : Key α) (t : Terminal rows cols α) : List (Fin cols → α) :=
  match k with
  | .put a => (t.set a).moveToOff (t.column + 1)
  | .newline => t.lineFeedOff
  | .backspace => []
  | .tab => t.moveToOff ((t.column / w + 1) * w)

/-- The lines that have left the screen during a run, the oldest first. -/
def scrolledOff (blank : α) (w : Nat) (ks : List (Key α)) (t : Terminal rows cols α) :
    List (Fin cols → α) :=
  match ks with
  | [] => []
  | k :: ks => t.pressOff w k ++ (t.press blank w k).scrolledOff blank w ks

theorem moveTo_column (blank : α) (t : Terminal rows cols α) : t.moveTo blank t.column = t :=
  dif_pos t.column.isLt

theorem moveToOff_column (t : Terminal rows cols α) : t.moveToOff t.column = [] :=
  if_pos t.column.isLt

variable (f : α → β) (t : Terminal rows cols α)

theorem lineFeedOff_map : (t.map f).lineFeedOff = t.lineFeedOff.map (f ∘ ·) :=
  (apply_ite (List.map (f ∘ ·)) (t.row.val + 1 < rows) [] [t.topRow]).symm

theorem moveToOff_map (c : Nat) : (t.map f).moveToOff c = (t.moveToOff c).map (f ∘ ·) := by
  unfold moveToOff
  split
  · rfl
  · exact lineFeedOff_map f t

theorem pressOff_map (w : Nat) (k : Key α) :
    (t.map f).pressOff w (k.map f) = (t.pressOff w k).map (f ∘ ·) := by
  cases k with
  | put a =>
    have hset := moveToOff_map f (t.set a) (t.column + 1)
    rw [set_map] at hset
    exact hset
  | newline => exact lineFeedOff_map f t
  | backspace => rfl
  | tab => exact moveToOff_map f t _

theorem scrolledOff_map (blank : α) (w : Nat) (ks : List (Key α)) :
    (t.map f).scrolledOff (f blank) w (ks.map (Key.map f)) =
      (t.scrolledOff blank w ks).map (f ∘ ·) := by
  induction ks generalizing t with
  | nil => rfl
  | cons k ks ih =>
    have hrest := ih (t.press blank w k)
    rw [press_map] at hrest
    simp only [List.map_cons, scrolledOff, List.map_append, pressOff_map, hrest]

end ScrolledOff

end Terminal
