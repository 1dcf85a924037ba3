import Mathlib.Tactic.Common

/-!
# Pictures in layers

A layer gives some points a colour and shows at the others what is below it. Strokes that
are made one after the other paint a layer: at each point the last one decides.

Results:
1. `overlay_assoc`, `empty_overlay`: layers that are put over each other.
2. `painted_append`, `painted_flatMap`: strokes in sequence paint layers over each other.
3. `painted_eq_flat`: strokes of one colour.
4. `stack_eq_some_iff`, `stack_eq_none_iff`: in a stack the topmost layer decides.
5. `inside_stack`: a stack paints where its layers do.
-/

universe u v w

/-- The colours of some of the points. -/
def Layer (π : Type u) (χ : Type v) := π → Option χ

namespace Layer

variable {π : Type u} {χ : Type v} {κ : Type w}

def empty : Layer π χ := fun _ => none

def overlay (upper lower : Layer π χ) : Layer π χ := fun p => (upper p).or (lower p)

/-- One colour. -/
def flat (S : π → Prop) [DecidablePred S] (c : χ) : Layer π χ := fun p => if S p then some c else none

/-- Layers from the bottom to the top. -/
def stack : List (Layer π χ) → Layer π χ
  | [] => empty
  | lower :: layers => (stack layers).overlay lower

section Over
variable {upper lower : Layer π χ} {p : π} {c : χ}

theorem overlay_assoc (a b c : Layer π χ) : (a.overlay b).overlay c = a.overlay (b.overlay c) :=
  funext fun _ => Option.or_assoc

theorem empty_overlay (a : Layer π χ) : empty.overlay a = a := funext fun _ => Option.none_or

theorem overlay_eq_none_iff : upper.overlay lower p = none ↔ upper p = none ∧ lower p = none :=
  Option.or_eq_none_iff

theorem overlay_of_none (h : upper p = none) : upper.overlay lower p = lower p := by
  rw [overlay, h, Option.none_or]

theorem overlay_of_some (h : upper p = some c) : upper.overlay lower p = some c := by
  rw [overlay, h, Option.some_or]

end Over

theorem flat_eq_some_iff {S : π → Prop} [DecidablePred S] {c d : χ} {p : π} :
    flat S c p = some d ↔ S p ∧ c = d := by
  rw [flat, Option.ite_none_right_eq_some, Option.some_inj]

theorem flat_eq_none_iff {S : π → Prop} [DecidablePred S] {c : χ} {p : π} :
    flat S c p = none ↔ ¬ S p := by
  unfold flat
  split
  · exact iff_of_false (Option.some_ne_none c) (not_not.mpr ‹S p›)
  · exact iff_of_true rfl ‹¬ S p›

/-- Only points of the set have a colour. -/
def Inside (layer : Layer π χ) (S : π → Prop) : Prop := ∀ ⦃p c⦄, layer p = some c → S p

section Inside
variable {upper lower : Layer π χ} {S T : π → Prop}

theorem Inside.mono (h : upper.Inside S) (hST : ∀ p, S p → T p) : upper.Inside T :=
  fun p _ hc => hST p (h hc)

theorem Inside.eq_none (h : upper.Inside S) {p : π} (hp : ¬ S p) : upper p = none :=
  Option.eq_none_iff_forall_ne_some.mpr fun _ hc => hp (h hc)

theorem Inside.overlay (hupper : upper.Inside S) (hlower : lower.Inside S) :
    (upper.overlay lower).Inside S := by
  intro p c hc
  cases habove : upper p with
  | some d => exact hupper habove
  | none =>
    rw [overlay_of_none habove] at hc
    exact hlower hc

theorem inside_flat {c : χ} [DecidablePred S] (h : ∀ p, S p → T p) : (flat S c).Inside T :=
  fun p _ hc => h p (flat_eq_some_iff.mp hc).1

theorem inside_stack {layers : List (Layer π χ)} (h : ∀ layer ∈ layers, layer.Inside S) :
    (stack layers).Inside S := by
  induction layers with
  | nil => exact fun _ _ hc => (Option.some_ne_none _ hc.symm).elim
  | cons lower layers ih =>
    obtain ⟨hlower, hlayers⟩ := List.forall_mem_cons.mp h
    exact (ih hlayers).overlay hlower

end Inside

/-! ## Strokes -/

section Strokes
variable [DecidableEq π] (point : κ → π) (color : κ → χ)

/-- What strokes paint. -/
def painted (strokes : List κ) : Layer π χ :=
  fun p => (strokes.reverse.find? fun k => point k = p).map color

theorem painted_nil : painted point color [] = empty := rfl

theorem painted_append (ks ls : List κ) :
    painted point color (ks ++ ls) = (painted point color ls).overlay (painted point color ks) := by
  funext p
  rw [painted, List.reverse_append, List.find?_append, Option.map_or]
  rfl

/-- The strokes of a loop. -/
theorem painted_flatMap {γ : Type*} (f : γ → List κ) (cs : List γ) :
    painted point color (cs.flatMap f) = stack (cs.map fun c => painted point color (f c)) := by
  induction cs with
  | nil => rfl
  | cons c cs ih => rw [List.flatMap_cons, painted_append, ih, List.map_cons, stack]

theorem painted_eq_flat {strokes : List κ} {S : π → Prop} [DecidablePred S] {c : χ}
    (hcolor : ∀ k ∈ strokes, color k = c) (hS : ∀ p, S p ↔ ∃ k ∈ strokes, point k = p) :
    painted point color strokes = flat S c := by
  funext p
  cases hfind : strokes.reverse.find? fun k => point k = p with
  | some k =>
    have hk := List.mem_reverse.mp (List.mem_of_find?_eq_some hfind)
    have hpoint : point k = p := by simpa using List.find?_some hfind
    rw [painted, hfind, Option.map_some, hcolor k hk]
    exact (flat_eq_some_iff.mpr ⟨(hS p).mpr ⟨k, hk, hpoint⟩, rfl⟩).symm
  | none =>
    rw [painted, hfind, Option.map_none]
    refine (flat_eq_none_iff.mpr fun hp => ?_).symm
    obtain ⟨k, hk, hpoint⟩ := (hS p).mp hp
    exact List.find?_eq_none.mp hfind k (List.mem_reverse.mpr hk) (decide_eq_true hpoint)

end Strokes

/-! ## Stacks -/

section Stack
variable {layers : List (Layer π χ)} {p : π} {c : χ}

theorem stack_eq_none_iff : stack layers p = none ↔ ∀ layer ∈ layers, layer p = none := by
  induction layers with
  | nil => exact iff_of_true rfl fun _ h => absurd h List.not_mem_nil
  | cons lower layers ih => rw [stack, overlay_eq_none_iff, ih, List.forall_mem_cons, and_comm]

/-- The topmost layer that has a colour at the point. -/
theorem stack_eq_some_iff :
    stack layers p = some c ↔
      ∃ below layer above, layers = below ++ layer :: above ∧ layer p = some c ∧
        ∀ upper ∈ above, upper p = none := by
  induction layers with
  | nil =>
    refine iff_of_false (Option.some_ne_none c ∘ Eq.symm) ?_
    rintro ⟨below, layer, above, h, _⟩
    exact List.cons_ne_nil _ _ (List.append_eq_nil_iff.mp h.symm).2
  | cons lower layers ih =>
    cases habove : stack layers p with
    | some d =>
      rw [stack, overlay_of_some habove, ← habove, ih]
      constructor
      · rintro ⟨below, layer, above, rfl, h⟩
        exact ⟨lower :: below, layer, above, rfl, h⟩
      · rintro ⟨below, layer, above, heq, hc, hnone⟩
        cases below with
        | nil =>
          obtain ⟨_, rfl⟩ := List.cons_eq_cons.mp heq
          rw [stack_eq_none_iff.mpr hnone] at habove
          cases habove
        | cons b below =>
          exact ⟨below, layer, above, (List.cons_eq_cons.mp heq).2, hc, hnone⟩
    | none =>
      have hall := stack_eq_none_iff.mp habove
      rw [stack, overlay_of_none habove]
      constructor
      · intro hc
        exact ⟨[], lower, layers, rfl, hc, hall⟩
      · rintro ⟨below, layer, above, heq, hc, _⟩
        cases below with
        | nil => rwa [(List.cons_eq_cons.mp heq).1]
        | cons b below =>
          have hmem : layer ∈ layers := by
            rw [(List.cons_eq_cons.mp heq).2]
            exact List.mem_append_right _ List.mem_cons_self
          rw [hall layer hmem] at hc
          cases hc

/-- A stack in which the point has no other colour. -/
theorem stack_eq_some_iff_exists (h : ∀ layer ∈ layers, ∀ d, layer p = some d → d = c) :
    stack layers p = some c ↔ ∃ layer ∈ layers, layer p = some c := by
  constructor
  · intro hc
    obtain ⟨below, layer, above, rfl, hlayer, _⟩ := stack_eq_some_iff.mp hc
    exact ⟨layer, List.mem_append_right _ List.mem_cons_self, hlayer⟩
  · rintro ⟨layer, hmem, hlayer⟩
    cases hstack : stack layers p with
    | none =>
      rw [stack_eq_none_iff.mp hstack layer hmem] at hlayer
      cases hlayer
    | some d =>
      obtain ⟨below, upper, above, rfl, hupper, _⟩ := stack_eq_some_iff.mp hstack
      rw [h upper (List.mem_append_right _ List.mem_cons_self) d hupper]

end Stack

end Layer
