import Mathlib.Tactic.Common

/-!
# Two-level lookup tables

A directory maps a slot to the name of a table, a table maps an index to an
entry. `lookup` reads the pair as one flat map. The updates of such a structure
are three: change an entry of a table (`setEntry`), blank a table
(`clearTable`), and enter a table in a directory slot (`link`).

Results: on a directory that enters no table twice,
1. `lookup_setEntry`: an entry changes at its own key only;
2. `lookup_clearTable`: blanking a table that is not entered changes nothing;
3. `lookup_link`: entering a blank table changes nothing;
4. `unshared_link`: entering a table that was not entered keeps tables unshared.
-/

universe u v w x

/-- Slots `ι`, table names `τ`, indices `κ`, entries `α`. -/
structure TwoLevel (ι : Type u) (τ : Type v) (κ : Type w) (α : Type x) where
  dir : ι → Option τ
  tables : τ → κ → Option α

namespace TwoLevel

variable {ι : Type u} {τ : Type v} {κ : Type w} {α : Type x}

/-- The flat map. -/
def lookup (t : TwoLevel ι τ κ α) (i : ι) (k : κ) : Option α :=
  (t.dir i).bind fun r => t.tables r k

/-- No table is entered in two slots. -/
def Unshared (t : TwoLevel ι τ κ α) : Prop :=
  ∀ i j r, t.dir i = some r → t.dir j = some r → i = j

/-- The table `r` is entered in some slot. -/
def Entered (t : TwoLevel ι τ κ α) (r : τ) : Prop := ∃ i, t.dir i = some r

theorem lookup_of_dir {t : TwoLevel ι τ κ α} {i : ι} {r : τ} (h : t.dir i = some r) (k : κ) :
    t.lookup i k = t.tables r k := by
  rw [lookup, h, Option.bind_some]

theorem lookup_of_none {t : TwoLevel ι τ κ α} {i : ι} (h : t.dir i = none) (k : κ) :
    t.lookup i k = none := by
  rw [lookup, h, Option.bind_none]

/-! ## Updates -/

def setEntry [DecidableEq τ] [DecidableEq κ] (t : TwoLevel ι τ κ α) (r : τ) (k : κ)
    (a : Option α) : TwoLevel ι τ κ α :=
  { t with tables := fun q l => if q = r ∧ l = k then a else t.tables q l }

def clearTable [DecidableEq τ] (t : TwoLevel ι τ κ α) (r : τ) : TwoLevel ι τ κ α :=
  { t with tables := fun q l => if q = r then none else t.tables q l }

def link [DecidableEq ι] (t : TwoLevel ι τ κ α) (i : ι) (r : τ) : TwoLevel ι τ κ α :=
  { t with dir := fun j => if j = i then some r else t.dir j }

theorem lookup_setEntry [DecidableEq ι] [DecidableEq τ] [DecidableEq κ] {t : TwoLevel ι τ κ α}
    (h : t.Unshared) {i : ι} {r : τ} (hi : t.dir i = some r) (k : κ) (a : Option α) (j : ι)
    (l : κ) : (t.setEntry r k a).lookup j l = if j = i ∧ l = k then a else t.lookup j l := by
  cases hj : t.dir j with
  | none =>
    have hji : j ≠ i := by
      rintro rfl
      rw [hi] at hj
      cases hj
    rw [lookup_of_none (t := t.setEntry r k a) hj, lookup_of_none hj, if_neg (fun hp => hji hp.1)]
  | some q =>
    rw [lookup_of_dir (t := t.setEntry r k a) hj, lookup_of_dir hj]
    -- the slot names the same table only if it is the same slot
    have hqr : q = r ↔ j = i := by
      constructor
      · rintro rfl
        exact h j i q hj hi
      · rintro rfl
        exact Option.some.inj (hj.symm.trans hi)
    simp only [setEntry, hqr]

theorem lookup_clearTable [DecidableEq τ] {t : TwoLevel ι τ κ α} {r : τ} (h : ¬ t.Entered r)
    (j : ι) (l : κ) : (t.clearTable r).lookup j l = t.lookup j l := by
  cases hj : t.dir j with
  | none => rw [lookup_of_none (t := t.clearTable r) hj, lookup_of_none hj]
  | some q =>
    have hqr : q ≠ r := by
      rintro rfl
      exact h ⟨j, hj⟩
    rw [lookup_of_dir (t := t.clearTable r) hj, lookup_of_dir hj]
    exact if_neg hqr

theorem lookup_link [DecidableEq ι] {t : TwoLevel ι τ κ α} {i : ι} {r : τ} (hi : t.dir i = none)
    (hr : ∀ k, t.tables r k = none) (j : ι) (l : κ) : (t.link i r).lookup j l = t.lookup j l := by
  rcases Decidable.em (j = i) with rfl | hji
  · rw [lookup_of_none hi, lookup_of_dir (t := t.link j r) (if_pos rfl)]
    exact hr l
  · simp only [lookup, link, if_neg hji]

theorem unshared_link [DecidableEq ι] {t : TwoLevel ι τ κ α} (h : t.Unshared) {r : τ}
    (hr : ¬ t.Entered r) (i : ι) : (t.link i r).Unshared := by
  intro j k q hj hk
  simp only [link] at hj hk
  split at hj <;> split at hk
  · next hji hki => exact hji.trans hki.symm
  · cases hj
    exact absurd ⟨k, hk⟩ hr
  · cases hk
    exact absurd ⟨j, hj⟩ hr
  · exact h j k q hj hk

end TwoLevel
