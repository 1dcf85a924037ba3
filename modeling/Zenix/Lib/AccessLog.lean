import Mathlib.Tactic.Common

/-!
# Computations with a log of their accesses

A `Logged` computation returns a value together with the list of what it
touched on the way, in order. Where a program is written twice, plainly and
logged, `value` takes the logged one back to the plain one. `All` states a
property of every access; `Meets` adds one of the result, and has a rule for every
way to build a computation.
-/

universe u v

/-- A value and the accesses made to compute it. -/
structure Logged (κ : Type u) (α : Type v) where
  value : α
  log : List κ

namespace Logged

variable {κ : Type u} {α β : Type v}

instance : Monad (Logged κ) where
  pure a := ⟨a, []⟩
  bind x f := ⟨(f x.value).value, x.log ++ (f x.value).log⟩

/-- An access to `k`. -/
def touch (k : κ) : Logged κ PUnit := ⟨⟨⟩, [k]⟩

/-- Every access meets `P`. -/
def All (P : κ → Prop) (x : Logged κ α) : Prop := ∀ k ∈ x.log, P k

@[simp] theorem value_pure (a : α) : (pure a : Logged κ α).value = a := rfl

@[simp] theorem log_pure (a : α) : (pure a : Logged κ α).log = [] := rfl

@[simp] theorem value_bind (x : Logged κ α) (f : α → Logged κ β) :
    (x >>= f).value = (f x.value).value := rfl

@[simp] theorem log_bind (x : Logged κ α) (f : α → Logged κ β) :
    (x >>= f).log = x.log ++ (f x.value).log := rfl

instance : LawfulMonad (Logged κ) :=
  LawfulMonad.mk' (Logged κ) (fun x => congrArg (Logged.mk x.value) (List.append_nil x.log))
    (fun _ _ => rfl)
    (fun x f _ => congrArg (Logged.mk _) (List.append_assoc x.log (f x.value).log _))

/-- The result of a loop does not depend on the log. -/
theorem value_foldlM {γ : Type u} (f : α → γ → Logged κ α) (cs : List γ) (a : α) :
    (cs.foldlM f a).value = cs.foldl (fun a c => (f a c).value) a := by
  induction cs generalizing a with
  | nil => rfl
  | cons c cs ih =>
    rw [List.foldlM_cons, value_bind]
    exact ih _

theorem all_pure {P : κ → Prop} (a : α) : (pure a : Logged κ α).All P :=
  fun _ h => absurd h List.not_mem_nil

theorem all_touch {P : κ → Prop} {k : κ} (h : P k) : (touch k).All P := by
  intro j hj
  rw [List.mem_singleton.mp hj]
  exact h

theorem all_bind {P : κ → Prop} {x : Logged κ α} {f : α → Logged κ β} :
    (x >>= f).All P ↔ x.All P ∧ (f x.value).All P :=
  List.forall_mem_append

theorem All.bind {P : κ → Prop} {x : Logged κ α} {f : α → Logged κ β} (hx : x.All P)
    (hf : (f x.value).All P) : (x >>= f).All P :=
  all_bind.mpr ⟨hx, hf⟩

/-- The accesses of a loop without a state. -/
theorem log_forM {γ : Type u} (f : γ → Logged κ PUnit) (cs : List γ) :
    (cs.forM f).log = cs.flatMap fun c => (f c).log := by
  induction cs with
  | nil => rfl
  | cons c cs ih =>
    rw [List.flatMap_cons, ← ih]
    rfl

theorem all_forM {P : κ → Prop} {γ : Type u} {f : γ → Logged κ PUnit} {cs : List γ} :
    (cs.forM f).All P ↔ ∀ c ∈ cs, (f c).All P := by
  rw [All, log_forM]
  simp only [List.mem_flatMap, forall_exists_index, and_imp]
  exact ⟨fun h c hc k hk => h k c hc hk, fun h k c hc hk => h c hc k hk⟩

/-! ## Accesses and results -/

/-- Every access meets `P`, and the result meets `Q`. -/
def Meets (P : κ → Prop) (Q : α → Prop) (x : Logged κ α) : Prop := x.All P ∧ Q x.value

section Rules
variable {P : κ → Prop} {Q R : α → Prop}

theorem meets_pure {a : α} (h : Q a) : (pure a : Logged κ α).Meets P Q := ⟨all_pure a, h⟩

/-- The accesses after the first one. -/
theorem meets_touch {k : κ} {x : PUnit → Logged κ α} (h : P k) (hx : (x ⟨⟩).Meets P Q) :
    (touch k >>= x).Meets P Q :=
  ⟨(all_touch h).bind hx.1, hx.2⟩

theorem Meets.bind {S : β → Prop} {x : Logged κ α} {f : α → Logged κ β} (hx : x.Meets P Q)
    (hf : ∀ a, Q a → (f a).Meets P S) : (x >>= f).Meets P S :=
  ⟨hx.1.bind (hf _ hx.2).1, (hf _ hx.2).2⟩

theorem Meets.mono {x : Logged κ α} (hx : x.Meets P Q) (h : ∀ a, Q a → R a) : x.Meets P R :=
  ⟨hx.1, h _ hx.2⟩

/-- A loop whose rounds keep `Q`. -/
theorem meets_foldlM {γ : Type u} {f : α → γ → Logged κ α} {cs : List γ} {a : α} (ha : Q a)
    (hf : ∀ a c, c ∈ cs → Q a → (f a c).Meets P Q) : (cs.foldlM f a).Meets P Q := by
  induction cs generalizing a with
  | nil => exact meets_pure ha
  | cons c cs ih =>
    rw [List.foldlM_cons]
    exact (hf a c List.mem_cons_self ha).bind fun b hb =>
      ih hb fun a d hd => hf a d (List.mem_cons_of_mem _ hd)

end Rules

end Logged
