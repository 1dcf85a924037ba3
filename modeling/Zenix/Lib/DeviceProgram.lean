import Mathlib.Logic.Relation
import Mathlib.Tactic.Common

/-!
# Programs that command a device

A program issues one command after the other, each chosen by the answers to those before
it. The device has changes of its own, which come between any two commands. `wp` is the
condition on the state of the device under which the program ends with a property, whatever
comes between.

Results:
1. `wp_bind`, `wp_command`, `wp_pure`: the rules for the ways to build a program.
2. `wp_change`, `wp_step`, `wp_done`: the condition holds at every point of an interleaved
   run, and the property at its end.
3. `wp_outcome`, `outcome_runWith`: the interleaved runs, and one for every schedule.
4. `wp_kept`: what neither the changes nor the commands affect.
5. `wp_of_run`: when the commands do not see what changes, the program ends as it does
   undisturbed.
6. `run_firstSome`: a search.
-/

universe u v w

/-- Programs over the commands `κ` with the answers `ρ`. -/
inductive DeviceProgram (κ : Type u) (ρ : κ → Type v) (α : Type w) where
  | done (a : α)
  | command (k : κ) (next : ρ k → DeviceProgram κ ρ α)

namespace DeviceProgram

variable {κ : Type u} {ρ : κ → Type v} {α β γ : Type w}

def bind : DeviceProgram κ ρ α → (α → DeviceProgram κ ρ β) → DeviceProgram κ ρ β
  | .done a, f => f a
  | .command k next, f => .command k fun r => (next r).bind f

instance : Monad (DeviceProgram κ ρ) where
  pure := .done
  bind := bind

instance : LawfulMonad (DeviceProgram κ ρ) :=
  LawfulMonad.mk' (DeviceProgram κ ρ)
    (fun x => by
      induction x with
      | done a => rfl
      | command k next ih => exact congrArg (DeviceProgram.command k) (funext ih))
    (fun _ _ => rfl)
    (fun x f g => by
      induction x with
      | done a => rfl
      | command k next ih => exact congrArg (DeviceProgram.command k) (funext ih))

/-- Over a list, up to the first program with a result. -/
def firstSome {ι : Type*} (f : ι → DeviceProgram κ ρ (Option α)) :
    List ι → DeviceProgram κ ρ (Option α)
  | [] => .done none
  | i :: is => f i >>= fun
    | some a => .done (some a)
    | none => firstSome f is

end DeviceProgram

/-- What a command answers and does, and the changes that the device makes on its own. -/
structure Device (κ : Type u) (ρ : κ → Type v) (σ : Type w) where
  perform : (k : κ) → σ → ρ k × σ
  changes : σ → σ → Prop

namespace Device
open DeviceProgram

variable {κ : Type u} {ρ : κ → Type v} {σ : Type w} {α β : Type w}

/-- Some changes later. -/
def Later (D : Device κ ρ σ) : σ → σ → Prop := Relation.ReflTransGen D.changes

/-- No change of the device affects the property. -/
def Stable (D : Device κ ρ σ) (I : σ → Prop) : Prop := ∀ s t, I s → D.changes s t → I t

theorem Stable.later {D : Device κ ρ σ} {I : σ → Prop} (hI : D.Stable I) {s t : σ} (hs : I s)
    (h : D.Later s t) : I t := by
  induction h with
  | refl => exact hs
  | tail _ hst ih => exact hI _ _ ih hst

/-- Without a change in between. -/
def run (D : Device κ ρ σ) : DeviceProgram κ ρ α → σ → α × σ
  | .done a, s => (a, s)
  | .command k next, s => D.run (next (D.perform k s).1) (D.perform k s).2

/-- The program ends with `Q`, whatever changes come between its commands, and after the
last one. -/
def wp (D : Device κ ρ σ) : DeviceProgram κ ρ α → (α → σ → Prop) → σ → Prop
  | .done a, Q, s => ∀ t, D.Later s t → Q a t
  | .command k next, Q, s =>
      ∀ t, D.Later s t → D.wp (next (D.perform k t).1) Q (D.perform k t).2

/-- An interleaved run from its first state to its end. -/
inductive Outcome (D : Device κ ρ σ) : DeviceProgram κ ρ α → σ → α → σ → Prop
  | done {a : α} {s t : σ} (h : D.Later s t) : Outcome D (.done a) s a t
  | command {k : κ} {next : ρ k → DeviceProgram κ ρ α} {s t u : σ} {a : α} (h : D.Later s t)
      (hrest : Outcome D (next (D.perform k t).1) (D.perform k t).2 a u) :
      Outcome D (.command k next) s a u

/-- The run in which the device changes by `f` in front of each command and at the end. -/
def runWith (D : Device κ ρ σ) (f : σ → σ) : DeviceProgram κ ρ α → σ → α × σ
  | .done a, s => (a, f s)
  | .command k next, s =>
    D.runWith f (next (D.perform k (f s)).1) (D.perform k (f s)).2

/-- The commands of the undisturbed run meet `G`. -/
def Allowed (D : Device κ ρ σ) (G : κ → σ → Prop) : DeviceProgram κ ρ α → σ → Prop
  | .done _, _ => True
  | .command k next, s => G k s ∧ D.Allowed G (next (D.perform k s).1) (D.perform k s).2

section Rules
variable {D : Device κ ρ σ} {x : DeviceProgram κ ρ α} {Q R : α → σ → Prop} {s t : σ}

theorem wp_later (h : D.Later s t) (hx : D.wp x Q s) : D.wp x Q t := by
  cases x with
  | done a => exact fun u hu => hx u (h.trans hu)
  | command k next => exact fun u hu => hx u (h.trans hu)

theorem wp_mono (h : ∀ a s, Q a s → R a s) (hx : D.wp x Q s) : D.wp x R s := by
  induction x generalizing s with
  | done a => exact fun t ht => h a t (hx t ht)
  | command k next ih => exact fun t ht => ih _ (hx t ht)

theorem wp_bind {f : α → DeviceProgram κ ρ β} {Q : β → σ → Prop} :
    D.wp (x >>= f) Q s ↔ D.wp x (fun a => D.wp (f a) Q) s := by
  induction x generalizing s with
  | done a =>
    exact ⟨fun h t ht => wp_later ht h, fun h => h s Relation.ReflTransGen.refl⟩
  | command k next ih => exact forall₂_congr fun t _ => ih _

/-- The rule for a command. What is known before it has to be stable. -/
theorem wp_command {I : σ → Prop} {k : κ} {next : ρ k → DeviceProgram κ ρ α}
    (hI : D.Stable I) (hs : I s)
    (h : ∀ t, I t → D.wp (next (D.perform k t).1) Q (D.perform k t).2) :
    D.wp (.command k next) Q s :=
  fun t ht => h t (hI.later hs ht)

theorem wp_pure {a : α} {I : σ → Prop} (hI : D.Stable I) (hs : I s) (h : ∀ t, I t → Q a t) :
    D.wp (pure a) Q s :=
  fun t ht => h t (hI.later hs ht)

/-- What no change and no command affects holds at the end. -/
theorem wp_kept {I : σ → Prop} (hI : D.Stable I) (hperform : ∀ k t, I t → I (D.perform k t).2)
    (hs : I s) : D.wp x (fun _ t => I t) s := by
  induction x generalizing s with
  | done a => exact fun t ht => hI.later hs ht
  | command k next ih => exact fun t ht => ih _ (hperform k t (hI.later hs ht))

theorem wp_outcome {a : α} (h : D.wp x Q s) (hrun : D.Outcome x s a t) : Q a t := by
  induction hrun with
  | done hlater => exact h _ hlater
  | command hlater _ ih => exact ih (h _ hlater)

theorem outcome_runWith {f : σ → σ} (hf : ∀ s, D.Later s (f s)) :
    D.Outcome x s (D.runWith f x s).1 (D.runWith f x s).2 := by
  induction x generalizing s with
  | done a => exact .done (hf s)
  | command k next ih => exact .command (hf s) (ih _)

/-- A change of the device in the middle of a program. -/
theorem wp_change (h : D.changes s t) (hx : D.wp x Q s) : D.wp x Q t :=
  wp_later (.single h) hx

/-- The next command of the program. -/
theorem wp_step {k : κ} {next : ρ k → DeviceProgram κ ρ α} (h : D.wp (.command k next) Q s) :
    D.wp (next (D.perform k s).1) Q (D.perform k s).2 :=
  h s Relation.ReflTransGen.refl

theorem wp_done {a : α} (h : D.wp (.done a) Q s) : Q a s := h s Relation.ReflTransGen.refl

theorem run_bind {f : α → DeviceProgram κ ρ β} :
    D.run (x >>= f) s = D.run (f (D.run x s).1) (D.run x s).2 := by
  induction x generalizing s with
  | done a => rfl
  | command k next ih => exact ih _

/-- The rule for a search, where the tries leave a property of the device as it is. -/
theorem run_firstSome {ι : Type*} {f : ι → DeviceProgram κ ρ (Option α)} {g : ι → Option α}
    {I : σ → Prop} {is : List ι}
    (h : ∀ i ∈ is, ∀ s, I s → (D.run (f i) s).1 = g i ∧ I (D.run (f i) s).2) (hs : I s) :
    (D.run (firstSome f is) s).1 = is.findSome? g ∧ I (D.run (firstSome f is) s).2 := by
  induction is generalizing s with
  | nil => exact ⟨rfl, hs⟩
  | cons i is ih =>
    obtain ⟨hanswer, hkept⟩ := h i List.mem_cons_self s hs
    rw [firstSome, run_bind, hanswer, List.findSome?_cons]
    cases g i with
    | some a => exact ⟨rfl, hkept⟩
    | none => exact ih (fun j hj => h j (List.mem_cons_of_mem i hj)) hkept

theorem allowed_bind {G : κ → σ → Prop} {f : α → DeviceProgram κ ρ β} :
    D.Allowed G (x >>= f) s ↔
      D.Allowed G x s ∧ D.Allowed G (f (D.run x s).1) (D.run x s).2 := by
  induction x generalizing s with
  | done a => exact ⟨fun h => ⟨trivial, h⟩, And.right⟩
  | command k next ih => exact (and_congr_right fun _ => ih _).trans and_assoc.symm

theorem wp_run (h : D.wp x Q s) : Q (D.run x s).1 (D.run x s).2 := by
  induction x generalizing s with
  | done a => exact wp_done h
  | command k next ih => exact ih _ (wp_step h)

/-- `M` relates a state to those that differ from it in what changes. When commands under
`G` answer the same in both and keep the relation, the program ends as if it had been left
alone. -/
theorem wp_of_run {M : σ → σ → Prop} {G : κ → σ → Prop}
    (hchanges : ∀ s t u, M s t → D.changes t u → M s u)
    (hperform : ∀ k s t, M s t → G k s →
      (D.perform k t).1 = (D.perform k s).1 ∧ M (D.perform k s).2 (D.perform k t).2)
    (hst : M s t) (hx : D.Allowed G x s) :
    D.wp x (fun a u => a = (D.run x s).1 ∧ M (D.run x s).2 u) t := by
  have hlater : ∀ {s t u}, M s t → D.Later t u → M s u := by
    intro s t u hst htu
    induction htu with
    | refl => exact hst
    | tail _ hchange ih => exact hchanges _ _ _ ih hchange
  induction x generalizing s t with
  | done a => exact fun u hu => ⟨rfl, hlater hst hu⟩
  | command k next ih =>
    intro u hu
    obtain ⟨hanswer, hsame⟩ := hperform k s u (hlater hst hu) hx.1
    rw [hanswer]
    exact ih _ hsame hx.2

end Rules

end Device
