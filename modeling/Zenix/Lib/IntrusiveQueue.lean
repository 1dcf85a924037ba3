import Mathlib.Data.List.Nodup
import Mathlib.Tactic.Common

/-!
# Queues linked through their elements

A first-in first-out queue whose elements carry the link to their successor, with
separate pointers to the first and the last element. The links are a function on
all elements; the queue depends on those of its own elements only.

Results:
1. `Holds.push`: writing the links of the new and of the last element appends.
2. `Holds.pop`: reading the link of the first element removes it.
-/

universe u

namespace IntrusiveQueue

variable {α : Type u} {null head tail x : α} {next next' : α → α} {xs : List α}

/-- Following the links from `p` visits the elements `xs` and ends at `null`. -/
def Chain (null : α) (next : α → α) : α → List α → Prop
  | p, [] => p = null
  | p, x :: xs => p = x ∧ x ≠ null ∧ Chain null next (next x) xs

/-- `head` and `tail` are the ends of the queue `xs`, or both `null`. -/
structure Holds (null : α) (next : α → α) (head tail : α) (xs : List α) : Prop where
  chain : Chain null next head xs
  nodup : xs.Nodup
  last : tail = xs.getLastD null

theorem Chain.congr {p : α} (h : Chain null next p xs) (hnext : ∀ y ∈ xs, next' y = next y) :
    Chain null next' p xs := by
  induction xs generalizing p with
  | nil => exact h
  | cons x xs ih =>
    obtain ⟨hp, hx, htail⟩ := h
    refine ⟨hp, hx, ?_⟩
    rw [hnext x List.mem_cons_self]
    exact ih htail fun y hy => hnext y (List.mem_cons_of_mem _ hy)

theorem Chain.head_eq {p : α} (h : Chain null next p xs) : p = xs.headD null := by
  cases xs with
  | nil => exact h
  | cons x xs => exact h.1

theorem Holds.empty_iff (h : Holds null next head tail xs) : head = null ↔ xs = [] := by
  cases xs with
  | nil => exact iff_of_true h.chain rfl
  | cons x xs =>
    obtain ⟨hp, hx, _⟩ := h.chain
    exact iff_of_false (hp ▸ hx) (List.cons_ne_nil _ _)

theorem Holds.congr (h : Holds null next head tail xs) (hnext : ∀ y ∈ xs, next' y = next y) :
    Holds null next' head tail xs :=
  ⟨h.chain.congr hnext, h.nodup, h.last⟩

/-- The chain with a further element behind its last one. -/
theorem Chain.snoc {p : α} (h : Chain null next p xs) (hne : xs ≠ []) (hnodup : xs.Nodup)
    (hx : x ≠ null) (hlink : next' (xs.getLast hne) = x) (hend : next' x = null)
    (hnext : ∀ y ∈ xs, y ≠ xs.getLast hne → next' y = next y) :
    Chain null next' p (xs ++ [x]) := by
  induction xs generalizing p with
  | nil => exact absurd rfl hne
  | cons y ys ih =>
    obtain ⟨hp, hy, htail⟩ := h
    obtain ⟨hnot, hys⟩ := List.nodup_cons.mp hnodup
    refine ⟨hp, hy, ?_⟩
    cases ys with
    | nil => exact ⟨hlink, hx, hend⟩
    | cons z zs =>
      have hzs : z :: zs ≠ [] := List.cons_ne_nil z zs
      rw [List.getLast_cons hzs] at hlink hnext
      have hlast : y ≠ (z :: zs).getLast hzs := fun heq => hnot (heq ▸ List.getLast_mem hzs)
      rw [hnext y List.mem_cons_self hlast]
      exact ih htail hzs hys hlink fun w hw => hnext w (List.mem_cons_of_mem _ hw)

/-- Appending to the empty queue. -/
theorem Holds.pushNil (hx : x ≠ null) (hend : next' x = null) : Holds null next' x x [x] :=
  ⟨⟨rfl, hx, hend⟩, List.nodup_singleton x, rfl⟩

/-- Appending behind the last element. -/
theorem Holds.push (h : Holds null next head tail xs) (hne : xs ≠ []) (hx : x ≠ null)
    (hnew : x ∉ xs) (hlink : next' tail = x) (hend : next' x = null)
    (hnext : ∀ y ∈ xs, y ≠ tail → next' y = next y) : Holds null next' head x (xs ++ [x]) := by
  have hlast : tail = xs.getLast hne := by rw [h.last, List.getLastD_eq_getLast?,
    List.getLast?_eq_some_getLast hne, Option.getD_some]
  rw [hlast] at hlink hnext
  refine ⟨h.chain.snoc hne h.nodup hx hlink hend hnext, ?_, ?_⟩
  · rw [List.nodup_append]
    refine ⟨h.nodup, List.nodup_singleton x, fun y hy z hz => ?_⟩
    rw [List.mem_singleton.mp hz]
    exact fun heq => hnew (heq ▸ hy)
  · rw [List.getLastD_concat]

/-- The queue without its first element. -/
theorem Holds.pop [DecidableEq α] (h : Holds null next head tail (x :: xs))
    (hnext : ∀ y ∈ xs, next' y = next y) :
    Holds null next' (next x) (if next x = null then null else tail) xs := by
  obtain ⟨hchain, hnodup, hlast⟩ := h
  obtain ⟨_, _, htail⟩ := hchain
  refine ⟨htail.congr hnext, (List.nodup_cons.mp hnodup).2, ?_⟩
  cases xs with
  | nil => exact if_pos htail
  | cons y ys =>
    rw [if_neg (htail.1 ▸ htail.2.1), hlast, List.getLastD_cons, List.getLastD_cons,
      List.getLastD_cons]

end IntrusiveQueue
