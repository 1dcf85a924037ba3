import Mathlib.Data.Nat.ModEq
import Mathlib.Tactic.Common

/-!
# Queues in a ring

A ring of `n` cells holds a queue between two indices: `tail` is the cell of the
oldest element and `head` the cell after the newest one. One cell always stays
free, so that equal indices mean the empty queue.

Results:
1. `Holds.empty_iff`, `Holds.full_iff`: the comparisons that tell the empty and the
   full ring apart from the others.
2. `Holds.push`, `Holds.pop`: a write at `head` followed by its advance appends,
   and an advance of `tail` removes the oldest element.
-/

universe u

namespace RingQueue

variable {α : Type u} {n tail head : Nat} {cell : Nat → α} {xs : List α} {x : α}

/-- The cells from `tail` up to `head` hold `xs`, oldest first. -/
structure Holds (n : Nat) (cell : Nat → α) (tail head : Nat) (xs : List α) : Prop where
  room : xs.length < n
  tail_lt : tail < n
  head_eq : head = (tail + xs.length) % n
  cells : ∀ i y, xs[i]? = some y → cell ((tail + i) % n) = y

/-- Two offsets of less than one round lead to different cells. -/
theorem offset_inj {i j : Nat} (hi : i < n) (hj : j < n)
    (h : (tail + i) % n = (tail + j) % n) : i = j :=
  (Nat.ModEq.add_left_cancel' tail h).eq_of_lt_of_lt hi hj

theorem Holds.nil (htail : tail < n) : Holds n cell tail tail [] := by
  refine ⟨by simp only [List.length_nil]; omega, htail, ?_, ?_⟩
  · rw [List.length_nil, Nat.add_zero, Nat.mod_eq_of_lt htail]
  · intro i y hy
    cases hy

theorem Holds.head_lt (h : Holds n cell tail head xs) : head < n := by
  have htail := h.tail_lt
  rw [h.head_eq]
  exact Nat.mod_lt _ (by omega)

theorem Holds.empty_iff (h : Holds n cell tail head xs) : head = tail ↔ xs = [] := by
  have hzero : tail = (tail + 0) % n := by rw [Nat.add_zero, Nat.mod_eq_of_lt h.tail_lt]
  constructor
  · intro heq
    have hlen : xs.length = 0 :=
      offset_inj h.room (Nat.lt_of_le_of_lt (Nat.zero_le _) h.room)
        (h.head_eq.symm.trans (heq.trans hzero))
    exact List.eq_nil_of_length_eq_zero hlen
  · rintro rfl
    exact h.head_eq.trans hzero.symm

/-- The next cell after `head` is `tail` when only one cell is left. -/
theorem Holds.full_iff (h : Holds n cell tail head xs) :
    (head + 1) % n = tail ↔ xs.length + 1 = n := by
  have hroom := h.room
  have hnext : (head + 1) % n = (tail + (xs.length + 1)) % n := by
    rw [h.head_eq, Nat.mod_add_mod, Nat.add_assoc]
  constructor
  · intro heq
    by_contra hne
    have hzero : tail = (tail + 0) % n := by rw [Nat.add_zero, Nat.mod_eq_of_lt h.tail_lt]
    have hlen : xs.length + 1 = 0 :=
      offset_inj (by omega) (by omega) (hnext.symm.trans (heq.trans hzero))
    cases hlen
  · intro hlen
    rw [hnext, hlen, Nat.add_mod_right, Nat.mod_eq_of_lt h.tail_lt]

theorem Holds.push (h : Holds n cell tail head xs) (hroom : xs.length + 1 ≠ n) :
    Holds n (fun i => if i = head then x else cell i) tail ((head + 1) % n) (xs ++ [x]) := by
  have hlt := h.room
  refine ⟨?_, h.tail_lt, ?_, ?_⟩
  · rw [List.length_append, List.length_singleton]
    omega
  · rw [List.length_append, List.length_singleton, h.head_eq, Nat.mod_add_mod, Nat.add_assoc]
  · intro i y hy
    cases Nat.lt_or_ge i xs.length with
    | inl hi =>
      rw [List.getElem?_append_left hi] at hy
      have hne : (tail + i) % n ≠ head := by
        intro heq
        have hsame := offset_inj (by omega) hlt (heq.trans h.head_eq)
        omega
      rw [if_neg hne]
      exact h.cells i y hy
    | inr hi =>
      rw [List.getElem?_append_right hi, List.getElem?_singleton] at hy
      split at hy
      · next hzero =>
        rw [show i = xs.length by omega, if_pos h.head_eq.symm]
        exact Option.some.inj hy
      · cases hy

theorem Holds.front (h : Holds n cell tail head (x :: xs)) : cell tail = x := by
  have hcell := h.cells 0 x rfl
  rwa [Nat.add_zero, Nat.mod_eq_of_lt h.tail_lt] at hcell

/-- The cell of the newest element. -/
theorem Holds.last (h : Holds n cell tail head (xs ++ [x])) : cell ((tail + xs.length) % n) = x :=
  h.cells xs.length x List.getElem?_concat_length

theorem Holds.pop (h : Holds n cell tail head (x :: xs)) :
    Holds n cell ((tail + 1) % n) head xs := by
  have hroom := h.room
  rw [List.length_cons] at hroom
  refine ⟨by omega, Nat.mod_lt _ (by omega), ?_, ?_⟩
  · rw [h.head_eq, Nat.mod_add_mod, List.length_cons, Nat.add_assoc, Nat.add_comm 1]
  · intro i y hy
    rw [Nat.mod_add_mod, Nat.add_assoc, Nat.add_comm 1]
    exact h.cells (i + 1) y hy

end RingQueue
