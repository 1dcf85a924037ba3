import Mathlib.Data.List.GetD
import Zenix.Lib.Memory

/-!
# Memory and string functions (lib/libc/string.c)

The functions that the modelled kernel code calls, on byte memory. Their loops
count upwards and read memory as it is at that point, so source and destination
may overlap.

Results:
1. `memset_sameOff`, `memcpy_other`, `strncpy_sameOff`: nothing outside the
   destination changes.
2. `memcpy_apply`: what `memcpy` leaves at the destination, for every overlap.
3. `strncpy_apply`, `strcpyLoop_spec`: the copies of a string that does not meet the
   destination.
4. `strcmpLoop_order`: `strcmp` has the sign of the lexicographic order of the strings.
5. `copyLoop_string`: what a bounded copy leaves in an array.
-/

namespace Zenix
open ByteMemory

def memset (m : Mem) (ptr : Word) (value : Byte) (num : Nat) : Mem := fill m ptr (fun _ _ => value) num

def memcpy (m : Mem) (dest src : Word) (n : Nat) : Mem :=
  fill m dest (fun i m => m (src + BitVec.ofNat 32 i)) n

/-- The second loop of `strncpy`, `for (; i < n; i++) dest[i] = '\0'`, when
`left` rounds are left. -/
def strncpyPad (dest : Word) : Nat → Nat → Mem → Mem
  | _, 0, m => m
  | i, left + 1, m => strncpyPad dest (i + 1) left (store8 m (dest + BitVec.ofNat 32 i) 0#8)

/-- The first loop, `for (i = 0; i < n && src[i] != '\0'; i++) dest[i] = src[i]`,
followed by the second. -/
def strncpyLoop (dest src : Word) : Nat → Nat → Mem → Mem
  | _, 0, m => m
  | i, left + 1, m =>
      if m (src + BitVec.ofNat 32 i) ≠ 0#8 then
        strncpyLoop dest src (i + 1) left
          (store8 m (dest + BitVec.ofNat 32 i) (m (src + BitVec.ofNat 32 i)))
      else strncpyPad dest i (left + 1) m

def strncpy (m : Mem) (dest src : Word) (n : Nat) : Mem := strncpyLoop dest src 0 n m

/-- `strcpy(dest, "...")`: the bytes of the literal and the terminator. -/
def strcpyLiteral (m : Mem) (dest : Word) (s : List Byte) : Mem :=
  fill m dest (fun i _ => s.getD i 0#8) (s.length + 1)

/-- A string goes on for less than this in memory, or it has no terminator. -/
def maxString : Nat := 4294967296

/-- `while ((*dest++ = *src++));` from the character `i` on. `none` is a copy that has not
met a terminator. -/
def strcpyLoop (dest src : Word) : Nat → Nat → Mem → Option Mem
  | 0, _, _ => none
  | fuel + 1, i, m =>
      let c := m (src + BitVec.ofNat 32 i)
      let m := store8 m (dest + BitVec.ofNat 32 i) c
      if c ≠ 0#8 then strcpyLoop dest src fuel (i + 1) m else some m

def strcpy (m : Mem) (dest src : Word) : Option Mem := strcpyLoop dest src maxString 0 m

/-- `while (src[i] && keep(src[i]) && j < limit) dest[j++] = src[i++];`, where `room` is what
is left to the limit. -/
def copyLoop (src : Nat → Byte) (keep : Byte → Bool) :
    Nat → Nat → Nat → (Nat → Byte) → (Nat → Byte) × Nat × Nat
  | 0, i, j, dest => (dest, i, j)
  | room + 1, i, j, dest =>
    if src i ≠ 0#8 ∧ keep (src i) then
      copyLoop src keep room (i + 1) (j + 1) (Function.update dest j (src i))
    else (dest, i, j)

/-- `while (*s1 && (*s1 == *s2))` from the character `i` on, and the difference behind it. -/
def strcmpLoop (s1 s2 : Nat → Byte) : Nat → Nat → Option Int
  | 0, _ => none
  | fuel + 1, i =>
      if s1 i ≠ 0#8 ∧ s1 i = s2 i then strcmpLoop s1 s2 fuel (i + 1)
      else some ((s1 i).toNat - (s2 i).toNat)

def strcmp (m : Mem) (s1 s2 : Word) : Option Int :=
  strcmpLoop (fun i => m (s1 + BitVec.ofNat 32 i)) (fun i => m (s2 + BitVec.ofNat 32 i)) maxString 0

/-- `strcmp(s1, "...")`. -/
def strcmpLiteral (m : Mem) (s1 : Word) (s : List Byte) : Option Int :=
  strcmpLoop (fun i => m (s1 + BitVec.ofNat 32 i)) (fun i => s.getD i 0#8) maxString 0

/-! ## Frames -/

theorem memset_sameOff {m : Mem} {ptr : Word} {value : Byte} {num : Nat}
    (h : ptr.toNat + num ≤ 2 ^ 32) :
    SameOff m (memset m ptr value num) ptr.toNat (ptr.toNat + num) :=
  fill_sameOff h

theorem strcpyLiteral_sameOff {m : Mem} {dest : Word} {s : List Byte}
    (h : dest.toNat + (s.length + 1) ≤ 2 ^ 32) :
    SameOff m (strcpyLiteral m dest s) dest.toNat (dest.toNat + (s.length + 1)) :=
  fill_sameOff h

theorem store8_at_sameOff {m : Mem} {dest : Word} {v : Byte} {i n : Nat} (hi : i < n)
    (h : dest.toNat + n ≤ 2 ^ 32) :
    SameOff m (store8 m (dest + BitVec.ofNat 32 i) v) dest.toNat (dest.toNat + n) := by
  have haddr : (dest + BitVec.ofNat 32 i).toNat = dest.toNat + i := toNat_add_ofNat (by omega)
  refine (store8_sameOff _ _ _).mono ?_ ?_ <;> omega

theorem strncpyPad_sameOff {m : Mem} {dest : Word} {i left n : Nat} (hn : i + left ≤ n)
    (h : dest.toNat + n ≤ 2 ^ 32) :
    SameOff m (strncpyPad dest i left m) dest.toNat (dest.toNat + n) := by
  induction left generalizing i m with
  | zero => exact SameOff.refl _ _ _
  | succ left ih => exact (store8_at_sameOff (by omega) h).trans (ih (by omega))

theorem strncpyLoop_sameOff {m : Mem} {dest src : Word} {i left n : Nat} (hn : i + left ≤ n)
    (h : dest.toNat + n ≤ 2 ^ 32) :
    SameOff m (strncpyLoop dest src i left m) dest.toNat (dest.toNat + n) := by
  induction left generalizing i m with
  | zero => exact SameOff.refl _ _ _
  | succ left ih =>
    unfold strncpyLoop
    split
    · exact (store8_at_sameOff (by omega) h).trans (ih (by omega))
    · exact strncpyPad_sameOff (by omega) h

theorem strncpy_sameOff {m : Mem} {dest src : Word} {n : Nat} (h : dest.toNat + n ≤ 2 ^ 32) :
    SameOff m (strncpy m dest src n) dest.toNat (dest.toNat + n) :=
  strncpyLoop_sameOff (by omega) h

/-! ## Contents -/

theorem memset_apply {m : Mem} {ptr : Word} {value : Byte} {num i : Nat}
    (h : ptr.toNat + num ≤ 2 ^ 32) (hi : i < num) :
    memset m ptr value num (ptr + BitVec.ofNat 32 i) = value :=
  fill_apply (by omega) hi

/-- A word that `memset` with zero has covered. -/
theorem load32_memset_zero {m : Mem} {ptr : Word} {num i : Nat} (h : ptr.toNat + num ≤ 2 ^ 32)
    (hi : i + 4 ≤ num) : load32 (memset m ptr 0#8 num) (ptr + BitVec.ofNat 32 i) = 0#32 := by
  have hbyte : ∀ j, j < 4 →
      memset m ptr 0#8 num (ptr + BitVec.ofNat 32 i + BitVec.ofNat 32 j) = 0#8 := by
    intro j hj
    rw [BitVec.add_assoc, ofNat_add_ofNat]
    exact memset_apply h (by omega)
  have h0 := hbyte 0 (by decide)
  rw [show ptr + BitVec.ofNat 32 i + BitVec.ofNat 32 0 = ptr + BitVec.ofNat 32 i by bv_omega] at h0
  have h1 := hbyte 1 (by decide)
  have h2 := hbyte 2 (by decide)
  have h3 := hbyte 3 (by decide)
  unfold load32
  simp only [BitVec.ofNat_eq_ofNat] at h1 h2 h3 ⊢
  rw [h0, h1, h2, h3]
  decide

/-- The byte that `memcpy` leaves at offset `j`. Where the destination starts `d`
bytes behind the source, the first `d` source bytes are repeated. -/
theorem memcpy_apply (m : Mem) (dest src : Word) {n j : Nat} (hn : n ≤ 2 ^ 32) (hj : j < n) :
    memcpy m dest src n (dest + BitVec.ofNat 32 j) =
      m (src + BitVec.ofNat 32 (j % (dest - src).toNat)) := by
  induction j using Nat.strongRecOn with
  | ind j ih =>
    have hjw : (BitVec.ofNat 32 j).toNat = j := toNat_ofNat_of_lt (by omega)
    rw [memcpy, fill_apply hn hj]
    -- the source byte has been overwritten exactly when it lies behind `dest`
    cases Decidable.em ((dest - src).toNat = 0 ∨ j < (dest - src).toNat) with
    | inl hkeep =>
      have hmod : j % (dest - src).toNat = j := by
        rcases hkeep with h0 | hlt
        · rw [h0, Nat.mod_zero]
        · exact Nat.mod_eq_of_lt hlt
      rw [hmod]
      refine fill_other fun i hi he => ?_
      have hiw : (BitVec.ofNat 32 i).toNat = i := toNat_ofNat_of_lt (by omega)
      rcases hkeep with h0 | hlt <;> bv_omega
    | inr hlost =>
      rw [not_or, Nat.not_lt] at hlost
      obtain ⟨h0, hle⟩ := hlost
      have hback : src + BitVec.ofNat 32 j =
          dest + BitVec.ofNat 32 (j - (dest - src).toNat) := by
        have hdw : (BitVec.ofNat 32 (j - (dest - src).toNat)).toNat = j - (dest - src).toNat :=
          toNat_ofNat_of_lt (by omega)
        bv_omega
      have hprev := ih (j - (dest - src).toNat) (by omega) (by omega)
      rw [memcpy, fill_apply hn (by omega)] at hprev
      rw [hback, fill_apply (by omega) (by omega), hprev, Nat.mod_eq_sub_mod hle]

theorem memcpy_other {m : Mem} {dest src x : Word} {n : Nat}
    (h : ∀ j, j < n → x ≠ dest + BitVec.ofNat 32 j) : memcpy m dest src n x = m x :=
  fill_other h

/-! ## Strings -/

theorem strncpyPad_apply {m : Mem} {dest : Word} {i left j : Nat} (hj : j < i + left)
    (hmax : i + left ≤ 2 ^ 32) : strncpyPad dest i left m (dest + BitVec.ofNat 32 j) =
      if i ≤ j then 0#8 else m (dest + BitVec.ofNat 32 j) := by
  induction left generalizing i m with
  | zero => rw [if_neg (by omega)]; rfl
  | succ left ih =>
    rw [strncpyPad, ih (by omega) (by omega)]
    rcases Nat.lt_trichotomy i j with hlt | rfl | hgt
    · rw [if_pos (by omega), if_pos (by omega)]
    · rw [if_neg (by omega), if_pos (Nat.le_refl _), store8_same]
    · rw [if_neg (by omega), if_neg (by omega), store8_ne]
      intro heq
      have hij := (add_ofNat_inj (by omega) (by omega)).mp heq
      omega

/-- The bytes of `dest` after `strncpy`, where source and destination do not meet: those
of the string, then zeros. -/
theorem strncpyLoop_apply {m : Mem} {dest src : Word} {i left j : Nat} (hj : j < i + left)
    (hmax : i + left ≤ 2 ^ 32)
    (hapart : ∀ a b, a < i + left → b < i + left → src + BitVec.ofNat 32 a ≠ dest + BitVec.ofNat 32 b) :
    strncpyLoop dest src i left m (dest + BitVec.ofNat 32 j) =
      if j < i then m (dest + BitVec.ofNat 32 j)
      else if ∀ a, i ≤ a → a ≤ j → m (src + BitVec.ofNat 32 a) ≠ 0#8 then m (src + BitVec.ofNat 32 j)
      else 0#8 := by
  induction left generalizing i m with
  | zero => rw [if_pos (by omega)]; rfl
  | succ left ih =>
    have hsrc : ∀ v a, a < i + (left + 1) →
        store8 m (dest + BitVec.ofNat 32 i) v (src + BitVec.ofNat 32 a) = m (src + BitVec.ofNat 32 a) :=
      fun v a ha => store8_ne (hapart a i ha (by omega))
    rw [strncpyLoop]
    split
    · next hc =>
      rw [ih (by omega) (by omega) fun a b ha hb => hapart a b (by omega) (by omega), hsrc _ j hj]
      rcases Nat.lt_trichotomy j i with hlt | rfl | hgt
      · rw [if_pos (by omega), if_pos hlt, store8_ne]
        intro heq
        have hij := (add_ofNat_inj (by omega) (by omega)).mp heq
        omega
      · rw [if_pos (Nat.lt_succ_self _), if_neg (Nat.lt_irrefl _), store8_same, if_pos]
        intro a hia haj
        rwa [show a = j by omega]
      · rw [if_neg (show ¬ j < i + 1 by omega), if_neg (show ¬ j < i by omega)]
        -- the character at `i` is not the terminator
        refine if_congr ⟨fun h a hia haj => ?_, fun h a hia haj => ?_⟩ rfl rfl
        · rcases Nat.eq_or_lt_of_le hia with rfl | hlt
          · exact hc
          · have hne := h a hlt haj
            rwa [hsrc _ a (by omega)] at hne
        · rw [hsrc _ a (by omega)]
          exact h a (by omega) haj
    · next hc =>
      rw [ne_eq, not_not] at hc
      rw [strncpyPad_apply hj hmax]
      rcases Nat.lt_or_ge j i with hlt | hge
      · rw [if_neg (by omega), if_pos hlt]
      · rw [if_pos hge, if_neg (by omega), if_neg]
        exact fun h => h i (Nat.le_refl _) hge hc

theorem strncpy_apply {m : Mem} {dest src : Word} {n j : Nat} (hj : j < n) (hmax : n ≤ 2 ^ 32)
    (hapart : ∀ a b, a < n → b < n → src + BitVec.ofNat 32 a ≠ dest + BitVec.ofNat 32 b) :
    strncpy m dest src n (dest + BitVec.ofNat 32 j) =
      if ∀ a, a ≤ j → m (src + BitVec.ofNat 32 a) ≠ 0#8 then m (src + BitVec.ofNat 32 j) else 0#8 := by
  rw [strncpy, strncpyLoop_apply (by omega) (by omega) fun a b ha hb =>
    hapart a b (by omega) (by omega), if_neg (Nat.not_lt_zero _)]
  exact if_congr ⟨fun h a ha => h a (Nat.zero_le _) ha, fun h a _ ha => h a ha⟩ rfl rfl

/-- The string `w` stands at the index `i`. -/
structure StringFrom (buffer : Nat → Byte) (i : Nat) (w : List Byte) : Prop where
  chars : ∀ k (h : k < w.length), buffer (i + k) = w[k]
  stop : buffer (i + w.length) = 0#8
  noNul : 0#8 ∉ w

theorem StringFrom.congr {buffer buffer' : Nat → Byte} {i : Nat} {w : List Byte}
    (h : StringFrom buffer i w) (hsame : ∀ k, i ≤ k → k ≤ i + w.length → buffer' k = buffer k) :
    StringFrom buffer' i w :=
  ⟨fun k hk => (hsame _ (by omega) (by omega)).trans (h.chars k hk),
    (hsame _ (by omega) (Nat.le_refl _)).trans h.stop, h.noNul⟩

theorem stringFrom_nil {buffer : Nat → Byte} {i : Nat} : StringFrom buffer i [] ↔ buffer i = 0#8 :=
  ⟨fun h => h.stop, fun h => ⟨fun k hk => absurd hk (Nat.not_lt_zero k), h, List.not_mem_nil⟩⟩

theorem stringFrom_cons {buffer : Nat → Byte} {i : Nat} {c : Byte} {w : List Byte} :
    StringFrom buffer i (c :: w) ↔ buffer i = c ∧ c ≠ 0#8 ∧ StringFrom buffer (i + 1) w := by
  have hnext : ∀ k, i + 1 + k = i + (k + 1) := fun k => by omega
  constructor
  · rintro ⟨hchars, hstop, hnul⟩
    rw [List.mem_cons, not_or] at hnul
    refine ⟨hchars 0 (Nat.zero_lt_succ _), Ne.symm hnul.1, fun k hk => ?_, ?_, hnul.2⟩
    · rw [hnext]
      exact hchars (k + 1) (Nat.succ_lt_succ hk)
    · rw [hnext]
      exact hstop
  · rintro ⟨hc, hne, hchars, hstop, hnul⟩
    refine ⟨fun k hk => ?_, ?_, ?_⟩
    · cases k with
      | zero => exact hc
      | succ k =>
        rw [← hnext]
        exact hchars k (Nat.lt_of_succ_lt_succ hk)
    · rw [List.length_cons, ← hnext]
      exact hstop
    · rw [List.mem_cons, not_or]
      exact ⟨Ne.symm hne, hnul⟩

theorem StringFrom.eq_nil {buffer : Nat → Byte} {i : Nat} {w : List Byte}
    (h : StringFrom buffer i w) (hzero : buffer i = 0#8) : w = [] := by
  cases w with
  | nil => rfl
  | cons c w =>
    obtain ⟨hc, hne, _⟩ := stringFrom_cons.mp h
    exact absurd (hc.symm.trans hzero) hne

theorem StringFrom.eq_cons {buffer : Nat → Byte} {i : Nat} {w : List Byte}
    (h : StringFrom buffer i w) (hne : buffer i ≠ 0#8) :
    ∃ w', w = buffer i :: w' ∧ StringFrom buffer (i + 1) w' := by
  cases w with
  | nil => exact absurd (stringFrom_nil.mp h) hne
  | cons c w =>
    obtain ⟨hc, _, hrest⟩ := stringFrom_cons.mp h
    exact ⟨w, by rw [hc], hrest⟩

/-- The copy of the string `w` that stands at `src + i`. -/
theorem strcpyLoop_spec {dest src : Word} {w : List Byte} (fuel i : Nat) {m : Mem}
    (hw : StringFrom (fun k => m (src + BitVec.ofNat 32 k)) i w)
    (hapart : ∀ a b, a ≤ i + w.length → b ≤ i + w.length →
      src + BitVec.ofNat 32 a ≠ dest + BitVec.ofNat 32 b)
    (hmax : i + w.length < 2 ^ 32) (hfuel : w.length < fuel) :
    ∃ m', strcpyLoop dest src fuel i m = some m' ∧
      StringFrom (fun k => m' (dest + BitVec.ofNat 32 k)) i w ∧
      ∀ x, (∀ k, i ≤ k → k ≤ i + w.length → x ≠ dest + BitVec.ofNat 32 k) → m' x = m x := by
  induction w generalizing i fuel m with
  | nil =>
    obtain ⟨f, rfl⟩ := Nat.exists_eq_succ_of_ne_zero (by omega : fuel ≠ 0)
    have hend : m (src + BitVec.ofNat 32 i) = 0#8 := hw.stop
    refine ⟨_, by rw [strcpyLoop, hend, if_neg (by simp)], ?_,
      fun x hx => store8_ne (hx i (Nat.le_refl _) (by simp))⟩
    exact stringFrom_nil.mpr (store8_same _ _ _)
  | cons c w ih =>
    obtain ⟨f, rfl⟩ := Nat.exists_eq_succ_of_ne_zero (by omega : fuel ≠ 0)
    obtain ⟨hc, hne, hrest⟩ := stringFrom_cons.mp hw
    rw [List.length_cons] at hapart hmax hfuel
    -- the character is not written over what is still to be copied
    obtain ⟨m', hloop, hcopy, hsame⟩ := ih f (i + 1)
      (m := store8 m (dest + BitVec.ofNat 32 i) c)
      (hrest.congr fun k _ hk => store8_ne (hapart k i (by omega) (by omega)))
      (fun a b ha hb => hapart a b (by omega) (by omega)) (by omega) (Nat.lt_of_succ_lt_succ hfuel)
    have hbehind : ∀ k, i + 1 ≤ k → k ≤ i + 1 + w.length →
        dest + BitVec.ofNat 32 i ≠ dest + BitVec.ofNat 32 k := by
      intro k hlo hhi heq
      have hik := (add_ofNat_inj (by omega) (by omega)).mp heq
      omega
    refine ⟨m', by rw [strcpyLoop, hc, if_pos hne, hloop], ?_, fun x hx => ?_⟩
    · exact stringFrom_cons.mpr ⟨(hsame _ hbehind).trans (store8_same _ _ _), hne, hcopy⟩
    · rw [List.length_cons] at hx
      rw [hsame x fun k hlo hhi => hx k (by omega) (by omega),
        store8_ne (hx i (Nat.le_refl _) (by omega))]

/-- The sign of the difference of two bytes. -/
theorem byteDiff_neg {a b : Byte} : (a.toNat : Int) - b.toNat < 0 ↔ a < b := by
  rw [BitVec.lt_def]
  omega

theorem byteDiff_eq {a b : Byte} : (a.toNat : Int) - b.toNat = 0 ↔ a = b := by
  rw [← BitVec.toNat_inj]
  omega

theorem byteDiff_pos {a b : Byte} : 0 < (a.toNat : Int) - b.toNat ↔ b < a := by
  rw [BitVec.lt_def]
  omega

/-- The same string in two buffers starts with the same character. -/
theorem StringFrom.first {s1 s2 : Nat → Byte} {i : Nat} {w : List Byte}
    (h1 : StringFrom s1 i w) (h2 : StringFrom s2 i w) : s1 i = s2 i := by
  cases w with
  | nil => rw [stringFrom_nil.mp h1, stringFrom_nil.mp h2]
  | cons c w => rw [(stringFrom_cons.mp h1).1, (stringFrom_cons.mp h2).1]

/-- Two strings that start differently. The terminator is below every character. -/
theorem StringFrom.lt_iff_first {s1 s2 : Nat → Byte} {i : Nat} {v w : List Byte}
    (hv : StringFrom s1 i v) (hw : StringFrom s2 i w) (hne : s1 i ≠ s2 i) :
    v < w ↔ s1 i < s2 i := by
  by_cases hend : s2 i = 0#8
  · rw [hw.eq_nil hend, hend]
    exact iff_of_false (List.not_lt_nil v) (Nat.not_lt_zero _)
  · obtain ⟨w', rfl, _⟩ := hw.eq_cons hend
    by_cases hstop : s1 i = 0#8
    · have hpos : 0#8 < s2 i :=
        Nat.pos_of_ne_zero fun hzero => hend (BitVec.eq_of_toNat_eq hzero)
      rw [hv.eq_nil hstop, hstop]
      exact iff_of_true (List.nil_lt_cons _ _) hpos
    · obtain ⟨v', rfl, _⟩ := hv.eq_cons hstop
      rw [List.cons_lt_cons_iff]
      exact or_iff_left fun h => hne h.1

/-- The sign of `strcmp` on the strings `v` and `w` that stand at `i`: the lexicographic
order. -/
theorem strcmpLoop_order {s1 s2 : Nat → Byte} {v w : List Byte} (fuel i : Nat)
    (hv : StringFrom s1 i v) (hw : StringFrom s2 i w) (hfuel : w.length < fuel) :
    ∃ d, strcmpLoop s1 s2 fuel i = some d ∧
      (d < 0 ↔ v < w) ∧ (d = 0 ↔ v = w) ∧ (0 < d ↔ w < v) := by
  induction fuel generalizing v w i with
  | zero => exact absurd hfuel (Nat.not_lt_zero _)
  | succ fuel ih =>
    rw [strcmpLoop]
    by_cases heq : s1 i = s2 i
    · by_cases hend : s2 i = 0#8
      · -- both strings end
        rw [if_neg fun h => h.1 (heq.trans hend), hv.eq_nil (heq.trans hend), hw.eq_nil hend]
        refine ⟨_, rfl, ?_⟩
        rw [byteDiff_neg, byteDiff_eq, byteDiff_pos, heq]
        exact ⟨iff_of_false (BitVec.lt_irrefl _) (List.not_lt_nil _), iff_of_true rfl rfl,
          iff_of_false (BitVec.lt_irrefl _) (List.not_lt_nil _)⟩
      · -- both go on
        obtain ⟨w', rfl, hw'⟩ := hw.eq_cons hend
        obtain ⟨v', rfl, hv'⟩ := hv.eq_cons (heq ▸ hend)
        obtain ⟨d, hloop, hd⟩ := ih (i + 1) hv' hw' (Nat.lt_of_succ_lt_succ hfuel)
        rw [if_pos ⟨heq ▸ hend, heq⟩, heq, List.cons_lt_cons_iff, List.cons_lt_cons_iff,
          List.cons.injEq]
        refine ⟨d, hloop, ?_⟩
        simpa only [BitVec.lt_irrefl, false_or, true_and] using hd
    · -- the strings differ here
      rw [if_neg fun h => heq h.2]
      refine ⟨_, rfl, ?_⟩
      rw [byteDiff_neg, byteDiff_eq, byteDiff_pos, hv.lt_iff_first hw heq,
        hw.lt_iff_first hv (Ne.symm heq)]
      refine ⟨Iff.rfl, iff_of_false heq ?_, Iff.rfl⟩
      rintro rfl
      exact heq (hv.first hw)

/-- `strcmp` returns zero for equal strings only. -/
theorem strcmpLoop_spec {s1 s2 : Nat → Byte} {v w : List Byte} (fuel i : Nat)
    (hv : StringFrom s1 i v) (hw : StringFrom s2 i w) (hfuel : w.length < fuel) :
    ∃ d, strcmpLoop s1 s2 fuel i = some d ∧ (d = 0 ↔ v = w) := by
  obtain ⟨d, hloop, _, hzero, _⟩ := strcmpLoop_order fuel i hv hw hfuel
  exact ⟨d, hloop, hzero⟩

/-! ## Strings in arrays -/

section Arrays
variable {src : Nat → Byte} {line : List Byte}

/-- Two strings at the same place. -/
theorem StringFrom.unique {buffer : Nat → Byte} {i : Nat} {v w : List Byte}
    (hv : StringFrom buffer i v) (hw : StringFrom buffer i w) : v = w := by
  induction w generalizing i v with
  | nil => exact hv.eq_nil (stringFrom_nil.mp hw)
  | cons b w ih =>
    obtain ⟨hb, hne, hrest⟩ := stringFrom_cons.mp hw
    obtain ⟨v', rfl, hrest'⟩ := hv.eq_cons (hb ▸ hne)
    rw [ih hrest' hrest, hb]

theorem stringFrom_getD {text : List Byte} (hnul : 0#8 ∉ text) :
    StringFrom (fun i => text.getD i 0#8) 0 text := by
  refine ⟨fun k hk => ?_, ?_, hnul⟩
  · rw [Nat.zero_add, List.getD_eq_getElem _ _ hk]
  · rw [Nat.zero_add, List.getD_eq_default _ _ (Nat.le_refl _)]

theorem StringFrom.drop {i : Nat} {text : List Byte} (h : StringFrom src i (text ++ line)) :
    StringFrom src (i + text.length) line := by
  induction text generalizing i with
  | nil => exact h
  | cons c text ih =>
    obtain ⟨_, _, hrest⟩ := stringFrom_cons.mp h
    have htext := ih hrest
    rwa [List.length_cons, Nat.add_comm text.length 1, ← Nat.add_assoc]

/-- The loop copies the characters that it keeps, as far as there is room. -/
theorem copyLoop_spec (keep : Byte → Bool) (room : Nat) {i : Nat} (h : StringFrom src i line)
    (j : Nat) (dest : Nat → Byte) :
    ∃ dest', copyLoop src keep room i j dest =
        (dest', i + ((line.takeWhile keep).take room).length,
          j + ((line.takeWhile keep).take room).length) ∧
      (∀ k (hk : k < ((line.takeWhile keep).take room).length),
        dest' (j + k) = ((line.takeWhile keep).take room)[k]) ∧
      ∀ k < j, dest' k = dest k := by
  have hnone : ∀ k (hk : k < ([] : List Byte).length), dest (j + k) = [][k] :=
    fun k hk => absurd hk (Nat.not_lt_zero k)
  induction room generalizing i j line dest with
  | zero => exact ⟨dest, rfl, hnone, fun _ _ => rfl⟩
  | succ room ih =>
    cases line with
    | nil =>
      refine ⟨dest, ?_, hnone, fun _ _ => rfl⟩
      rw [copyLoop, if_neg fun hne => hne.1 (stringFrom_nil.mp h)]
      rfl
    | cons c line =>
      obtain ⟨hc, hne, hrest⟩ := stringFrom_cons.mp h
      rw [copyLoop, hc]
      by_cases hkeep : keep c = true
      · obtain ⟨dest', hloop, htext, hbelow⟩ := ih hrest (j + 1) (Function.update dest j c)
          fun k hk => absurd hk (Nat.not_lt_zero k)
        rw [List.takeWhile_cons_of_pos hkeep, if_pos ⟨hne, hkeep⟩, hloop]
        refine ⟨dest', ?_, fun k hk => ?_, fun k hk => ?_⟩
        · rw [List.take_succ_cons, List.length_cons, Nat.add_assoc i, Nat.add_assoc j,
            Nat.add_comm 1]
        · cases k with
          | zero => exact (hbelow j (Nat.lt_succ_self j)).trans (Function.update_self _ _ _)
          | succ k =>
            have hnext := htext k (Nat.lt_of_succ_lt_succ hk)
            rwa [Nat.add_assoc, Nat.add_comm 1] at hnext
        · rw [hbelow k (Nat.lt_succ_of_lt hk), Function.update_of_ne (Nat.ne_of_lt hk)]
      · rw [List.takeWhile_cons_of_neg hkeep, if_neg fun hyes => hkeep hyes.2]
        exact ⟨dest, rfl, hnone, fun _ _ => rfl⟩

/-- A loop from the start of an array, and the terminator behind it. -/
theorem copyLoop_string (keep : Byte → Bool) (room : Nat) {i : Nat}
    (h : StringFrom src i line) (dest : Nat → Byte) :
    ∃ dest', copyLoop src keep room i 0 dest =
        (dest', i + ((line.takeWhile keep).take room).length,
          ((line.takeWhile keep).take room).length) ∧
      StringFrom (Function.update dest' ((line.takeWhile keep).take room).length 0#8) 0
        ((line.takeWhile keep).take room) := by
  obtain ⟨dest', hloop, htext, _⟩ := copyLoop_spec keep room h 0 dest
  rw [Nat.zero_add] at hloop
  refine ⟨dest', hloop, fun k hk => ?_, ?_, fun hmem => ?_⟩
  · rw [Nat.zero_add, Function.update_of_ne (Nat.ne_of_lt hk), ← htext k hk, Nat.zero_add]
  · rw [Nat.zero_add, Function.update_self]
  · have hpre : line.takeWhile keep <+: line := List.takeWhile_prefix keep
    exact h.noNul (hpre.subset (List.mem_of_mem_take hmem))

end Arrays

end Zenix
