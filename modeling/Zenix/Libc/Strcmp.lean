import Zenix.Lib.AccessLog
import Zenix.Libc

/-!
# Comparing strings (lib/libc/string.c)

`strcmp` walks along two strings while their characters agree. It tests for the terminator
of the first string only. The loop compares the characters as they are, which is signed; the
result is the difference of two unsigned bytes.

Results:
1. `readStrcmpLoop_value`: the function with its reads is the plain one.
2. `readStrcmpLoop_upTo`: no read is behind the terminator of its string.
3. `strcmp_order`: the sign of the result is that of the lexicographic order of the strings,
   of whatever length.
4. `strcmp_lexicographic`: what follows for three strings.
-/

namespace Zenix
open ByteMemory Logged

/-! ## Reads -/

/-- A character that is read, by its distance from the start of its string. -/
inductive CharRead where
  | s1 (i : Nat)
  | s2 (i : Nat)
deriving DecidableEq

/-- The character is one of a string of length `m` or `n`, or its terminator. -/
def CharRead.UpTo (m n : Nat) : CharRead → Prop
  | .s1 i => i ≤ m
  | .s2 i => i ≤ n

/-- `return *(unsigned char*)s1 - *(unsigned char*)s2;` -/
def readDifference (s1 s2 : Nat → Byte) (i : Nat) : Logged CharRead (Option Int) := do
  touch (.s1 i)
  touch (.s2 i)
  pure (some ((s1 i).toNat - (s2 i).toNat))

/-- `strcmpLoop` with its reads and with the characters as they are compared there. The
second string is read only where the first one goes on. -/
def readStrcmpLoop (s1 s2 : Nat → Byte) : Nat → Nat → Logged CharRead (Option Int)
  | 0, _ => pure none
  | fuel + 1, i => do
      touch (.s1 i)
      if (s1 i).toInt ≠ 0 then
        touch (.s1 i)
        touch (.s2 i)
        if (s1 i).toInt = (s2 i).toInt then readStrcmpLoop s1 s2 fuel (i + 1)
        else readDifference s1 s2 i
      else readDifference s1 s2 i

def readStrcmp (m : Mem) (s1 s2 : Word) : Logged CharRead (Option Int) :=
  readStrcmpLoop (fun i => m (s1 + BitVec.ofNat 32 i)) (fun i => m (s2 + BitVec.ofNat 32 i))
    maxString 0

section Reads
variable {s1 s2 : Nat → Byte}

theorem readStrcmpLoop_value (fuel i : Nat) :
    (readStrcmpLoop s1 s2 fuel i).value = strcmpLoop s1 s2 fuel i := by
  induction fuel generalizing i with
  | zero => rfl
  | succ fuel ih =>
    -- two characters are equal exactly when the signed ones are
    have hzero : (s1 i).toInt ≠ 0 ↔ s1 i ≠ 0#8 := not_congr (BitVec.toInt_inj (y := 0#8))
    rw [readStrcmpLoop, strcmpLoop, value_bind]
    by_cases hne : s1 i = 0#8
    · rw [if_neg (mt hzero.mp (not_not.mpr hne)), if_neg fun h => h.1 hne]
      rfl
    · rw [if_pos (hzero.mpr hne), value_bind, value_bind]
      by_cases heq : s1 i = s2 i
      · rw [if_pos (BitVec.toInt_inj.mpr heq), if_pos ⟨hne, heq⟩]
        exact ih (i + 1)
      · rw [if_neg (mt BitVec.toInt_inj.mp heq), if_neg fun h => heq h.2]
        rfl

/-- Rounds that begin in both strings stay in both. -/
theorem readStrcmpLoop_upTo {v w : List Byte} (fuel i : Nat) (hv : StringFrom s1 i v)
    (hw : StringFrom s2 i w) :
    (readStrcmpLoop s1 s2 fuel i).All (CharRead.UpTo (i + v.length) (i + w.length)) := by
  induction fuel generalizing v w i with
  | zero => exact all_pure _
  | succ fuel ih =>
    have hs1 : (touch (CharRead.s1 i)).All (CharRead.UpTo (i + v.length) (i + w.length)) :=
      all_touch (Nat.le_add_right _ _)
    have hs2 : (touch (CharRead.s2 i)).All (CharRead.UpTo (i + v.length) (i + w.length)) :=
      all_touch (Nat.le_add_right _ _)
    have hdiff : (readDifference s1 s2 i).All (CharRead.UpTo (i + v.length) (i + w.length)) :=
      hs1.bind (hs2.bind (all_pure _))
    rw [readStrcmpLoop]
    refine hs1.bind ?_
    split
    · next hne =>
      refine hs1.bind (hs2.bind ?_)
      split
      · next heq =>
        have hne1 : s1 i ≠ 0#8 := fun hzero => hne (by rw [hzero]; rfl)
        have hne2 : s2 i ≠ 0#8 := BitVec.toInt_inj.mp heq ▸ hne1
        obtain ⟨v', rfl, hv'⟩ := hv.eq_cons hne1
        obtain ⟨w', rfl, hw'⟩ := hw.eq_cons hne2
        have hrest := ih (i + 1) hv' hw'
        rwa [Nat.add_assoc, Nat.add_assoc, Nat.add_comm 1, Nat.add_comm 1] at hrest
      · exact hdiff
    · exact hdiff

end Reads

/-! ## The order -/

section Order
variable {m : Mem} {p q r : Word} {a b c : List Byte}

/-- The address space comes to an end before a string does. -/
theorem stringFrom_length_lt (h : StringFrom (fun k => m (p + BitVec.ofNat 32 k)) 0 a) :
    a.length < maxString := by
  by_contra hlong
  -- the terminator would also be a character, one round through the memory before
  have hlt : a.length % 2 ^ 32 < a.length :=
    Nat.lt_of_lt_of_le (Nat.mod_lt _ (Nat.two_pow_pos 32)) (Nat.not_lt.mp hlong)
  have hsame : BitVec.ofNat 32 (a.length % 2 ^ 32) = BitVec.ofNat 32 a.length :=
    BitVec.eq_of_toNat_eq (by rw [BitVec.toNat_ofNat, BitVec.toNat_ofNat, Nat.mod_mod])
  have hchar := h.chars _ hlt
  have hstop := h.stop
  rw [Nat.zero_add] at hchar hstop
  rw [hsame, hstop] at hchar
  exact h.noNul (hchar ▸ List.getElem_mem hlt)

/-- `strcmp` returns on two strings in memory, and its sign is the order of the strings. -/
theorem strcmp_order (ha : StringFrom (fun k => m (p + BitVec.ofNat 32 k)) 0 a)
    (hb : StringFrom (fun k => m (q + BitVec.ofNat 32 k)) 0 b) :
    ∃ d, strcmp m p q = some d ∧ (d < 0 ↔ a < b) ∧ (d = 0 ↔ a = b) ∧ (0 < d ↔ b < a) :=
  strcmpLoop_order maxString 0 ha hb (stringFrom_length_lt hb)

/-- A proper prefix comes before the whole string. -/
theorem prefix_lt (h : a <+: b) (hne : a ≠ b) : a < b := by
  obtain ⟨t, rfl⟩ := h
  cases t with
  | nil => exact absurd (List.append_nil a).symm hne
  | cons c t =>
    have hlt : a ++ [] < a ++ c :: t := List.append_left_lt (List.nil_lt_cons c t)
    rwa [List.append_nil] at hlt

theorem sign_swap {ab ba : Int} (hneg : ab < 0 ↔ 0 < ba) (hpos : 0 < ab ↔ ba < 0) :
    ba.sign = -ab.sign := by
  rcases Int.lt_trichotomy ab 0 with hlt | rfl | hgt
  · rw [Int.sign_eq_neg_one_of_neg hlt, Int.sign_eq_one_of_pos (hneg.mp hlt), Int.neg_neg]
  · have hzero : ba = 0 := by omega
    rw [hzero, Int.sign_zero, Int.neg_zero]
  · rw [Int.sign_eq_one_of_pos hgt, Int.sign_eq_neg_one_of_neg (hpos.mp hgt)]

end Order

/-- `strcmp` is the lexicographic order on unsigned bytes, for all strings in memory: it
returns zero for equal strings only, changes its sign with the order of the arguments, is
transitive and puts a proper prefix first. It reads no character behind a terminator. -/
theorem strcmp_lexicographic {m : Mem} {p q r : Word} {a b c : List Byte}
    (ha : StringFrom (fun k => m (p + BitVec.ofNat 32 k)) 0 a)
    (hb : StringFrom (fun k => m (q + BitVec.ofNat 32 k)) 0 b)
    (hc : StringFrom (fun k => m (r + BitVec.ofNat 32 k)) 0 c) :
    ∃ ab ba bc ac : Int,
      (strcmp m p q = some ab ∧ strcmp m q p = some ba ∧ strcmp m q r = some bc ∧
        strcmp m p r = some ac) ∧
      (ab < 0 ↔ a < b) ∧ (ab = 0 ↔ a = b) ∧ ba.sign = -ab.sign ∧
      (ab < 0 → bc < 0 → ac < 0) ∧ (a <+: b → a ≠ b → ab < 0) ∧
      (readStrcmp m p q).value = some ab ∧
      (readStrcmp m p q).All (CharRead.UpTo a.length b.length) := by
  obtain ⟨ab, hab, hablt, habeq, habgt⟩ := strcmp_order ha hb
  obtain ⟨ba, hba, hbalt, _, hbagt⟩ := strcmp_order hb ha
  obtain ⟨bc, hbc, hbclt, _⟩ := strcmp_order hb hc
  obtain ⟨ac, hac, haclt, _⟩ := strcmp_order ha hc
  have hreads := readStrcmpLoop_upTo maxString 0 ha hb
  rw [Nat.zero_add, Nat.zero_add] at hreads
  refine ⟨ab, ba, bc, ac, ⟨hab, hba, hbc, hac⟩, hablt, habeq, ?_, ?_, ?_, ?_, hreads⟩
  · exact sign_swap (hablt.trans hbagt.symm) (habgt.trans hbalt.symm)
  · rw [hablt, hbclt, haclt]
    exact List.lt_trans
  · rw [hablt]
    exact prefix_lt
  · exact (readStrcmpLoop_value maxString 0).trans hab

/-- Three strings one behind the other. The last one begins with a byte that is negative as
a `char`. -/
def threeStrings : Mem := fun x => [0x61#8, 0#8, 0x61#8, 0x62#8, 0#8, 0xFF#8, 0#8].getD x.toNat 0#8

theorem threeStrings_sorted :
    ∃ ab bc ac : Int, strcmp threeStrings 0#32 2#32 = some ab ∧
      strcmp threeStrings 2#32 5#32 = some bc ∧ strcmp threeStrings 0#32 5#32 = some ac ∧
      ab < 0 ∧ bc < 0 ∧ ac < 0 := by
  have ha : StringFrom (fun k => threeStrings (0#32 + BitVec.ofNat 32 k)) 0 [0x61#8] :=
    stringFrom_cons.mpr ⟨rfl, by decide, stringFrom_nil.mpr rfl⟩
  have hb : StringFrom (fun k => threeStrings (2#32 + BitVec.ofNat 32 k)) 0 [0x61#8, 0x62#8] :=
    stringFrom_cons.mpr ⟨rfl, by decide, stringFrom_cons.mpr
      ⟨rfl, by decide, stringFrom_nil.mpr rfl⟩⟩
  have hc : StringFrom (fun k => threeStrings (5#32 + BitVec.ofNat 32 k)) 0 [0xFF#8] :=
    stringFrom_cons.mpr ⟨rfl, by decide, stringFrom_nil.mpr rfl⟩
  obtain ⟨ab, _, bc, ac, ⟨hab, _, hbc, hac⟩, _, _, _, htrans, hprefix, _⟩ :=
    strcmp_lexicographic ha hb hc
  obtain ⟨_, _, _, _, ⟨hbc', _⟩, hlt, _⟩ := strcmp_lexicographic hb hc ha
  obtain rfl := Option.some.inj (hbc.symm.trans hbc')
  have hablt : ab < 0 := hprefix ⟨[0x62#8], rfl⟩ (by decide)
  have hbclt : bc < 0 := hlt.mpr (by decide)
  exact ⟨ab, bc, ac, hab, hbc, hac, hablt, hbclt, htrans hablt hbclt⟩

end Zenix
