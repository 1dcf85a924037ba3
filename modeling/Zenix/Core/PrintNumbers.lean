import Mathlib.Data.List.TakeWhile
import Zenix.Apps.CalculatorDisplay
import Zenix.Core.Monitor
import Zenix.Lib.Numeral

/-!
# Printed numbers (kernel/core/monitor.c)

`print_dec` collects the digits from the lowest one on and prints them the other way
round. `print_hex` always prints eight digits.

Results:
1. `printDec_text`, `printHex_text`: the characters of a number.
2. `numbers_read_back`: the number can be read back from its characters.
-/

namespace Zenix
open ByteMemory Logged

/-- The characters that `print_dec` prints. -/
def decText (n : Word) : List Byte :=
  if n = 0#32 then [0x30#8] else (Nat.digits 10 n.toNat).reverse.map Numeral.digitChar

def hexDigit (n : Nat) : Byte := (literal "0123456789ABCDEF").getD n 0#8

/-- The characters that `print_hex` prints. -/
def hexText (n : Word) : List Byte :=
  (List.range 8).map fun i => hexDigit (n >>> (28 - 4 * i) &&& 0xF#32).toNat

/-- The value of a hexadecimal digit. -/
def hexValue (b : Byte) : Nat := if b ≤ 0x39#8 then (b - 0x30#8).toNat else (b - 0x37#8).toNat

def readDec (text : List Byte) : Nat := digitsValue (text.map fun b => (b - 0x30#8).toNat)

def readHex (text : List Byte) : Nat := text.foldl (fun n b => n * 16 + hexValue b) 0

/-! ## The text -/

section Text
variable {s : Console} {n : Word}

theorem printDec_text : printDec n s = printChars (decText n) s := by
  unfold printDec decText
  split
  · rw [printChars, List.foldlM_cons]
    exact (bind_pure _).symm
  · rw [decDigits_eq, List.map_reverse]
    rfl

theorem printHex_text : printHex n s = printChars (hexText n) s := rfl

theorem printChars_append (cs ds : List Byte) :
    printChars (cs ++ ds) s = printChars cs s >>= printChars ds := List.foldlM_append

theorem printString_literal {str : List Byte} (h : 0#8 ∉ str) :
    printString str s = printChars str s := by
  have hall : (str.takeWhile fun c => c ≠ 0#8) = str :=
    List.takeWhile_eq_self_iff.mpr fun c hc => decide_eq_true fun heq => h (heq ▸ hc)
  rw [printString, hall]

end Text

/-! ## Reading back -/

section Read
variable (n : Word)

theorem readDec_decText : readDec (decText n) = n.toNat := by
  unfold decText
  split
  next hzero =>
    rw [hzero]
    rfl
  next =>
    rw [readDec, List.map_map]
    refine (congrArg digitsValue (List.map_congr_left fun d hd => ?_)).trans
      ((congrArg digitsValue (List.map_id _)).trans (digitsValue_digits n.toNat))
    have hlt : d < 10 := Nat.digits_lt_base (by decide) (List.mem_reverse.mp hd)
    exact (Numeral.digitChar_digit hlt).2.2

theorem decText_digits : ∀ c ∈ decText n, 0x30#8 ≤ c ∧ c ≤ 0x39#8 := by
  unfold decText
  split
  · intro c hc
    rw [List.mem_singleton.mp hc]
    decide
  · intro c hc
    obtain ⟨d, hd, rfl⟩ := List.mem_map.mp hc
    have hlt : d < 10 := Nat.digits_lt_base (by decide) (List.mem_reverse.mp hd)
    exact ⟨(Numeral.digitChar_digit hlt).1, (Numeral.digitChar_digit hlt).2.1⟩

/-- There is no zero in front of another digit. -/
theorem decText_head (hn : n ≠ 0#32) : (decText n).head? ≠ some 0x30#8 := by
  have hne : n.toNat ≠ 0 := fun h => hn (BitVec.eq_of_toNat_eq h)
  have hdigits : Nat.digits 10 n.toNat ≠ [] := Nat.digits_ne_nil_iff_ne_zero.mpr hne
  rw [decText, if_neg hn, List.head?_map, List.head?_reverse, List.getLast?_eq_some_getLast hdigits,
    Option.map_some]
  intro h
  have hlast : (Nat.digits 10 n.toNat).getLast hdigits < 10 :=
    Nat.digits_lt_base (by decide) (List.getLast_mem hdigits)
  have hvalue := (Numeral.digitChar_digit hlast).2.2
  rw [Option.some_inj.mp h] at hvalue
  exact Nat.getLast_digit_ne_zero 10 hne hvalue.symm

theorem hexDigit_value : ∀ d < 16, hexValue (hexDigit d) = d := by decide

theorem hexDigit_mem : ∀ d < 16, hexDigit d ∈ literal "0123456789ABCDEF" := by decide

theorem hexText_digits : ∀ c ∈ hexText n, c ∈ literal "0123456789ABCDEF" := by
  intro c hc
  obtain ⟨i, _, rfl⟩ := List.mem_map.mp hc
  refine hexDigit_mem _ ?_
  rw [BitVec.toNat_and]
  exact Nat.and_lt_two_pow _ (by decide : 0xF < 2 ^ 4)

theorem readHex_hexText : readHex (hexText n) = n.toNat := by
  have hnibble : ∀ i, (n >>> (28 - 4 * i) &&& 0xF#32).toNat = n.toNat / 2 ^ (28 - 4 * i) % 16 := by
    intro i
    have hmask : (0xF#32).toNat = 2 ^ 4 - 1 := rfl
    rw [BitVec.toNat_and, BitVec.toNat_ushiftRight, hmask, Nat.and_two_pow_sub_one_eq_mod,
      Nat.shiftRight_eq_div_pow]
  have hdigit : ∀ i, hexValue (hexDigit (n >>> (28 - 4 * i) &&& 0xF#32).toNat) =
      n.toNat / 2 ^ (28 - 4 * i) % 16 := by
    intro i
    rw [hexDigit_value _ (by rw [hnibble]; exact Nat.mod_lt _ (by decide)), hnibble]
  have hlt := n.isLt
  rw [readHex, hexText, List.foldl_map]
  simp only [hdigit]
  simp only [List.range_succ, List.range_zero, List.nil_append, List.foldl_cons, List.foldl_nil,
    List.cons_append]
  omega

/-- What `print_dec` and `print_hex` print is a numeral of the number: the decimal one without
leading zeros, the hexadecimal one of eight digits, the letters in upper case. -/
theorem numbers_read_back (s : Console) :
    printDec n s = printChars (decText n) s ∧ readDec (decText n) = n.toNat ∧
      (∀ c ∈ decText n, 0x30#8 ≤ c ∧ c ≤ 0x39#8) ∧
      (n ≠ 0#32 → (decText n).head? ≠ some 0x30#8) ∧
      printHex n s = printChars (hexText n) s ∧ readHex (hexText n) = n.toNat ∧
      (hexText n).length = 8 ∧ ∀ c ∈ hexText n, c ∈ literal "0123456789ABCDEF" :=
  ⟨printDec_text, readDec_decText n, decText_digits n, decText_head n, printHex_text,
    readHex_hexText n, by rw [hexText, List.length_map, List.length_range], hexText_digits n⟩

end Read

end Zenix
