import Mathlib.Data.Nat.Digits.Defs
import Mathlib.Tactic.IntervalCases
import Vendoring.Proofs.Yaml.Cursor
import Vendoring.Yaml.Written

/-!
# Escapes are read back

A character that is escaped in a double-quoted scalar is read back by
`takeEscape` (`takeEscape_written`), whether a letter stands for it or its
number in two, four or eight hexadecimal digits.
-/

namespace Vendoring.Yaml

/-! ## Hexadecimal numbers -/

/-- One more digit of a number that is being read. -/
def hexDigitRead (number : Option Nat) (c : Char) : Option Nat := do
  return (← number) * 16 + (← hexValue? c)

theorem hexValue?_digitChar {d : Nat} (h : d < 16) :
    hexValue? (Nat.digitChar d).toUpper = some d := by
  interval_cases d <;> rfl

theorem foldl_hexDigitRead_zeros (k : Nat) :
    (List.replicate k '0').foldl hexDigitRead (some 0) = some 0 := by
  induction k with
  | zero => rfl
  | succ k ih => exact ih

theorem foldl_hexDigitRead_digits (n : Nat) :
    ((Nat.toDigits 16 n).map Char.toUpper).foldl hexDigitRead (some 0) = some n := by
  induction n using Nat.strong_induction_on with
  | _ n ih =>
    rw [Nat.toDigits_eq_if (by decide)]
    by_cases hn : n < 16
    · rw [if_pos hn]
      simp [hexDigitRead, hexValue?_digitChar hn]
    · have hlast : n % 16 < 16 := Nat.mod_lt _ (by decide)
      rw [if_neg hn, List.map_append, List.foldl_append, ih (n / 16) (by omega)]
      simp only [List.map_cons, List.map_nil, List.foldl_cons, List.foldl_nil, hexDigitRead,
        hexValue?_digitChar hlast]
      exact congrArg some (by omega)

theorem length_hexDigits {width n : Nat} (hwidth : 0 < width) (hn : n < 16 ^ width) :
    (hexDigits width n).length = width := by
  have hlen : (Nat.toDigits 16 n).length ≤ width :=
    (Nat.length_toDigits_le_iff (by decide) hwidth).mpr hn
  simp only [hexDigits, List.length_append, List.length_replicate, List.length_map]
  omega

theorem hexNumber?_hexDigits {width n : Nat} (hwidth : 0 < width) (hn : n < 16 ^ width)
    (rest : List Char) : hexNumber? width (hexDigits width n ++ rest) = some n := by
  have hlen := length_hexDigits hwidth hn
  have htake : (hexDigits width n ++ rest).take width = hexDigits width n := by
    rw [List.take_append_of_le_length (Nat.le_of_eq hlen.symm),
      List.take_of_length_le (Nat.le_of_eq hlen)]
  have hfold : (hexDigits width n).foldl hexDigitRead (some 0) = some n := by
    rw [hexDigits, List.foldl_append, foldl_hexDigitRead_zeros, foldl_hexDigitRead_digits]
  have hshort : ¬(hexDigits width n ++ rest).length < width := by
    rw [List.length_append]
    omega
  rw [hexNumber?, if_neg hshort, htake]
  exact hfold

/-! ## Escapes -/

theorem escaped?_escapeLetter {c letter : Char} (h : escapeLetter? c = some letter) :
    escaped? letter = some c ∧ isBreak letter = false := by
  unfold escapeLetter? at h
  split at h <;> cases h <;> exact ⟨rfl, by decide⟩

/-- The letter and the number of digits of a numeric escape. -/
theorem escapeSequence_numeric {c : Char} (h : escapeLetter? c = none) :
    ∃ letter width, escapeSequence c = '\\' :: letter :: hexDigits width c.toNat
      ∧ escaped? letter = none ∧ escapeDigits? letter = some width ∧ isBreak letter = false
      ∧ 0 < width ∧ c.toNat < 16 ^ width := by
  have hsmall : c.toNat < 16 ^ 8 := c.val.toNat_lt
  unfold escapeSequence
  rw [h]
  simp only
  split
  · exact ⟨'x', 2, rfl, rfl, rfl, by decide, by decide, by omega⟩
  · split
    · exact ⟨'u', 4, rfl, rfl, rfl, by decide, by decide, by omega⟩
    · exact ⟨'U', 8, rfl, rfl, rfl, by decide, by decide, hsmall⟩

/-- A written escape has a letter behind its backslash, and is read back. -/
theorem takeEscape_written (start : Mark) (c : Char) (rest : List Char) (m : Mark) :
    (∃ letter body, escapeSequence c = '\\' :: letter :: body ∧ isBreak letter = false)
      ∧ takeEscape start ⟨escapeSequence c ++ rest, m⟩
        = .ok (c, ⟨rest, m.forward (escapeSequence c).length⟩) := by
  cases hletter : escapeLetter? c with
  | some letter =>
    obtain ⟨hread, hbreak⟩ := escaped?_escapeLetter hletter
    have hwritten : escapeSequence c = ['\\', letter] := by
      rw [escapeSequence, hletter]
    rw [hwritten]
    refine ⟨⟨letter, [], rfl, hbreak⟩, ?_⟩
    simp only [takeEscape, List.cons_append, List.nil_append, Cursor.peekAt_mk,
      List.getElem?_cons_succ, List.getElem?_cons_zero, hread]
    rfl
  | none =>
    obtain ⟨letter, width, hwritten, hread, hdigits, hbreak, hwidth, hlt⟩ :=
      escapeSequence_numeric hletter
    rw [hwritten]
    refine ⟨⟨letter, _, rfl, hbreak⟩, ?_⟩
    have hbody : Cursor.skipMany 2 ⟨'\\' :: letter :: hexDigits width c.toNat ++ rest, m⟩
        = ⟨hexDigits width c.toNat ++ rest, m.forward 2⟩ := rfl
    have hdone := Cursor.skipMany_append (hexDigits width c.toNat) rest (m.forward 2)
    rw [length_hexDigits hwidth hlt] at hdone
    have hvalid : c.toNat.isValidChar := c.valid
    simp only [takeEscape, List.cons_append, Cursor.peekAt_mk, List.getElem?_cons_succ,
      List.getElem?_cons_zero, hread, hdigits]
    rw [List.cons_append, List.cons_append] at hbody
    rw [hbody, hexNumber?_hexDigits hwidth hlt]
    simp only [hvalid, if_true, hdone, Char.ofNat_toNat, List.length_cons,
      length_hexDigits hwidth hlt, Mark.forward_forward]
    rw [Nat.add_comm 2]

end Vendoring.Yaml
