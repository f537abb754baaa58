import Electronero.Lib.Text
import Mathlib.Data.List.DropRight
import Mathlib.Data.Rat.Cast.Order
import Mathlib.Tactic.FieldSimp
import Mathlib.Tactic.Ring
/-!
# Decimal numerals with a point

A `Numeral` denotes a rational number; `places` counts the digits it needs behind the point.
-/
namespace Text
open List

def point : UInt8 := 46

def zero : UInt8 := 48

theorem foldl_digits (ds : Bytes) (acc : Nat) :
    ds.foldl (fun acc c => 10 * acc + (c.toNat - 48)) acc = acc * 10 ^ ds.length + digitsVal ds := by
  induction ds generalizing acc with
  | nil => simp [digitsVal]
  | cons c ds ih => grind [digitsVal]

theorem digitsVal_append (a b : Bytes) : digitsVal (a ++ b) = digitsVal a * 10 ^ b.length + digitsVal b := by
  rw [digitsVal, foldl_append, foldl_digits, ← digitsVal]

theorem digitsVal_zeros (n : Nat) : digitsVal (List.replicate n zero) = 0 := by
  induction n with
  | zero => rfl
  | succ n ih =>
    rw [replicate_succ', digitsVal_append, ih]
    rfl

theorem digitsVal_append_zeros (a : Bytes) (n : Nat) :
    digitsVal (a ++ List.replicate n zero) = digitsVal a * 10 ^ n := by
  rw [digitsVal_append, digitsVal_zeros, length_replicate, Nat.add_zero]

structure Numeral where
  whole : Bytes
  /-- `none` = there is no point -/
  fraction : Option Bytes
  digits : ∀ c ∈ whole ++ fraction.getD [], isDigit c = true
  nonempty : whole ++ fraction.getD [] ≠ []

namespace Numeral

def text (n : Numeral) : Bytes :=
  match n.fraction with
  | none => n.whole
  | some f => n.whole ++ point :: f

def value (n : Numeral) : ℚ := digitsVal (n.whole ++ n.fraction.getD []) / 10 ^ (n.fraction.getD []).length

def places (n : Numeral) : Nat := ((n.fraction.getD []).rdropWhile (· = zero)).length

end Numeral

theorem length_rdropWhile_le_iff {α : Type} (p : α → Bool) (l : List α) (k : Nat) :
    (l.rdropWhile p).length ≤ k ↔ ∀ c ∈ l.drop k, p c = true := by
  induction l using List.reverseRecOn with
  | nil => simp
  | append_singleton l c ih =>
    by_cases hc : p c = true
    · rw [rdropWhile_concat_pos p l c hc, ih]
      by_cases hk : k ≤ l.length
      · grind
      · have hdrop : l.drop k = [] ∧ (l ++ [c]).drop k = [] := by
          simp
          omega
        simp [hdrop]
    · rw [rdropWhile_concat_neg p l c hc]
      by_cases hk : k ≤ l.length
      · grind
      · have hdrop : (l ++ [c]).drop k = [] := by
          simp
          omega
        simp [hdrop]
        omega

theorem Numeral.places_le_iff (n : Numeral) (k : Nat) : n.places ≤ k ↔ ∀ c ∈ (n.fraction.getD []).drop k, c = zero := by
  rw [places, length_rdropWhile_le_iff]
  simp

theorem eq_zeros {l : Bytes} (h : ∀ c ∈ l, c = zero) : l = List.replicate l.length zero :=
  eq_replicate_of_mem h

theorem Numeral.value_scaled (n : Numeral) {k : Nat} (h : n.places ≤ k) :
    n.value * 10 ^ k = digitsVal (n.whole ++ (n.fraction.getD []).take k ++
      List.replicate (k - (n.fraction.getD []).length) zero) := by
  have hzeros := eq_zeros ((n.places_le_iff k).1 h)
  rw [value]
  generalize n.fraction.getD [] = f at *
  rcases Nat.le_total f.length k with hk | hk
  · have hpow : (10 : ℚ) ^ k = 10 ^ f.length * 10 ^ (k - f.length) := by rw [← pow_add, Nat.add_sub_cancel' hk]
    rw [take_of_length_le hk, digitsVal_append_zeros, hpow]
    push_cast
    field_simp
  · have hpow : (10 : ℚ) ^ f.length = 10 ^ k * 10 ^ (f.length - k) := by rw [← pow_add, Nat.add_sub_cancel' hk]
    have hdigits : digitsVal (n.whole ++ f) = digitsVal (n.whole ++ f.take k) * 10 ^ (f.length - k) := by
      rw [← digitsVal_append_zeros, append_assoc, ← length_drop, ← hzeros, take_append_drop]
    rw [Nat.sub_eq_zero_of_le hk, replicate_zero, append_nil, hdigits, hpow]
    push_cast
    field_simp

end Text
