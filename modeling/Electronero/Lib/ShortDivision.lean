import Mathlib.Data.Nat.Digits.Defs
import Mathlib.Tactic.Ring
/-! # Short division, from the highest digit down -/
namespace ShortDivision

def shortDiv (b d : Nat) : List Nat → List Nat × Nat
  | [] => ([], 0)
  | x :: xs =>
    let high := shortDiv b d xs
    ((high.2 * b + x) / d :: high.1, (high.2 * b + x) % d)

variable {b d : Nat}

theorem shortDiv_remainder_lt (hd : 0 < d) : ∀ xs, (shortDiv b d xs).2 < d
  | [] => hd
  | _ :: _ => Nat.mod_lt _ hd

theorem shortDiv_eq (xs : List Nat) :
    d * Nat.ofDigits b (shortDiv b d xs).1 + (shortDiv b d xs).2 = Nat.ofDigits b xs := by
  induction xs with
  | nil => simp [shortDiv]
  | cons x xs ih =>
    have hdigit := Nat.div_add_mod ((shortDiv b d xs).2 * b + x) d
    simp only [shortDiv, Nat.ofDigits_cons]
    grind

theorem ofDigits_shortDiv (hd : 0 < d) (xs : List Nat) :
    Nat.ofDigits b (shortDiv b d xs).1 = Nat.ofDigits b xs / d := by
  rw [← shortDiv_eq (d := d) xs, Nat.mul_add_div hd, Nat.div_eq_of_lt (shortDiv_remainder_lt hd xs), Nat.add_zero]

theorem shortDiv_remainder_eq (hd : 0 < d) (xs : List Nat) : (shortDiv b d xs).2 = Nat.ofDigits b xs % d := by
  rw [← shortDiv_eq (d := d) xs, Nat.mul_add_mod, Nat.mod_eq_of_lt (shortDiv_remainder_lt hd xs)]

theorem shortDiv_digit_lt (hd : 0 < d) {xs : List Nat} (hxs : ∀ x ∈ xs, x < b) : ∀ q ∈ (shortDiv b d xs).1, q < b := by
  induction xs with
  | nil => simp [shortDiv]
  | cons x xs ih =>
    intro q hq
    rcases List.mem_cons.1 hq with rfl | hq
    · have hr := shortDiv_remainder_lt (b := b) hd xs
      have hx : x < b := hxs x List.mem_cons_self
      rw [Nat.div_lt_iff_lt_mul hd]
      calc (shortDiv b d xs).2 * b + x < (shortDiv b d xs).2 * b + b := Nat.add_lt_add_left hx _
        _ = ((shortDiv b d xs).2 + 1) * b := by ring
        _ ≤ d * b := Nat.mul_le_mul_right b hr
        _ = b * d := Nat.mul_comm d b
    · grind

end ShortDivision
