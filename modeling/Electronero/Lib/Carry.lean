import Mathlib.Data.Nat.Digits.Defs
import Mathlib.Tactic.Ring
/-!
# Products that are too long

A number times one digit: every low digit is added to the high one before it, with the carry. What is left above the
digits of the number does not fit.
-/
namespace Carry

/-- The products as high and low digit, the lowest first. `high` is the high digit of the product before them, `carry`
what the sum before them has handed on. -/
def overflow (b : Nat) : Nat → Nat → List (Nat × Nat) → Nat
  | high, carry, [] => high + carry
  | high, carry, p :: ps => overflow b p.1 ((high + p.2 + carry) / b) ps

variable {b : Nat}

theorem overflow_eq (hb : 0 < b) (high carry : Nat) (ps : List (Nat × Nat)) : overflow b high carry ps =
      (high + carry + Nat.ofDigits b (ps.map fun p => p.1 * b + p.2)) / b ^ ps.length := by
  induction ps generalizing high carry with
  | nil => simp [overflow]
  | cons p ps ih =>
    have hsum : high + carry + (p.1 * b + p.2 + b * Nat.ofDigits b (ps.map fun p => p.1 * b + p.2)) =
        high + p.2 + carry + b * (p.1 + Nat.ofDigits b (ps.map fun p => p.1 * b + p.2)) := by ring
    simp only [overflow, ih, List.map_cons, Nat.ofDigits_cons, List.length_cons]
    rw [hsum, pow_succ', ← Nat.div_div_eq_div_mul, Nat.add_mul_div_left _ _ hb]
    congr 1
    ring

theorem mul_lt_iff (hb : 0 < b) {d : Nat} {xs : List Nat} {ps : List (Nat × Nat)}
    (hps : ps.map (fun p => p.1 * b + p.2) = xs.map (d * ·)) :
    d * Nat.ofDigits b xs < b ^ xs.length ↔ overflow b 0 0 ps = 0 := by
  have hlength : ps.length = xs.length := by simpa using congrArg List.length hps
  rw [overflow_eq hb, hps, ← Nat.mul_ofDigits, hlength, Nat.zero_add, Nat.div_eq_zero_iff_lt (Nat.pow_pos hb)]

end Carry
