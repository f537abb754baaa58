import Electronero.Lib.ShortDivision
import Mathlib.Data.UInt
/-!
# Products and quotients of 128 bits (`src/common/int-util.h`)

`mul128` gives the upper half first; `div128_32` is `div128By32` and returns `div128By32Remainder`.
-/
namespace Electronero
open ShortDivision

namespace IntUtil

def hiDword (val : UInt64) : UInt64 := val >>> 32

def loDword (val : UInt64) : UInt64 := val &&& 0xFFFFFFFF

def mul128 (multiplier multiplicand : UInt64) : UInt64 × UInt64 :=
  let a := hiDword multiplier
  let b := loDword multiplier
  let c := hiDword multiplicand
  let d := loDword multiplicand
  let ac := a * c
  let ad := a * d
  let bc := b * c
  let bd := b * d
  let adbc := ad + bc
  let adbcCarry : UInt64 := if adbc < ad then 1 else 0
  let productLo := bd + (adbc <<< 32)
  let productLoCarry : UInt64 := if productLo < bd then 1 else 0
  (ac + (adbc >>> 32) + (adbcCarry <<< 32) + productLoCarry, productLo)

def divWithReminder (dividend : UInt64) (divisor reminder : UInt32) : UInt64 × UInt32 :=
  let dividend := dividend ||| (reminder.toUInt64 <<< 32)
  (dividend / divisor.toUInt64, (dividend % divisor.toUInt64).toUInt32)

def div128By32 (dividendHi dividendLo : UInt64) (divisor : UInt32) : UInt64 × UInt64 :=
  let q3 := divWithReminder (hiDword dividendHi) divisor 0
  let q2 := divWithReminder (loDword dividendHi) divisor q3.2
  let q1 := divWithReminder (hiDword dividendLo) divisor q2.2
  let q0 := divWithReminder (loDword dividendLo) divisor q1.2
  ((q3.1 <<< 32) ||| q2.1, (q1.1 <<< 32) ||| q0.1)

def div128By32Remainder (dividendHi dividendLo : UInt64) (divisor : UInt32) : UInt32 :=
  let r3 := (divWithReminder (hiDword dividendHi) divisor 0).2
  let r2 := (divWithReminder (loDword dividendHi) divisor r3).2
  let r1 := (divWithReminder (hiDword dividendLo) divisor r2).2
  (divWithReminder (loDword dividendLo) divisor r1).2

@[simp] theorem toNat_hiDword (val : UInt64) : (hiDword val).toNat = val.toNat / 2 ^ 32 := by
  simp [hiDword, Nat.shiftRight_eq_div_pow]

@[simp] theorem toNat_loDword (val : UInt64) : (loDword val).toNat = val.toNat % 2 ^ 32 := by
  rw [loDword, UInt64.toNat_and]
  exact Nat.and_two_pow_sub_one_eq_mod val.toNat 32

theorem hiDword_lt (val : UInt64) : (hiDword val).toNat < 2 ^ 32 := by
  rw [toNat_hiDword]
  have := val.toNat_lt
  omega

theorem loDword_lt (val : UInt64) : (loDword val).toNat < 2 ^ 32 := by
  rw [toNat_loDword]
  exact Nat.mod_lt _ (by decide)

theorem toNat_shiftLeft_32 (val : UInt64) : (val <<< 32).toNat = val.toNat % 2 ^ 32 * 2 ^ 32 := by
  rw [UInt64.toNat_shiftLeft, Nat.shiftLeft_eq]
  show val.toNat * 2 ^ 32 % 2 ^ 64 = _
  omega

theorem toNat_shiftRight_32 (val : UInt64) : (val >>> 32).toNat = val.toNat / 2 ^ 32 := toNat_hiDword val

theorem toNat_mul_halves {x y : UInt64} (hx : x.toNat < 2 ^ 32) (hy : y.toNat < 2 ^ 32) :
    (x * y).toNat = x.toNat * y.toNat ∧ x.toNat * y.toNat ≤ (2 ^ 32 - 1) * (2 ^ 32 - 1) := by
  have hle : x.toNat * y.toNat ≤ (2 ^ 32 - 1) * (2 ^ 32 - 1) := Nat.mul_le_mul (by omega) (by omega)
  exact ⟨by rw [UInt64.toNat_mul, Nat.mod_eq_of_lt (by omega)], hle⟩

theorem carried {ac ad bc bd : UInt64} (hac : ac.toNat ≤ (2 ^ 32 - 1) * (2 ^ 32 - 1))
    (had : ad.toNat ≤ (2 ^ 32 - 1) * (2 ^ 32 - 1)) (hbc : bc.toNat ≤ (2 ^ 32 - 1) * (2 ^ 32 - 1))
    (hbd : bd.toNat ≤ (2 ^ 32 - 1) * (2 ^ 32 - 1)) :
    (ac + ((ad + bc) >>> 32) + ((if ad + bc < ad then 1 else 0 : UInt64) <<< 32) +
      (if bd + ((ad + bc) <<< 32) < bd then 1 else 0 : UInt64)).toNat * 2 ^ 64 + (bd + ((ad + bc) <<< 32)).toNat =
    ac.toNat * 2 ^ 64 + (ad.toNat + bc.toNat) * 2 ^ 32 + bd.toNat := by
  have hsum : (ad + bc).toNat = (ad.toNat + bc.toNat) % 2 ^ 64 := UInt64.toNat_add _ _
  have hlow : (bd + ((ad + bc) <<< 32)).toNat = (bd.toNat + (ad + bc).toNat % 2 ^ 32 * 2 ^ 32) % 2 ^ 64 := by
    rw [UInt64.toNat_add, toNat_shiftLeft_32]
  have hcarry : ((if ad + bc < ad then 1 else 0 : UInt64) <<< 32).toNat =
      (ad.toNat + bc.toNat) / 2 ^ 64 * 2 ^ 32 := by
    rw [toNat_shiftLeft_32]
    split <;> rename_i h <;> rw [UInt64.lt_iff_toNat_lt, hsum] at h <;> simp <;> omega
  have hcarryLow : (if bd + ((ad + bc) <<< 32) < bd then 1 else 0 : UInt64).toNat =
      (bd.toNat + (ad + bc).toNat % 2 ^ 32 * 2 ^ 32) / 2 ^ 64 := by
    split <;> rename_i h <;> rw [UInt64.lt_iff_toNat_lt, hlow] at h <;> simp <;> omega
  rw [UInt64.toNat_add, UInt64.toNat_add, UInt64.toNat_add, toNat_shiftRight_32, hcarry, hcarryLow, hlow, hsum]
  omega

theorem mul128_eq (x y : UInt64) : (mul128 x y).1.toNat * 2 ^ 64 + (mul128 x y).2.toNat = x.toNat * y.toNat := by
  obtain ⟨hac, bac⟩ := toNat_mul_halves (hiDword_lt x) (hiDword_lt y)
  obtain ⟨had, bad⟩ := toNat_mul_halves (hiDword_lt x) (loDword_lt y)
  obtain ⟨hbc, bbc⟩ := toNat_mul_halves (loDword_lt x) (hiDword_lt y)
  obtain ⟨hbd, bbd⟩ := toNat_mul_halves (loDword_lt x) (loDword_lt y)
  rw [← hac] at bac
  rw [← had] at bad
  rw [← hbc] at bbc
  rw [← hbd] at bbd
  have hx : x.toNat = (hiDword x).toNat * 2 ^ 32 + (loDword x).toNat := by
    rw [toNat_hiDword, toNat_loDword]
    omega
  have hy : y.toNat = (hiDword y).toNat * 2 ^ 32 + (loDword y).toNat := by
    rw [toNat_hiDword, toNat_loDword]
    omega
  refine (carried bac bad bbc bbd).trans ?_
  rw [hac, had, hbc, hbd, hx, hy]
  ring

variable {lo : UInt64} {divisor : UInt32}

theorem toNat_or_half (hi : UInt64) (hlo : lo.toNat < 2 ^ 32) :
    ((hi <<< 32) ||| lo).toNat = hi.toNat % 2 ^ 32 * 2 ^ 32 + lo.toNat := by
  rw [UInt64.toNat_or, toNat_shiftLeft_32, Nat.mul_comm, ← Nat.two_pow_add_eq_or_of_lt hlo]

theorem toNat_or_halves {hi : UInt64} (hlo : lo.toNat < 2 ^ 32) (hhi : hi.toNat < 2 ^ 32) :
    ((hi <<< 32) ||| lo).toNat = hi.toNat * 2 ^ 32 + lo.toNat := by
  rw [toNat_or_half hi hlo, Nat.mod_eq_of_lt hhi]

theorem shortDiv_divWithReminder {reminder : UInt32} {dividend : UInt64} {xs : List Nat} (hd : 0 < divisor.toNat)
    (hdividend : dividend.toNat < 2 ^ 32) (hreminder : reminder.toNat = (shortDiv (2 ^ 32) divisor.toNat xs).2) :
    shortDiv (2 ^ 32) divisor.toNat (dividend.toNat :: xs) =
      ((divWithReminder dividend divisor reminder).1.toNat :: (shortDiv (2 ^ 32) divisor.toNat xs).1,
        (divWithReminder dividend divisor reminder).2.toNat) := by
  have hwide : reminder.toUInt64.toNat < 2 ^ 32 := by
    rw [UInt32.toNat_toUInt64]
    exact reminder.toNat_lt
  have hwhole : (dividend ||| (reminder.toUInt64 <<< 32)).toNat = reminder.toNat * 2 ^ 32 + dividend.toNat := by
    rw [UInt64.or_comm, toNat_or_halves hdividend hwide, UInt32.toNat_toUInt64]
  have hquotient : (divWithReminder dividend divisor reminder).1.toNat =
      (reminder.toNat * 2 ^ 32 + dividend.toNat) / divisor.toNat := by
    rw [divWithReminder, UInt64.toNat_div, hwhole, UInt32.toNat_toUInt64]
  have hrest : (divWithReminder dividend divisor reminder).2.toNat =
      (reminder.toNat * 2 ^ 32 + dividend.toNat) % divisor.toNat := by
    rw [divWithReminder, UInt64.toNat_toUInt32, UInt64.toNat_mod, hwhole, UInt32.toNat_toUInt64]
    exact Nat.mod_eq_of_lt (lt_trans (Nat.mod_lt _ hd) divisor.toNat_lt)
  rw [hquotient, hrest, hreminder]
  rfl

def dwords (hi lo : UInt64) : List Nat := [(loDword lo).toNat, (hiDword lo).toNat, (loDword hi).toNat, (hiDword hi).toNat]

theorem ofDigits_dwords (hi lo : UInt64) : Nat.ofDigits (2 ^ 32) (dwords hi lo) = hi.toNat * 2 ^ 64 + lo.toNat := by
  simp only [dwords, Nat.ofDigits_cons, Nat.ofDigits_nil, toNat_hiDword, toNat_loDword]
  omega

theorem dwords_lt (hi lo : UInt64) : ∀ x ∈ dwords hi lo, x < 2 ^ 32 := by
  intro x hx
  simp only [dwords, List.mem_cons, List.not_mem_nil, or_false] at hx
  grind [loDword_lt, hiDword_lt]

theorem shortDiv_dwords (hd : 0 < divisor.toNat) (hi lo : UInt64) :
    ∃ q3 q2 q1 q0 : UInt64, div128By32 hi lo divisor = ((q3 <<< 32) ||| q2, (q1 <<< 32) ||| q0) ∧
      shortDiv (2 ^ 32) divisor.toNat (dwords hi lo) =
        ([q0.toNat, q1.toNat, q2.toNat, q3.toNat], (div128By32Remainder hi lo divisor).toNat) := by
  have hstart : (0 : UInt32).toNat = (shortDiv (2 ^ 32) divisor.toNat []).2 := rfl
  have h3 := shortDiv_divWithReminder hd (hiDword_lt hi) hstart
  have h2 := shortDiv_divWithReminder hd (loDword_lt hi) (congrArg Prod.snd h3).symm
  have h1 := shortDiv_divWithReminder hd (hiDword_lt lo) (congrArg Prod.snd h2).symm
  have h0 := shortDiv_divWithReminder hd (loDword_lt lo) (congrArg Prod.snd h1).symm
  refine ⟨_, _, _, _, rfl, ?_⟩
  rw [dwords, h0, h1, h2, h3]
  rfl

theorem div128By32_eq (hd : 0 < divisor.toNat) (hi lo : UInt64) :
    (div128By32 hi lo divisor).1.toNat * 2 ^ 64 + (div128By32 hi lo divisor).2.toNat =
      (hi.toNat * 2 ^ 64 + lo.toNat) / divisor.toNat := by
  obtain ⟨q3, q2, q1, q0, hquotient, hshort⟩ := shortDiv_dwords hd hi lo
  have hdigit := shortDiv_digit_lt hd (dwords_lt hi lo)
  rw [hshort] at hdigit
  simp only [List.forall_mem_cons] at hdigit
  obtain ⟨b0, b1, b2, b3, -⟩ := hdigit
  rw [← ofDigits_dwords hi lo, ← ofDigits_shortDiv hd, hshort, hquotient, toNat_or_halves b2 b3, toNat_or_halves b0 b1]
  simp only [Nat.ofDigits_cons, Nat.ofDigits_nil]
  ring

theorem div128By32Remainder_eq (hd : 0 < divisor.toNat) (hi lo : UInt64) :
    (div128By32Remainder hi lo divisor).toNat = (hi.toNat * 2 ^ 64 + lo.toNat) % divisor.toNat := by
  obtain ⟨q3, q2, q1, q0, -, hshort⟩ := shortDiv_dwords hd hi lo
  rw [← ofDigits_dwords hi lo, ← shortDiv_remainder_eq hd, hshort]

end IntUtil

end Electronero
