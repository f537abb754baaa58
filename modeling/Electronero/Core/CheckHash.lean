import Electronero.Epee
import Electronero.IntUtil
import Electronero.Lib.Carry
/-!
# The proof-of-work test (`src/cryptonote_basic/difficulty.cpp:58-126`)

A hash, read in little-endian order, is multiplied by the difficulty word by word; nothing may go beyond 256 bits.
-/
namespace Electronero

namespace ProofOfWork
open IntUtil Text List

def mul (a b : UInt64) : UInt64 × UInt64 := ((mul128 a b).2, (mul128 a b).1)

def portableMul (a b : UInt64) : UInt64 × UInt64 :=
  let aLow := a &&& 0xFFFFFFFF
  let aHigh := a >>> 32
  let bLow := b &&& 0xFFFFFFFF
  let bHigh := b >>> 32
  let res := aLow * bLow
  let lowRes1 := res &&& 0xFFFFFFFF
  let carry := res >>> 32
  let res := aHigh * bLow + carry
  let highResHigh1 := res >>> 32
  let highResLow1 := res &&& 0xFFFFFFFF
  let res := aLow * bHigh
  let lowRes2 := res &&& 0xFFFFFFFF
  let carry := res >>> 32
  let res := aHigh * bHigh + carry
  let highResHigh2 := res >>> 32
  let highResLow2 := res &&& 0xFFFFFFFF
  let r := highResLow1 + lowRes2
  let carry := r >>> 32
  let low := (r <<< 32) ||| lowRes1
  let r := highResHigh1 + highResLow2 + carry
  let d3 := r &&& 0xFFFFFFFF
  let carry := r >>> 32
  let r := highResHigh2 + carry
  (low, d3 ||| (r <<< 32))

def cadd (a b : UInt64) : Bool := decide (a + b < a)

def cadc (a b : UInt64) (c : Bool) : Bool := decide (a + b < a) || (c && a + b == -1)

def littleEndian (bytes : Bytes) : Nat := Nat.ofDigits 256 (bytes.map UInt8.toNat)

def word (hash : Hash) (i : Nat) : UInt64 := UInt64.ofNat (littleEndian ((hash.bytes.drop (8 * i)).take 8))

def checkHash (mul : UInt64 → UInt64 → UInt64 × UInt64) (hash : Hash) (difficulty : UInt64) : Bool :=
  -- the highest word first: this will most likely fail
  let third := mul (word hash 3) difficulty
  if third.2 ≠ 0 then false
  else
    let zeroth := mul (word hash 0) difficulty
    let first := mul (word hash 1) difficulty
    let carry := cadd zeroth.2 first.1
    let second := mul (word hash 2) difficulty
    let carry := cadc first.2 second.1 carry
    let carry := cadc second.2 third.1 carry
    !carry

def IsProduct (mul : UInt64 → UInt64 → UInt64 × UInt64) : Prop :=
  ∀ a b, (mul a b).2.toNat * 2 ^ 64 + (mul a b).1.toNat = a.toNat * b.toNat

theorem mul_isProduct : IsProduct mul := mul128_eq

theorem and_mask (x : UInt64) : x &&& 0xFFFFFFFF = loDword x := rfl

theorem shiftRight_32 (x : UInt64) : x >>> 32 = hiDword x := rfl

theorem toNat_mul_add {x y c : UInt64} (hx : x.toNat < 2 ^ 32) (hy : y.toNat < 2 ^ 32) (hc : c.toNat < 2 ^ 32) :
    (x * y + c).toNat = x.toNat * y.toNat + c.toNat := by
  obtain ⟨hproduct, hle⟩ := toNat_mul_halves hx hy
  rw [UInt64.toNat_add, hproduct, Nat.mod_eq_of_lt (by omega)]

/-- The additions at the end of the portable multiplication lose nothing: `r` and `r'` are the two middle digits with
what they hand on. -/
theorem toNat_assembled {res1 res2 res3 res4 r r' : UInt64} (hr : r = loDword res2 + loDword res3)
    (hr' : r' = hiDword res2 + loDword res4 + hiDword r)
    (hfits : res4.toNat * 2 ^ 64 + (res2.toNat + res3.toNat % 2 ^ 32) * 2 ^ 32 + res1.toNat % 2 ^ 32 < 2 ^ 128) :
    (loDword r' ||| ((hiDword res4 + hiDword r') <<< 32)).toNat * 2 ^ 64 + ((r <<< 32) ||| loDword res1).toNat =
      res4.toNat * 2 ^ 64 + (res2.toNat + res3.toNat % 2 ^ 32) * 2 ^ 32 + res1.toNat % 2 ^ 32 := by
  have h2 := res2.toNat_lt
  have h4 := res4.toNat_lt
  replace hr : r.toNat = res2.toNat % 2 ^ 32 + res3.toNat % 2 ^ 32 := by
    rw [hr, UInt64.toNat_add, toNat_loDword, toNat_loDword]
    omega
  replace hr' : r'.toNat = res2.toNat / 2 ^ 32 + res4.toNat % 2 ^ 32 + r.toNat / 2 ^ 32 := by
    rw [hr', UInt64.toNat_add, UInt64.toNat_add, toNat_loDword, toNat_hiDword, toNat_hiDword]
    omega
  have htop : (hiDword res4 + hiDword r').toNat = res4.toNat / 2 ^ 32 + r'.toNat / 2 ^ 32 := by
    rw [UInt64.toNat_add, toNat_hiDword, toNat_hiDword]
    omega
  rw [UInt64.or_comm, toNat_or_half _ (loDword_lt r'), toNat_or_half _ (loDword_lt res1), htop, toNat_loDword, toNat_loDword,
    hr', hr]
  omega

theorem portableMul_isProduct : IsProduct portableMul := by
  intro a b
  obtain ⟨hlow, -⟩ := toNat_mul_halves (loDword_lt a) (loDword_lt b)
  obtain ⟨hcross, -⟩ := toNat_mul_halves (loDword_lt a) (hiDword_lt b)
  have hmid := toNat_mul_add (hiDword_lt a) (loDword_lt b) (hiDword_lt (loDword a * loDword b))
  have hhigh := toNat_mul_add (hiDword_lt a) (hiDword_lt b) (hiDword_lt (loDword a * hiDword b))
  rw [toNat_hiDword (loDword a * loDword b), hlow] at hmid
  rw [toNat_hiDword (loDword a * hiDword b), hcross] at hhigh
  have ha : a.toNat = (hiDword a).toNat * 2 ^ 32 + (loDword a).toNat := by
    rw [toNat_hiDword, toNat_loDword]
    omega
  have hb : b.toNat = (hiDword b).toNat * 2 ^ 32 + (loDword b).toNat := by
    rw [toNat_hiDword, toNat_loDword]
    omega
  have hproduct : a.toNat * b.toNat = (hiDword a).toNat * (hiDword b).toNat * 2 ^ 64 +
      ((hiDword a).toNat * (loDword b).toNat + (loDword a).toNat * (hiDword b).toNat) * 2 ^ 32 +
      (loDword a).toNat * (loDword b).toNat := by
    rw [ha, hb]
    ring
  have hbound : a.toNat * b.toNat < 2 ^ 64 * 2 ^ 64 := Nat.mul_lt_mul'' a.toNat_lt b.toNat_lt
  simp only [portableMul, and_mask, shiftRight_32]
  rw [toNat_assembled rfl rfl (by rw [hlow, hcross, hmid, hhigh]; omega), hlow, hcross, hmid, hhigh]
  omega

theorem IsProduct.words {mul : UInt64 → UInt64 → UInt64 × UInt64} (h : IsProduct mul) (a b : UInt64) :
    (mul a b).1.toNat = a.toNat * b.toNat % 2 ^ 64 ∧ (mul a b).2.toNat = a.toNat * b.toNat / 2 ^ 64 := by
  have hlow := (mul a b).1.toNat_lt
  have hwhole := h a b
  omega

/-- **Products and quotients of 128 bits are exact**, the portable product included. -/
theorem wide_arithmetic_exact (a b dividendHi dividendLo : UInt64) {divisor : UInt32} (hd : divisor ≠ 0) :
    ((mul128 a b).2.toNat = a.toNat * b.toNat % 2 ^ 64 ∧ (mul128 a b).1.toNat = a.toNat * b.toNat / 2 ^ 64) ∧
    ((portableMul a b).1.toNat = a.toNat * b.toNat % 2 ^ 64 ∧ (portableMul a b).2.toNat = a.toNat * b.toNat / 2 ^ 64) ∧
    (div128By32 dividendHi dividendLo divisor).1.toNat * 2 ^ 64 + (div128By32 dividendHi dividendLo divisor).2.toNat =
      (dividendHi.toNat * 2 ^ 64 + dividendLo.toNat) / divisor.toNat ∧
    (div128By32Remainder dividendHi dividendLo divisor).toNat =
      (dividendHi.toNat * 2 ^ 64 + dividendLo.toNat) % divisor.toNat := by
  have hpos : 0 < divisor.toNat := Nat.pos_of_ne_zero fun h => hd (UInt32.toNat_inj.1 h)
  exact ⟨mul_isProduct.words a b, portableMul_isProduct.words a b, div128By32_eq hpos dividendHi dividendLo,
    div128By32Remainder_eq hpos dividendHi dividendLo⟩

theorem wide_arithmetic_exact_max : (portableMul (-1) (-1)).2 = -2 ∧ (div128By32Remainder (-1) (-1) 10).toNat = 5 := by
  obtain ⟨-, ⟨-, hhigh⟩, -, hrest⟩ := wide_arithmetic_exact (-1) (-1) (-1) (-1) (by decide : (10 : UInt32) ≠ 0)
  exact ⟨UInt64.toNat_inj.1 (hhigh.trans (by decide)), hrest.trans (by decide)⟩

theorem toNat_cadd (a b : UInt64) : (cadd a b).toNat = (a.toNat + b.toNat) / 2 ^ 64 := by
  have ha := a.toNat_lt
  have hb := b.toNat_lt
  have hsum := UInt64.toNat_add a b
  by_cases h : a + b < a
  · have hcarry : cadd a b = true := decide_eq_true h
    rw [UInt64.lt_iff_toNat_lt] at h
    rw [hcarry, Bool.toNat_true]
    omega
  · have hcarry : cadd a b = false := decide_eq_false h
    rw [UInt64.lt_iff_toNat_lt] at h
    rw [hcarry, Bool.toNat_false]
    omega

theorem toNat_cadc (a b : UInt64) (c : Bool) : (cadc a b c).toNat = (a.toNat + b.toNat + c.toNat) / 2 ^ 64 := by
  have ha := a.toNat_lt
  have hb := b.toNat_lt
  have hcadd := toNat_cadd a b
  have hsum := UInt64.toNat_add a b
  cases c with
  | false =>
    have hcarry : cadc a b false = cadd a b := by simp [cadc, cadd]
    rw [hcarry, hcadd, Bool.toNat_false, Nat.add_zero]
  | true =>
    -- one more carries exactly if the sum carries already or is all ones
    have hcarry : cadc a b true = (cadd a b || a + b == -1) := by simp [cadc, cadd]
    rw [hcarry]
    by_cases h : a + b = -1
    · have hones : (a + b).toNat = 2 ^ 64 - 1 := by rw [h]; decide
      rw [beq_iff_eq.2 h, Bool.or_true, Bool.toNat_true]
      omega
    · have hones : (a + b).toNat ≠ 2 ^ 64 - 1 := by
        intro hall
        exact h (UInt64.toNat_inj.1 (hall.trans (by decide)))
      rw [beq_eq_false_iff_ne.2 h, Bool.or_false, Bool.toNat_true, hcadd]
      omega

theorem littleEndian_lt (bytes : Bytes) : littleEndian bytes < 256 ^ bytes.length := by
  have hlt := Nat.ofDigits_lt_base_pow_length (b := 256) (l := bytes.map UInt8.toNat) (by decide)
    (by simp only [List.forall_mem_map]; exact fun x _ => x.toNat_lt)
  rwa [length_map] at hlt

theorem littleEndian_split (bytes : Bytes) {n : Nat} (hn : n ≤ bytes.length) :
    littleEndian bytes = littleEndian (bytes.take n) + 256 ^ n * littleEndian (bytes.drop n) := by
  conv_lhs => rw [littleEndian, ← take_append_drop n bytes, map_append, Nat.ofDigits_append]
  rw [length_map, length_take_of_le hn]
  rfl

theorem toNat_word (hash : Hash) (i : Nat) : (word hash i).toNat = littleEndian ((hash.bytes.drop (8 * i)).take 8) := by
  rw [word, UInt64.toNat_ofNat']
  refine Nat.mod_eq_of_lt (lt_of_lt_of_le (littleEndian_lt _) ?_)
  exact Nat.pow_le_pow_right (by decide) (length_take_le 8 _)

theorem littleEndian_hash (hash : Hash) : littleEndian hash.bytes =
      Nat.ofDigits (2 ^ 64) [(word hash 0).toNat, (word hash 1).toNat, (word hash 2).toNat, (word hash 3).toNat] := by
  have hsize := hash.size
  have h3 : (hash.bytes.drop 24).take 8 = hash.bytes.drop 24 := take_of_length_le (by rw [length_drop]; omega)
  have hsplit0 := littleEndian_split hash.bytes (n := 8) (by omega)
  have hsplit1 := littleEndian_split (hash.bytes.drop 8) (n := 8) (by rw [length_drop]; omega)
  have hsplit2 := littleEndian_split (hash.bytes.drop 16) (n := 8) (by rw [length_drop]; omega)
  rw [drop_drop] at hsplit1 hsplit2
  simp only [Nat.ofDigits_cons, Nat.ofDigits_nil, toNat_word]
  grind

theorem overflow_words (zeroth first second third : UInt64 × UInt64) :
    Carry.overflow (2 ^ 64) 0 0 ([zeroth, first, second, third].map fun p => (p.2.toNat, p.1.toNat)) =
      third.2.toNat + (cadc second.2 third.1 (cadc first.2 second.1 (cadd zeroth.2 first.1))).toNat := by
  have hlow := zeroth.1.toNat_lt
  simp only [map_cons, map_nil, Carry.overflow, toNat_cadc, toNat_cadd]
  rw [Nat.zero_add, Nat.add_zero, Nat.div_eq_of_lt hlow, Nat.add_zero]

theorem checkHash_iff {mul : UInt64 → UInt64 → UInt64 × UInt64} (hmul : IsProduct mul) (hash : Hash) (difficulty : UInt64) :
    checkHash mul hash difficulty = true ↔ littleEndian hash.bytes * difficulty.toNat < 2 ^ 256 := by
  have hproducts : ([mul (word hash 0) difficulty, mul (word hash 1) difficulty, mul (word hash 2) difficulty,
        mul (word hash 3) difficulty].map fun p => (p.2.toNat, p.1.toNat)).map (fun p => p.1 * 2 ^ 64 + p.2) =
      [(word hash 0).toNat, (word hash 1).toNat, (word hash 2).toNat, (word hash 3).toNat].map (difficulty.toNat * ·) := by
    simp only [map_cons, map_nil]
    rw [hmul, hmul, hmul, hmul]
    simp only [Nat.mul_comm difficulty.toNat]
  have hfits := Carry.mul_lt_iff (b := 2 ^ 64) (by decide) hproducts
  simp only [length_cons, length_nil, ← pow_mul, Nat.reduceMul, Nat.reduceAdd] at hfits
  rw [overflow_words, ← littleEndian_hash, Nat.mul_comm] at hfits
  rw [hfits]
  unfold checkHash
  by_cases hhigh : (mul (word hash 3) difficulty).2 = 0
  · simp_all
  · have hne : (mul (word hash 3) difficulty).2.toNat ≠ 0 := fun hzero => hhigh (UInt64.toNat_inj.1 hzero)
    rw [if_pos hhigh]
    simp [hne]

/-- **The proof-of-work test is exact**, whichever multiplication the build has: a hash passes exactly if its value
times the difficulty has no more than 256 bits. -/
theorem checkHash_eq_true_iff (hash : Hash) (difficulty : UInt64) :
    (checkHash mul hash difficulty = true ↔ littleEndian hash.bytes * difficulty.toNat < 2 ^ 256) ∧
    (checkHash portableMul hash difficulty = true ↔ littleEndian hash.bytes * difficulty.toNat < 2 ^ 256) :=
  ⟨checkHash_iff mul_isProduct hash difficulty, checkHash_iff portableMul_isProduct hash difficulty⟩

end ProofOfWork

end Electronero
