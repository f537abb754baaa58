import Electronero.Epee
import Electronero.Lib.Decimal
/-!
# Amounts as text (`src/cryptonote_basic/cryptonote_format_utils.cpp:337, 772, 820`)

`parse_amount` moves the point by editing the text. That is exact but for the test for an empty text, which comes after
the zeros are stripped: with no decimal places nothing is left of `.0`.
-/
namespace Electronero
open Text List

def setDefaultDecimalPoint (decimalPoint : Nat) : Option Nat := if decimalPoint ≤ 12 then some decimalPoint else none

def getXtypeFromString (strId : Bytes) : Option UInt64 :=
  if strId.all isDigit then
    if strId = [] ∨ 2 ^ 64 ≤ digitsVal strId then none else some (UInt64.ofNat (digitsVal strId))
  else none

namespace Amounts

def stripZeros (defaultDecimalPoint : Nat) : Nat → Bytes → Nat × Bytes
  | 0, strAmount => (0, strAmount)
  | fractionSize + 1, strAmount =>
    if defaultDecimalPoint < fractionSize + 1 ∧ strAmount.getLast? = some zero then
      stripZeros defaultDecimalPoint fractionSize strAmount.dropLast
    else (fractionSize + 1, strAmount)

def appendAndConvert (defaultDecimalPoint fractionSize : Nat) (strAmount : Bytes) : Option UInt64 :=
  if strAmount = [] then none
  else
    getXtypeFromString
      (if fractionSize < defaultDecimalPoint then
        strAmount ++ List.replicate (defaultDecimalPoint - fractionSize) zero
      else strAmount)

end Amounts

open Amounts

/-- `none` = it returns false. -/
def parseAmount (defaultDecimalPoint : Nat) (strAmount_ : Bytes) : Option UInt64 :=
  let strAmount := trim strAmount_
  match strAmount.findIdx? (· = point) with
  | some pointIndex =>
    let r := stripZeros defaultDecimalPoint (strAmount.length - pointIndex - 1) strAmount
    if defaultDecimalPoint < r.1 then none
    else appendAndConvert defaultDecimalPoint r.1 (r.2.eraseIdx pointIndex)
  | none => appendAndConvert defaultDecimalPoint 0 strAmount

/-- `none` = the default argument, -1. -/
def printMoney (defaultDecimalPoint : Nat) (amount : UInt64) (decimalPoint : Option Nat) : Bytes :=
  let decimalPoint := decimalPoint.getD defaultDecimalPoint
  let s := decimal amount.toNat
  let s := if s.length < decimalPoint + 1 then List.replicate (decimalPoint + 1 - s.length) zero ++ s else s
  if 0 < decimalPoint then s.take (s.length - decimalPoint) ++ point :: s.drop (s.length - decimalPoint) else s

namespace Amounts
variable {dp : Nat} {s w f : Bytes} {a : UInt64}

theorem drop_concat_iff (f : Bytes) (c : UInt8) (h : dp ≤ f.length) :
    (∀ x ∈ (f ++ [c]).drop dp, x = zero) ↔ (∀ x ∈ f.drop dp, x = zero) ∧ c = zero := by
  rw [drop_append_of_le_length h]
  simp [or_imp, forall_and]

theorem stripZeros_of_zeros (w : Bytes) (h : ∀ c ∈ f.drop dp, c = zero) :
    stripZeros dp f.length (w ++ f) = (min f.length dp, w ++ f.take dp) := by
  induction f using List.reverseRecOn with
  | nil => simp [stripZeros]
  | append_singleton f c ih =>
    rw [length_append, length_singleton, stripZeros]
    by_cases hlong : dp ≤ f.length
    · obtain ⟨hf, rfl⟩ := (drop_concat_iff f c hlong).1 h
      have hlast : (w ++ (f ++ [zero])).getLast? = some zero := by simp
      have hinit : (w ++ (f ++ [zero])).dropLast = w ++ f := by rw [← append_assoc, dropLast_concat]
      rw [if_pos ⟨by omega, hlast⟩, hinit, ih hf, take_append_of_le_length hlong, Nat.min_eq_right hlong,
        Nat.min_eq_right (by omega)]
    · rw [if_neg (by omega), Nat.min_eq_left (by omega), take_of_length_le (by simp; omega)]

theorem lt_stripZeros (w : Bytes) (h : ¬ ∀ c ∈ f.drop dp, c = zero) : dp < (stripZeros dp f.length (w ++ f)).1 := by
  induction f using List.reverseRecOn with
  | nil => simp at h
  | append_singleton f c ih =>
    have hlong : dp ≤ f.length := by
      by_contra hshort
      rw [drop_eq_nil_of_le (by simp; omega)] at h
      simp at h
    rw [length_append, length_singleton, stripZeros]
    by_cases hc : c = zero
    · grind
    · have hlast : ¬ (w ++ (f ++ [c])).getLast? = some zero := by simpa using hc
      rw [if_neg fun h => hlast h.2]
      show dp < f.length + 1
      omega

theorem getXtypeFromString_iff (h : s ≠ []) :
    getXtypeFromString s = some a ↔ (∀ c ∈ s, isDigit c = true) ∧ digitsVal s = a.toNat := by
  rw [getXtypeFromString]
  simp only [List.all_eq_true, h, false_or]
  rw [Option.ite_none_right_eq_some, Option.ite_none_left_eq_some]
  refine and_congr_right fun _ => ⟨?_, fun hval => ?_⟩
  · rintro ⟨hlt, hval⟩
    rw [← Option.some.inj hval, UInt64.toNat_ofNat', Nat.mod_eq_of_lt (by omega)]
  · rw [hval, UInt64.ofNat_toNat]
    exact ⟨Nat.not_le.2 a.toNat_lt, rfl⟩

theorem isDigit_zero : isDigit zero = true := by decide

theorem appendAndConvert_iff {fractionSize : Nat} : appendAndConvert dp fractionSize s = some a ↔
      s ≠ [] ∧ (∀ c ∈ s, isDigit c = true) ∧ digitsVal (s ++ List.replicate (dp - fractionSize) zero) = a.toNat := by
  have happend : (if fractionSize < dp then s ++ List.replicate (dp - fractionSize) zero else s) =
      s ++ List.replicate (dp - fractionSize) zero := by simp_all
  rw [appendAndConvert, Option.ite_none_left_eq_some, happend]
  refine and_congr_right fun hs => ?_
  rw [getXtypeFromString_iff (by simp [hs])]
  grind [isDigit_zero]

def joined (w : Bytes) : Option Bytes → Bytes
  | none => w
  | some f => w ++ point :: f

theorem exists_joined (s : Bytes) : ∃ w fraction, s = joined w fraction ∧ point ∉ w := by
  by_cases h : point ∈ s
  · obtain ⟨w, f, rfl, hw⟩ := eq_append_cons_of_mem h
    exact ⟨w, some f, rfl, hw⟩
  · exact ⟨s, none, rfl, h⟩

theorem parseAmount_iff {fraction : Option Bytes} (hs : trim s = joined w fraction) (hw : point ∉ w) :
    parseAmount dp s = some a ↔
      (∀ c ∈ (fraction.getD []).drop dp, c = zero) ∧ w ++ (fraction.getD []).take dp ≠ [] ∧
      (∀ c ∈ w ++ (fraction.getD []).take dp, isDigit c = true) ∧
      digitsVal (w ++ (fraction.getD []).take dp ++ List.replicate (dp - (fraction.getD []).length) zero) = a.toNat := by
  have hnone : w.findIdx? (· = point) = none := by grind
  rw [parseAmount, hs]
  cases fraction with
  | none =>
    simp only [joined, hnone]
    rw [appendAndConvert_iff]
    simp
  | some f =>
    have hsome : (w ++ point :: f).findIdx? (· = point) = some w.length := by
      simp [findIdx?_append, hnone, findIdx?_cons]
    have hsize : (w ++ point :: f).length - w.length - 1 = f.length := by simp
    have hsplit : w ++ point :: f = (w ++ [point]) ++ f := by simp
    simp only [joined, hsome, hsize, Option.getD_some]
    rw [hsplit]
    by_cases hzeros : ∀ c ∈ f.drop dp, c = zero
    · have herase : (w ++ [point] ++ f.take dp).eraseIdx w.length = w ++ f.take dp := by grind
      rw [stripZeros_of_zeros _ hzeros, if_neg (by omega), herase, appendAndConvert_iff, and_iff_right hzeros,
        show dp - min f.length dp = dp - f.length by omega]
    · grind [lt_stripZeros]

theorem text_eq_joined (n : Numeral) : n.text = joined n.whole n.fraction := by
  rw [Numeral.text]
  cases n.fraction <;> rfl

theorem point_not_mem_whole (n : Numeral) : point ∉ n.whole := fun h => by
  have := n.digits point (mem_append_left _ h)
  cases this

theorem parseAmount_numeral_iff (n : Numeral) (hs : trim s = n.text) : parseAmount dp s = some a ↔
      n.places ≤ dp ∧ n.whole ++ (n.fraction.getD []).take dp ≠ [] ∧ (a.toNat : ℚ) = n.value * 10 ^ dp := by
  rw [text_eq_joined] at hs
  rw [parseAmount_iff hs (point_not_mem_whole n), ← n.places_le_iff]
  refine and_congr_right fun hplaces => and_congr_right fun _ => ?_
  have hdigits : ∀ c ∈ n.whole ++ (n.fraction.getD []).take dp, isDigit c = true := by
    intro c hc
    refine n.digits c ?_
    grind
  rw [and_iff_right hdigits, n.value_scaled hplaces, Nat.cast_inj, eq_comm]

theorem numeral_of_parseAmount (h : parseAmount dp s = some a) : ∃ n : Numeral, trim s = n.text := by
  obtain ⟨w, fraction, hs, hw⟩ := exists_joined (trim s)
  obtain ⟨hzeros, hne, hdigits, -⟩ := (parseAmount_iff hs hw).1 h
  have hall : ∀ c ∈ w ++ fraction.getD [], isDigit c = true := by
    intro c hc
    rw [← take_append_drop dp (fraction.getD []), ← append_assoc] at hc
    grind [isDigit_zero]
  have hne' : w ++ fraction.getD [] ≠ [] := by simp_all
  exact ⟨⟨w, fraction, hall, hne'⟩, by rw [text_eq_joined, hs]⟩

/-- The text is accepted exactly if it is a numeral with at most `dp` places that fits when the point is moved, and the
amount is then the value with the point moved. -/
def Exact (dp : Nat) (s : Bytes) : Prop :=
  ((parseAmount dp s).isSome = true ↔
    ∃ n : Numeral, trim s = n.text ∧ n.places ≤ dp ∧ n.value * 10 ^ dp < 2 ^ 64) ∧
  ∀ a n, parseAmount dp s = some a → trim s = Numeral.text n → (a.toNat : ℚ) = n.value * 10 ^ dp

def PointAndZeros (dp : Nat) (s : Bytes) : Prop :=
  dp = 0 ∧ ∃ k, trim s = point :: List.replicate (k + 1) zero

theorem nothing_left_iff (n : Numeral) (hs : trim s = n.text) (hplaces : n.places ≤ dp) :
    n.whole ++ (n.fraction.getD []).take dp = [] ↔ PointAndZeros dp s := by
  have hzeros := (n.places_le_iff dp).1 hplaces
  have hpoint := point_not_mem_whole n
  have hne := n.nonempty
  rw [text_eq_joined] at hs
  generalize n.whole = w at *
  constructor
  · intro h
    obtain ⟨rfl, hf⟩ := append_eq_nil_iff.1 h
    rw [nil_append] at hne
    obtain rfl : dp = 0 := by simpa [hne] using hf
    rw [drop_zero] at hzeros
    cases hfraction : n.fraction with
    | none => simp [hfraction] at hne
    | some f =>
      simp only [hfraction, Option.getD_some] at hs hne hzeros
      obtain ⟨k, hk⟩ : ∃ k, f.length = k + 1 := Nat.exists_eq_succ_of_ne_zero (by simpa using hne)
      exact ⟨rfl, k, by rw [hs, joined, nil_append, ← hk, ← eq_zeros hzeros]⟩
  · rintro ⟨rfl, k, hk⟩
    rw [take_zero, append_nil]
    rw [hk] at hs
    cases w with
    | nil => rfl
    | cons c w =>
      have hc : point = c := by
        cases hfraction : n.fraction <;> rw [hfraction] at hs <;> exact (cons.inj hs).1
      exact absurd (by simp [hc]) hpoint

theorem printMoney_eq (dp : Nat) (a : UInt64) :
    ∃ ds : Bytes, (∀ c ∈ ds, isDigit c = true) ∧ dp < ds.length ∧ digitsVal ds = a.toNat ∧
      printMoney dp a none =
        joined (ds.take (ds.length - dp)) (if 0 < dp then some (ds.drop (ds.length - dp)) else none) := by
  have hdecimal : ∀ c ∈ decimal a.toNat, isDigit c = true := fun c hc => isDigit_of_mem_decimal hc
  refine ⟨List.replicate (dp + 1 - (decimal a.toNat).length) zero ++ decimal a.toNat, ?_, ?_, ?_, ?_⟩
  · grind [isDigit_zero]
  · grind
  · rw [digitsVal_append, digitsVal_zeros, Nat.zero_mul, Nat.zero_add, digitsVal_decimal]
  · have hpadded : (if (decimal a.toNat).length < dp + 1 then
        List.replicate (dp + 1 - (decimal a.toNat).length) zero ++ decimal a.toNat else decimal a.toNat) =
        List.replicate (dp + 1 - (decimal a.toNat).length) zero ++ decimal a.toNat := by simp_all
    simp only [printMoney, Option.getD_none, hpadded]
    split
    · rfl
    · rw [show dp = 0 by omega, Nat.sub_zero, take_length]
      rfl

theorem not_isSpace_of_isDigit {c : UInt8} (h : isDigit c = true) : isSpace c = false := by
  have hc := (isDigit_iff c).1 h
  simp [isSpace, UInt8.le_iff_toNat_le, ← UInt8.toNat_inj]
  omega

theorem trim_text (n : Numeral) : trim n.text = n.text := by
  refine trim_eq_self fun c hc => ?_
  have hdigits : ∀ c ∈ n.whole ++ n.fraction.getD [], isSpace c = false := fun c hc =>
    not_isSpace_of_isDigit (n.digits c hc)
  rw [Numeral.text] at hc
  cases hfraction : n.fraction with
  | none => grind
  | some f =>
    rw [hfraction] at hc hdigits
    rcases mem_append.1 hc with hc | hc
    · exact hdigits c (by simp [hc])
    · rcases mem_cons.1 hc with rfl | hc
      · decide
      · exact hdigits c (by simp [hc])

theorem parseAmount_printMoney (dp : Nat) (a : UInt64) : parseAmount dp (printMoney dp a none) = some a := by
  obtain ⟨ds, hdigits, hlong, hval, hprint⟩ := printMoney_eq dp a
  have hfraction : (if 0 < dp then some (ds.drop (ds.length - dp)) else none).getD [] = ds.drop (ds.length - dp) := by
    split
    · rfl
    · simp_all
  have hwhole : ds.take (ds.length - dp) ++ (if 0 < dp then some (ds.drop (ds.length - dp)) else none).getD [] = ds := by
    rw [hfraction, take_append_drop]
  have hne : ds ≠ [] := ne_nil_of_length_pos (by omega)
  let n : Numeral := ⟨ds.take (ds.length - dp), if 0 < dp then some (ds.drop (ds.length - dp)) else none,
    by rwa [hwhole], by rwa [hwhole]⟩
  have hlength : (n.fraction.getD []).length = dp := by
    rw [hfraction, length_drop]
    omega
  have htext : trim (printMoney dp a none) = n.text := by
    rw [hprint, ← text_eq_joined n, trim_text]
  refine (parseAmount_numeral_iff n htext).2 ⟨(n.places_le_iff dp).2 ?_, ?_, ?_⟩
  · grind
  · simp [n, hne]
    omega
  · rw [Numeral.value, hlength, show n.whole ++ n.fraction.getD [] = ds from hwhole, hval]
    field_simp

theorem exists_amount (n : Numeral) (hplaces : n.places ≤ dp) (hlt : n.value * 10 ^ dp < 2 ^ 64) :
    ∃ a : UInt64, (a.toNat : ℚ) = n.value * 10 ^ dp := by
  rw [n.value_scaled hplaces] at hlt ⊢
  have hfits : digitsVal (n.whole ++ (n.fraction.getD []).take dp ++
      List.replicate (dp - (n.fraction.getD []).length) zero) < 2 ^ 64 := by exact_mod_cast hlt
  exact ⟨UInt64.ofNat _, by rw [UInt64.toNat_ofNat', Nat.mod_eq_of_lt hfits]⟩

/-- **Amounts are parsed exactly**, and what is printed is parsed, unless there are no decimal places and the text is a
point and zeros. -/
theorem parse_amount_exact_iff (dp : Nat) (s : Bytes) :
    (Exact dp s ∧ ∀ a, parseAmount dp (printMoney dp a none) = some a) ↔ ¬ PointAndZeros dp s := by
  rw [and_iff_left (parseAmount_printMoney dp)]
  constructor
  · rintro ⟨haccept, -⟩ hlost
    obtain ⟨rfl, k, hk⟩ := hlost
    have hdigits : ∀ c ∈ [] ++ (some (List.replicate (k + 1) zero)).getD [], isDigit c = true := by grind [isDigit_zero]
    let n : Numeral := ⟨[], some (List.replicate (k + 1) zero), hdigits, by simp⟩
    have hplaces : n.places ≤ 0 := (n.places_le_iff 0).2 fun c hc => eq_of_mem_replicate hc
    have hvalue : n.value = 0 := by
      have hzero := digitsVal_zeros (k + 1)
      simp [Numeral.value, n, hzero]
    obtain ⟨a, ha⟩ := Option.isSome_iff_exists.1 (haccept.2 ⟨n, hk, hplaces, by simp [hvalue]⟩)
    exact ((parseAmount_numeral_iff n hk).1 ha).2.1 rfl
  · intro hkept
    refine ⟨⟨fun h => ?_, ?_⟩, fun a n ha hs => ((parseAmount_numeral_iff n hs).1 ha).2.2⟩
    · obtain ⟨a, ha⟩ := Option.isSome_iff_exists.1 h
      obtain ⟨n, hs⟩ := numeral_of_parseAmount ha
      obtain ⟨hplaces, -, hval⟩ := (parseAmount_numeral_iff n hs).1 ha
      refine ⟨n, hs, hplaces, ?_⟩
      rw [← hval]
      exact_mod_cast a.toNat_lt
    · rintro ⟨n, hs, hplaces, hlt⟩
      obtain ⟨a, ha⟩ := exists_amount n hplaces hlt
      have hleft := fun h => hkept ((nothing_left_iff n hs hplaces).1 h)
      exact Option.isSome_iff_exists.2 ⟨a, (parseAmount_numeral_iff n hs).2 ⟨hplaces, hleft, ha⟩⟩

theorem point_zero_refused : parseAmount 0 (ascii ".0") = none ∧
    ∃ n : Numeral, trim (ascii ".0") = n.text ∧ n.places ≤ 0 ∧ n.value * 10 ^ 0 = 0 :=
  ⟨by decide +kernel, ⟨[], some [zero], by decide +kernel, by decide +kernel⟩, by decide +kernel, by decide +kernel, by decide +kernel⟩

end Amounts
end Electronero
