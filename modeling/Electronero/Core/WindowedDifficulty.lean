import Electronero.Core.NextDifficulty
import Mathlib.Algebra.Order.Floor.Div
import Mathlib.Data.List.GetD
/-!
# What `next_difficulty` and `next_difficulty_v2` are for (`src/cryptonote_basic/difficulty.cpp`)

A difficulty of 0 is an error to the caller (blockchain.cpp:3636). `next_difficulty` drops the upper half of the product
(:162-166); `next_difficulty_v2` reports an overflow by returning 1 (:208-210), which every hash meets.
-/
namespace Electronero
open List

namespace Difficulty

def timeSpan (samples : List Sample) : Nat :=
  let times := (samples.map (·.timestamp.toNat)).insertionSort (· ≤ ·)
  max 1 (times.getD ((cut samples.length).2 - 1) 0 - times.getD (cut samples.length).1 0)

def totalWork (samples : List Sample) : Nat :=
  let work := samples.map (·.cumulativeDifficulty.toNat)
  work.getD ((cut samples.length).2 - 1) 0 - work.getD (cut samples.length).1 0

def Fits (samples : List Sample) (targetSeconds : UInt64) : Prop :=
  totalWork samples * targetSeconds.toNat + timeSpan samples - 1 < 2 ^ 64

instance (samples : List Sample) (targetSeconds : UInt64) : Decidable (Fits samples targetSeconds) :=
  inferInstanceAs (Decidable (_ < _))

def exactDifficulty (samples : List Sample) (targetSeconds : UInt64) : Nat :=
  if Fits samples targetSeconds then (totalWork samples * targetSeconds.toNat) ⌈/⌉ timeSpan samples else 0

def Increasing (samples : List Sample) : Prop := samples.Pairwise (·.cumulativeDifficulty < ·.cumulativeDifficulty)

instance (samples : List Sample) : Decidable (Increasing samples) := inferInstanceAs (Decidable (List.Pairwise _ _))

section Window
variable {samples : List Sample}

theorem one_le_timeSpan (samples : List Sample) : 1 ≤ timeSpan samples := le_max_left _ _

theorem getD_map_toNat (l : List UInt64) (i : Nat) : (l.map UInt64.toNat).getD i 0 = (l.getD i 0).toNat := by
  rw [← UInt64.toNat_zero, List.getD_map]

theorem sortedTimes (samples : List Sample) : (samples.map (·.timestamp.toNat)).insertionSort (· ≤ ·) =
      ((samples.map (·.timestamp)).insertionSort (· ≤ ·)).map UInt64.toNat := by
  rw [map_insertionSort (· ≤ ·) (· ≤ ·) UInt64.toNat _ (fun _ _ _ _ => UInt64.le_iff_toNat_le), List.map_map]
  rfl

theorem getD_le_getD {l : List UInt64} (hl : l.Pairwise (· ≤ ·)) {i j : Nat} (hij : i ≤ j) (hj : j < l.length) :
    l.getD i 0 ≤ l.getD j 0 := by
  rw [getD_eq_getElem _ _ (by omega), getD_eq_getElem _ _ hj]
  rcases hij.eq_or_lt with rfl | hlt
  · exact UInt64.le_refl _
  · exact pairwise_iff_getElem.1 hl i j (by omega) hj hlt

theorem toNat_spanAndWork (hlen : 2 ≤ samples.length) (hinc : Increasing samples) :
    (spanAndWork samples).1.toNat = timeSpan samples ∧ (spanAndWork samples).2.toNat = totalWork samples := by
  obtain ⟨hlt, hle⟩ := cut_spec hlen
  constructor
  · have hsorted := pairwise_insertionSort (· ≤ ·) (samples.map (·.timestamp))
    have hmono := getD_le_getD hsorted (i := (cut samples.length).1) (j := (cut samples.length).2 - 1) (by omega)
      (by rw [length_insertionSort, length_map]; omega)
    have hspan := UInt64.toNat_sub_of_le _ _ hmono
    simp only [spanAndWork, timeSpan, sortedTimes, getD_map_toNat]
    split
    · grind
    · rename_i hne
      rw [← UInt64.toNat_inj, UInt64.toNat_zero] at hne
      rw [← hspan, Nat.max_eq_right (by omega)]
  · have hsorted : (samples.map (·.cumulativeDifficulty)).Pairwise (· ≤ ·) := by
      rw [pairwise_map]
      exact hinc.imp fun h => UInt64.le_of_lt h
    have hmono := getD_le_getD hsorted (i := (cut samples.length).1) (j := (cut samples.length).2 - 1) (by omega)
      (by rw [length_map]; omega)
    have hwork : samples.map (·.cumulativeDifficulty.toNat) = (samples.map (·.cumulativeDifficulty)).map UInt64.toNat := by
      rw [List.map_map]
      rfl
    simp only [spanAndWork, totalWork, hwork, getD_map_toNat]
    exact UInt64.toNat_sub_of_le _ _ hmono

end Window

section Division
variable (timeSpan totalWork targetSeconds : UInt64)

theorem toNat_dividend (hspan : 1 ≤ timeSpan.toNat)
    (hfits : totalWork.toNat * targetSeconds.toNat + timeSpan.toNat - 1 < 2 ^ 64) :
    (totalWork * targetSeconds).toNat = totalWork.toNat * targetSeconds.toNat ∧
    (totalWork * targetSeconds + timeSpan - 1).toNat = totalWork.toNat * targetSeconds.toNat + timeSpan.toNat - 1 := by
  have hlow : (totalWork * targetSeconds).toNat = totalWork.toNat * targetSeconds.toNat := by
    rw [UInt64.toNat_mul, Nat.mod_eq_of_lt (by omega)]
  refine ⟨hlow, ?_⟩
  rw [UInt64.toNat_sub, UInt64.toNat_add, hlow, UInt64.toNat_one]
  omega

theorem overflow_iff (hspan : 1 ≤ timeSpan.toNat) : (totalWork.toNat * targetSeconds.toNat / UInt64.size ≠ 0 ∨
      totalWork * targetSeconds + timeSpan - 1 < totalWork * targetSeconds) ↔
      ¬totalWork.toNat * targetSeconds.toNat + timeSpan.toNat - 1 < 2 ^ 64 := by
  by_cases hfits : totalWork.toNat * targetSeconds.toNat + timeSpan.toNat - 1 < 2 ^ 64
  · obtain ⟨hlow, hsum⟩ := toNat_dividend timeSpan totalWork targetSeconds hspan hfits
    rw [UInt64.lt_iff_toNat_lt, hlow, hsum, UInt64.size]
    omega
  · by_cases hhigh : totalWork.toNat * targetSeconds.toNat < 2 ^ 64
    · -- the product fits and the sum wraps, to something smaller
      have hlow : (totalWork * targetSeconds).toNat = totalWork.toNat * targetSeconds.toNat := by
        rw [UInt64.toNat_mul, Nat.mod_eq_of_lt hhigh]
      have hword := timeSpan.toNat_lt
      rw [UInt64.lt_iff_toNat_lt, UInt64.toNat_sub, UInt64.toNat_add, hlow, UInt64.toNat_one, UInt64.size]
      omega
    · rw [UInt64.size]
      omega

end Division

section Results
variable {samples : List Sample} (hlen : 2 ≤ samples.length) (hmax : samples.length ≤ 720) (hinc : Increasing samples)
  (targetSeconds : UInt64)
include hlen hmax hinc

omit hmax in
theorem quotient_of_fits (hfits : Fits samples targetSeconds) :
    (((spanAndWork samples).2 * targetSeconds + (spanAndWork samples).1 - 1) / (spanAndWork samples).1).toNat =
      exactDifficulty samples targetSeconds := by
  obtain ⟨hspan, hwork⟩ := toNat_spanAndWork hlen hinc
  have hone := one_le_timeSpan samples
  have hsum := (toNat_dividend (spanAndWork samples).1 (spanAndWork samples).2 targetSeconds (hspan ▸ hone)
    (by rw [hspan, hwork]; exact hfits)).2
  rw [UInt64.toNat_div, hsum, hspan, hwork, exactDifficulty, if_pos hfits, Nat.ceilDiv_eq_add_pred_div]

theorem nextDifficulty_of_fits (hfits : Fits samples targetSeconds) :
    (nextDifficulty samples targetSeconds).toNat = exactDifficulty samples targetSeconds := by
  simp only [nextDifficulty, take_of_length_le hmax]
  grind [quotient_of_fits]

theorem toNat_nextDifficultyV2 : (nextDifficultyV2 samples targetSeconds).toNat =
      if Fits samples targetSeconds then exactDifficulty samples targetSeconds else 1 := by
  obtain ⟨hspan, hwork⟩ := toNat_spanAndWork hlen hinc
  have hone := one_le_timeSpan samples
  have hoverflow := overflow_iff (spanAndWork samples).1 (spanAndWork samples).2 targetSeconds (hspan ▸ hone)
  rw [hspan, hwork] at hoverflow
  simp only [nextDifficultyV2, take_of_length_le hmax]
  rw [if_neg (by omega), hwork]
  by_cases hfits : Fits samples targetSeconds
  · rw [if_neg (fun h => hoverflow.1 h hfits), if_pos hfits]
    exact quotient_of_fits hlen hinc targetSeconds hfits
  · rw [if_pos (hoverflow.2 hfits), if_neg hfits]
    rfl

end Results

/-- **Both functions are exact, or report an error, exactly if the dividend fits.** -/
theorem exact_or_error_iff {samples : List Sample} (hlen : 2 ≤ samples.length) (hmax : samples.length ≤ 720)
    (hinc : Increasing samples) (targetSeconds : UInt64) :
    ((cut samples.length).1 + 2 ≤ (cut samples.length).2 ∧ (cut samples.length).2 ≤ samples.length) ∧
    ((nextDifficulty samples targetSeconds).toNat = exactDifficulty samples targetSeconds ∧
        (nextDifficultyV2 samples targetSeconds).toNat = exactDifficulty samples targetSeconds ↔
      totalWork samples * targetSeconds.toNat + timeSpan samples - 1 < 2 ^ 64) := by
  refine ⟨cut_spec hlen, ?_, ?_⟩
  · grind [Fits, toNat_nextDifficultyV2, exactDifficulty]
  · grind [Fits, toNat_nextDifficultyV2, nextDifficulty_of_fits]

theorem exact_or_error_iff_minute :
    (nextDifficulty [⟨0, 1⟩, ⟨60, 61⟩] 60).toNat = 60 ∧ (nextDifficultyV2 [⟨0, 1⟩, ⟨60, 61⟩] 60).toNat = 60 :=
  (exact_or_error_iff (by decide) (by decide) (by decide) 60).2.2 (by decide)

def hugeWork : List Sample := [⟨0, 1⟩, ⟨1, 9223372036854775810⟩]

theorem hugeWork_not_reported : Increasing hugeWork ∧ ¬Fits hugeWork 120 ∧ exactDifficulty hugeWork 120 = 0 ∧
      nextDifficulty hugeWork 120 = 120 ∧ nextDifficultyV2 hugeWork 120 = 1 := by
  decide

end Difficulty

end Electronero
