import Electronero.Core.WindowedDifficulty
import Mathlib.Tactic.Linarith
/-!
# What `next_difficulty_v4` computes (`src/cryptonote_basic/difficulty.cpp:281-419`)

The loop that collects the last ten difficulties starts at `70 * -10` (:300), beyond every index, so a window of growing
difficulties is never shortened.
-/
namespace Electronero
open List

namespace Difficulty

def trendWindow (samples : List Sample) : List Sample :=
  let samples := samples.take 70
  if 69 ≤ samples.length && rapidChange (samples.map (·.cumulativeDifficulty)) then samples.take 25 else samples

def windowDifficulty (samples : List Sample) (targetSeconds : UInt64) : UInt64 :=
  let length := samples.length
  match samples with
  | first :: second :: rest =>
    let timespans := timespansFrom targetSeconds length ⟨0, first.timestamp, 0, false, 0⟩ 1
      ((second :: rest).map (·.timestamp))
    let target := 99 * (((length + 1) / 2).toUInt64 * targetSeconds) / 100
    let minimum := targetSeconds * length.toUInt64 / 2
    let weighted := max timespans.adjusted minimum
    let totalWork := (rest.getLastD second).cumulativeDifficulty - first.cumulativeDifficulty
    if totalWork.toNat * target.toNat / UInt64.size ≠ 0 then 0 else totalWork * target / weighted
  | _ => 1

theorem nextDifficultyV4_eq (samples : List Sample) (targetSeconds : UInt64) :
    nextDifficultyV4 samples targetSeconds = windowDifficulty (trendWindow samples) targetSeconds := rfl

theorem median_eq {l : List UInt64} (hl : l.Pairwise (· ≤ ·)) {n : Nat} (hlen : l.length = 2 * (n + 1)) :
    median l = (l.getD n 0 + l.getD (n + 1) 0) / 2 := by
  have hhalf : l.length / 2 = n + 1 := by omega
  simp only [median, hl.insertionSort_eq, hhalf]
  grind

def halfSum (a b : UInt64) : Nat := (a.toNat + b.toNat) % 2 ^ 64 / 2

def Wraps (difficulties : List UInt64) : Prop :=
  69 ≤ difficulties.length ∧ 0 < halfSum (difficulties.getD 49 0) (difficulties.getD 50 0) ∧
    halfSum (difficulties.getD 49 0) (difficulties.getD 50 0) * 6 % 2 ^ 64 / 5 <
      halfSum (difficulties.getD 19 0) (difficulties.getD 20 0)

instance (difficulties : List UInt64) : Decidable (Wraps difficulties) := inferInstanceAs (Decidable (_ ∧ _))

def countedWindow (samples : List Sample) : List Sample :=
  if Wraps (samples.map (·.cumulativeDifficulty)) then samples.take 25 else samples

section Trend
variable {difficulties : List UInt64} (hinc : difficulties.Pairwise (· < ·))
include hinc

theorem median_first (hlen : 69 ≤ difficulties.length) :
    median (difficulties.take 40) = (difficulties.getD 19 0 + difficulties.getD 20 0) / 2 := by
  have hsorted : (difficulties.take 40).Pairwise (· ≤ ·) :=
    (hinc.imp fun h => UInt64.le_of_lt h).sublist (take_sublist _ _)
  rw [median_eq hsorted (n := 19) (by rw [length_take]; omega)]
  simp [getD_eq_getElem?_getD]

theorem median_mid (hlen : 69 ≤ difficulties.length) :
    median ((difficulties.drop 40).take 20) = (difficulties.getD 49 0 + difficulties.getD 50 0) / 2 := by
  have hsorted : ((difficulties.drop 40).take 20).Pairwise (· ≤ ·) :=
    ((hinc.imp fun h => UInt64.le_of_lt h).sublist (drop_sublist _ _)).sublist (take_sublist _ _)
  rw [median_eq hsorted (n := 9) (by rw [length_take, length_drop]; omega)]
  simp [getD_eq_getElem?_getD]

theorem rapidChange_eq_true_iff (hlen : 69 ≤ difficulties.length) :
    rapidChange difficulties = true ↔ Wraps difficulties := by
  have hlast : median [] = 0 := rfl
  have hfirst : ((difficulties.getD 19 0 + difficulties.getD 20 0) / 2).toNat =
      halfSum (difficulties.getD 19 0) (difficulties.getD 20 0) := by
    rw [UInt64.toNat_div, UInt64.toNat_add]
    rfl
  have hmid : ((difficulties.getD 49 0 + difficulties.getD 50 0) / 2).toNat =
      halfSum (difficulties.getD 49 0) (difficulties.getD 50 0) := by
    rw [UInt64.toNat_div, UInt64.toNat_add]
    rfl
  simp only [rapidChange, median_first hinc hlen, median_mid hinc hlen, hlast, Wraps]
  generalize (difficulties.getD 19 0 + difficulties.getD 20 0) / 2 = first at hfirst ⊢
  generalize (difficulties.getD 49 0 + difficulties.getD 50 0) / 2 = mid at hmid ⊢
  have hscaled : (mid * 6 / 5).toNat = mid.toNat * 6 % 2 ^ 64 / 5 := by
    rw [UInt64.toNat_div, UInt64.toNat_mul]
    rfl
  have hzero : ((0 : UInt64) * 10 / 9) = 0 := by decide
  simp only [hzero, Bool.or_eq_true, Bool.and_eq_true, decide_eq_true_eq, UInt64.lt_iff_toNat_lt, hscaled, UInt64.toNat_zero,
    not_lt_zero, and_false, or_false, ← hfirst, ← hmid]
  grind

end Trend

variable {samples window : List Sample}

theorem Increasing.map (hinc : Increasing samples) : (samples.map (·.cumulativeDifficulty)).Pairwise (· < ·) := by
  rw [pairwise_map]
  exact hinc

theorem trendWindow_eq (hmax : samples.length ≤ 70) (hinc : Increasing samples) :
    trendWindow samples = countedWindow samples := by
  simp only [trendWindow, countedWindow, take_of_length_le hmax, Bool.and_eq_true, decide_eq_true_eq]
  by_cases hlen : 69 ≤ samples.length
  · simp only [hlen, true_and, rapidChange_eq_true_iff hinc.map (by rw [length_map]; exact hlen)]
  · grind [Wraps]

theorem not_wraps {difficulties : List UInt64} (hinc : difficulties.Pairwise (· < ·)) (hlen : 51 ≤ difficulties.length)
    (hbound : ∀ d ∈ difficulties, d.toNat < 2 ^ 60) : ¬Wraps difficulties := by
  have hget : ∀ i, i < difficulties.length → (difficulties.getD i 0).toNat < 2 ^ 60 := by grind
  have hsorted := hinc.imp fun h => UInt64.le_of_lt h
  have hle : ∀ i j, i ≤ j → j < difficulties.length → (difficulties.getD i 0).toNat ≤ (difficulties.getD j 0).toNat :=
    fun i j hij hj => UInt64.le_iff_toNat_le.1 (getD_le_getD hsorted hij hj)
  rintro ⟨-, -, hfall⟩
  have h49 := hget 49 (by omega)
  have h50 := hget 50 (by omega)
  have h1949 := hle 19 49 (by omega) (by omega)
  have h2050 := hle 20 50 (by omega) (by omega)
  grind [halfSum]

def Trend (difficulties : List UInt64) : Prop :=
  median (difficulties.take 40) * 6 / 5 < median ((difficulties.drop 40).take 20) ∧
    median ((difficulties.drop 40).take 20) * 10 / 9 < median ((difficulties.drop 60).take 10)

instance (difficulties : List UInt64) : Decidable (Trend difficulties) := inferInstanceAs (Decidable (_ ∧ _))

/-- **The trend is not detected.** For 70 growing difficulties below `2^60` the window is shortened exactly at a trend if
and only if there is no trend. -/
theorem trend_detection_iff {samples : List Sample} (hlen : samples.length = 70) (hinc : Increasing samples)
    (hbound : ∀ s ∈ samples, s.cumulativeDifficulty.toNat < 2 ^ 60) :
    ((trendWindow samples).length = 25 ↔ Trend (samples.map (·.cumulativeDifficulty))) ↔
      ¬Trend (samples.map (·.cumulativeDifficulty)) := by
  have hwhole : (trendWindow samples).length = 70 := by
    have hwraps := not_wraps hinc.map (by rw [length_map]; omega) (by simpa using hbound)
    rw [trendWindow_eq (by omega) hinc, countedWindow, if_neg hwraps, hlen]
  rw [hwhole]
  simp

def steadyWork : List Sample := (List.range 70).map fun i => ⟨(60 * i).toUInt64, (i + 1).toUInt64⟩

theorem trend_detection_iff_steadyWork :
    ((trendWindow steadyWork).length = 25 ↔ Trend (steadyWork.map (·.cumulativeDifficulty))) ↔
      ¬Trend (steadyWork.map (·.cumulativeDifficulty)) :=
  trend_detection_iff (by decide +kernel) (by decide +kernel) (by decide +kernel)

theorem steadyWork_not_shortened :
    Trend (steadyWork.map (·.cumulativeDifficulty)) ∧ (trendWindow steadyWork).length = 70 := by
  decide +kernel

def clamp (target span : Nat) : Nat := max 1 (min span (11 * target))

def spansOf (target first : Nat) (timestamps : List Nat) : List Nat :=
  let maxima := timestamps.scanl max first
  maxima.zipWith (fun before after => clamp target (after - before)) maxima.tail

def weightedSum (spans : List Nat) : Nat := (spans.mapIdx fun i span => (i + 1) * span).sum

def isShort (span : Nat) : Bool := span < 30

def recentSpans (length : Nat) (spans : List Nat) : List Nat := if 7 ≤ length then spans.drop (length - 8) else []

def shortAtEnd (recent : List Nat) : Nat := (recent.reverse.takeWhile isShort).length

def scale : Nat → Nat × Nat
  | 3 => (11, 12)
  | 4 => (9, 10)
  | 5 => (4, 5)
  | 6 => (3, 5)
  | _ => (1, 1)

def scaledSum (sum : Nat) (recent : List Nat) : Nat :=
  let n := recent.countP isShort
  let scaled := sum * (scale n).1 / (scale n).2
  if !recent.getLast?.any isShort then sum
  else if 7 ≤ n then sum / 2
  else if 3 ≤ n ∧ shortAtEnd recent = n then scaled * 7 / 8
  else scaled

def weightedSpan (target : Nat) (window : List Sample) : Nat :=
  match window.map (·.timestamp.toNat) with
  | [] => 0
  | first :: rest =>
    let spans := spansOf target first rest
    max (scaledSum (weightedSum spans) (recentSpans window.length spans)) (target * window.length / 2)

def windowWork (window : List Sample) : Nat :=
  match window with
  | [] => 0
  | first :: rest => (rest.getLastD first).cumulativeDifficulty.toNat - first.cumulativeDifficulty.toNat

def windowTarget (target : Nat) (window : List Sample) : Nat := 99 * ((window.length + 1) / 2 * target) / 100

section Spans
variable {target : Nat}

theorem spansOf_nil (first : Nat) : spansOf target first [] = [] := rfl

theorem spansOf_cons (first timestamp : Nat) (rest : List Nat) : spansOf target first (timestamp :: rest) =
      clamp target (max first timestamp - first) :: spansOf target (max first timestamp) rest := by
  obtain ⟨later, hscan⟩ : ∃ later, rest.scanl max (max first timestamp) = max first timestamp :: later := by
    cases rest with
    | nil => exact ⟨[], by simp⟩
    | cons => exact ⟨_, scanl_cons⟩
  simp only [spansOf, scanl_cons, tail_cons, hscan, zipWith_cons_cons]

theorem length_spansOf (first : Nat) (timestamps : List Nat) : (spansOf target first timestamps).length = timestamps.length := by
  induction timestamps generalizing first with
  | nil => rfl
  | cons timestamp rest ih => rw [spansOf_cons, length_cons, ih, length_cons]

theorem clamp_le (htarget : 0 < target) (span : Nat) : clamp target span ≤ 11 * target := by
  unfold clamp
  omega

theorem spansOf_le (htarget : 0 < target) (first : Nat) (timestamps : List Nat) :
    ∀ span ∈ spansOf target first timestamps, span ≤ 11 * target := by
  induction timestamps generalizing first with
  | nil => simp [spansOf_nil]
  | cons timestamp rest ih => grind [spansOf_cons, clamp_le]

theorem weightedSum_append (spans : List Nat) (span : Nat) :
    weightedSum (spans ++ [span]) = weightedSum spans + (spans.length + 1) * span := by
  simp [weightedSum, mapIdx_append]

theorem weightedSum_le {bound : Nat} (spans : List Nat) (hspans : ∀ span ∈ spans, span ≤ bound) :
    2 * weightedSum spans ≤ bound * (spans.length * (spans.length + 1)) := by
  induction spans using List.reverseRecOn with
  | nil => simp [weightedSum]
  | append_singleton spans span ih =>
    have hle : span ≤ bound := hspans span (by simp)
    have hrest := ih fun span hspan => hspans span (by simp [hspan])
    rw [weightedSum_append, length_append, length_singleton]
    nlinarith

end Spans

structure Counted (length : Nat) (done : List Nat) (acc : Timespans) : Prop where
  weighted : acc.weighted.toNat = weightedSum done
  nbShort : acc.nbShort = (recentSpans length done).countP isShort
  lastTimeWasShort : acc.lastTimeWasShort = (recentSpans length done).getLast?.any isShort
  lastShortInARow : acc.lastShortInARow = shortAtEnd (recentSpans length done)

theorem Counted.initial (length : Nat) (first : UInt64) : Counted length [] ⟨0, first, 0, false, 0⟩ := by
  have hrecent : recentSpans length [] = [] := by simp [recentSpans]
  constructor <;> simp [hrecent, weightedSum, shortAtEnd]

section Loop
variable {length : Nat} {done : List Nat}

theorem recentSpans_append (span : Nat) (h : 7 ≤ length ∧ length - 7 ≤ done.length + 1) :
    recentSpans length (done ++ [span]) = recentSpans length done ++ [span] := by
  rw [recentSpans, recentSpans, if_pos h.1, if_pos h.1, drop_append_of_le_length (by omega)]

theorem recentSpans_append_of_not (span : Nat) (h : ¬(7 ≤ length ∧ length - 7 ≤ done.length + 1)) :
    recentSpans length (done ++ [span]) = recentSpans length done := by
  unfold recentSpans
  split
  · rw [drop_of_length_le (by simp; omega), drop_of_length_le (by omega)]
  · rfl

variable {targetSeconds : UInt64} (hpos : 0 < targetSeconds.toNat) (htarget : targetSeconds.toNat ≤ 120)

variable {acc : Timespans}

theorem Counted.toNat_weighted_add (hacc : Counted length done acc) (htarget : targetSeconds.toNat ≤ 120)
    (hdone : ∀ span ∈ done, span ≤ 11 * targetSeconds.toNat) (hlen : done.length < 70) {timespan : UInt64}
    (hsmall : timespan.toNat ≤ 11 * targetSeconds.toNat) :
    (acc.weighted + (done.length + 1).toUInt64 * timespan).toNat = weightedSum (done ++ [timespan.toNat]) := by
  have hsum := weightedSum_le done hdone
  have hweights : done.length * (done.length + 1) ≤ 69 * 70 := Nat.mul_le_mul (by omega) (by omega)
  have htotal : 11 * targetSeconds.toNat * (done.length * (done.length + 1)) ≤ 1320 * (69 * 70) :=
    Nat.mul_le_mul (by omega) hweights
  have hterm : (done.length + 1) * timespan.toNat ≤ 70 * 1320 := Nat.mul_le_mul (by omega) (by omega)
  have hindex : (done.length + 1).toUInt64.toNat = done.length + 1 := by
    rw [Nat.toUInt64_eq, UInt64.toNat_ofNat']
    exact Nat.mod_eq_of_lt (by omega)
  rw [weightedSum_append, UInt64.toNat_add, UInt64.toNat_mul, hindex, hacc.weighted]
  omega

include hpos htarget

theorem toNat_timespan (timestamp previousMax : UInt64) : (if max timestamp previousMax - previousMax = 0 then 1
      else min (max timestamp previousMax - previousMax) (11 * targetSeconds) : UInt64).toNat =
      clamp targetSeconds.toNat (max previousMax.toNat timestamp.toNat - previousMax.toNat) := by
  have hmax : (max timestamp previousMax).toNat = max previousMax.toNat timestamp.toNat := by
    rw [UInt64.toNat_max, Nat.max_comm]
  have hspan : (max timestamp previousMax - previousMax).toNat =
      max previousMax.toNat timestamp.toNat - previousMax.toNat := by
    rw [UInt64.toNat_sub_of_le _ _ (by rw [UInt64.le_iff_toNat_le, hmax]; exact Nat.le_max_left _ _), hmax]
  have hlimit : (11 * targetSeconds).toNat = 11 * targetSeconds.toNat := by
    rw [UInt64.toNat_mul]
    exact Nat.mod_eq_of_lt (by simp; omega)
  rw [← hspan]
  generalize max timestamp previousMax - previousMax = span
  unfold clamp
  split
  · rename_i hzero
    simp [hzero]
  · rename_i hne
    rw [← UInt64.toNat_inj, UInt64.toNat_zero] at hne
    rw [UInt64.toNat_min, hlimit]
    omega

theorem Counted.step (hacc : Counted length done acc) (hdone : ∀ span ∈ done, span ≤ 11 * targetSeconds.toNat)
    (hlen : done.length < 70) (timestamp : UInt64) :
    Counted length (done ++ [clamp targetSeconds.toNat (max acc.previousMax.toNat timestamp.toNat - acc.previousMax.toNat)])
      (timespanStep targetSeconds length acc (done.length + 1) timestamp) ∧
    (timespanStep targetSeconds length acc (done.length + 1) timestamp).previousMax.toNat =
      max acc.previousMax.toNat timestamp.toNat := by
  have hspan := toNat_timespan hpos htarget timestamp acc.previousMax
  have hmax : (max timestamp acc.previousMax).toNat = max acc.previousMax.toNat timestamp.toNat := by
    rw [UInt64.toNat_max, Nat.max_comm]
  have hsmall := clamp_le hpos (max acc.previousMax.toNat timestamp.toNat - acc.previousMax.toNat)
  simp only [timespanStep]
  generalize (if max timestamp acc.previousMax - acc.previousMax = 0 then 1
    else min (max timestamp acc.previousMax - acc.previousMax) (11 * targetSeconds) : UInt64) = timespan at hspan ⊢
  rw [← hspan] at hsmall ⊢
  have hweighted := hacc.toNat_weighted_add htarget hdone hlen hsmall
  have hshort : timespan < 30 ↔ isShort timespan.toNat = true := by
    rw [isShort, decide_eq_true_eq, UInt64.lt_iff_toNat_lt]
    rfl
  by_cases hrecent : 7 ≤ length ∧ length - 7 ≤ done.length + 1
  · have happend := recentSpans_append timespan.toNat hrecent
    rw [if_pos hrecent]
    by_cases h30 : timespan < 30
    · rw [if_pos h30]
      have hs := hshort.1 h30
      refine ⟨⟨hweighted, ?_, ?_, ?_⟩, hmax⟩
      · simp [happend, hacc.nbShort, hs]
      · simp [happend, hs]
      · simp [happend, shortAtEnd, hs, hacc.lastShortInARow]
    · rw [if_neg h30]
      have hs : isShort timespan.toNat = false := by simpa using fun h => h30 (hshort.2 h)
      refine ⟨⟨hweighted, ?_, ?_, ?_⟩, hmax⟩
      · simp [happend, hacc.nbShort, hs]
      · simp [happend, hs]
      · simp [happend, shortAtEnd, hs]
  · have hsame := recentSpans_append_of_not timespan.toNat hrecent
    rw [if_neg hrecent]
    refine ⟨⟨hweighted, ?_, ?_, ?_⟩, hmax⟩
    · rw [hsame]
      exact hacc.nbShort
    · rw [hsame]
      exact hacc.lastTimeWasShort
    · rw [hsame]
      exact hacc.lastShortInARow

theorem Counted.run (timestamps : List UInt64) (hacc : Counted length done acc)
    (hdone : ∀ span ∈ done, span ≤ 11 * targetSeconds.toNat) (hlen : done.length + timestamps.length ≤ 70) :
    Counted length (done ++ spansOf targetSeconds.toNat acc.previousMax.toNat (timestamps.map UInt64.toNat))
      (timespansFrom targetSeconds length acc (done.length + 1) timestamps) := by
  induction timestamps generalizing done acc with
  | nil => simpa [spansOf_nil, timespansFrom] using hacc
  | cons timestamp rest ih =>
    rw [length_cons] at hlen
    obtain ⟨hstep, hmax⟩ := hacc.step hpos htarget hdone (by omega) timestamp
    have hnext := ih hstep
      (by
        intro span hspan
        rcases mem_append.1 hspan with hspan | hspan
        · exact hdone span hspan
        · rw [mem_singleton.1 hspan]
          exact clamp_le hpos _)
      (by rw [length_append, length_singleton]; omega)
    rw [hmax, append_assoc, singleton_append, ← spansOf_cons, length_append, length_singleton] at hnext
    rw [timespansFrom, map_cons]
    exact hnext

end Loop

theorem toNat_mul_div {w a b : UInt64} (hw : w.toNat < 2 ^ 60) (ha : a.toNat ≤ 11) :
    (w * a / b).toNat = w.toNat * a.toNat / b.toNat := by
  have hle : w.toNat * a.toNat ≤ w.toNat * 11 := Nat.mul_le_mul_left _ ha
  rw [UInt64.toNat_div, UInt64.toNat_mul, Nat.mod_eq_of_lt (by omega)]

theorem scale_le (n : Nat) : (scale n).1 ≤ (scale n).2 := by
  unfold scale
  split <;> decide

theorem Counted.toNat_adjusted {length : Nat} {done : List Nat} {acc : Timespans} (hacc : Counted length done acc)
    (hsmall : acc.weighted.toNat < 2 ^ 60) :
    acc.adjusted.toNat = scaledSum (weightedSum done) (recentSpans length done) := by
  obtain ⟨hweighted, hshort, hlast, hrow⟩ := hacc
  unfold Timespans.adjusted scaledSum
  rw [← hweighted, ← hshort, ← hlast, ← hrow]
  generalize acc.weighted = w at hsmall
  generalize acc.nbShort = n
  have hfifths : (w * 3 / 5).toNat = w.toNat * 3 / 5 := toNat_mul_div hsmall (by decide)
  have hfourths : (w * 4 / 5).toNat = w.toNat * 4 / 5 := toNat_mul_div hsmall (by decide)
  have htenths : (w * 9 / 10).toNat = w.toNat * 9 / 10 := toNat_mul_div hsmall (by decide)
  have htwelfths : (w * 11 / 12).toNat = w.toNat * 11 / 12 := toNat_mul_div hsmall (by decide)
  have heighths : ∀ v : UInt64, v.toNat ≤ w.toNat → (v * 7 / 8).toNat = v.toNat * 7 / 8 :=
    fun v hv => toNat_mul_div (lt_of_le_of_lt hv hsmall) (by decide)
  have h35 := heighths (w * 3 / 5) (by rw [hfifths]; omega)
  have h45 := heighths (w * 4 / 5) (by rw [hfourths]; omega)
  have h910 := heighths (w * 9 / 10) (by rw [htenths]; omega)
  have h1112 := heighths (w * 11 / 12) (by rw [htwelfths]; omega)
  cases acc.lastTimeWasShort with
  | false => simp
  | true =>
    have hcases : 7 ≤ n ∨ n = 6 ∨ n = 5 ∨ n = 4 ∨ n = 3 ∨ n ≤ 2 := by omega
    rcases hcases with h | rfl | rfl | rfl | rfl | h
    · simp [h]
    · by_cases hall : acc.lastShortInARow = 6 <;> simp [hall, scale, h35, hfifths]
    · by_cases hall : acc.lastShortInARow = 5 <;> simp [hall, scale, h45, hfourths]
    · by_cases hall : acc.lastShortInARow = 4 <;> simp [hall, scale, h910, htenths]
    · by_cases hall : acc.lastShortInARow = 3 <;> simp [hall, scale, h1112, htwelfths]
    · have hscale : scale n = (1, 1) := by
        unfold scale
        split <;> first | omega | rfl
      simp only [hscale]
      rw [if_neg (by simp), if_neg (by omega), if_neg (by omega), if_neg (by omega), if_neg (by omega), if_neg (by omega),
        if_neg (by simp), if_neg (by omega), if_neg (by omega), Nat.mul_one, Nat.div_one]

theorem scaledSum_le (sum : Nat) (recent : List Nat) : scaledSum sum recent ≤ sum := by
  have hscale := scale_le (recent.countP isShort)
  have hscaled : sum * (scale (recent.countP isShort)).1 / (scale (recent.countP isShort)).2 ≤ sum :=
    Nat.div_le_of_le_mul (by rw [Nat.mul_comm]; exact Nat.mul_le_mul_right _ hscale)
  grind [scaledSum]

section Result
variable {window : List Sample} {targetSeconds : UInt64} (hmax : window.length ≤ 70) (htarget : targetSeconds.toNat ≤ 120)
include hmax htarget

theorem toNat_target :
    (99 * (((window.length + 1) / 2).toUInt64 * targetSeconds) / 100).toNat = windowTarget targetSeconds.toNat window ∧
    (targetSeconds * window.length.toUInt64 / 2).toNat = targetSeconds.toNat * window.length / 2 := by
  have hhalf : ((window.length + 1) / 2).toUInt64.toNat = (window.length + 1) / 2 := by
    rw [Nat.toUInt64_eq, UInt64.toNat_ofNat']
    exact Nat.mod_eq_of_lt (by omega)
  have hlength : window.length.toUInt64.toNat = window.length := by
    rw [Nat.toUInt64_eq, UInt64.toNat_ofNat']
    exact Nat.mod_eq_of_lt (by omega)
  have hproduct : (window.length + 1) / 2 * targetSeconds.toNat ≤ 35 * 120 := Nat.mul_le_mul (by omega) htarget
  have hminimum : targetSeconds.toNat * window.length ≤ 120 * 70 := Nat.mul_le_mul htarget hmax
  constructor
  · have hinner : (((window.length + 1) / 2).toUInt64 * targetSeconds).toNat = (window.length + 1) / 2 * targetSeconds.toNat := by
      rw [UInt64.toNat_mul, hhalf, Nat.mod_eq_of_lt (by omega)]
    rw [UInt64.toNat_div, UInt64.toNat_mul, hinner, Nat.mod_eq_of_lt (by simp; omega)]
    rfl
  · rw [UInt64.toNat_div, UInt64.toNat_mul, hlength, Nat.mod_eq_of_lt (by omega)]
    rfl

omit hmax in
theorem weightedSum_spansOf_lt (hpos : 0 < targetSeconds.toNat) (first : Nat) (timestamps : List Nat)
    (hlen : timestamps.length ≤ 70) : weightedSum (spansOf targetSeconds.toNat first timestamps) < 2 ^ 60 := by
  have hsum := weightedSum_le _ (spansOf_le hpos first timestamps)
  rw [length_spansOf] at hsum
  have hweights : timestamps.length * (timestamps.length + 1) ≤ 70 * 71 := Nat.mul_le_mul hlen (by omega)
  have htotal : 11 * targetSeconds.toNat * (timestamps.length * (timestamps.length + 1)) ≤ 1320 * (70 * 71) :=
    Nat.mul_le_mul (by omega) hweights
  omega

theorem toNat_weighted (hpos : 0 < targetSeconds.toNat) {first : Sample} {rest : List Sample} (hwindow : window = first :: rest) :
    (max (timespansFrom targetSeconds window.length ⟨0, first.timestamp, 0, false, 0⟩ 1 (rest.map (·.timestamp))).adjusted
      (targetSeconds * window.length.toUInt64 / 2)).toNat = weightedSpan targetSeconds.toNat window := by
  have hlength : window.length = rest.length + 1 := by rw [hwindow, length_cons]
  have hcounted := (Counted.initial window.length first.timestamp).run hpos htarget (rest.map (·.timestamp)) (by simp)
    (by simp; omega)
  have htimes : (rest.map (·.timestamp)).map UInt64.toNat = rest.map (·.timestamp.toNat) := by
    rw [List.map_map]
    rfl
  rw [htimes, nil_append, length_nil, Nat.zero_add] at hcounted
  have hsmall : weightedSum (spansOf targetSeconds.toNat first.timestamp.toNat (rest.map (·.timestamp.toNat))) < 2 ^ 60 :=
    weightedSum_spansOf_lt htarget hpos _ _ (by rw [length_map]; omega)
  rw [UInt64.toNat_max, (toNat_target hmax htarget).2, hcounted.toNat_adjusted (by rw [hcounted.weighted]; exact hsmall)]
  rw [weightedSpan, hwindow, map_cons]

theorem toNat_windowDifficulty (hpos : 0 < targetSeconds.toNat) (hlen : 2 ≤ window.length)
    (hgrows : window.Pairwise (·.cumulativeDifficulty ≤ ·.cumulativeDifficulty)) :
    (windowDifficulty window targetSeconds).toNat =
      if windowWork window * windowTarget targetSeconds.toNat window < 2 ^ 64 then
        windowWork window * windowTarget targetSeconds.toNat window / weightedSpan targetSeconds.toNat window
      else 0 := by
  match window, hlen with
  | first :: second :: rest, _ =>
    have htargets := (toNat_target hmax htarget).1
    have hweighted := toNat_weighted hmax htarget hpos rfl
    have hle :=
      (pairwise_cons.1 hgrows).1 _ getLastD_mem_cons
    have hwork : ((rest.getLastD second).cumulativeDifficulty - first.cumulativeDifficulty).toNat =
        windowWork (first :: second :: rest) := by
      rw [UInt64.toNat_sub_of_le _ _ hle, windowWork, getLastD_cons]
    simp only [windowDifficulty, ne_eq]
    by_cases hfits : windowWork (first :: second :: rest) * windowTarget targetSeconds.toNat (first :: second :: rest) < 2 ^ 64
    · rw [if_pos hfits, if_neg (by rw [hwork, htargets, UInt64.size]; omega), UInt64.toNat_div, UInt64.toNat_mul, hwork,
        htargets, hweighted, Nat.mod_eq_of_lt hfits]
    · rw [if_neg hfits, if_pos (by rw [hwork, htargets, UInt64.size]; omega), UInt64.toNat_zero]

end Result

theorem countedWindow_spec (hmax : samples.length ≤ 70) (hinc : Increasing samples) :
    (countedWindow samples).length ≤ 70 ∧ Increasing (countedWindow samples) ∧
      (2 ≤ (countedWindow samples).length ↔ 2 ≤ samples.length) := by
  unfold countedWindow
  split
  · rename_i hwraps
    have hlen : 69 ≤ samples.length := by simpa using hwraps.1
    refine ⟨?_, hinc.sublist (take_sublist _ _), ?_⟩
    · rw [length_take]
      omega
    · rw [length_take]
      omega
  · exact ⟨hmax, hinc, Iff.rfl⟩

theorem weightedSpan_pos {target : Nat} (htarget : 0 < target) (hlen : 2 ≤ window.length) :
    0 < weightedSpan target window := by
  match window, hlen with
  | first :: second :: rest, _ =>
    have hminimum : 2 ≤ target * (first :: second :: rest).length := by
      calc 2 ≤ 1 * (first :: second :: rest).length := by simp
        _ ≤ target * (first :: second :: rest).length := Nat.mul_le_mul_right _ htarget
    simp only [weightedSpan, map_cons]
    exact lt_of_lt_of_le (by omega) (le_max_right _ _)

theorem windowDifficulty_of_short (hshort : ¬2 ≤ window.length) (targetSeconds : UInt64) :
    windowDifficulty window targetSeconds = 1 := by
  match window, hshort with
  | [], _ => rfl
  | [_], _ => rfl
  | _ :: _ :: _, h => exact absurd (by simp) h

theorem one_le_windowDifficulty_iff (hmax : window.length ≤ 70) (hlen : 2 ≤ window.length)
    (hinc : Increasing window) {targetSeconds : UInt64} (hpos : 0 < targetSeconds.toNat) (htarget : targetSeconds.toNat ≤ 120)
    (hfits : windowWork window * windowTarget targetSeconds.toNat window < 2 ^ 64) :
    1 ≤ (windowDifficulty window targetSeconds).toNat ↔
      weightedSpan targetSeconds.toNat window ≤ windowWork window * windowTarget targetSeconds.toNat window := by
  have hgrows := hinc.imp fun h => UInt64.le_of_lt h
  rw [toNat_windowDifficulty hmax htarget hpos hlen hgrows, if_pos hfits, Nat.one_le_div_iff (weightedSpan_pos hpos hlen)]

section Targets
variable {targetSeconds : UInt64} (htarget : targetSeconds = 60 ∨ targetSeconds = 120)
include htarget

theorem target_pos : 0 < targetSeconds.toNat := by
  rcases htarget with rfl | rfl <;> decide

theorem target_le : targetSeconds.toNat ≤ 120 := by
  rcases htarget with rfl | rfl <;> decide

end Targets

end Difficulty

end Electronero
