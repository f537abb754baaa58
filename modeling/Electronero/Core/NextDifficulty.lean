import Mathlib.Data.List.Sort
import Mathlib.Data.UInt
/-!
# The difficulty algorithms (`src/cryptonote_basic/difficulty.cpp:128-419`)

A `Sample` is an entry of the vectors `timestamps` and `cumulative_difficulties`. Words wrap; there are no assertions.
-/
namespace Electronero

structure Sample where
  timestamp : UInt64
  cumulativeDifficulty : UInt64
deriving DecidableEq

namespace Difficulty

def median (v : List UInt64) : UInt64 :=
  let v := v.insertionSort (· ≤ ·)
  let n := v.length / 2
  if v.length ≤ 1 then v.headD 0
  else if v.length % 2 = 1 then v.getD n 0
  else (v.getD (n - 1) 0 + v.getD n 0) / 2

def cut (length : Nat) : Nat × Nat :=
  if length ≤ 600 then (0, length) else ((length - 600 + 1) / 2, (length - 600 + 1) / 2 + 600)

theorem cut_spec {length : Nat} (h : 2 ≤ length) : (cut length).1 + 2 ≤ (cut length).2 ∧ (cut length).2 ≤ length := by
  unfold cut
  grind

def spanAndWork (samples : List Sample) : UInt64 × UInt64 :=
  let timestamps := (samples.map (·.timestamp)).insertionSort (· ≤ ·)
  let difficulties := samples.map (·.cumulativeDifficulty)
  let c := cut samples.length
  let timeSpan := timestamps.getD (c.2 - 1) 0 - timestamps.getD c.1 0
  (if timeSpan = 0 then 1 else timeSpan, difficulties.getD (c.2 - 1) 0 - difficulties.getD c.1 0)

def nextDifficulty (samples : List Sample) (targetSeconds : UInt64) : UInt64 :=
  let samples := samples.take 720
  if samples.length ≤ 1 then 1
  else
    let (timeSpan, totalWork) := spanAndWork samples
    let low := totalWork * targetSeconds
    (low + timeSpan - 1) / timeSpan

def nextDifficultyV2 (samples : List Sample) (targetSeconds : UInt64) : UInt64 :=
  let samples := samples.take 720
  if samples.length ≤ 1 then 1
  else
    let (timeSpan, totalWork) := spanAndWork samples
    let low := totalWork * targetSeconds
    let high := totalWork.toNat * targetSeconds.toNat / UInt64.size
    if high ≠ 0 ∨ low + timeSpan - 1 < low then 1 else (low + timeSpan - 1) / timeSpan

def boostRound (x : Float) : Float :=
  if -0.5 < x && x < 0.5 then 0
  else if 0 < x then
    let trunc := x.toUInt64.toFloat
    let ceil := if trunc < x then trunc + 1 else trunc
    if 0.5 < ceil - x then ceil - 1 else ceil
  else
    let trunc := -(-x).toUInt64.toFloat
    let floor := if x < trunc then trunc - 1 else trunc
    if 0.5 < x - floor then floor + 1 else floor

structure Lwma where
  lwma : Float
  sumInverseD : Float

def lwmaStep (T : Int) (k : Float) (acc : Lwma) (i : Nat) (prev cur : Sample) : Lwma :=
  let solveTime := (cur.timestamp.toInt64 - prev.timestamp.toInt64).toInt
  let solveTime := min (T * 7) (max solveTime (-7 * T))
  let difficulty := cur.cumulativeDifficulty - prev.cumulativeDifficulty
  ⟨acc.lwma + Float.ofInt (solveTime * i) / k, acc.sumInverseD + 1 / difficulty.toFloat⟩

def lwmaFrom (T : Int) (k : Float) : Lwma → Nat → Sample → List Sample → Lwma
  | acc, _, _, [] => acc
  | acc, i, prev, cur :: rest => lwmaFrom T k (lwmaStep T k acc i prev cur) (i + 1) cur rest

def bounded (next : UInt64) : UInt64 :=
  if next < 2000 then 75723142 else if 120307799 < next then 120307799 else next

def saneLwma (T : Int) (lwma : Float) : Float :=
  if boostRound lwma < Float.ofInt (T.tdiv 20) then Float.ofInt (T.tdiv 20) else lwma

/-- A value out of the range of `uint64_t`, for which the conversion of a double is undefined, is taken for the
nearest one in it. -/
def nextDifficultyV3 (samples : List Sample) (targetSeconds : UInt64) : UInt64 :=
  let T := targetSeconds.toInt64.toInt
  match samples.take 71 with
  | [] => 1
  | first :: rest =>
    let n := rest.length + 1
    if n < 6 then 1
    else
      let N := if n < 71 then n - 1 else 70
      let k := (N * (N + 1) / 2).toUInt64.toFloat
      let sums := lwmaFrom T k ⟨0, 0⟩ 1 first (rest.take N)
      let harmonicMeanD := N.toUInt64.toFloat / sums.sumInverseD * 0.998
      bounded (harmonicMeanD * Float.ofInt T / saneLwma T sums.lwma).toUInt64

structure Timespans where
  weighted : UInt64
  previousMax : UInt64
  /-- short ones among the last seven -/
  nbShort : Nat
  lastTimeWasShort : Bool
  lastShortInARow : Nat

def timespanStep (targetSeconds : UInt64) (length : Nat) (acc : Timespans) (i : Nat) (timestamp : UInt64) : Timespans :=
  let maxTimestamp := max timestamp acc.previousMax
  let timespan := maxTimestamp - acc.previousMax
  let timespan := if timespan = 0 then 1 else min timespan (11 * targetSeconds)
  let weighted := acc.weighted + i.toUInt64 * timespan
  -- `length - 7` wraps on a shorter list
  if 7 ≤ length ∧ length - 7 ≤ i then
    if timespan < 30 then ⟨weighted, maxTimestamp, acc.nbShort + 1, true, acc.lastShortInARow + 1⟩
    else ⟨weighted, maxTimestamp, acc.nbShort, false, 0⟩
  else { acc with weighted := weighted, previousMax := maxTimestamp }

def timespansFrom (targetSeconds : UInt64) (length : Nat) : Timespans → Nat → List UInt64 → Timespans
  | acc, _, [] => acc
  | acc, i, timestamp :: rest =>
    timespansFrom targetSeconds length (timespanStep targetSeconds length acc i timestamp) (i + 1) rest

def Timespans.adjusted (acc : Timespans) : UInt64 :=
  let w := acc.weighted
  if !acc.lastTimeWasShort then w
  else if 7 ≤ acc.nbShort then w * 1 / 2
  else if acc.nbShort = 6 then (if acc.lastShortInARow = 6 then w * 3 / 5 * 7 / 8 else w * 3 / 5)
  else if acc.nbShort = 5 then (if acc.lastShortInARow = 5 then w * 4 / 5 * 7 / 8 else w * 4 / 5)
  else if acc.nbShort = 4 then (if acc.lastShortInARow = 4 then w * 9 / 10 * 7 / 8 else w * 9 / 10)
  else if acc.nbShort = 3 then (if acc.lastShortInARow = 3 then w * 11 / 12 * 7 / 8 else w * 11 / 12)
  else w

/-- The medians of the first 40 and the next 20 cumulative difficulties; the loop for the last ones starts at
`70 * -10` and takes none. -/
def rapidChange (difficulties : List UInt64) : Bool :=
  let first := median (difficulties.take 40)
  let mid := median ((difficulties.drop 40).take 20)
  let last := median []
  (mid * 6 / 5 < first && last * 10 / 9 < mid) || (first * 6 / 5 < mid && mid * 10 / 9 < last)

def nextDifficultyV4 (samples : List Sample) (targetSeconds : UInt64) : UInt64 :=
  let samples := samples.take 70
  let samples :=
    if 69 ≤ samples.length && rapidChange (samples.map (·.cumulativeDifficulty)) then samples.take 25 else samples
  let length := samples.length
  match samples with
  | first :: second :: rest =>
    let timespans := timespansFrom targetSeconds length ⟨0, first.timestamp, 0, false, 0⟩ 1
      ((second :: rest).map (·.timestamp))
    let target := 99 * (((length + 1) / 2).toUInt64 * targetSeconds) / 100
    let minimum := targetSeconds * length.toUInt64 / 2
    let weighted := max timespans.adjusted minimum
    let totalWork := (rest.getLastD second).cumulativeDifficulty - first.cumulativeDifficulty
    if totalWork.toNat * target.toNat / UInt64.size ≠ 0 then 0 else totalWork * target / weighted
  | _ => 1

theorem le_bounded (next : UInt64) : 2000 ≤ bounded next := by
  unfold bounded
  grind

theorem nextDifficultyV3_eq_or_le (samples : List Sample) (targetSeconds : UInt64) :
    nextDifficultyV3 samples targetSeconds = 1 ∨ 2000 ≤ nextDifficultyV3 samples targetSeconds := by
  unfold nextDifficultyV3
  grind [le_bounded]

end Difficulty

end Electronero
