import Electronero.Core.Blockchain
import Electronero.Core.NextDifficulty
/-!
# Timestamps of new blocks (`check_block_timestamp`, src/cryptonote_core/blockchain.cpp:3477-3539)

A chain is the list of its timestamps, genesis first. The alternative path takes the median of
`max k (min window (split + k))` timestamps, for `k` alternative blocks above height `split`.
-/
namespace Electronero

namespace Timestamps
open Difficulty List

def timestampWindow (version : UInt8) : Nat := if version < 12 then 60 else 30

def futureTimeLimit (version : UInt8) : UInt64 :=
  if version = 1 then 120 else if version < 12 then 120 else 300

def checkTimestamps (timestamps : List UInt64) (timestamp : UInt64) : Bool :=
  if timestamp < median timestamps then false else true

def checkBlockTimestamp (version : UInt8) (adjustedTime : UInt64) (chain : List UInt64) (timestamp : UInt64) : Bool :=
  if adjustedTime + futureTimeLimit version < timestamp then false
  else if chain.length < timestampWindow version then true
  else checkTimestamps (chain.drop (chain.length - timestampWindow version)) timestamp

def completeTimestampsVector (version : UInt8) (chain : List UInt64) (startTopHeight : Nat) (timestamps : List UInt64) :
    List UInt64 :=
  if timestampWindow version ≤ timestamps.length then timestamps
  else if chain.length ≤ startTopHeight then timestamps
  else
    let needElements := timestampWindow version - timestamps.length
    let stopOffset := if needElements < startTopHeight then startTopHeight - needElements else 0
    timestamps ++ ((chain.take (startTopHeight + 1)).drop (stopOffset + 1)).reverse

/-- `split` is the height of the main-chain block under the alternative ones, `alternative` their timestamps, the
oldest first. They are collected from the newest on. -/
def alternativeTimestamps (version : UInt8) (chain : List UInt64) (split : Nat) (alternative : List UInt64) : List UInt64 :=
  completeTimestampsVector version chain split alternative.reverse

def checkAlternativeTimestamp (version : UInt8) (chain : List UInt64) (split : Nat) (alternative : List UInt64)
    (timestamp : UInt64) : Bool :=
  checkTimestamps (alternativeTimestamps version chain split alternative) timestamp

theorem timestampWindow_cases (version : UInt8) : timestampWindow version = 60 ∨ timestampWindow version = 30 := by
  unfold timestampWindow
  split
  · exact Or.inl rfl
  · exact Or.inr rfl

def lastN (l : List UInt64) (n : Nat) : List UInt64 := l.drop (l.length - n)

variable {chain : List UInt64} {split low high n : Nat}

theorem alternativeTimestamps_eq (version : UInt8) (hs : split < chain.length) (alternative : List UInt64) :
    alternativeTimestamps version chain split alternative =
      (lastN (chain.take (split + 1) ++ alternative)
        (max alternative.length (min (timestampWindow version) (split + alternative.length)))).reverse := by
  have hlen : (chain.take (split + 1)).length = split + 1 := by
    rw [length_take]
    omega
  unfold alternativeTimestamps completeTimestampsVector lastN
  rw [length_reverse, length_append, hlen]
  split
  · grind
  rename_i hpart
  rw [if_neg (by omega)]
  dsimp only
  generalize hw : timestampWindow version = w at hpart ⊢
  have hstop : (if w - alternative.length < split then split - (w - alternative.length) else 0) + 1 =
      split + 1 + alternative.length - max alternative.length (min w (split + alternative.length)) := by
    split <;> omega
  rw [hstop, ← reverse_append, drop_append_of_le_length (by omega)]

theorem median_perm {l l' : List UInt64} (h : l.Perm l') : median l = median l' := by
  have hsort :=
    ((perm_insertionSort _ l).trans (h.trans (perm_insertionSort _ l').symm)).eq_of_pairwise
      (fun _ _ _ _ => UInt64.le_antisymm) (pairwise_insertionSort _ _) (pairwise_insertionSort _ _)
  unfold median
  rw [hsort]

def stepList (low high : Nat) : List UInt64 := List.replicate low 0 ++ List.replicate high 10

theorem getD_stepList {i : Nat} (hi : i < low + high) : (stepList low high).getD i 0 = if i < low then 0 else 10 := by
  rw [getD_eq_getElem?_getD, stepList, getElem?_append, length_replicate]
  grind

theorem insertionSort_stepList (low high : Nat) : (stepList low high).insertionSort (· ≤ ·) = stepList low high := by
  refine Pairwise.insertionSort_eq ?_
  grind [stepList]

theorem median_stepList (hpos : 0 < low + high) :
    median (stepList low high) = if low < high then 10 else if low = high then 5 else 0 := by
  have hlen : (stepList low high).length = low + high := by simp [stepList]
  have hhead : (stepList low high).headD 0 = (stepList low high).getD 0 0 := by
    rw [headD_eq_head?_getD, head?_eq_getElem?, getD_eq_getElem?_getD]
  unfold median
  dsimp only
  rw [insertionSort_stepList, hlen, hhead, getD_stepList hpos]
  rcases lt_trichotomy low high with h | h | h
  · grind [getD_stepList]
  · grind [getD_stepList]
  · grind [getD_stepList]

theorem lastN_stepList (hn : n ≤ low + high) : lastN (stepList low high) n = stepList (n - high) (min n high) := by
  unfold lastN stepList
  rw [drop_append, length_append, length_replicate, length_replicate, drop_replicate,
    drop_replicate]
  congr 2 <;> omega

theorem checkAlternativeTimestamp_eq (version : UInt8) (hs : split < chain.length)
    (alternative : List UInt64) (timestamp : UInt64) :
    checkAlternativeTimestamp version chain split alternative timestamp =
      checkTimestamps (lastN (chain.take (split + 1) ++ alternative)
        (max alternative.length (min (timestampWindow version) (split + alternative.length)))) timestamp := by
  rw [checkAlternativeTimestamp, alternativeTimestamps_eq version hs, checkTimestamps, checkTimestamps,
    median_perm (reverse_perm _)]

theorem checkBlockTimestamp_eq {version : UInt8} {adjustedTime : UInt64} {timestamp : UInt64}
    (hlen : timestampWindow version ≤ chain.length) (ht : timestamp ≤ adjustedTime + futureTimeLimit version) :
    checkBlockTimestamp version adjustedTime chain timestamp =
      checkTimestamps (lastN chain (timestampWindow version)) timestamp := by
  rw [checkBlockTimestamp, if_neg (UInt64.not_lt.2 ht), if_neg (Nat.not_lt.2 hlen), lastN]

theorem exists_timestamp_apart {w : Nat} (hw : 0 < w) (heven : w % 2 = 0) (hn : 0 < n) (hne : n ≠ w) (len : Nat)
    (hwlen : w ≤ len) (hnlen : n ≤ len) :
    ∃ timestamp ≤ (5 : UInt64), checkTimestamps (lastN (stepList (len - w / 2) (w / 2)) n) timestamp ≠
      checkTimestamps (lastN (stepList (len - w / 2) (w / 2)) w) timestamp := by
  have hmain : median (lastN (stepList (len - w / 2) (w / 2)) w) = 5 := by
    rw [lastN_stepList (by omega), median_stepList (by omega), if_neg (by omega), if_pos (by omega)]
  rcases Nat.lt_or_gt_of_ne hne with h | h
  · refine ⟨5, by decide, ?_⟩
    have hother : median (lastN (stepList (len - w / 2) (w / 2)) n) = 10 := by
      rw [lastN_stepList (by omega), median_stepList (by omega), if_pos (by omega)]
    rw [checkTimestamps, checkTimestamps, hmain, hother]
    decide
  · refine ⟨0, by decide, ?_⟩
    have hother : median (lastN (stepList (len - w / 2) (w / 2)) n) = 0 := by
      rw [lastN_stepList (by omega), median_stepList (by omega), if_neg (by omega), if_neg (by omega)]
    rw [checkTimestamps, checkTimestamps, hmain, hother]
    decide

/-- **When the two timestamp rules agree.** `version'` is that of a node whose main chain ends in the parent. -/
theorem timestamp_rules_agree_iff (version version' : UInt8) (split k : Nat) (hp : timestampWindow version' ≤ split + k) :
    (∀ (chain alternative : List UInt64) (adjustedTime timestamp : UInt64), split < chain.length →
      alternative.length = k → timestamp ≤ adjustedTime + futureTimeLimit version' →
      checkAlternativeTimestamp version chain split alternative timestamp =
        checkBlockTimestamp version' adjustedTime (chain.take (split + 1) ++ alternative) timestamp) ↔
    max k (min (timestampWindow version) (split + k)) = timestampWindow version' := by
  constructor
  · intro h
    by_contra hne
    have hw' := timestampWindow_cases version'
    have hw := timestampWindow_cases version
    generalize hlen : split + 1 + k = len
    obtain ⟨timestamp, hle, hapart⟩ := exists_timestamp_apart (w := timestampWindow version')
      (n := max k (min (timestampWindow version) (split + k))) (by omega) (by omega) (by omega) hne len (by omega) (by omega)
    generalize hchain : stepList (len - timestampWindow version' / 2) (timestampWindow version' / 2) = path at hapart
    have hpath : path.length = split + 1 + k := by grind [stepList]
    have htake : (path.take (split + 1)).length = split + 1 := by
      rw [length_take]
      omega
    have hdrop : (path.drop (split + 1)).length = k := by
      rw [length_drop]
      omega
    have hwhole : (path.take (split + 1)).take (split + 1) ++ path.drop (split + 1) = path := by
      rw [take_take, Nat.min_self, take_append_drop]
    have hfuture : timestamp ≤ 0 + futureTimeLimit version' := by
      refine UInt64.le_trans hle ?_
      unfold futureTimeLimit
      split
      · decide
      split <;> decide
    grind [checkAlternativeTimestamp_eq, checkBlockTimestamp_eq]
  · grind [checkAlternativeTimestamp_eq, checkBlockTimestamp_eq]

theorem short_fork_agrees : checkAlternativeTimestamp 13 (List.replicate 120 5) 100 [6, 7, 8] 5 =
      checkBlockTimestamp 13 0 ((List.replicate 120 5).take 101 ++ [6, 7, 8]) 5 :=
  (timestamp_rules_agree_iff 13 13 100 3 (by decide)).2 (by decide) _ _ _ _ (by decide) rfl (by decide)

theorem long_fork_disagrees :
    let chain : List UInt64 := List.replicate 40 0
    let alternative : List UInt64 := (List.range 31).map fun i => (60 * (i + 1)).toUInt64
    timestampWindow 13 ≤ alternative.length ∧ checkAlternativeTimestamp 13 chain 0 alternative 970 = true ∧
      checkBlockTimestamp 13 970 (chain.take 1 ++ alternative) 970 = false := by
  decide +kernel

end Timestamps

def attachId (altChain : List BlockExtendedInfo) (bl : Block) : Hash :=
  match altChain with
  | [] => bl.prevId
  | front :: _ => front.block.prevId

def attachHeight (chain : Chain) (altChain : List BlockExtendedInfo) (bl : Block) : Nat :=
  chain.findIdx (·.block.id == attachId altChain bl)

structure BaseRules.Timed (rules : BaseRules) (version : UInt8) (adjustedTime : UInt64) : Prop where
  main : ∀ chain bl, rules.checkBlockTimestamp chain bl =
    Timestamps.checkBlockTimestamp version adjustedTime (chain.map (·.block.timestamp)) bl.timestamp
  alternative : ∀ chain altChain bl, rules.alternativeTimestamp chain altChain bl =
    Timestamps.checkAlternativeTimestamp version (chain.map (·.block.timestamp)) (attachHeight chain altChain bl)
      (altChain.map (·.block.timestamp)) bl.timestamp

theorem Base.attachHeight_lt {b : Base} {altChain : List BlockExtendedInfo} {bl : Block}
    (h : b.connectsToMain altChain bl = true) : attachHeight b.chain altChain bl < b.chain.length := by
  have hexists : b.blockExists (attachId altChain bl) = true := by
    cases altChain with
    | nil => exact h
    | cons front rest =>
      simp only [connectsToMain, Bool.and_eq_true] at h
      exact h.1.2
  obtain ⟨e, he, hid⟩ := List.any_eq_true.1 hexists
  exact List.findIdx_lt_length_of_exists ⟨e, he, hid⟩

/-- What `handle_alternative_block` asks of a timestamp is what a node asks whose main chain is `path`, the chain that
leads to the block's parent. -/
theorem BaseRules.Timed.agree {rules rules' : BaseRules} {version version' : UInt8} {time time' : UInt64}
    (h : rules.Timed version time) (h' : rules'.Timed version' time') {b : Base} {altChain : List BlockExtendedInfo}
    {bl : Block} (hconnects : b.connectsToMain altChain bl = true) {path : Chain}
    (hpath : path.map (·.block) =
      (b.chain.take (attachHeight b.chain altChain bl + 1)).map (·.block) ++ altChain.map (·.block))
    (hp : Timestamps.timestampWindow version' ≤ attachHeight b.chain altChain bl + altChain.length)
    (hcount : max altChain.length (min (Timestamps.timestampWindow version)
      (attachHeight b.chain altChain bl + altChain.length)) = Timestamps.timestampWindow version')
    (hfuture : bl.timestamp ≤ time' + Timestamps.futureTimeLimit version') :
    rules.alternativeTimestamp b.chain altChain bl = rules'.checkBlockTimestamp path bl := by
  have hstamps : path.map (·.block.timestamp) =
      (b.chain.map (·.block.timestamp)).take (attachHeight b.chain altChain bl + 1) ++
        altChain.map (·.block.timestamp) := by
    have := congrArg (List.map Block.timestamp) hpath
    simpa [Function.comp_def] using this
  have hlt := Base.attachHeight_lt hconnects
  have hlen : (path.map (·.block.timestamp)).length = attachHeight b.chain altChain bl + 1 + altChain.length := by
    rw [hstamps]
    simp
    omega
  rw [h.alternative, h'.main, Timestamps.checkAlternativeTimestamp_eq version (by simpa using hlt), List.length_map, hcount,
    Timestamps.checkBlockTimestamp_eq (by omega) hfuture, hstamps]

end Electronero
