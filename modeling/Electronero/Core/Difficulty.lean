import Electronero.Core.NextDifficulty
import Electronero.Core.State
/-!
# The difficulty of the next block (`src/cryptonote_core/blockchain.cpp:897, 1166`)

Both rules choose target, window and algorithm (`era`) by the height of the main chain; for an alternative block that is
not the height it would get. A path is the list of the samples of a chain, genesis first.
-/
namespace Electronero

namespace Difficulty

abbrev hardforkV7Height : Nat := 307003
abbrev hardforkV8Height : Nat := 307054
abbrev hardforkV9Height : Nat := 308110
abbrev hardforkV10Height : Nat := 310790
abbrev hardforkV11Height : Nat := 310860
abbrev hardforkV12Height : Nat := 333690
abbrev hardforkV13Height : Nat := 337496
abbrev hardforkV14Height : Nat := 337816

inductive Algorithm
  | v1
  | v2
  | v3
  | v4
deriving DecidableEq

structure Era where
  target : UInt64
  blocksCount : Nat
  algorithm : Algorithm
deriving DecidableEq

def era (height : Nat) : Era where
  target :=
    if height < hardforkV7Height then 60
    else if hardforkV14Height ≤ height then 60
    else 120
  blocksCount :=
    if height < hardforkV7Height then 735
    else if height ≤ hardforkV10Height then 60
    -- `DIFFICULTY_BLOCKS_COUNT_V2` up to version 11, then `DIFFICULTY_BLOCKS_COUNT_V12`
    else if height ≤ hardforkV11Height then 70
    else 70
  algorithm :=
    if height < hardforkV7Height then .v1
    else if hardforkV7Height ≤ height ∧ height ≤ hardforkV9Height then .v2
    else if hardforkV10Height ≤ height ∧ height ≤ hardforkV12Height then .v3
    else .v4

def Era.next (e : Era) (samples : List Sample) : UInt64 :=
  match e.algorithm with
  | .v1 => nextDifficulty samples e.target
  | .v2 => nextDifficultyV2 samples e.target
  | .v3 => nextDifficultyV3 samples e.target
  | .v4 => nextDifficultyV4 samples e.target

def fixedDifficulty (height : Nat) : Option UInt64 :=
  let count := (era height).blocksCount
  if hardforkV7Height - 3 ≤ height ∧ height ≤ hardforkV7Height + 6 then some 255
  else if hardforkV7Height + 6 < height ∧ height ≤ hardforkV8Height + 2 then some 287
  else if hardforkV10Height - 2 ≤ height ∧ height ≤ hardforkV10Height + count then some 100
  else if hardforkV11Height - 2 ≤ height ∧ height ≤ hardforkV11Height + count then some 100
  else if hardforkV12Height ≤ height ∧ height ≤ hardforkV12Height + count then some 72289156
  else if hardforkV13Height ≤ height ∧ height ≤ hardforkV13Height + count then some 52289156
  else none

def skipGenesis (offset : Nat) : Nat := if offset = 0 then 1 else offset

def window (count : Nat) (path : List Sample) : List Sample :=
  path.drop (skipGenesis (path.length - min path.length count))

def forNextBlock (path : List Sample) : UInt64 :=
  match fixedDifficulty path.length with
  | some difficulty => difficulty
  | none => (era path.length).next (window (era path.length).blocksCount path)

/-- `none` is the failure of the assertion on the number of samples. -/
def alternativeSamples (count : Nat) (main : List Sample) (stopOffset : Nat) (altChain : List Sample) :
    Option (List Sample) :=
  if altChain.length < count then
    let mainCount := min (count - min count altChain.length) stopOffset
    let startOffset := skipGenesis (stopOffset - mainCount)
    let fromMain := (main.take stopOffset).drop startOffset
    if altChain.length + fromMain.length ≤ count then some (fromMain ++ altChain) else none
  else some (altChain.drop (altChain.length - count))

def forAlternativeChain (main : List Sample) (stopOffset : Nat) (altChain : List Sample) : UInt64 :=
  let e := era main.length
  match alternativeSamples e.blocksCount main stopOffset altChain with
  | none => 0
  | some samples => e.next samples

variable {main : List Sample} {stopOffset : Nat}

theorem alternativeSamples_eq (count : Nat) (hpos : 0 < stopOffset)
    (hle : stopOffset ≤ main.length) (altChain : List Sample) :
    alternativeSamples count main stopOffset altChain = some (window count (main.take stopOffset ++ altChain)) := by
  have htake : (main.take stopOffset).length = stopOffset := by simp [hle]
  unfold alternativeSamples window skipGenesis
  rw [List.length_append, htake]
  split
  · rename_i hshort
    grind
  · rename_i hlong
    have hoffset : stopOffset + altChain.length - min (stopOffset + altChain.length) count =
        stopOffset + (altChain.length - count) := by omega
    have hnone : (main.take stopOffset).drop (stopOffset + (altChain.length - count)) = [] :=
      List.drop_eq_nil_of_le (by omega)
    rw [hoffset, if_neg (by omega), List.drop_append, htake, hnone, Nat.add_sub_cancel_left, List.nil_append]

theorem forAlternativeChain_eq (hpos : 0 < stopOffset) (hle : stopOffset ≤ main.length)
    (altChain : List Sample) : forAlternativeChain main stopOffset altChain =
      (era main.length).next (window (era main.length).blocksCount (main.take stopOffset ++ altChain)) := by
  unfold forAlternativeChain
  dsimp only
  rw [alternativeSamples_eq _ hpos hle]

end Difficulty

def StoredBlock.sample (e : StoredBlock) : Sample := ⟨e.block.timestamp, e.cumulativeDifficulty.toUInt64⟩

def BlockExtendedInfo.sample (e : BlockExtendedInfo) : Sample := ⟨e.block.timestamp, e.cumulativeDifficulty.toUInt64⟩

def getDifficultyForNextBlock (chain : Chain) : Nat := (Difficulty.forNextBlock (chain.map (·.sample))).toNat

def mainChainStopOffset (chain : Chain) (altChain : List BlockExtendedInfo) (bl : Block) : Nat :=
  match altChain with
  | [] => chain.findIdx (·.block.id == bl.prevId) + 1
  | front :: _ => front.height

def getNextDifficultyForAlternativeChain (chain : Chain) (altChain : List BlockExtendedInfo) (bl : Block) : Nat :=
  (Difficulty.forAlternativeChain (chain.map (·.sample)) (mainChainStopOffset chain altChain bl)
    (altChain.map (·.sample))).toNat

end Electronero
