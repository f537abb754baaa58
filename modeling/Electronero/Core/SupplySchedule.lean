import Electronero.Core.HardFork
import Electronero.Core.MinerTx
/-!
# The supply of the reward and the supply of the accounting

The schedule is written down twice: in `get_block_reward` (cryptonote_basic_impl.cpp:168) for all networks, in
`handle_block_to_main_chain` (blockchain.cpp:3863-3906) by network.
-/
namespace Electronero

namespace ForkTable
variable (t : ForkTable)

theorem idealVersion_lt_iff (bound : UInt8) (n : t.Index) (hn : n ≠ 0) (hbound : bound ≤ t.version n)
    (hbefore : ∀ m < n, t.version m < bound) (height : Nat) : t.idealVersion height < bound ↔ height < t.height n := by
  have hindex : t.idealVersion height < bound ↔ t.idealIndex height < n := by
    constructor
    · intro hlt
      by_contra hle
      rcases eq_or_lt_of_le (not_lt.1 hle) with heq | hgt
      · grind [idealVersion]
      · exact UInt8.not_le.2 hlt (UInt8.le_trans hbound (UInt8.le_of_lt (version_lt hgt)))
    · exact hbefore _
  rw [hindex, ← not_le, HardFork.le_idealIndex_iff, not_or, not_le]
  exact and_iff_right hn

end ForkTable

namespace Reward

def forkTable : NetworkType → ForkTable
  | .testnet => .testnet
  | .stagenet => .stagenet
  | _ => .mainnet

def rewardSupply (version : UInt8) (height : Nat) : UInt64 :=
  if version < 2 then moneySupplyEtn else coinSupply version height

def accountedSupply (nettype : NetworkType) (version : UInt8) (height : Nat) : UInt64 :=
  match nettype with
  | .testnet => if version < 6 then moneySupplyEtn else moneySupply
  | .stagenet => if version < 2 then moneySupplyEtn else electroneroTokens
  | _ => if version < 6 then moneySupplyEtn else supplyAt 1132597 version height

def accountedCoins (nettype : NetworkType) (version : UInt8) (height : Nat) (coins baseReward : UInt64) : UInt64 :=
  if baseReward < accountedSupply nettype version height - coins then coins + baseReward
  else accountedSupply nettype version height

/-! ## The two sides in the model of a block -/

theorem accountedCoins_mainnet (version : UInt8) (height : Nat) (coins baseReward : UInt64) :
    accountedCoins .mainnet version height coins baseReward = generatedCoins version height coins baseReward := rfl

theorem roundedEmission_rewardSupply (coins : UInt64) {version : UInt8} {height : Nat}
    (hcurve : version < 2 ∨ ¬(307003 < height ∧ 7 ≤ version) ∨ 1183410 ≤ height) :
    roundedEmission coins version height =
      let left := (rewardSupply version height - coins) >>> emissionSpeed height
      if 7 < version then left / 10 * 10 else left := by
  have hsmall : version < 2 → ¬7 < version := by grind
  simp only [roundedEmission, rewardSupply]
  by_cases hfirst : version < 2
  · grind
  · have hemission : emission coins version height = (coinSupply version height - coins) >>> emissionSpeed height := by
      unfold emission
      grind
    rw [if_neg hfirst, if_neg hfirst, hemission]

def SameSupply (nettype : NetworkType) (height : Nat) : Prop :=
  match nettype with
  | .testnet => height < 310790
  | .stagenet => height < 307003 ∨ 492500 ≤ height ∧ height < 1132596
  | _ => height ≠ 1132596

theorem supplyAt_of_le {v20 height : Nat} (h : v20 ≤ height) (version : UInt8) :
    supplyAt v20 version height ≠ moneySupply ∧ supplyAt v20 version height ≠ electroneroTokens := by
  rw [supplyAt, if_neg (by omega)]
  split
  · decide
  split
  · decide
  · decide

structure SharedForks (t : ForkTable) (v16 : Nat) : Prop where
  v2 : ∀ height, t.idealVersion height < 2 ↔ height < 307003
  v6 : ∀ height, t.idealVersion height < 6 ↔ height < 307003
  v7 : ∀ height, t.idealVersion height < 7 ↔ height < 307003
  v10 : ∀ height, t.idealVersion height < 10 ↔ height < 310790
  v16 : ∀ height, t.idealVersion height < 16 ↔ height < v16

theorem sharedForks_testnet : SharedForks .testnet 492500 where
  v2 := ForkTable.testnet.idealVersion_lt_iff 2 1 (by decide) (by decide) (by decide)
  v6 := ForkTable.testnet.idealVersion_lt_iff 6 1 (by decide) (by decide) (by decide)
  v7 := ForkTable.testnet.idealVersion_lt_iff 7 1 (by decide) (by decide) (by decide)
  v10 := ForkTable.testnet.idealVersion_lt_iff 10 4 (by decide) (by decide) (by decide)
  v16 := ForkTable.testnet.idealVersion_lt_iff 16 10 (by decide) (by decide) (by decide)

theorem sharedForks_stagenet : SharedForks .stagenet 492500 where
  v2 := ForkTable.stagenet.idealVersion_lt_iff 2 1 (by decide) (by decide) (by decide)
  v6 := ForkTable.stagenet.idealVersion_lt_iff 6 1 (by decide) (by decide) (by decide)
  v7 := ForkTable.stagenet.idealVersion_lt_iff 7 1 (by decide) (by decide) (by decide)
  v10 := ForkTable.stagenet.idealVersion_lt_iff 10 4 (by decide) (by decide) (by decide)
  v16 := ForkTable.stagenet.idealVersion_lt_iff 16 10 (by decide) (by decide) (by decide)

theorem sharedForks_mainnet : SharedForks .mainnet 500060 where
  v2 := ForkTable.mainnet.idealVersion_lt_iff 2 1 (by decide) (by decide) (by decide)
  v6 := ForkTable.mainnet.idealVersion_lt_iff 6 1 (by decide) (by decide) (by decide)
  v7 := ForkTable.mainnet.idealVersion_lt_iff 7 1 (by decide) (by decide) (by decide)
  v10 := ForkTable.mainnet.idealVersion_lt_iff 10 4 (by decide) (by decide) (by decide)
  v16 := ForkTable.mainnet.idealVersion_lt_iff 16 10 (by decide) (by decide) (by decide)

namespace SharedForks
variable {t : ForkTable} {v16 : Nat} (hf : SharedForks t v16)
include hf

theorem supplyAt_eq {v20 height : Nat} (h : height < v20) : supplyAt v20 (t.idealVersion height) height =
      if height < 307003 then moneySupplyEtn
      else if height < 310790 then moneySupply
      else if height < v16 then tokens
      else electroneroTokens := by
  simp only [supplyAt, if_pos h, hf.v7, hf.v10, hf.v16]

theorem rewardSupply_eq (height : Nat) : rewardSupply (t.idealVersion height) height =
      if height < 307003 then moneySupplyEtn else supplyAt 1132596 (t.idealVersion height) height := by
  simp only [rewardSupply, hf.v2, coinSupply]

end SharedForks

theorem same_supply_testnet (height : Nat) : rewardSupply (ForkTable.testnet.idealVersion height) height =
        accountedSupply .testnet (ForkTable.testnet.idealVersion height) height ↔ height < 310790 := by
  have hf := sharedForks_testnet
  simp only [hf.rewardSupply_eq, accountedSupply, hf.v6]
  by_cases h7 : height < 307003
  · simp only [if_pos h7, true_iff]
    omega
  rw [if_neg h7, if_neg h7]
  by_cases h20 : height < 1132596
  · rw [hf.supplyAt_eq h20, if_neg h7]
    by_cases h10 : height < 310790
    · rw [if_pos h10]
      exact iff_of_true rfl h10
    · rw [if_neg h10]
      have hdiffer : (if height < 492500 then tokens else electroneroTokens) ≠ moneySupply := by split <;> decide
      exact iff_of_false hdiffer h10
  · exact iff_of_false (supplyAt_of_le (by omega) _).1 (by omega)

theorem same_supply_stagenet (height : Nat) : rewardSupply (ForkTable.stagenet.idealVersion height) height =
        accountedSupply .stagenet (ForkTable.stagenet.idealVersion height) height ↔
      height < 307003 ∨ 492500 ≤ height ∧ height < 1132596 := by
  have hf := sharedForks_stagenet
  simp only [hf.rewardSupply_eq, accountedSupply, hf.v2]
  by_cases h7 : height < 307003
  · simp only [if_pos h7, true_iff]
    exact Or.inl h7
  rw [if_neg h7, if_neg h7]
  by_cases h20 : height < 1132596
  · rw [hf.supplyAt_eq h20, if_neg h7]
    by_cases h16 : height < 492500
    · have hdiffer : (if height < 310790 then moneySupply else if height < 492500 then tokens else electroneroTokens) ≠
          electroneroTokens := by
        rw [if_pos h16]
        split <;> decide
      exact iff_of_false hdiffer (by omega)
    · grind
  · exact iff_of_false (supplyAt_of_le (by omega) _).2 (by omega)

theorem same_supply_mainnet (height : Nat) : rewardSupply (ForkTable.mainnet.idealVersion height) height =
        accountedSupply .mainnet (ForkTable.mainnet.idealVersion height) height ↔ height ≠ 1132596 := by
  have hf := sharedForks_mainnet
  simp only [hf.rewardSupply_eq, accountedSupply, hf.v6]
  by_cases h7 : height < 307003
  · simp only [if_pos h7, true_iff]
    omega
  rw [if_neg h7, if_neg h7]
  rcases lt_trichotomy height 1132596 with hlt | rfl | hgt
  · rw [hf.supplyAt_eq hlt, hf.supplyAt_eq (by omega)]
    exact iff_of_true rfl hlt.ne
  · have hstored : supplyAt 1132597 (ForkTable.mainnet.idealVersion 1132596) 1132596 = electroneroTokens := by
      rw [hf.supplyAt_eq (by decide), if_neg (by decide), if_neg (by decide), if_neg (by decide)]
    grind [supplyAt_of_le]
  · have hsame : supplyAt 1132596 (ForkTable.mainnet.idealVersion height) height =
        supplyAt 1132597 (ForkTable.mainnet.idealVersion height) height := by
      simp only [supplyAt, if_neg (show ¬height < 1132596 by omega), if_neg (show ¬height < 1132597 by omega)]
    exact iff_of_true hsame hgt.ne'

/-- **Where reward and accounting use the same supply**, by network. -/
theorem same_supply_iff (nettype : NetworkType) (height : Nat) :
    rewardSupply ((forkTable nettype).idealVersion height) height =
        accountedSupply nettype ((forkTable nettype).idealVersion height) height ↔ SameSupply nettype height := by
  cases nettype with
  | testnet => exact same_supply_testnet height
  | stagenet => exact same_supply_stagenet height
  | mainnet => exact same_supply_mainnet height
  | fakechain => exact same_supply_mainnet height
  | undefined => exact same_supply_mainnet height

theorem supply_differs_mainnet : rewardSupply ((forkTable .mainnet).idealVersion 1132596) 1132596 = electroneroPulse ∧
      accountedSupply .mainnet ((forkTable .mainnet).idealVersion 1132596) 1132596 = electroneroTokens ∧
      electroneroPulse ≠ electroneroTokens := by
  decide

end Reward

end Electronero
