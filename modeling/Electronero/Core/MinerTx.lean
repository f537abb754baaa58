import Electronero.Basic
import Electronero.Core.BlockReward
import Electronero.Core.NextDifficulty
import Electronero.Lib.Run
import Electronero.Lib.WrappingSum
/-!
# The miner transaction and the supply (`src/cryptonote_core/blockchain.cpp:1309-1407, 3888-3905`)

`connectBlock` is the part of `handle_block_to_main_chain` about the reward; its other checks only refuse more blocks.
-/
namespace Electronero
open Text Machine

inductive TxIn where
  | gen (height : Nat)
  /-- `txin_to_script`, `txin_to_scripthash`, `txin_to_key`, with the bytes it takes -/
  | other (blobSize : Nat)
deriving DecidableEq

structure TxOut where
  amount : UInt64
  key : PublicKey
deriving DecidableEq

structure MinerTx where
  version : Nat
  unlockTime : Nat
  vin : List TxIn
  vout : List TxOut
  extra : Bytes
deriving DecidableEq

structure BlockInfo where
  size : UInt64
  generatedCoins : UInt64
  /-- No block that was ever in memory is larger. -/
  size_lt : size.toNat < 2 ^ 63
deriving DecidableEq

structure PoolTx where
  id : Hash
  blobSize : UInt64
  fee : UInt64
deriving DecidableEq

namespace MinerTx

def amounts (tx : MinerTx) : List UInt64 := tx.vout.map (·.amount)

end MinerTx

namespace Reward

def getLastNBlocksSizes (db : List BlockInfo) (count : Nat) : List UInt64 :=
  (db.drop (db.length - min db.length count)).map (·.size)

def medianSize (db : List BlockInfo) : UInt64 := Difficulty.median (getLastNBlocksSizes db 100)

def alreadyGeneratedCoins (db : List BlockInfo) : UInt64 := (db.getLast?.map (·.generatedCoins)).getD 0

def validDecomposedOutputs : List UInt64 :=
  ((List.range 19).flatMap fun k => (List.range 9).map fun d => ((d + 1) * 10 ^ k).toUInt64) ++ [10000000000000000000]

def isValidDecomposedAmount (amount : UInt64) : Bool := validDecomposedOutputs.contains amount

def prevalidateMinerTransaction (tx : MinerTx) (height : Nat) : Bool :=
  match tx.vin with
  | [.gen h] => h == height && tx.unlockTime == height + 18 && Wrapping.overflowFree 0 tx.amounts
  | _ => false

def checkReward (reward : Option UInt64) (tx : MinerTx) (fee coins : UInt64) (version currentVersion : UInt8) :
    Option (UInt64 × Bool) :=
  let moneyInUse := Wrapping.sum tx.amounts
  if version = 3 && !tx.amounts.all isValidDecomposedAmount then none
  else
    match reward with
    | none => none
    | some baseReward =>
      if baseReward + fee < moneyInUse ∧ 0 < coins then none
      else if currentVersion < 2 then
        if baseReward + fee ≠ moneyInUse ∧ 0 < coins then none else some (baseReward, false)
      -- `money_in_use - fee` may wrap
      else if moneyInUse - fee ≤ baseReward then
        some (moneyInUse - fee, decide (baseReward + fee ≠ moneyInUse))
      else none

/-- `currentVersion` is `m_hardfork->get_current_version()`, which the only caller also passes as `version`. -/
def validateMinerTransaction (db : List BlockInfo) (tx : MinerTx) (cumulativeBlockSize fee coins : UInt64)
    (version currentVersion : UInt8) : Option (UInt64 × Bool) :=
  checkReward (getBlockReward (medianSize db) cumulativeBlockSize coins version db.length) tx fee coins version
    currentVersion

/-- `COIN_SUPPLY` in `handle_block_to_main_chain`: version 20 is one block later than in the reward. -/
def storedSupply (version : UInt8) (height : Nat) : UInt64 :=
  if version < 6 then moneySupplyEtn else supplyAt 1132597 version height

def generatedCoins (version : UInt8) (height : Nat) (coins baseReward : UInt64) : UInt64 :=
  if baseReward < storedSupply version height - coins then coins + baseReward else storedSupply version height

structure Candidate where
  /-- `m_hardfork->get_current_version()` when it arrives -/
  version : UInt8
  minerTx : MinerTx
  coinbaseBlobSize : UInt64
  txs : List PoolTx
  /-- They are in memory together. -/
  fits : coinbaseBlobSize.toNat + Wrapping.total (txs.map (·.blobSize)) < 2 ^ 63

namespace Candidate
variable (c : Candidate)

def size : UInt64 := c.coinbaseBlobSize + Wrapping.sum (c.txs.map (·.blobSize))

def fee : UInt64 := Wrapping.sum (c.txs.map (·.fee))

theorem size_lt : c.size.toNat < 2 ^ 63 := by
  have hfits := c.fits
  rw [size, UInt64.toNat_add, Wrapping.toNat_sum (by omega)]
  omega

def reward (db : List BlockInfo) : Option UInt64 :=
  getBlockReward (medianSize db) c.size (alreadyGeneratedCoins db) c.version db.length

def validate (db : List BlockInfo) : Option (UInt64 × Bool) :=
  validateMinerTransaction db c.minerTx c.size c.fee (alreadyGeneratedCoins db) c.version c.version

end Candidate

def connectBlock (db : List BlockInfo) (c : Candidate) : Option (List BlockInfo) :=
  if !prevalidateMinerTransaction c.minerTx db.length then none
  else
    match c.validate db with
    | none => none
    | some (baseReward, _) =>
      some (db ++ [⟨c.size, generatedCoins c.version db.length (alreadyGeneratedCoins db) baseReward, c.size_lt⟩])

def connect (db : List BlockInfo) (c : Candidate) : List BlockInfo := (connectBlock db c).getD db

@[simp] theorem alreadyGeneratedCoins_snoc (db : List BlockInfo) (b : BlockInfo) :
    alreadyGeneratedCoins (db ++ [b]) = b.generatedCoins := by
  simp [alreadyGeneratedCoins]

section OneBlock
variable {db : List BlockInfo} {tx : MinerTx} {size fee coins : UInt64} {version currentVersion : UInt8}
  {result : UInt64 × Bool}

theorem total_lt_of_prevalidate {height : Nat} (h : prevalidateMinerTransaction tx height = true) :
    Wrapping.total tx.amounts < 2 ^ 64 := by
  unfold prevalidateMinerTransaction at h
  grind [Wrapping.overflowFree_iff]

theorem validateMinerTransaction_cases
    (h : validateMinerTransaction db tx size fee coins version currentVersion = some result) :
    ∃ base, getBlockReward (medianSize db) size coins version db.length = some base ∧
      (0 < coins → Wrapping.sum tx.amounts ≤ base + fee) ∧
      (currentVersion < 2 → result.1 = base ∧ (0 < coins → base + fee = Wrapping.sum tx.amounts)) ∧
      (¬ currentVersion < 2 → result.1 = Wrapping.sum tx.amounts - fee ∧ result.1 ≤ base) := by
  unfold validateMinerTransaction checkReward at h
  dsimp only at h
  split at h
  · cases h
  split at h
  · cases h
  rename_i base hbase
  refine ⟨base, hbase, ?_⟩
  split at h
  · cases h
  rename_i hspend
  have hclaim : 0 < coins → Wrapping.sum tx.amounts ≤ base + fee := fun hpos =>
    UInt64.not_lt.1 fun hlt => hspend ⟨hlt, hpos⟩
  refine ⟨hclaim, ?_⟩
  split at h
  · grind
  · grind

/-- **A coinbase cannot inflate**: what it pays is at most reward and fees, and from version 2 on at least the
fees, the rest being what counts as generated. -/
theorem coinbase_cannot_inflate {height : Nat} (hcoins : 0 < coins)
    (hpre : prevalidateMinerTransaction tx height = true)
    (hval : validateMinerTransaction db tx size fee coins version currentVersion = some result)
    (hfits : ∀ base, getBlockReward (medianSize db) size coins version db.length = some base →
      base.toNat + fee.toNat < 2 ^ 64) :
    ∃ base, getBlockReward (medianSize db) size coins version db.length = some base ∧
      Wrapping.total tx.amounts ≤ base.toNat + fee.toNat ∧
      (2 ≤ currentVersion → fee.toNat ≤ Wrapping.total tx.amounts ∧
        result.1.toNat = Wrapping.total tx.amounts - fee.toNat) := by
  obtain ⟨base, hbase, hclaim, -, hlater⟩ := validateMinerTransaction_cases hval
  have hmoney := Wrapping.toNat_sum (total_lt_of_prevalidate hpre)
  have hsum : (base + fee).toNat = base.toNat + fee.toNat := by simp_all
  have hle := UInt64.le_iff_toNat_le.1 (hclaim hcoins)
  rw [hsum, hmoney] at hle
  refine ⟨base, hbase, hle, fun hv => ?_⟩
  obtain ⟨hresult, hbound⟩ := hlater (UInt8.not_lt.2 hv)
  rw [hresult, UInt64.le_iff_toNat_le, UInt64.toNat_sub, hmoney] at hbound
  have hfee := fee.toNat_lt
  have hbase := hfits base hbase
  -- a sum below the fees would wrap to more than any reward
  have hge : fee.toNat ≤ Wrapping.total tx.amounts := by
    by_contra hlt
    rw [Nat.mod_eq_of_lt (by omega)] at hbound
    omega
  refine ⟨hge, ?_⟩
  rw [hresult, UInt64.toNat_sub_of_le _ _ (UInt64.le_iff_toNat_le.2 (by rw [hmoney]; exact hge)), hmoney]

end OneBlock

def twoBlocks : List BlockInfo := [⟨100, 1000, by decide⟩, ⟨100, 1000, by decide⟩]

def modestMinerTx : MinerTx := ⟨2, 20, [.gen 2], [⟨60, default⟩, ⟨45, default⟩], []⟩

theorem modest_coinbase_cannot_inflate :
    ∃ base, getBlockReward (medianSize twoBlocks) 200 1000 4 2 = some base ∧ 105 ≤ base.toNat + 5 ∧
      validateMinerTransaction twoBlocks modestMinerTx 200 5 1000 4 4 = some (100, true) := by
  have hval : validateMinerTransaction twoBlocks modestMinerTx 200 5 1000 4 4 = some (100, true) := by decide +kernel
  have hreward : getBlockReward (medianSize twoBlocks) 200 1000 4 2 = some 2002716 := by decide +kernel
  have hpre : prevalidateMinerTransaction modestMinerTx 2 = true := by decide +kernel
  obtain ⟨base, hbase, hle, -⟩ := coinbase_cannot_inflate (by decide) hpre hval
    fun base h => by
      have heq : some base = some 2002716 := h.symm.trans hreward
      rw [Option.some.inj heq]
      decide
  exact ⟨base, hbase, hle, hval⟩

section Runs
variable {db : List BlockInfo} {c : Candidate}

/-- The counter grows and stays below the cap, and no difference to the supply wraps. -/
structure SupplyKept (db : List BlockInfo) (c : Candidate) : Prop where
  grows : alreadyGeneratedCoins db ≤ alreadyGeneratedCoins (connect db c)
  capped : alreadyGeneratedCoins (connect db c) ≤ electroneroSwap
  reward_exact : alreadyGeneratedCoins db ≤ coinSupply c.version db.length
  stored_exact : alreadyGeneratedCoins db ≤ storedSupply c.version db.length

/-- The reward, and what is claimed of it, is at most what is left, or it is the final subsidy. -/
def RewardWithin (db : List BlockInfo) (c : Candidate) : Prop :=
  ∃ base claimed, c.reward db = some base ∧ (c.validate db).map (·.1) = some claimed ∧ claimed ≤ base ∧
    (base.toNat ≤ electroneroSwap.toNat - (alreadyGeneratedCoins db).toNat ∨
      alreadyGeneratedCoins db = electroneroSwap ∧ base ≤ finalSubsidyPerMinute)

theorem connectBlock_cases {db' : List BlockInfo} (h : connectBlock db c = some db') :
    ∃ claimed isPartial, c.validate db = some (claimed, isPartial) ∧
      alreadyGeneratedCoins db' = generatedCoins c.version db.length (alreadyGeneratedCoins db) claimed ∧
      db'.length = db.length + 1 := by
  unfold connectBlock at h
  split at h
  · cases h
  split at h
  · cases h
  rename_i claimed isPartial hval
  obtain rfl := Option.some.inj h
  exact ⟨claimed, isPartial, hval, by simp, by simp⟩

variable {version : UInt8}

theorem storedSupply_tail (hh : 1714428 < db.length) (hv : 8 ≤ version) :
    storedSupply version db.length = electroneroSwap := by
  have hv6 : ¬ version < 6 := by grind
  rw [storedSupply, if_neg hv6, supplyAt_tail hh (by decide)]

theorem generatedCoins_bounds {height : Nat} {coins : UInt64} (reward : UInt64)
    (hc : coins ≤ storedSupply version height) : coins ≤ generatedCoins version height coins reward ∧
      generatedCoins version height coins reward ≤ storedSupply version height := by
  unfold generatedCoins
  rw [UInt64.le_iff_toNat_le] at hc
  split
  · rename_i hlt
    rw [UInt64.lt_iff_toNat_lt, UInt64.toNat_sub_of_le _ _ (UInt64.le_iff_toNat_le.2 hc)] at hlt
    have hsupply := (storedSupply version height).toNat_lt
    rw [UInt64.le_iff_toNat_le, UInt64.le_iff_toNat_le, UInt64.toNat_add]
    omega
  · exact ⟨UInt64.le_iff_toNat_le.2 hc, UInt64.le_refl _⟩

theorem supplyKept_of_accepted (hh : 1714428 < db.length) (hc : alreadyGeneratedCoins db ≤ electroneroSwap)
    (hv : 8 ≤ c.version) (h : (connectBlock db c).isSome = true) : SupplyKept db c := by
  obtain ⟨db', hdb'⟩ := Option.isSome_iff_exists.1 h
  obtain ⟨claimed, -, -, hcoins, -⟩ := connectBlock_cases hdb'
  have hstored := storedSupply_tail hh hv
  obtain ⟨hgrows, hcapped⟩ := generatedCoins_bounds claimed (hstored ▸ hc)
  have hconnect : connect db c = db' := by rw [connect, hdb', Option.getD_some]
  exact ⟨by rw [hconnect, hcoins]; exact hgrows, by rw [hconnect, hcoins, ← hstored]; exact hcapped,
    by rw [coinSupply_tail hh]; exact hc, by rw [hstored]; exact hc⟩

theorem max_lt {a b : UInt64} {n : Nat} (ha : a.toNat < n) (hb : b.toNat < n) : (max a b).toNat < n := by
  show (if a ≤ b then b else a).toNat < n
  split
  · exact hb
  · exact ha

theorem getMinBlockSize_lt (version : UInt8) : (getMinBlockSize version).toNat < 2 ^ 32 := by
  unfold getMinBlockSize
  split
  · decide
  split <;> decide

theorem rewardWithin_of_accepted (hh : 1714428 < db.length) (hc : alreadyGeneratedCoins db ≤ electroneroSwap)
    (hv : 8 ≤ c.version) (h : (connectBlock db c).isSome = true) (hm : (medianSize db).toNat < 2 ^ 32) :
    RewardWithin db c := by
  obtain ⟨db', hdb'⟩ := Option.isSome_iff_exists.1 h
  obtain ⟨claimed, isPartial, hval, -, -⟩ := connectBlock_cases hdb'
  obtain ⟨base, hbase, -, -, hlater⟩ := validateMinerTransaction_cases hval
  have hv2 : ¬ c.version < 2 := by grind
  refine ⟨base, claimed, hbase, by rw [hval]; rfl, (hlater hv2).2, ?_⟩
  rw [getBlockReward_tail hh] at hbase
  have hle := sizedReward_le (max_lt hm (getMinBlockSize_lt c.version)) hbase
  rcases eq_or_ne (alreadyGeneratedCoins db) electroneroSwap with heq | hne
  · rw [heq, baseReward_final hh hv] at hle
    exact Or.inr ⟨heq, UInt64.le_iff_toNat_le.2 hle⟩
  · have hlt :=
      lt_of_le_of_ne (UInt64.le_iff_toNat_le.1 hc) fun h => hne (UInt64.toNat_inj.1 h)
    rw [baseReward_tail hh hv hlt] at hle
    exact Or.inl (hle.trans ((Nat.div_mul_le_self _ _).trans (Nat.div_le_self _ _)))

end Runs

def evenChain (height : Nat) (b : BlockInfo) : List BlockInfo := List.replicate height b

variable {height : Nat}

theorem medianSize_evenChain (h : 100 ≤ height) (b : BlockInfo) :
    medianSize (evenChain height b) = Difficulty.median (List.replicate 100 b.size) := by
  unfold medianSize getLastNBlocksSizes evenChain
  rw [List.length_replicate, Nat.min_eq_right h, List.drop_replicate, List.map_replicate, Nat.sub_sub_self h]

theorem alreadyGeneratedCoins_evenChain (h : 0 < height) (b : BlockInfo) :
    alreadyGeneratedCoins (evenChain height b) = b.generatedCoins := by
  obtain ⟨n, rfl⟩ := Nat.exists_eq_add_of_lt h
  rw [Nat.zero_add, evenChain, List.replicate_succ', alreadyGeneratedCoins_snoc]

def lateChain (size coins : UInt64) (size_lt : size.toNat < 2 ^ 63) : List BlockInfo :=
  evenChain 1714429 ⟨size, coins, size_lt⟩

def lateBlock (amount txSize : UInt64) (fits : 88 + 5 * txSize.toNat < 2 ^ 63) : Candidate where
  version := 24
  minerTx := ⟨2, 1714447, [.gen 1714429], [⟨amount, default⟩], List.replicate 37 0⟩
  coinbaseBlobSize := 88
  txs := List.replicate 5 ⟨default, txSize, 250000000⟩
  fits := by
    simp only [List.replicate, List.map_cons, List.map_nil, Wrapping.total_cons, Wrapping.total_nil]
    show 88 + _ < _
    omega

section Late
variable {size coins : UInt64} {size_lt : size.toNat < 2 ^ 63} {c : Candidate}

theorem length_lateChain : (lateChain size coins size_lt).length = 1714429 := List.length_replicate

theorem medianSize_lateChain : medianSize (lateChain size coins size_lt) = Difficulty.median (List.replicate 100 size) :=
  medianSize_evenChain (by decide) _

theorem coins_lateChain : alreadyGeneratedCoins (lateChain size coins size_lt) = coins :=
  alreadyGeneratedCoins_evenChain (by decide) _

theorem reward_lateChain : c.reward (lateChain size coins size_lt) =
    getBlockReward (Difficulty.median (List.replicate 100 size)) c.size coins c.version 1714429 := by
  rw [Candidate.reward, length_lateChain, medianSize_lateChain, coins_lateChain]

theorem validate_lateChain : c.validate (lateChain size coins size_lt) =
    checkReward (getBlockReward (Difficulty.median (List.replicate 100 size)) c.size coins c.version 1714429) c.minerTx
      c.fee coins c.version c.version := by
  rw [Candidate.validate, validateMinerTransaction, length_lateChain, medianSize_lateChain, coins_lateChain]

theorem connectBlock_lateChain (hpre : prevalidateMinerTransaction c.minerTx 1714429 = true)
    (hval : (c.validate (lateChain size coins size_lt)).isSome = true) :
    (connectBlock (lateChain size coins size_lt) c).isSome = true := by
  obtain ⟨result, hresult⟩ := Option.isSome_iff_exists.1 hval
  rw [connectBlock, length_lateChain, hpre, hresult]
  rfl

end Late

end Reward

end Electronero
