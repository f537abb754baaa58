import Electronero.Core.MinerTx
import Mathlib.Algebra.Order.BigOperators.Group.List
/-!
# Block templates (`create_block_template`, src/cryptonote_core/blockchain.cpp:1432)

The keys of one call of `construct_miner_tx` are a `Minting`. The block handed in is empty, as the callers have it. At
versions 2 and 3 the clamped reward may be less than the fees.
-/
namespace Electronero
open Text

def varintSizeFuel : Nat → Nat → Nat
  | 0, _ => 1
  | fuel + 1, n => if n < 128 then 1 else varintSizeFuel fuel (n / 128) + 1

def varintSize (n : Nat) : Nat := varintSizeFuel 9 n

def TxIn.blobSize : TxIn → Nat
  | .gen height => 1 + varintSize height
  | .other blobSize => blobSize

/-- Counts of the lists as varints, a tag and 32 bytes for the key of an output, and the type of the ring signature
from transaction version 2 on. -/
def MinerTx.blobSize (tx : MinerTx) : Nat :=
  varintSize tx.version + varintSize tx.unlockTime +
    (varintSize tx.vin.length + (tx.vin.map TxIn.blobSize).sum) +
    (varintSize tx.vout.length + (tx.vout.map fun o => varintSize o.amount.toNat + 33).sum) +
    (varintSize tx.extra.length + tx.extra.length) +
    (if tx.version = 1 ∨ tx.vin = [] then 0 else 1)

namespace Reward

def decomposeLoop (dustThreshold : UInt64) : Nat → UInt64 → UInt64 → UInt64 → Bool → List UInt64 → List UInt64
  | 0, _, _, _, _, outs => outs
  | fuel + 1, amount, dust, order, isDustHandled, outs =>
    if amount = 0 then
      if !isDustHandled && dust ≠ 0 then outs ++ [dust] else outs
    else
      let chunk := amount % 10 * order
      if dust + chunk ≤ dustThreshold then
        decomposeLoop dustThreshold fuel (amount / 10) (dust + chunk) (order * 10) isDustHandled outs
      else
        let handlesDust := !isDustHandled && dust ≠ 0
        let outs := if handlesDust then outs ++ [dust] else outs
        let outs := if chunk ≠ 0 then outs ++ [chunk] else outs
        decomposeLoop dustThreshold fuel (amount / 10) dust (order * 10) (isDustHandled || handlesDust) outs

def decomposeAmountIntoDigits (amount dustThreshold : UInt64) : List UInt64 :=
  decomposeLoop dustThreshold 21 amount 0 1 false []

def mergeFirst : List UInt64 → List UInt64
  | a :: b :: rest => (a + b) :: rest
  | outs => outs

def mergeOuts (maxOuts : Nat) (outs : List UInt64) : List UInt64 := mergeFirst^[outs.length - maxOuts] outs

structure Minting where
  txPub : PublicKey
  /-- `derive_public_key` for the output of this index; `none` = a derivation fails -/
  outKey : Nat → Option PublicKey

def txPubKeyExtra (key : PublicKey) : Bytes := 1 :: key.bytes

def addExtraNonceToTxExtra (extra extraNonce : Bytes) : Option Bytes :=
  if extraNonce.length ≤ 255 then some (extra ++ [2, extraNonce.length.toUInt8] ++ extraNonce) else none

def minerTxExtra (minting : Minting) (extraNonce : Bytes) : Option Bytes :=
  if extraNonce = [] then some (txPubKeyExtra minting.txPub)
  else addExtraNonceToTxExtra (txPubKeyExtra minting.txPub) extraNonce

def buildOuts (minting : Minting) : Nat → List UInt64 → Option (List TxOut)
  | _, [] => some []
  | no, amount :: rest => do
    let key ← minting.outKey no
    let outs ← buildOuts minting (no + 1) rest
    some (⟨amount, key⟩ :: outs)

def clampReward (version : UInt8) (blockReward : UInt64) : UInt64 :=
  if 2 ≤ version ∧ version < 4 then blockReward - blockReward % 1000000000000 else blockReward

def outAmounts (version : UInt8) (height maxOuts : Nat) (blockReward : UInt64) : Option (List UInt64) :=
  let amounts := decomposeAmountIntoDigits blockReward (if 2 ≤ version then 0 else 5000)
  if maxOuts = 0 then none
  else if height = 0 ∨ 4 ≤ version then some (mergeOuts maxOuts amounts)
  else if amounts.length ≤ maxOuts then some amounts
  else none

def constructMinerTx (minting : Minting) (height : Nat) (medianSize coins currentBlockSize fee : UInt64)
    (extraNonce : Bytes) (maxOuts : Nat) (version : UInt8) : Option MinerTx := do
  let extra ← minerTxExtra minting extraNonce
  let reward ← getBlockReward medianSize currentBlockSize coins version height
  let blockReward := clampReward version (reward + fee)
  let amounts ← outAmounts version height maxOuts blockReward
  let vout ← buildOuts minting 0 amounts
  if Wrapping.sum (vout.map (·.amount)) ≠ blockReward then none
  else some ⟨if 4 ≤ version then 2 else 1, height + 18, [.gen height], vout, extra⟩

structure PoolEntry where
  tx : PoolTx
  /-- `get_txpool_tx_meta` finds its record -/
  hasMeta : Bool
  /-- `parse_and_validate_tx_from_blob` on its blob -/
  parses : Bool
  ready : Bool
  keyImages : List (Pod 32)

structure Filling where
  txs : List PoolTx
  totalSize : UInt64
  fee : UInt64
  bestCoinbase : UInt64
  keyImages : List (Pod 32)

/-- `ACCEPT_THRESHOLD` is `1.0f`: the amount goes through a `float`. -/
def templateAcceptThreshold (amount : UInt64) : UInt64 := (amount.toFloat32 * 1).toUInt64

def Filling.consider (f : Filling) (e : PoolEntry) (coinbase : UInt64) : Filling :=
  if !e.parses then f
  else if !e.ready then f
  else if e.keyImages.any f.keyImages.contains then f
  else ⟨f.txs ++ [e.tx], f.totalSize + e.tx.blobSize, f.fee + e.tx.fee, coinbase, f.keyImages ++ e.keyImages⟩

def fillFrom (medianSize coins maxTotalSize : UInt64) (version : UInt8) (height : Nat) :
    Filling → List PoolEntry → Option Filling
  | f, [] => some f
  | f, e :: rest =>
    -- without a record the iterator does not move: no return
    if !e.hasMeta then none
    else if maxTotalSize < f.totalSize + e.tx.blobSize then fillFrom medianSize coins maxTotalSize version height f rest
    else if 5 ≤ version then
      match getBlockReward medianSize (f.totalSize + e.tx.blobSize) coins version height with
      | none => fillFrom medianSize coins maxTotalSize version height f rest
      | some reward =>
        let coinbase := reward + f.fee + e.tx.fee
        if coinbase < templateAcceptThreshold f.bestCoinbase then
          fillFrom medianSize coins maxTotalSize version height f rest
        else fillFrom medianSize coins maxTotalSize version height (f.consider e coinbase) rest
    else if medianSize < f.totalSize then some f
    else fillFrom medianSize coins maxTotalSize version height (f.consider e 0) rest

def fillBlockTemplate (medianSize coins : UInt64) (version : UInt8) (height : Nat) (pool : List PoolEntry) :
    Option Filling :=
  let bestCoinbase := (getBlockReward medianSize 0 coins version height).getD 0
  let maxTotalSize := if 5 ≤ version then 2 * medianSize - 600 else 130 * medianSize / 100 - 600
  fillFrom medianSize coins maxTotalSize version height ⟨[], 0, 0, bestCoinbase, []⟩ pool

def updateNextCumulativeSizeLimit (version : UInt8) (db : List BlockInfo) : UInt64 :=
  let median := medianSize db
  (if median ≤ getMinBlockSize version then getMinBlockSize version else median) * 2

structure TemplateState where
  db : List BlockInfo
  version : UInt8
  limit : UInt64
  difficulty : UInt64
  pool : List PoolEntry
  /-- The pool is in memory. -/
  fits : Wrapping.total (pool.map (·.tx.blobSize)) < 2 ^ 63

structure Template where
  minerTx : MinerTx
  txs : List PoolTx
  /-- the size the reward was computed with -/
  cumulativeSize : UInt64
  expectedReward : UInt64
deriving DecidableEq

def coinbaseSize (tx : MinerTx) : UInt64 := tx.blobSize.toUInt64

def templateLoop (construct : Nat → UInt64 → Option MinerTx) (txsSize : UInt64) : Nat → UInt64 → Option (MinerTx × UInt64)
  | 0, _ => none
  | tries + 1, cumulativeSize =>
    match construct (10 - (tries + 1)) cumulativeSize with
    | none => none
    | some tx =>
      if cumulativeSize - txsSize < coinbaseSize tx then
        templateLoop construct txsSize tries (txsSize + coinbaseSize tx)
      else if coinbaseSize tx < cumulativeSize - txsSize then
        let delta := cumulativeSize - txsSize - coinbaseSize tx
        let padded := { tx with extra := tx.extra ++ List.replicate delta.toNat 0 }
        if cumulativeSize = txsSize + coinbaseSize padded then some (padded, cumulativeSize)
        -- the count of `extra` has grown by a byte
        else if cumulativeSize + 1 ≠ txsSize + coinbaseSize padded then none
        else
          let trimmed := { padded with extra := padded.extra.dropLast }
          if cumulativeSize = txsSize + coinbaseSize trimmed then some (trimmed, cumulativeSize)
          else templateLoop construct txsSize tries (cumulativeSize + (delta - 1))
      else if cumulativeSize = txsSize + coinbaseSize tx then some (tx, cumulativeSize)
      else none

/-- `minting 0` is for the first chance, `minting (k + 1)` for the try `k`. On an empty database
`get_block_already_generated_coins(height - 1)` throws. -/
def createBlockTemplate (s : TemplateState) (minting : Nat → Minting) (extraNonce : Bytes) : Option Template := do
  if s.db = [] ∨ s.difficulty = 0 then none
  else
    let height := s.db.length
    let medianSize := s.limit / 2
    let coins := alreadyGeneratedCoins s.db
    let filling ← fillBlockTemplate medianSize coins s.version height s.pool
    let maxOuts := if 4 ≤ s.version then 1 else 11
    let first ← constructMinerTx (minting 0) height medianSize coins filling.totalSize filling.fee extraNonce maxOuts s.version
    let construct := fun k size =>
      constructMinerTx (minting (k + 1)) height medianSize coins size filling.fee extraNonce maxOuts s.version
    let result ← templateLoop construct filling.totalSize 10 (filling.totalSize + coinbaseSize first)
    some ⟨result.1, filling.txs, result.2, filling.bestCoinbase⟩

variable {n maxOuts height : Nat} {version : UInt8} {amounts l : List UInt64} {minting : Nat → Minting} {tx : MinerTx}
  {f : Filling} {coins : UInt64} {s : TemplateState} {extraNonce : Bytes} {t : Template}

theorem decomposeLoop_fuel (threshold : UInt64) (k : Nat) {amount : UInt64} (h : amount.toNat < 10 ^ n)
    (dust order : UInt64) (handled : Bool) (outs : List UInt64) :
    decomposeLoop threshold (n + 1 + k) amount dust order handled outs =
      decomposeLoop threshold (n + 1) amount dust order handled outs := by
  induction n generalizing amount dust order handled outs with
  | zero =>
    have hzero : amount = 0 := UInt64.toNat_inj.1 (by simpa using h)
    rw [Nat.zero_add, Nat.add_comm 1 k, decomposeLoop, decomposeLoop, if_pos hzero, if_pos hzero]
  | succ n ih =>
    have hnext : (amount / 10).toNat < 10 ^ n := by
      rw [UInt64.toNat_div]
      grind
    grind [decomposeLoop]

def pendingDust (handled : Bool) (dust : UInt64) : Nat := if handled then 0 else dust.toNat

theorem digit_le (amount order : UInt64) :
    (amount % 10 * order).toNat + (amount / 10).toNat * (order * 10).toNat ≤ amount.toNat * order.toNat := by
  have hchunk : (amount % 10 * order).toNat ≤ amount.toNat % 10 * order.toNat := by
    rw [UInt64.toNat_mul, UInt64.toNat_mod]
    exact Nat.mod_le _ _
  have hrest : (amount / 10).toNat * (order * 10).toNat ≤ amount.toNat / 10 * (order.toNat * 10) := by
    rw [UInt64.toNat_div, UInt64.toNat_mul]
    exact Nat.mul_le_mul_left _ (Nat.mod_le _ _)
  calc (amount % 10 * order).toNat + (amount / 10).toNat * (order * 10).toNat
      ≤ amount.toNat % 10 * order.toNat + amount.toNat / 10 * (order.toNat * 10) := Nat.add_le_add hchunk hrest
    _ = (amount.toNat % 10 + 10 * (amount.toNat / 10)) * order.toNat := by ring
    _ = amount.toNat * order.toNat := by rw [Nat.mod_add_div]

theorem total_decomposeLoop_le (threshold : UInt64) {T : Nat} (fuel : Nat) (amount dust order : UInt64)
    (handled : Bool) (outs : List UInt64)
    (h : Wrapping.total outs + pendingDust handled dust + amount.toNat * order.toNat ≤ T) :
    Wrapping.total (decomposeLoop threshold fuel amount dust order handled outs) ≤ T := by
  induction fuel generalizing amount dust order handled outs with
  | zero =>
    rw [decomposeLoop]
    omega
  | succ fuel ih =>
    have hdigit := digit_le amount order
    rw [decomposeLoop]
    split
    · grind [pendingDust, Wrapping.total_append, Wrapping.total_cons, Wrapping.total_nil]
    dsimp only
    generalize amount % 10 * order = chunk at *
    split
    · -- the digit goes to the dust
      refine ih _ _ _ _ _ ?_
      have hdust : (dust + chunk).toNat ≤ dust.toNat + chunk.toNat := by
        rw [UInt64.toNat_add]
        exact Nat.mod_le _ _
      cases handled <;> simp only [pendingDust, Bool.false_eq_true, if_false, if_true] at h ⊢ <;> omega
    · refine ih _ _ _ _ _ ?_
      have hchunk : ∀ l : List UInt64, Wrapping.total (if chunk ≠ 0 then l ++ [chunk] else l) ≤ Wrapping.total l + chunk.toNat := by
        intro l
        split
        · simp
        · omega
      refine le_trans (Nat.add_le_add_right (Nat.add_le_add_right (hchunk _) _) _) ?_
      generalize (amount / 10).toNat * (order * 10).toNat = rest at *
      cases handled
      · by_cases hzero : dust = 0
        · simp [hzero, pendingDust] at h ⊢
          omega
        · simp [hzero, pendingDust] at h ⊢
          omega
      · simp [pendingDust] at h ⊢
        omega

theorem total_decompose_le (amount threshold : UInt64) :
    Wrapping.total (decomposeAmountIntoDigits amount threshold) ≤ amount.toNat :=
  total_decomposeLoop_le threshold 21 amount 0 1 false [] (by simp [pendingDust])

theorem length_mergeFirst {outs : List UInt64} (h : 2 ≤ outs.length) : (mergeFirst outs).length = outs.length - 1 := by
  match outs with
  | a :: b :: rest => rfl

theorem total_mergeFirst_le (outs : List UInt64) : Wrapping.total (mergeFirst outs) ≤ Wrapping.total outs := by
  match outs with
  | [] => exact le_rfl
  | [_] => exact le_rfl
  | a :: b :: rest =>
    have hsum : (a + b).toNat ≤ a.toNat + b.toNat := by
      rw [UInt64.toNat_add]
      exact Nat.mod_le _ _
    simp only [mergeFirst, Wrapping.total_cons]
    omega

theorem total_mergeOuts_le (maxOuts : Nat) (outs : List UInt64) :
    Wrapping.total (mergeOuts maxOuts outs) ≤ Wrapping.total outs := by
  unfold mergeOuts
  generalize outs.length - maxOuts = n
  induction n generalizing outs with
  | zero => exact le_rfl
  | succ n ih =>
    rw [Function.iterate_succ_apply]
    exact (ih _).trans (total_mergeFirst_le outs)

theorem length_mergeOuts_le (hm : 0 < maxOuts) (outs : List UInt64) : (mergeOuts maxOuts outs).length ≤ maxOuts := by
  unfold mergeOuts
  generalize hn : outs.length - maxOuts = n
  induction n generalizing outs with
  | zero =>
    rw [Function.iterate_zero, id]
    omega
  | succ n ih =>
    rw [Function.iterate_succ_apply]
    grind [length_mergeFirst]

theorem outAmounts_bounds {blockReward : UInt64} (h : outAmounts version height maxOuts blockReward = some amounts) :
    Wrapping.total amounts ≤ blockReward.toNat ∧ amounts.length ≤ maxOuts := by
  have hdigits := total_decompose_le blockReward (if 2 ≤ version then 0 else 5000)
  unfold outAmounts at h
  dsimp only at h
  generalize decomposeAmountIntoDigits blockReward (if 2 ≤ version then 0 else 5000) = digits at h hdigits
  split at h
  · cases h
  grind [total_mergeOuts_le, length_mergeOuts_le]

theorem buildOuts_amounts {minting : Minting} {no : Nat} {outs : List TxOut}
    (h : buildOuts minting no amounts = some outs) : outs.map (·.amount) = amounts := by
  induction amounts generalizing no outs with
  | nil =>
    obtain rfl := Option.some.inj h
    rfl
  | cons amount rest ih =>
    simp only [buildOuts, bind, Option.bind_eq_some_iff] at h
    grind

theorem varintSizeFuel_le (fuel n : Nat) : varintSizeFuel fuel n ≤ fuel + 1 := by
  induction fuel generalizing n with
  | zero => exact le_rfl
  | succ fuel ih => grind [varintSizeFuel]

theorem varintSize_le (n : Nat) : varintSize n ≤ 10 := varintSizeFuel_le 9 n

theorem sum_outs_le (outs : List TxOut) :
    (outs.map fun o => varintSize o.amount.toNat + 33).sum ≤ 43 * outs.length := by
  induction outs with
  | nil => exact le_rfl
  | cons o rest ih => grind [varintSize_le]

theorem blobSize_le (hvin : tx.vin = [.gen height]) (hvout : tx.vout.length ≤ 11) :
    tx.blobSize ≤ tx.extra.length + 600 := by
  have h1 := varintSize_le tx.version
  have h2 := varintSize_le tx.unlockTime
  have h3 := varintSize_le tx.vin.length
  have h4 := varintSize_le height
  have h5 := varintSize_le tx.vout.length
  grind [sum_outs_le, varintSize_le, TxIn.blobSize, MinerTx.blobSize]

section Construct
variable {minting : Minting} {height : Nat} {median coins size fee : UInt64} {extraNonce : Bytes} {maxOuts : Nat}
  {version : UInt8} {tx : MinerTx}

theorem length_minerTxExtra_le {extra : Bytes} (h : minerTxExtra minting extraNonce = some extra) :
    extra.length ≤ 290 := by
  have hkey : (txPubKeyExtra minting.txPub).length = 33 := by
    rw [txPubKeyExtra, List.length_cons, minting.txPub.size]
  unfold minerTxExtra at h
  grind [addExtraNonceToTxExtra]

structure Mints (height : Nat) (version : UInt8) (reward fee : UInt64) (tx : MinerTx) : Prop where
  unlockTime : tx.unlockTime = height + 18
  vin : tx.vin = [.gen height]
  money : Wrapping.sum tx.amounts = clampReward version (reward + fee)
  exact : Wrapping.total tx.amounts < 2 ^ 64
  outs : tx.vout.length ≤ 11

theorem constructMinerTx_cases (hm : maxOuts ≤ 11)
    (h : constructMinerTx minting height median coins size fee extraNonce maxOuts version = some tx) :
    ∃ reward, getBlockReward median size coins version height = some reward ∧ Mints height version reward fee tx ∧
      tx.blobSize ≤ 890 := by
  simp only [constructMinerTx, bind, Option.bind_eq_some_iff] at h
  obtain ⟨extra, hextra, reward, hreward, amounts, hamounts, vout, hvout, h⟩ := h
  split at h
  · cases h
  rename_i hsum
  obtain ⟨htotal, hlength⟩ := outAmounts_bounds hamounts
  have hmap := buildOuts_amounts hvout
  have hlen : vout.length ≤ 11 := by grind
  have hmints : Mints height version reward fee tx := by
    obtain rfl := Option.some.inj h
    refine ⟨rfl, rfl, not_not.1 hsum, ?_, hlen⟩
    show Wrapping.total (vout.map (·.amount)) < 2 ^ 64
    rw [hmap]
    exact lt_of_le_of_lt htotal (UInt64.toNat_lt _)
  grind [blobSize_le, length_minerTxExtra_le]

variable {reward : UInt64}

theorem Mints.withExtra (h : Mints height version reward fee tx) (extra : Bytes) :
    Mints height version reward fee { tx with extra := extra } := ⟨h.unlockTime, h.vin, h.money, h.exact, h.outs⟩

theorem Mints.prevalidate (h : Mints height version reward fee tx) : prevalidateMinerTransaction tx height = true := by
  unfold prevalidateMinerTransaction
  rw [h.vin]
  simp only [h.unlockTime, beq_self_eq_true, Bool.true_and]
  rw [Wrapping.overflowFree_iff]
  simpa using h.exact

end Construct

structure Filling.Totals (f : Filling) : Prop where
  size : f.totalSize = Wrapping.sum (f.txs.map (·.blobSize))
  fee : f.fee = Wrapping.sum (f.txs.map (·.fee))

theorem Filling.Totals.consider (h : f.Totals) (e : PoolEntry) (coinbase : UInt64) : (f.consider e coinbase).Totals ∧
      ((f.consider e coinbase).txs = f.txs ∨ (f.consider e coinbase).txs = f.txs ++ [e.tx]) := by
  unfold Filling.consider
  split
  · exact ⟨h, Or.inl rfl⟩
  split
  · exact ⟨h, Or.inl rfl⟩
  split
  · exact ⟨h, Or.inl rfl⟩
  · exact ⟨⟨by simp [h.size], by simp [h.fee]⟩, Or.inr rfl⟩

theorem fillFrom_spec {median maxTotalSize : UInt64} {pool : List PoolEntry}
    {g : Filling} (hf : f.Totals) (h : fillFrom median coins maxTotalSize version height f pool = some g) :
    g.Totals ∧ ∃ chosen, g.txs = f.txs ++ chosen ∧ chosen.Sublist (pool.map (·.tx)) := by
  induction pool generalizing f with
  | nil =>
    obtain rfl := Option.some.inj h
    simp_all
  | cons e rest ih =>
    have hskip : fillFrom median coins maxTotalSize version height f rest = some g →
        g.Totals ∧ ∃ chosen, g.txs = f.txs ++ chosen ∧ chosen.Sublist ((e :: rest).map (·.tx)) := by grind
    have htake : ∀ coinbase, fillFrom median coins maxTotalSize version height (f.consider e coinbase) rest = some g →
        g.Totals ∧ ∃ chosen, g.txs = f.txs ++ chosen ∧ chosen.Sublist ((e :: rest).map (·.tx)) := by
      intro coinbase h
      obtain ⟨hnext, hcase⟩ := hf.consider e coinbase
      grind
    rw [fillFrom] at h
    split at h
    · cases h
    split at h
    · exact hskip h
    split at h
    · grind
    split at h
    · simp_all
    · exact htake _ h

theorem sub_toNat_le {a b : UInt64} (h : b < a) : (a - b).toNat ≤ a.toNat ∧ (a - b - 1).toNat ≤ a.toNat := by
  rw [UInt64.lt_iff_toNat_lt] at h
  have hab : (a - b).toNat = a.toNat - b.toNat := UInt64.toNat_sub_of_le _ _ (UInt64.le_iff_toNat_le.2 h.le)
  refine ⟨by omega, ?_⟩
  rw [UInt64.toNat_sub_of_le _ _ (by rw [UInt64.le_iff_toNat_le, hab]; show 1 ≤ _; omega), hab]
  omega

theorem templateLoop_spec {construct : Nat → UInt64 → Option MinerTx} {txsSize : UInt64}
    (hsmall : ∀ i size tx, construct i size = some tx → tx.blobSize ≤ 890) {tries : Nat} {cumulativeSize : UInt64}
    {B : Nat} (hB : 890 ≤ B) (hc : (cumulativeSize - txsSize).toNat ≤ B) {result : MinerTx × UInt64}
    (h : templateLoop construct txsSize tries cumulativeSize = some result) :
    ∃ i tx extra, construct i result.2 = some tx ∧ result.1 = { tx with extra := extra } ∧
      extra.length ≤ tx.extra.length + B * 2 ^ tries ∧ result.2 = txsSize + coinbaseSize result.1 := by
  induction tries generalizing cumulativeSize B with
  | zero => cases h
  | succ tries ih =>
    have hgrow : B ≤ B * 2 ^ (tries + 1) := Nat.le_mul_of_pos_right B (Nat.two_pow_pos _)
    have hagain : ∀ next, (next - txsSize).toNat ≤ 2 * B → templateLoop construct txsSize tries next = some result →
        ∃ i tx extra, construct i result.2 = some tx ∧ result.1 = { tx with extra := extra } ∧
          extra.length ≤ tx.extra.length + B * 2 ^ (tries + 1) ∧ result.2 = txsSize + coinbaseSize result.1 := by grind
    rw [templateLoop] at h
    split at h
    · cases h
    rename_i tx hconstruct
    have hcoinbase : (coinbaseSize tx).toNat ≤ 890 := (Nat.mod_le _ _).trans (hsmall _ _ _ hconstruct)
    split at h
    · refine hagain _ ?_ h
      rw [UInt64.add_comm, UInt64.add_sub_cancel]
      omega
    split at h
    · rename_i hpad
      obtain ⟨hdelta, hdelta1⟩ := sub_toNat_le hpad
      generalize hd : cumulativeSize - txsSize - coinbaseSize tx = delta at h hdelta hdelta1
      dsimp only at h
      split at h
      · grind
      split at h
      · cases h
      split at h
      · grind
      · refine hagain _ ?_ h
        have hshift : cumulativeSize + (delta - 1) - txsSize = cumulativeSize - txsSize + (delta - 1) := by grind
        rw [hshift, UInt64.toNat_add]
        exact (Nat.mod_le _ _).trans (by omega)
    grind

theorem getD_lt (hn : 0 < n) (h : ∀ x ∈ l, x.toNat < n) (i : Nat) : (l.getD i 0).toNat < n := by
  rw [List.getD_eq_getElem?_getD]
  cases hget : l[i]? with
  | none => simpa using hn
  | some x => exact h x (List.mem_of_getElem? hget)

theorem median_lt (h : ∀ x ∈ l, x.toNat < 2 ^ 63) : (Difficulty.median l).toNat < 2 ^ 63 := by
  have hsorted : ∀ x ∈ l.insertionSort (· ≤ ·), x.toNat < 2 ^ 63 := fun x hx => h x ((List.mem_insertionSort _).1 hx)
  have hget := getD_lt (by decide) hsorted
  unfold Difficulty.median
  dsimp only
  split
  · have := hget 0
    rwa [List.getD_eq_getElem?_getD, ← List.head?_eq_getElem?, ← List.headD_eq_head?_getD] at this
  split
  · exact hget _
  · have h1 := hget ((l.insertionSort (· ≤ ·)).length / 2 - 1)
    have h2 := hget ((l.insertionSort (· ≤ ·)).length / 2)
    rw [UInt64.toNat_div, UInt64.toNat_add, Nat.mod_eq_of_lt (by omega)]
    show _ / 2 < _
    omega

theorem medianSize_lt (db : List BlockInfo) : (medianSize db).toNat < 2 ^ 63 := by
  refine median_lt fun x hx => ?_
  obtain ⟨b, -, rfl⟩ := List.mem_map.1 hx
  exact b.size_lt

theorem max_self_right (a b : UInt64) : max (max a b) b = max a b := by
  show (if (if a ≤ b then b else a) ≤ b then b else if a ≤ b then b else a) = if a ≤ b then b else a
  split
  · rw [if_pos (UInt64.le_refl b)]
  · rfl

theorem half_limit (version : UInt8) (db : List BlockInfo) :
    updateNextCumulativeSizeLimit version db / 2 = max (medianSize db) (getMinBlockSize version) := by
  have hlt :=
    max_lt (medianSize_lt db) ((getMinBlockSize_lt version).trans (by decide))
  show max (medianSize db) (getMinBlockSize version) * 2 / 2 = _
  rw [← UInt64.toNat_inj, UInt64.toNat_div, UInt64.toNat_mul]
  show _ * 2 % 2 ^ 64 / 2 = _
  omega

theorem getBlockReward_half_limit (version : UInt8) (db : List BlockInfo) (size coins : UInt64) (height : Nat) :
    getBlockReward (updateNextCumulativeSizeLimit version db / 2) size coins version height =
      getBlockReward (medianSize db) size coins version height := by
  unfold getBlockReward
  rw [half_limit, max_self_right]

theorem Mints.validate {db : List BlockInfo} {reward fee size : UInt64}
    (hv : version ≠ 2 ∧ version ≠ 3) (hreward : getBlockReward (medianSize db) size coins version db.length = some reward)
    (h : Mints db.length version reward fee tx) :
    (validateMinerTransaction db tx size fee coins version version).isSome = true := by
  have hclamp : ¬ (2 ≤ version ∧ version < 4) := by
    rintro ⟨h2, h4⟩
    grind
  have hmoney : Wrapping.sum tx.amounts = reward + fee := by rw [h.money, clampReward, if_neg hclamp]
  grind [validateMinerTransaction, checkReward]

/-- The node itself would accept the template as a block, and the size is the true one. -/
structure Template.Valid (t : Template) (s : TemplateState) : Prop where
  size : t.cumulativeSize.toNat = t.minerTx.blobSize + Wrapping.total (t.txs.map (·.blobSize))
  prevalidated : prevalidateMinerTransaction t.minerTx s.db.length = true
  validated : (validateMinerTransaction s.db t.minerTx
    (coinbaseSize t.minerTx + Wrapping.sum (t.txs.map (·.blobSize))) (Wrapping.sum (t.txs.map (·.fee)))
    (alreadyGeneratedCoins s.db) s.version s.version).isSome = true

theorem total_sublist_le {l l' : List PoolTx} (h : l.Sublist l') :
    Wrapping.total (l.map (·.blobSize)) ≤ Wrapping.total (l'.map (·.blobSize)) := by
  exact ((h.map _).map _).sum_le_sum fun _ _ => Nat.zero_le _

theorem createBlockTemplate_cases (h : createBlockTemplate s minting extraNonce = some t) :
    ∃ reward, getBlockReward (s.limit / 2) t.cumulativeSize (alreadyGeneratedCoins s.db) s.version s.db.length = some reward ∧
      Mints s.db.length s.version reward (Wrapping.sum (t.txs.map (·.fee))) t.minerTx ∧
      t.cumulativeSize = coinbaseSize t.minerTx + Wrapping.sum (t.txs.map (·.blobSize)) ∧
      t.minerTx.blobSize < 2 ^ 32 ∧ Wrapping.total (t.txs.map (·.blobSize)) < 2 ^ 63 := by
  unfold createBlockTemplate at h
  split at h
  · cases h
  simp only [bind, Option.bind_eq_some_iff] at h
  obtain ⟨filling, hfill, first, hfirst, result, hloop, h⟩ := h
  obtain ⟨htotals, chosen, htxs, hsub⟩ := fillFrom_spec ⟨rfl, rfl⟩ hfill
  rw [List.nil_append] at htxs
  have hm : (if 4 ≤ s.version then 1 else 11) ≤ 11 := by split <;> omega
  obtain ⟨-, -, -, hsmall⟩ := constructMinerTx_cases hm hfirst
  have hstart : (filling.totalSize + coinbaseSize first - filling.totalSize).toNat ≤ 890 := by
    rw [UInt64.add_comm, UInt64.add_sub_cancel]
    exact (Nat.mod_le _ _).trans hsmall
  obtain ⟨i, tx, extra, hconstruct, hresult, hextra, hsize⟩ := templateLoop_spec
    (fun i size tx hc => (constructMinerTx_cases hm hc).choose_spec.2.2) le_rfl hstart hloop
  obtain ⟨reward, hreward, hmints, hblob⟩ := constructMinerTx_cases hm hconstruct
  obtain rfl := Option.some.inj h
  have hmints' := hmints.withExtra extra
  rw [← hresult, htotals.fee] at hmints'
  refine ⟨reward, hreward, hmints', ?_, ?_, ?_⟩
  · show result.2 = _
    rw [hsize, htotals.size, UInt64.add_comm]
  · show result.1.blobSize < _
    have hlong := blobSize_le hmints'.vin hmints'.outs
    grind [MinerTx.blobSize]
  · show Wrapping.total (filling.txs.map (·.blobSize)) < _
    rw [htxs]
    have hle := total_sublist_le hsub
    rw [List.map_map] at hle
    exact lt_of_le_of_lt hle s.fits

theorem template_valid
    (hv : s.version ≠ 2 ∧ s.version ≠ 3) (hlimit : s.limit = updateNextCumulativeSizeLimit s.version s.db)
    (h : createBlockTemplate s minting extraNonce = some t) : t.Valid s := by
  obtain ⟨reward, hreward, hmints, hsize, hblob, htxs⟩ := createBlockTemplate_cases h
  rw [hlimit, getBlockReward_half_limit] at hreward
  refine ⟨?_, hmints.prevalidate, ?_⟩
  · have hcoinbase : (coinbaseSize t.minerTx).toNat = t.minerTx.blobSize := Nat.mod_eq_of_lt (hblob.trans (by decide))
    rw [hsize, UInt64.toNat_add, hcoinbase, Wrapping.toNat_sum (htxs.trans (by decide))]
    omega
  · rw [← hsize]
    exact hmints.validate hv hreward

def freeMinting : Nat → Minting := fun _ => ⟨default, fun _ => some default⟩

def feeTx : PoolTx := ⟨default, 1000, 3000000⟩

def feeState (version : UInt8) : TemplateState where
  db := twoBlocks
  version := version
  limit := updateNextCumulativeSizeLimit version twoBlocks
  difficulty := 1
  pool := [⟨feeTx, true, true, true, []⟩]
  fits := by decide

def clampedTemplate : Template := ⟨⟨1, 20, [.gen 2], [], txPubKeyExtra default⟩, [feeTx], 1040, 0⟩

theorem createBlockTemplate_clamped (hv : version = 2 ∨ version = 3) :
    createBlockTemplate (feeState version) freeMinting [] = some clampedTemplate := by
  rcases hv with rfl | rfl <;> decide +kernel

theorem reward_clamped (hv : version = 2 ∨ version = 3) :
    getBlockReward (medianSize twoBlocks) 1040 1000 version 2 = some 2002716 := by
  rcases hv with rfl | rfl <;> decide +kernel

theorem not_valid_clamped (hv : version = 2 ∨ version = 3) : ¬ clampedTemplate.Valid (feeState version) := by
  intro h
  have hrefused : (validateMinerTransaction twoBlocks clampedTemplate.minerTx 1040 3000000 1000 version version).isSome =
      false := by
    rcases hv with rfl | rfl <;> decide +kernel
  exact Bool.false_ne_true (hrefused.symm.trans h.validated)

end Reward

end Electronero
