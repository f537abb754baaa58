import Electronero.Basic
import Electronero.Lib.FiniteMap
/-!
# Chain, pool and the rules of the base layer

The outcome of the base layer's checks is left open: a `BaseRules` is any choice of outcomes.
-/
namespace Electronero
open Text FiniteMap

structure Block where
  id : Hash
  majorVersion : UInt8
  minorVersion : UInt8
  timestamp : UInt64
  prevId : Hash
  /-- `get_block_height`: the height its miner transaction names -/
  height : Nat
  minerTx : Transaction
  txHashes : List Hash
deriving DecidableEq

structure StoredBlock where
  block : Block
  txs : List Transaction
  /-- below `UInt64.size`, as every cumulative difficulty -/
  cumulativeDifficulty : Nat
deriving DecidableEq

structure BlockExtendedInfo where
  block : Block
  height : Nat
  cumulativeDifficulty : Nat
deriving DecidableEq

structure TxVerificationContext where
  shouldBeRelayed : Bool
  verificationFailed : Bool
  verificationImpossible : Bool
  addedToPool : Bool
  lowMixin : Bool
  highMixin : Bool
  doubleSpend : Bool
  invalidInput : Bool
  invalidOutput : Bool
  tooBig : Bool
  overspend : Bool
  feeTooLow : Bool
  notRct : Bool
deriving DecidableEq

def TxVerificationContext.init : TxVerificationContext :=
  ⟨false, false, false, false, false, false, false, false, false, false, false, false, false⟩

abbrev Chain := List StoredBlock
abbrev Pool := UMap Hash Transaction

/-- `chain` starts with the genesis block, so a block's height is its position. -/
structure Base where
  chain : Chain
  alternatives : UMap Hash BlockExtendedInfo
  invalidBlocks : Finset Hash
  pool : Pool
  badSemantics : Finset Hash × Finset Hash
  /-- every block ever taken off the main chain, for the statements about runs; nothing reads it -/
  popped : List StoredBlock
deriving DecidableEq

structure BaseRules where
  parseTx : Bytes → Option Transaction
  hardForkVersion : Chain → Nat
  checkTxSyntax : Transaction → Bool
  isWithinCompiledBlockHashArea : Chain → Bool
  checkTxSemantic : Transaction → Bool → Bool
  /-- `tx_memory_pool::add_tx` (tx_pool.cpp:110) up to the insertion: verdict and context -/
  poolCheck : Chain → Pool → Transaction → Bool → Bool × TxVerificationContext
  checkBlockTimestamp : Chain → Block → Bool
  difficultyForNextBlock : Chain → Nat
  /-- proof of work or precomputed hash, checkpoint, `prevalidate_miner_transaction` -/
  checkHeader : Chain → Block → Bool
  checkTxInputs : Chain → Block → Transaction → Bool
  validateMinerTransaction : Chain → Block → List Transaction → Bool
  /-- `m_db->add_block` does not throw -/
  dbAddBlock : Chain → Block → List Transaction → Bool
  /-- `is_alternative_block_allowed` and `check_for_height` -/
  alternativeAllowed : Chain → Block → Bool
  alternativeTimestamp : Chain → List BlockExtendedInfo → Block → Bool
  /-- `m_checkpoints.check_block(height, id, is_a_checkpoint)`; `none` = the check fails -/
  checkpoint : Nat → Hash → Option Bool
  alternativeDifficulty : Chain → List BlockExtendedInfo → Block → Nat
  /-- proof of work and `prevalidate_miner_transaction` for an alternative block -/
  alternativeProof : Chain → Block → Nat → Nat → Bool

def BaseRules.lenient (table : List (Bytes × Transaction)) : BaseRules where
  parseTx blob := (table.find? (·.1 = blob)).map (·.2)
  hardForkVersion _ := 2
  checkTxSyntax _ := true
  isWithinCompiledBlockHashArea _ := false
  checkTxSemantic _ _ := true
  poolCheck _ _ _ _ := (true, { TxVerificationContext.init with addedToPool := true })
  checkBlockTimestamp _ _ := true
  difficultyForNextBlock _ := 1
  checkHeader _ _ := true
  checkTxInputs _ _ _ := true
  validateMinerTransaction _ _ _ := true
  dbAddBlock _ _ _ := true
  alternativeAllowed _ _ := true
  alternativeTimestamp _ _ _ := true
  checkpoint _ _ := some false
  alternativeDifficulty _ _ _ := 1
  alternativeProof _ _ _ _ := true

namespace Base

def ofChain (chain : Chain) : Base := ⟨chain, ∅, ∅, ∅, (∅, ∅), []⟩

variable (b : Base)

def height : Nat := b.chain.length

def tailId : Hash := ((b.chain.getLast?).map (·.block.id)).getD default

def haveTx (id : Hash) : Bool := b.chain.any fun e => e.block.minerTx.id == id || e.txs.any (·.id == id)

def blockExists (id : Hash) : Bool := b.chain.any (·.block.id == id)

def haveBlock (id : Hash) : Bool :=
  b.blockExists id || (b.alternatives.lookup id).isSome || decide (id ∈ b.invalidBlocks)

def poolAdd (rules : BaseRules) (tx : Transaction) (keptByBlock : Bool) : Base × Bool × TxVerificationContext :=
  let r := rules.poolCheck b.chain b.pool tx keptByBlock
  (if r.1 then { b with pool := b.pool.insert tx.id tx } else b, r)

theorem poolAdd_chain (rules : BaseRules) (tx : Transaction) (kept : Bool) :
    (b.poolAdd rules tx kept).1.chain = b.chain := by
  unfold poolAdd
  dsimp only
  split <;> rfl

end Base

end Electronero
