import Electronero.Core.TxPool
import Electronero.Core.TxRoundTrip
/-!
# A refused block (`handle_block_to_main_chain`, src/cryptonote_core/blockchain.cpp:3583)

What the checks answer is a parameter (`BlockMoment`). A read transaction of LMDB is a flag of the thread; the list of
invalid blocks and the counters are left out.
-/
namespace Electronero.Wire
open Text List

structure ChainDb where
  blocks : List Block
  txs : Finset Hash
  spentKeys : Finset KeyImage
deriving DecidableEq

structure WriteFaults where
  txnStart : Bool
  tx : Hash → Bool
  block : Bool

namespace ChainDb

/-- `add_spent_key` for the inputs. `.error` is `KEY_IMAGE_EXISTS`, with what was written before; the flag is false at an
input of an unsupported type. -/
def addSpentKeys : Finset KeyImage → List TxIn → Except (Finset KeyImage) (Bool × Finset KeyImage)
  | spentKeys, [] => .ok (true, spentKeys)
  | spentKeys, .toKey _ _ kImage :: vin =>
    if kImage ∈ spentKeys then .error spentKeys else addSpentKeys (insert kImage spentKeys) vin
  | spentKeys, .gen _ :: vin => addSpentKeys spentKeys vin
  | spentKeys, _ :: _ => .ok (false, spentKeys)

def addTransaction (faults : WriteFaults) (db : ChainDb) (txHash : Hash) (tx : Transaction) : Except ChainDb ChainDb :=
  match addSpentKeys db.spentKeys tx.vin with
  | .error spentKeys => .error { db with spentKeys }
  | .ok (false, spentKeys) => .ok { db with spentKeys := spentKeys \ (tx.toKeys.map TxinToKey.kImage).toFinset }
  | .ok (true, spentKeys) =>
    if txHash ∈ db.txs then .error { db with spentKeys }
    else
      let db := { db with spentKeys, txs := insert txHash db.txs }
      if (tx.vout.any fun out => match out.target with | .toKey _ => false | _ => true) || faults.tx txHash then .error db
      else .ok db

def addBlock (rules : PoolRules) (getBlockHash : Block → Hash) (faults : WriteFaults) (db : ChainDb) (bl : Block)
    (txs : List Transaction) : Except ChainDb ChainDb :=
  if faults.txnStart then .error db
  else do
    let db ← db.addTransaction faults (rules.getTransactionHash bl.minerTx) bl.minerTx
    let db ← (bl.txHashes.zip txs).foldlM (fun db (txHash, tx) => db.addTransaction faults txHash tx) db
    if getBlockHash bl ∈ db.blocks.map getBlockHash ∨ faults.block = true then .error db
    else .ok { db with blocks := db.blocks ++ [bl] }

end ChainDb

structure StoreState where
  chain : ChainDb
  pool : TxMemoryPool
  /-- the write transaction of a batch -/
  batchActive : Bool
  readTxn : Bool

namespace StoreState

def blockTxnStart (s : StoreState) : StoreState := { s with readTxn := s.readTxn || !s.batchActive }

def blockTxnStop (s : StoreState) : StoreState := { s with readTxn := s.readTxn && s.batchActive }

end StoreState

structure BlockMoment where
  getBlockHash : Block → Hash
  checkBlockTimestamp : Block → Bool
  difficulty : UInt64
  blocksHashCheck : List Hash
  checkHash : Block → Bool
  /-- the checkpoint at this height, if there is one -/
  checkCheckpoint : Block → Bool
  prevalidateMinerTransaction : Block → Bool
  blocksTxsCheck : List Hash
  checkTxInputs : Transaction → Bool
  coinbaseBlobSize : Block → UInt64
  /-- by block size and fees -/
  validateMinerTransaction : Block → UInt64 → UInt64 → Bool
  /-- `bvc.m_verifivation_failed` on entry -/
  verificationFailed : Bool
  faults : WriteFaults
  taking : PoolMoment
  /-- the surroundings of the `add_tx` calls of `return_tx_to_pool`, apart from the clock -/
  returning : Nat → PoolMoment

inductive HeaderCheck where
  | leave
  | difficultyOverhead
  | passed (fastCheck : Bool)
deriving DecidableEq

namespace BlockMoment
variable (around : BlockMoment) (rules : PoolRules)

def getTailId (db : ChainDb) : Hash := (db.blocks.getLast?.map around.getBlockHash).getD nullHash

def checkHashes (db : ChainDb) (bl : Block) : Option Bool :=
  if h : db.blocks.length < around.blocksHashCheck.length then
    let expectedHash := around.blocksHashCheck[db.blocks.length]
    if expectedHash ≠ nullHash then
      if around.getBlockHash bl ≠ expectedHash then none else some true
    else some false
  else if around.checkHash bl then some false else none

def checkHeader (db : ChainDb) (bl : Block) : HeaderCheck :=
  if bl.prevId ≠ around.getTailId db then .leave
  else if !around.checkBlockTimestamp bl then .leave
  else if around.difficulty = 0 then .difficultyOverhead
  else match around.checkHashes db bl with
    | none => .leave
    | some fastCheck =>
      if !around.checkCheckpoint bl then .leave
      else if !around.prevalidateMinerTransaction bl then .leave
      else .passed fastCheck

structure Gathered where
  txs : List Transaction
  cumulativeBlockSize : UInt64
  feeSummary : UInt64
  pool : TxMemoryPool

def takeTxs (txsInChain : Finset Hash) (fastCheck : Bool) : Nat → Gathered → List Hash → Except Gathered Gathered
  | _, g, [] => .ok g
  | txIndex, g, txId :: rest =>
    if txId ∈ txsInChain then .error g
    else match g.pool.takeTx rules around.taking txId with
      | (none, pool) => .error { g with pool }
      | (some taken, pool) =>
        let g' : Gathered := { g with pool, txs := g.txs ++ [taken.tx] }
        if fastCheck && around.blocksTxsCheck[txIndex]? ≠ some txId then .error g'
        else if !fastCheck && !around.checkTxInputs taken.tx then .error g'
        else takeTxs txsInChain fastCheck (txIndex + 1)
          { g' with
            feeSummary := g.feeSummary + taken.fee
            cumulativeBlockSize := g.cumulativeBlockSize + taken.blobSize } rest

def returnTxToPool (clock : Nat → UInt64) : Nat → TxMemoryPool → List Transaction → TxMemoryPool
  | _, pool, [] => pool
  | i, pool, tx :: txs =>
    returnTxToPool clock (i + 1)
      (pool.addTxOf rules { around.returning i with now := clock i } tx .init true true false).2.2 txs

def handleBlockToMainChain (clock : Nat → UInt64) (s : StoreState) (bl : Block) : Bool × StoreState :=
  let s := s.blockTxnStart
  match around.checkHeader s.chain bl with
  | .leave => (false, s.blockTxnStop)
  | .difficultyOverhead => (false, s)
  | .passed fastCheck =>
    match around.takeTxs rules s.chain.txs fastCheck 0 ⟨[], around.coinbaseBlobSize bl, 0, s.pool⟩ bl.txHashes with
    | .error g => (false, { s with pool := around.returnTxToPool rules clock 0 g.pool g.txs }.blockTxnStop)
    | .ok g =>
      if !around.validateMinerTransaction bl g.cumulativeBlockSize g.feeSummary then
        (false, { s with pool := around.returnTxToPool rules clock 0 g.pool g.txs }.blockTxnStop)
      else
        let s := { s with pool := g.pool }.blockTxnStop
        if around.verificationFailed then (true, s)
        else match s.chain.addBlock rules around.getBlockHash around.faults bl g.txs with
          -- `block_txn_abort` does nothing within a batch
          | .error chain =>
            (false, { s with
              chain := if s.batchActive then chain else s.chain
              pool := around.returnTxToPool rules clock 0 g.pool g.txs })
          | .ok chain => (true, { s with chain })

end BlockMoment

def TxpoolTxMeta.handling (d : TxpoolTxMeta) : Bool × Bool × Bool × UInt64 × Bool :=
  (d.keptByBlock, d.relayed, d.doNotRelay, d.receiveTime, d.doubleSpendSeen)

/-- The chain is the same, every pool transaction is there with the same metadata, and the read transaction is open if it
was. -/
structure StoreState.NoTrace (s s' : StoreState) : Prop where
  chain : s'.chain = s.chain
  pool : ∀ e ∈ s.pool.db.entries, ∃ e' ∈ s'.pool.db.entries, e'.txid = e.txid ∧ e'.details.handling = e.details.handling
  readTxn : s'.readTxn = s.readTxn

namespace TxMemoryPool
variable {rules : PoolRules} {m : PoolMoment} {p p' p'' : TxMemoryPool} {c : UInt64}

def Within (c : UInt64) (p p' : TxMemoryPool) : Prop :=
  ∀ e' ∈ p'.db.entries, e'.details.receiveTime = c ∨
    ∃ e ∈ p.db.entries, e.txid = e'.txid ∧ e.details.receiveTime = e'.details.receiveTime

theorem Within.refl (c : UInt64) (p : TxMemoryPool) : Within c p p := fun e' he' => .inr ⟨e', he', rfl, rfl⟩

theorem Within.trans (h : Within c p p') (h' : Within c p' p'') : Within c p p'' := by
  intro e'' he''
  rcases h' e'' he'' with hnew | ⟨e', he', hid', htime'⟩
  · exact .inl hnew
  · rcases h e' he' with hnew | ⟨e, he, hid, htime⟩
    · exact .inl (htime' ▸ hnew)
    · exact .inr ⟨e, he, hid.trans hid', htime.trans htime'⟩

theorem Within.of_subset (h : p'.db.entries ⊆ p.db.entries) : Within c p p' := fun e' he' => .inr ⟨e', h he', rfl, rfl⟩

theorem dropTx_subset (rules : PoolRules) (p : TxMemoryPool) (txid : Hash) (tx : Transaction) (size : UInt64) :
    (p.dropTx rules txid tx size).db.entries ⊆ p.db.entries := fun _ he => (mem_filter.1 he).1

theorem within_prune (p : TxMemoryPool) (bytes : UInt64) : Within c p (p.prune rules m bytes) :=
  pruneFrom_rule rules m
    (fun q _ it e tx h _ _ => h.trans (.of_subset (dropTx_subset rules q it.txid tx (UInt64.ofNat e.blob.length))))
    (.refl c p) _ _

theorem mem_entries_add {db db' : TxpoolDb} {e e' : TxpoolEntry} (h : db.add e = some db') (he' : e' ∈ db'.entries) :
    e' = e ∨ e' ∈ db.entries := by
  unfold TxpoolDb.add at h
  split_ifs at h
  cases h
  exact (mem_orderedInsert _).1 he'

theorem within_insertTx (p : TxMemoryPool) (tx : Transaction) (id : Hash) (details : TxpoolTxMeta) (removeFirst : Bool) :
    Within details.receiveTime p (p.insertTx rules m tx id details removeFirst).2 := by
  have hfirst : ∀ db, db = (if removeFirst = true then p.db.remove (rules.getTransactionHash tx) else p.db) →
      db.entries ⊆ p.db.entries := by
    rintro db rfl
    split_ifs
    · exact fun _ he => (mem_filter.1 he).1
    · exact Subset.refl _
  unfold insertTx
  dsimp only
  generalize hdb : (if removeFirst = true then p.db.remove (rules.getTransactionHash tx) else p.db) = db
  have hsub := hfirst db hdb.symm
  rcases hadd : db.add ⟨rules.getTransactionHash tx, details, (txToBlob tx).getD []⟩ with _ | db'
  · split_ifs
    · exact .refl _ _
    · exact .of_subset hsub
    · exact .of_subset hsub
  · have hnew : ∀ q : TxMemoryPool, q.db = db' → Within details.receiveTime p q := by
      rintro q rfl e' he'
      grind [mem_entries_add]
    rcases insertKeyImages (rules.getTransactionHash tx) details.keptByBlock p.spentKeyImages tx.vin with ⟨_ | _, spent⟩
    all_goals
      dsimp only
      split_ifs
      · exact .refl _ _
      · exact .of_subset hsub
      · exact hnew _ rfl

theorem within_markDoubleSpend (p : TxMemoryPool) (vin : List TxIn) : Within c p (p.markDoubleSpend m vin) := by
  induction vin generalizing p with
  | nil => exact .refl _ _
  | cons txin vin ih =>
    unfold markDoubleSpend
    rcases txin.getToKey with _ | tokey
    · exact .refl _ _
    · refine Within.trans (fun e' he' => ?_) (ih _)
      obtain ⟨e, he, rfl⟩ := List.mem_map.1 he'
      grind

theorem within_addTxOf (p : TxMemoryPool) (tx : Transaction) (tvc : TxVerificationContext)
    (keptByBlock relayed doNotRelay : Bool) :
    Within m.now p (p.addTxOf rules m tx tvc keptByBlock relayed doNotRelay).2.2 := by
  unfold addTxOf
  rcases txToBlob tx with _ | blob
  · exact .refl _ _
  dsimp only
  split_ifs
  · exact .refl _ _
  rcases addTx_cases rules m p tx (rules.getTransactionHash tx) (UInt64.ofNat blob.length) tvc keptByBlock relayed doNotRelay
    with ⟨tvc', heq⟩ | ⟨tvc', heq⟩ | ⟨-, -, -, fee, tvc', heq⟩ <;> rw [heq]
  · exact .refl _ _
  · exact within_markDoubleSpend p tx.vin
  rcases addChecked_cases rules m p tx (rules.getTransactionHash tx) (UInt64.ofNat blob.length) fee tvc' keptByBlock relayed
    doNotRelay with ⟨tvc', heq'⟩ | ⟨details, removeFirst, p', tvc', -, -, htime, hinserted⟩
  · rw [heq']
    exact .refl _ _
  have hinsert : Within m.now p (p.insertTx rules m tx (rules.getTransactionHash tx) details removeFirst).2 :=
    htime ▸ within_insertTx p tx (rules.getTransactionHash tx) details removeFirst
  rcases hinserted with ⟨hr, heq'⟩ | ⟨hr, heq'⟩ <;> rw [heq'] <;> rw [hr] at hinsert
  · exact hinsert
  · exact Within.trans hinsert (within_prune { p' with txpoolSize := p'.txpoolSize + UInt64.ofNat blob.length } _)

def Takeable (m : PoolMoment) (p : TxMemoryPool) (txid : Hash) : Prop :=
  p.txsByFeeAndReceiveTime.any (·.txid = txid) = true ∧ m.faults.getMeta txid = false ∧ (p.parseStored m txid).isSome ∧
    m.faults.remove txid = false

variable {txid : Hash}

theorem takeTx_of_takeable (rules : PoolRules) (h : p.Takeable m txid) :
    ∃ e taken p', e ∈ p.db.entries ∧ e.txid = txid ∧ p.takeTx rules m txid = (some taken, p') ∧
      ∀ e' ∈ p'.db.entries, e'.txid ≠ txid := by
  obtain ⟨hlisted, hmeta, hstored, hremove⟩ := h
  obtain ⟨⟨e, tx⟩, hstored⟩ := Option.isSome_iff_exists.1 hstored
  obtain ⟨hmem, hid, -⟩ := parseStored_eq_some hstored
  unfold takeTx
  rw [if_neg (by simp [hlisted]), if_neg (by simp [hmeta]), hstored]
  dsimp only
  rw [if_neg (by simp [hremove])]
  refine ⟨e, _, _, hmem, hid, rfl, fun e' he' => ?_⟩
  simpa using (mem_filter.1 he').2

theorem takeTx_of_not_takeable (h : ¬ p.Takeable m txid) : p.takeTx rules m txid = (none, p) := by
  unfold takeTx
  rcases hstored : p.parseStored m txid with _ | ⟨e, tx⟩
  · dsimp only
    split_ifs <;> rfl
  · dsimp only
    split_ifs with hlisted hmeta hremove
    · rfl
    · rfl
    · rfl
    · exact absurd ⟨by simpa using hlisted, by simpa using hmeta, by simp [hstored], by simpa using hremove⟩ h

theorem takeTx_subset (p : TxMemoryPool) (txid : Hash) : (p.takeTx rules m txid).2.db.entries ⊆ p.db.entries := by
  unfold takeTx
  grind [dropTx_subset]

end TxMemoryPool

def BlockMoment.Gathered.ofLoop : Except BlockMoment.Gathered BlockMoment.Gathered → BlockMoment.Gathered
  | .ok g => g
  | .error g => g

namespace BlockMoment
variable {around : BlockMoment} {rules : PoolRules} {clock : Nat → UInt64} {s : StoreState} {bl : Block}

def HeaderPasses (around : BlockMoment) (db : ChainDb) (bl : Block) : Prop :=
  bl.prevId = around.getTailId db ∧ around.checkBlockTimestamp bl = true ∧ around.difficulty ≠ 0 ∧
    (around.checkHashes db bl).isSome ∧ around.checkCheckpoint bl = true ∧ around.prevalidateMinerTransaction bl = true

def Overhead (around : BlockMoment) (db : ChainDb) (bl : Block) : Prop :=
  bl.prevId = around.getTailId db ∧ around.checkBlockTimestamp bl = true ∧ around.difficulty = 0

theorem checkHeader_cases (around : BlockMoment) (db : ChainDb) (bl : Block) :
    (around.checkHeader db bl = .leave ∧ ¬ around.HeaderPasses db bl ∧ ¬ around.Overhead db bl) ∨
    (around.checkHeader db bl = .difficultyOverhead ∧ ¬ around.HeaderPasses db bl ∧ around.Overhead db bl) ∨
    ∃ fastCheck, around.checkHeader db bl = .passed fastCheck ∧ around.HeaderPasses db bl ∧ ¬ around.Overhead db bl := by
  unfold checkHeader HeaderPasses Overhead
  by_cases hprev : bl.prevId = around.getTailId db
  · grind
  · simp [hprev]

def Takes (around : BlockMoment) (s : StoreState) (bl : Block) : Prop :=
  around.HeaderPasses s.chain bl ∧
    ∃ txId rest, bl.txHashes = txId :: rest ∧ txId ∉ s.chain.txs ∧ s.pool.Takeable around.taking txId

def BreaksOff (around : BlockMoment) (rules : PoolRules) (s : StoreState) (bl : Block) : Prop :=
  around.HeaderPasses s.chain bl ∧ bl.txHashes = [] ∧
    around.validateMinerTransaction bl (around.coinbaseBlobSize bl) 0 = true ∧ around.verificationFailed = false ∧
    ∃ chain, s.chain.addBlock rules around.getBlockHash around.faults bl [] = .error chain ∧ chain ≠ s.chain

theorem takeTxs_subset (txsInChain : Finset Hash) (fastCheck : Bool) (txIndex : Nat) (g : Gathered) (txIds : List Hash) :
    (Gathered.ofLoop (around.takeTxs rules txsInChain fastCheck txIndex g txIds)).pool.db.entries ⊆ g.pool.db.entries := by
  induction txIds generalizing txIndex g with
  | nil => exact Subset.refl _
  | cons txId rest ih =>
    have htake : (g.pool.takeTx rules around.taking txId).2.db.entries ⊆ g.pool.db.entries :=
      TxMemoryPool.takeTx_subset g.pool txId
    unfold takeTxs
    by_cases hexists : txId ∈ txsInChain
    · rw [if_pos hexists]
      exact Subset.refl _
    · rw [if_neg hexists]
      rcases hr : g.pool.takeTx rules around.taking txId with ⟨_ | taken, pool⟩ <;> rw [hr] at htake <;> dsimp only
      · exact htake
      · split_ifs
        · exact htake
        · exact htake
        · exact Subset.trans (ih _ _) htake

theorem returnTxToPool_within (c : UInt64) (i : Nat) (pool : TxMemoryPool) (txs : List Transaction) :
    pool.Within c (around.returnTxToPool rules (fun _ => c) i pool txs) := by
  induction txs generalizing i pool with
  | nil => exact .refl _ _
  | cons tx txs ih => exact TxMemoryPool.Within.trans (TxMemoryPool.within_addTxOf _ tx _ true true false) (ih _ _)

def gathered (around : BlockMoment) (rules : PoolRules) (s : StoreState) (bl : Block) (fastCheck : Bool) :
    Except Gathered Gathered :=
  around.takeTxs rules s.chain.txs fastCheck 0 ⟨[], around.coinbaseBlobSize bl, 0, s.pool⟩ bl.txHashes

theorem refused_cases (h : (around.handleBlockToMainChain rules clock s bl).1 = false) :
    (around.checkHeader s.chain bl = .leave ∧
      around.handleBlockToMainChain rules clock s bl = (false, s.blockTxnStart.blockTxnStop)) ∨
    (around.checkHeader s.chain bl = .difficultyOverhead ∧
      around.handleBlockToMainChain rules clock s bl = (false, s.blockTxnStart)) ∨
    ∃ fastCheck chain, around.checkHeader s.chain bl = .passed fastCheck ∧
      around.handleBlockToMainChain rules clock s bl = (false, { s.blockTxnStart.blockTxnStop with
        chain
        pool := around.returnTxToPool rules clock 0 (Gathered.ofLoop (around.gathered rules s bl fastCheck)).pool
          (Gathered.ofLoop (around.gathered rules s bl fastCheck)).txs }) ∧
      ((chain = s.chain ∧ ∀ g, around.gathered rules s bl fastCheck = .ok g →
          around.validateMinerTransaction bl g.cumulativeBlockSize g.feeSummary = false) ∨
        ∃ g db, around.gathered rules s bl fastCheck = .ok g ∧
          around.validateMinerTransaction bl g.cumulativeBlockSize g.feeSummary = true ∧
          around.verificationFailed = false ∧
          s.chain.addBlock rules around.getBlockHash around.faults bl g.txs = .error db ∧
          chain = if s.batchActive then db else s.chain) := by
  revert h
  unfold handleBlockToMainChain
  dsimp only [StoreState.blockTxnStart]
  rcases around.checkHeader s.chain bl with _ | _ | fastCheck
  · exact fun _ => .inl ⟨rfl, rfl⟩
  · exact fun _ => .inr (.inl ⟨rfl, rfl⟩)
  dsimp only
  rw [show around.takeTxs rules s.chain.txs fastCheck 0 ⟨[], around.coinbaseBlobSize bl, 0, s.pool⟩ bl.txHashes =
    around.gathered rules s bl fastCheck from rfl]
  rcases hg : around.gathered rules s bl fastCheck with g | g
  · exact fun _ => .inr (.inr ⟨fastCheck, s.chain, rfl, by rw [hg]; rfl, .inl ⟨rfl, fun g' hg' => by simp [hg] at hg'⟩⟩)
  dsimp only
  cases hvalid : around.validateMinerTransaction bl g.cumulativeBlockSize g.feeSummary with
  | false =>
    refine fun _ => .inr (.inr ⟨fastCheck, s.chain, rfl, by rw [hg]; rfl, .inl ⟨rfl, fun g' hg' => ?_⟩⟩)
    rw [hg] at hg'
    cases hg'
    exact hvalid
  | true =>
    cases hfailed : around.verificationFailed with
    | true => simp
    | false =>
      dsimp only [Bool.not_true, Bool.false_eq_true, if_false, StoreState.blockTxnStop]
      rcases hadd : s.chain.addBlock rules around.getBlockHash around.faults bl g.txs with db | db
      · refine fun _ => .inr (.inr ⟨fastCheck, if s.batchActive then db else s.chain, rfl, ?_, .inr ?_⟩)
        · rw [hg]
          rfl
        · exact ⟨g, db, hg, hvalid, rfl, hadd, rfl⟩
      · simp

theorem handleBlockToMainChain_of_leave (h : around.checkHeader s.chain bl = .leave) :
    around.handleBlockToMainChain rules clock s bl = (false, s.blockTxnStart.blockTxnStop) := by
  have h' : around.checkHeader s.blockTxnStart.chain bl = .leave := h
  unfold handleBlockToMainChain
  dsimp only
  rw [h']

theorem readTxn_start_stop (s : StoreState) :
    s.blockTxnStart.blockTxnStop.readTxn = s.readTxn ↔ s.batchActive = true ∨ s.readTxn = false := by
  unfold StoreState.blockTxnStop StoreState.blockTxnStart
  cases s.readTxn <;> cases s.batchActive <;> simp

theorem readTxn_start (s : StoreState) : s.blockTxnStart.readTxn = s.readTxn ↔ s.batchActive = true ∨ s.readTxn = true := by
  unfold StoreState.blockTxnStart
  cases s.readTxn <;> cases s.batchActive <;> simp

theorem gathered_gone {txId : Hash} {rest : List Hash} (htxs : bl.txHashes = txId :: rest) (hexists : txId ∉ s.chain.txs)
    {taken : TxMemoryPool.Taken} {p' : TxMemoryPool} (htake : s.pool.takeTx rules around.taking txId = (some taken, p'))
    (hgone : ∀ e ∈ p'.db.entries, e.txid ≠ txId) (fastCheck : Bool) :
    ∀ e ∈ (Gathered.ofLoop (around.gathered rules s bl fastCheck)).pool.db.entries, e.txid ≠ txId := by
  unfold gathered
  rw [htxs]
  unfold takeTxs
  rw [if_neg hexists]
  dsimp only
  rw [htake]
  dsimp only
  split_ifs
  · exact hgone
  · exact hgone
  · exact fun e he => hgone e (takeTxs_subset _ _ _ _ _ he)

theorem not_noTrace_of_takes (htakes : around.Takes s bl)
    (hrefused : ∀ clock, (around.handleBlockToMainChain rules clock s bl).1 = false) :
    ∃ clock, ¬ s.NoTrace (around.handleBlockToMainChain rules clock s bl).2 := by
  obtain ⟨hheader, txId, rest, htxs, hexists, htakeable⟩ := htakes
  obtain ⟨e, taken, p', hmem, rfl, htake, hgone⟩ := TxMemoryPool.takeTx_of_takeable rules htakeable
  refine ⟨fun _ => e.details.receiveTime + 1, fun hno => ?_⟩
  rcases checkHeader_cases around s.chain bl with ⟨-, hnot, -⟩ | ⟨-, hnot, -⟩ | ⟨fastCheck, hpassed, -⟩
  · exact hnot hheader
  · exact hnot hheader
  have hgathered := gathered_gone htxs hexists htake hgone fastCheck
  obtain ⟨e', he', hid, hhandling⟩ := hno.pool e hmem
  have htime : e'.details.receiveTime = e.details.receiveTime := congrArg (fun h => h.2.2.2.1) hhandling
  rcases refused_cases (hrefused fun _ => e.details.receiveTime + 1) with ⟨hleave, -⟩ | ⟨hover, -⟩ | ⟨fast', chain, hp', heq, -⟩
  · rw [hpassed] at hleave
    cases hleave
  · rw [hpassed] at hover
    cases hover
  · rw [hpassed] at hp'
    cases hp'
    rw [heq] at he'
    rcases returnTxToPool_within _ _ _ _ e' he' with hnow | ⟨e₀, he₀, hid₀, -⟩
    · grind
    · exact hgathered e₀ he₀ (hid₀.trans hid)

theorem gathered_of_not_takes (hheader : around.HeaderPasses s.chain bl) (h : ¬ around.Takes s bl) (fastCheck : Bool) :
    around.gathered rules s bl fastCheck =
      if bl.txHashes = [] then .ok ⟨[], around.coinbaseBlobSize bl, 0, s.pool⟩
      else .error ⟨[], around.coinbaseBlobSize bl, 0, s.pool⟩ := by
  unfold gathered
  rcases htxs : bl.txHashes with _ | ⟨txId, rest⟩
  · rfl
  · rw [if_neg (cons_ne_nil _ _)]
    unfold takeTxs
    by_cases hexists : txId ∈ s.chain.txs
    · rw [if_pos hexists]
    · have hnot : ¬ s.pool.Takeable around.taking txId := fun htakeable =>
        h ⟨hheader, txId, rest, htxs, hexists, htakeable⟩
      rw [if_neg hexists, TxMemoryPool.takeTx_of_not_takeable hnot]

theorem noTrace_iff_of_pool {s' : StoreState} (hpool : s'.pool = s.pool) :
    s.NoTrace s' ↔ s'.chain = s.chain ∧ s'.readTxn = s.readTxn :=
  ⟨fun hno => ⟨hno.chain, hno.readTxn⟩, fun h => ⟨h.1, fun e he => ⟨e, hpool ▸ he, rfl, rfl⟩, h.2⟩⟩

theorem breaksOff_iff (hheader : around.HeaderPasses s.chain bl) (htxs : bl.txHashes = [])
    (hvalid : around.validateMinerTransaction bl (around.coinbaseBlobSize bl) 0 = true)
    (hfailed : around.verificationFailed = false) {db : ChainDb}
    (hadd : s.chain.addBlock rules around.getBlockHash around.faults bl [] = .error db) :
    around.BreaksOff rules s bl ↔ db ≠ s.chain := by
  constructor
  · rintro ⟨-, -, -, -, db', hdb', hne⟩
    cases hadd.symm.trans hdb'
    exact hne
  · exact fun hne => ⟨hheader, htxs, hvalid, hfailed, db, hadd, hne⟩

theorem noTrace_iff_of_not_takes (h : ¬ around.Takes s bl)
    (hrefused : (around.handleBlockToMainChain rules clock s bl).1 = false) :
    s.NoTrace (around.handleBlockToMainChain rules clock s bl).2 ↔
      (s.batchActive = true ∨ (s.readTxn = true ↔ around.Overhead s.chain bl)) ∧
      ¬ (s.batchActive = true ∧ around.BreaksOff rules s bl) := by
  rcases checkHeader_cases around s.chain bl with
      ⟨hcheck, hnot, hover⟩ | ⟨hcheck, hnot, hover⟩ | ⟨fastCheck, hcheck, hheader, hover⟩ <;>
    rcases refused_cases hrefused with ⟨hcheck', heq⟩ | ⟨hcheck', heq⟩ | ⟨fast', chain, hcheck', heq, hchain⟩ <;>
    rw [hcheck] at hcheck' <;> cases hcheck' <;> rw [heq]
  · have hbreaks : ¬ around.BreaksOff rules s bl := fun hb => hnot hb.1
    grind [noTrace_iff_of_pool, readTxn_start_stop, StoreState.blockTxnStop, StoreState.blockTxnStart]
  · have hbreaks : ¬ around.BreaksOff rules s bl := fun hb => hnot hb.1
    grind [noTrace_iff_of_pool, readTxn_start, StoreState.blockTxnStart]
  · rw [gathered_of_not_takes hheader h] at hchain
    have hpool : around.returnTxToPool rules clock 0 (Gathered.ofLoop (around.gathered rules s bl fastCheck)).pool
        (Gathered.ofLoop (around.gathered rules s bl fastCheck)).txs = s.pool := by
      rw [gathered_of_not_takes hheader h]
      split_ifs <;> rfl
    rw [noTrace_iff_of_pool hpool, readTxn_start_stop, and_comm]
    refine and_congr (by simp [hover]) ?_
    rcases hchain with ⟨rfl, hinvalid⟩ | ⟨g, db, hg, hvalid, hfailed, hadd, rfl⟩
    · -- the miner transaction was not valid
      refine iff_of_true rfl ?_
      rintro ⟨-, -, htxs, hvalid, -⟩
      simp_all
    · -- the database threw
      obtain ⟨htxs, hg⟩ : bl.txHashes = [] ∧ g = ⟨[], around.coinbaseBlobSize bl, 0, s.pool⟩ := by
        split_ifs at hg with htxs
        cases hg
        exact ⟨htxs, rfl⟩
      grind [breaksOff_iff]

end BlockMoment

/-- **When a refused block leaves no trace**, whatever the clock shows. Above all its first transaction must not be taken
out of the pool. -/
theorem no_trace_iff (around : BlockMoment) (rules : PoolRules) (s : StoreState) (bl : Block)
    (hrefused : ∀ clock, (around.handleBlockToMainChain rules clock s bl).1 = false) :
    (∀ clock, s.NoTrace (around.handleBlockToMainChain rules clock s bl).2) ↔
      ¬ around.Takes s bl ∧ (s.batchActive = true ∨ (s.readTxn = true ↔ around.Overhead s.chain bl)) ∧
      ¬ (s.batchActive = true ∧ around.BreaksOff rules s bl) := by
  constructor
  · intro hno
    have htakes : ¬ around.Takes s bl := fun htakes =>
      have ⟨clock, htrace⟩ := BlockMoment.not_noTrace_of_takes htakes hrefused
      htrace (hno clock)
    exact ⟨htakes, (BlockMoment.noTrace_iff_of_not_takes htakes (hrefused fun _ => 0)).1 (hno fun _ => 0)⟩
  · grind [BlockMoment.noTrace_iff_of_not_takes]

def plainAround : BlockMoment where
  getBlockHash bl := Env.plainHash bl.prevId.bytes
  checkBlockTimestamp _ := true
  difficulty := 1
  blocksHashCheck := []
  checkHash _ := true
  checkCheckpoint _ := true
  prevalidateMinerTransaction _ := true
  blocksTxsCheck := []
  checkTxInputs _ := true
  coinbaseBlobSize _ := 0
  validateMinerTransaction _ _ _ := true
  verificationFailed := false
  faults := ⟨false, fun _ => false, false⟩
  taking := calmMoment
  returning _ := calmMoment

def ringStore (batchActive : Bool) : StoreState :=
  ⟨⟨[], ∅, ∅⟩, (TxMemoryPool.new.addTxOf plainRules calmMoment ringTx .init false false true).2.2, batchActive, false⟩

def blockOf (prevId : Hash) (txHashes : List Hash) : Block := { emptyBlock with prevId, txHashes }

theorem strayBlock_no_trace :
    (ringStore false).NoTrace (plainAround.handleBlockToMainChain plainRules (fun _ => 5) (ringStore false)
      (blockOf (Env.plainHash [1]) [plainRules.getTransactionHash ringTx])).2 := by
  have hprev : (blockOf (Env.plainHash [1]) [plainRules.getTransactionHash ringTx]).prevId ≠
      plainAround.getTailId (ringStore false).chain := by decide +kernel
  refine (no_trace_iff plainAround plainRules (ringStore false) (blockOf (Env.plainHash [1]) _) fun clock => ?_).2
    ⟨fun h => hprev h.1.1, .inr ?_, fun h => hprev h.2.1.1⟩ fun _ => 5
  · rw [BlockMoment.handleBlockToMainChain_of_leave (if_pos hprev)]
  · exact ⟨fun h => Bool.noConfusion h, fun h => absurd h.1 hprev⟩

/-- `ringTx` is in the pool and the second transaction of the block is not. -/
theorem taken_tx_comes_back_changed :
    let s := ringStore false
    let r := plainAround.handleBlockToMainChain plainRules (fun _ => 5) s
      (blockOf nullHash [plainRules.getTransactionHash ringTx, Env.plainHash [9]])
    r.1 = false ∧ s.pool.db.entries.map (·.details.handling) = [(false, false, true, 0, false)] ∧
    r.2.pool.db.entries.map (·.details.handling) = [(true, true, false, 5, false)] ∧ ¬ s.NoTrace r.2 := by
  intro s r
  have hbefore : s.pool.db.entries.map (·.details.handling) = [(false, false, true, 0, false)] := by decide +kernel
  have hafter : r.2.pool.db.entries.map (·.details.handling) = [(true, true, false, 5, false)] := by decide +kernel
  refine ⟨by decide +kernel, hbefore, hafter, fun hno => ?_⟩
  obtain ⟨e, he, hx⟩ := List.mem_map.1 (hbefore ▸ mem_cons_self)
  obtain ⟨e', he', -, hsame⟩ := hno.pool e he
  have hmem : e.details.handling ∈ r.2.pool.db.entries.map (·.details.handling) := hsame ▸ List.mem_map_of_mem he'
  rw [hafter, hx] at hmem
  revert hmem
  decide

/-- With a difficulty of zero the function is left by `CHECK_AND_ASSERT_MES`, and the read transaction stays open. -/
example :
    ({ plainAround with difficulty := 0 }.handleBlockToMainChain plainRules (fun _ => 0) (ringStore false)
      (blockOf nullHash [])).2.readTxn = true := by
  decide +kernel

end Electronero.Wire
