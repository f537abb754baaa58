import Electronero.Core.OutputScan
import Electronero.Core.State
/-!
# The transaction pool (`src/cryptonote_core/tx_pool.cpp`)

What the pool asks of the chain is a parameter of the call (`PoolMoment`), and so are the database calls that throw: such
a call has changed nothing. Calls outside of any `try` are taken not to fail.
-/
namespace Electronero.Wire
open Text FiniteMap

structure TxpoolTxMeta where
  maxUsedBlockId : Hash
  lastFailedId : Hash
  blobSize : UInt64
  fee : UInt64
  maxUsedBlockHeight : UInt64
  lastFailedHeight : UInt64
  receiveTime : UInt64
  lastRelayedTime : UInt64
  keptByBlock : Bool
  relayed : Bool
  doNotRelay : Bool
  doubleSpendSeen : Bool
deriving DecidableEq

structure TxpoolEntry where
  txid : Hash
  details : TxpoolTxMeta
  blob : Bytes
deriving DecidableEq

/-- The two tables, which have the same keys, in the order of the keys. -/
structure TxpoolDb where
  entries : List TxpoolEntry
  nodup : (entries.map TxpoolEntry.txid).Nodup

/-- `compare_hash32`: the words of a key from the last to the first. -/
def hashValue (h : Hash) : Nat := h.bytes.foldr (fun b n => b.toNat + 256 * n) 0

namespace TxpoolDb

def empty : TxpoolDb := ⟨[], List.nodup_nil⟩

def find (db : TxpoolDb) (txid : Hash) : Option TxpoolEntry := db.entries.find? (·.txid = txid)

variable {e : TxpoolEntry}

theorem find_eq_some {db : TxpoolDb} {txid : Hash} (h : db.find txid = some e) : e ∈ db.entries ∧ e.txid = txid :=
  ⟨List.mem_of_find?_eq_some h, by simpa using List.find?_some h⟩

def has (db : TxpoolDb) (txid : Hash) : Bool := db.entries.any (·.txid = txid)

theorem nodup_orderedInsert (db : TxpoolDb) (h : db.has e.txid = false) :
    ((db.entries.orderedInsert (fun a b => hashValue a.txid ≤ hashValue b.txid) e).map TxpoolEntry.txid).Nodup := by
  refine ((List.perm_orderedInsert _ e db.entries).map TxpoolEntry.txid).nodup_iff.2 ?_
  rw [List.map_cons, List.nodup_cons]
  refine ⟨?_, db.nodup⟩
  simpa [has] using h

def add (db : TxpoolDb) (e : TxpoolEntry) : Option TxpoolDb :=
  if h : db.has e.txid = false then some ⟨_, db.nodup_orderedInsert h⟩ else none

def remove (db : TxpoolDb) (txid : Hash) : TxpoolDb :=
  ⟨db.entries.filter (·.txid ≠ txid), db.nodup.sublist (List.filter_sublist.map _)⟩

theorem map_txid_modify (entries : List TxpoolEntry) (f : TxpoolEntry → TxpoolTxMeta) :
    (entries.map fun e => { e with details := f e }).map TxpoolEntry.txid = entries.map TxpoolEntry.txid := by
  simp [Function.comp_def]

def modify (db : TxpoolDb) (f : TxpoolEntry → TxpoolTxMeta) : TxpoolDb :=
  ⟨db.entries.map fun e => { e with details := f e }, by rw [map_txid_modify]; exact db.nodup⟩

end TxpoolDb

/-- `fee / (double)blob_size`, the time and the id; the double is given by its place in the order of the doubles. -/
structure SortedEntry where
  rate : Nat
  receiveTime : UInt64
  txid : Hash
deriving DecidableEq

def txCompare (a b : SortedEntry) : Prop :=
  b.rate < a.rate ∨ a.rate = b.rate ∧ (a.receiveTime < b.receiveTime ∨ a.receiveTime = b.receiveTime ∧ a.txid ≠ b.txid)

instance : DecidableRel txCompare := fun a b => by unfold txCompare; infer_instance

def emplace (e : SortedEntry) (sorted : List SortedEntry) : List SortedEntry :=
  if e ∈ sorted then sorted else sorted.orderedInsert txCompare e

structure TxMemoryPool where
  db : TxpoolDb
  txpoolMaxSize : UInt64
  txpoolSize : UInt64
  txsByFeeAndReceiveTime : List SortedEntry
  spentKeyImages : UMap KeyImage (Finset Hash)
  timedOutTransactions : Finset Hash

structure DbFaults where
  getMeta : Hash → Bool
  getBlob : Hash → Bool
  add : Hash → Bool
  remove : Hash → Bool
  update : Hash → Bool

structure PoolMoment where
  now : UInt64
  checkFee : UInt64 → UInt64 → Bool
  transactionSizeLimit : UInt64
  checkTxOutputs : Transaction → TxVerificationContext → Bool × TxVerificationContext
  /-- `check_tx_inputs` with `kept_by_block`: `max_used_block_height` and `max_used_block_id` -/
  checkTxInputs : Transaction → Bool → TxVerificationContext → Option (UInt64 × Hash) × TxVerificationContext
  /-- the blockchain's `have_tx` -/
  haveTx : Hash → Bool
  faults : DbFaults

structure PoolRules where
  getTransactionHash : Transaction → Hash
  /-- the place of `fee / (double)blob_size` -/
  feePerByte : UInt64 → UInt64 → Nat
  /-- what a parse that fails has filled in -/
  leftover : Bytes → Transaction

def minMixin : UInt64 := 1
def maxMixin : UInt64 := 100
def defaultTxpoolMaxSize : UInt64 := 648000000
def mempoolTxLivetime : UInt64 := 86400 * 5
def mempoolTxFromAltBlockLivetime : UInt64 := 604800

def spenders (spent : UMap KeyImage (Finset Hash)) (kImage : KeyImage) : Finset Hash := getD spent kImage ∅

def insertKeyImages (id : Hash) (keptByBlock : Bool) (spent : UMap KeyImage (Finset Hash)) :
    List TxIn → Bool × UMap KeyImage (Finset Hash)
  | [] => (true, spent)
  | txin :: vin =>
    match txin.getToKey with
    | none => (false, spent)
    | some tokey =>
      let kei := spenders spent tokey.kImage
      if ¬ (keptByBlock = true ∨ kei = ∅) then (false, spent)
      else if id ∈ kei then (false, spent)
      else insertKeyImages id keptByBlock (spent.insert tokey.kImage (insert id kei)) vin

def removeTransactionKeyimages (actualHash : Hash) (spent : UMap KeyImage (Finset Hash)) :
    List TxIn → Bool × UMap KeyImage (Finset Hash)
  | [] => (true, spent)
  | txin :: vin =>
    match txin.getToKey with
    | none => (false, spent)
    | some tokey =>
      match spent.lookup tokey.kImage with
      | none => (false, spent)
      | some keyImageSet =>
        if keyImageSet = ∅ then (false, spent)
        else if actualHash ∉ keyImageSet then (false, spent)
        else
          let rest := keyImageSet.erase actualHash
          removeTransactionKeyimages actualHash
            (if rest = ∅ then spent.erase tokey.kImage else spent.insert tokey.kImage rest) vin

namespace TxMemoryPool
variable (rules : PoolRules) (m : PoolMoment)

def haveTxKeyimgesAsSpent (p : TxMemoryPool) : List TxIn → Bool
  | [] => false
  | txin :: vin =>
    match txin.getToKey with
    | none => true
    | some tokey => if (p.spentKeyImages.lookup tokey.kImage).isSome then true else haveTxKeyimgesAsSpent p vin

def markDoubleSpend (p : TxMemoryPool) : List TxIn → TxMemoryPool
  | [] => p
  | txin :: vin =>
    match txin.getToKey with
    | none => p
    | some tokey =>
      let seen := spenders p.spentKeyImages tokey.kImage
      markDoubleSpend { p with db := p.db.modify fun e =>
        if e.txid ∈ seen ∧ m.faults.update e.txid = false then { e.details with doubleSpendSeen := true } else e.details } vin

def eraseSorted (sorted : List SortedEntry) (txid : Hash) : List SortedEntry := sorted.eraseP (·.txid = txid)

def dropTx (p : TxMemoryPool) (txid : Hash) (tx : Transaction) (size : UInt64) : TxMemoryPool :=
  { p with
    db := p.db.remove txid
    txpoolSize := p.txpoolSize - size
    spentKeyImages := (removeTransactionKeyimages (rules.getTransactionHash tx) p.spentKeyImages tx.vin).2 }

def parseStored (p : TxMemoryPool) (txid : Hash) : Option (TxpoolEntry × Transaction) :=
  if m.faults.getBlob txid then none
  else (p.db.find txid).bind fun e => (parseAndValidateTxFromBlob e.blob).map fun tx => (e, tx)

variable {p : TxMemoryPool}

theorem parseStored_eq_some {m : PoolMoment} {id : Hash} {e : TxpoolEntry} {tx : Transaction}
    (h : p.parseStored m id = some (e, tx)) : e ∈ p.db.entries ∧ e.txid = id ∧ parseAndValidateTxFromBlob e.blob = some tx := by
  unfold parseStored at h
  split at h
  · cases h
  · obtain ⟨e', he', htx⟩ := Option.bind_eq_some_iff.1 h
    obtain ⟨tx', htx', heq⟩ := Option.map_eq_some_iff.1 htx
    grind [TxpoolDb.find_eq_some]

def pruneFrom (bytes : UInt64) : Nat → TxMemoryPool → TxMemoryPool
  | 0, p => p
  | k + 1, p =>
    if p.txpoolSize ≤ bytes then p
    else match p.txsByFeeAndReceiveTime[k + 1]? with
      | none => p
      | some it =>
        if m.faults.getMeta it.txid then p
        else match p.db.find it.txid with
          | none => p
          | some e =>
            if e.details.keptByBlock then pruneFrom bytes k p
            else match p.parseStored m it.txid with
              | none => p
              | some (e, tx) =>
                if m.faults.remove it.txid then p
                else
                  let p := p.dropTx rules it.txid tx (UInt64.ofNat e.blob.length)
                  pruneFrom bytes k { p with txsByFeeAndReceiveTime := p.txsByFeeAndReceiveTime.eraseIdx (k + 1) }

def prune (bytes : UInt64) (p : TxMemoryPool) : TxMemoryPool :=
  pruneFrom rules m (if bytes = 0 then p.txpoolMaxSize else bytes) (p.txsByFeeAndReceiveTime.length - 1) p

theorem pruneFrom_rule {P : TxMemoryPool → Prop}
    (hdrop : ∀ p k it e tx, P p → p.txsByFeeAndReceiveTime[k]? = some it → p.parseStored m it.txid = some (e, tx) →
      P { p.dropTx rules it.txid tx (UInt64.ofNat e.blob.length) with
        txsByFeeAndReceiveTime := p.txsByFeeAndReceiveTime.eraseIdx k })
    (h : P p) (bytes : UInt64) (k : Nat) : P (pruneFrom rules m bytes k p) := by
  induction k generalizing p with
  | zero => exact h
  | succ k ih =>
    unfold pruneFrom
    rcases hit : p.txsByFeeAndReceiveTime[k + 1]? with _ | it
    · split_ifs <;> exact h
    · dsimp only
      rcases p.db.find it.txid with _ | e₀
      · split_ifs <;> exact h
      · dsimp only
        rcases hstored : p.parseStored m it.txid with _ | ⟨e, tx⟩
        · dsimp only
          split_ifs
          · exact h
          · exact h
          · exact ih h
          · exact h
        · dsimp only
          split_ifs
          · exact h
          · exact h
          · exact ih h
          · exact h
          · exact ih (hdrop p (k + 1) it e tx h hit hstored)

structure Taken where
  tx : Transaction
  blobSize : UInt64
  fee : UInt64
  relayed : Bool
  doNotRelay : Bool
  doubleSpendSeen : Bool
deriving DecidableEq

def takeTx (p : TxMemoryPool) (id : Hash) : Option Taken × TxMemoryPool :=
  if p.txsByFeeAndReceiveTime.any (·.txid = id) = false then (none, p)
  else if m.faults.getMeta id then (none, p)
  else match p.parseStored m id with
    | none => (none, p)
    | some (e, tx) =>
      if m.faults.remove id then (none, p)
      else
        let p := p.dropTx rules id tx e.details.blobSize
        (some ⟨tx, e.details.blobSize, e.details.fee, e.details.relayed, e.details.doNotRelay, e.details.doubleSpendSeen⟩,
          { p with txsByFeeAndReceiveTime := eraseSorted p.txsByFeeAndReceiveTime id })

def isStuck (now : UInt64) (e : TxpoolEntry) : Bool :=
  let txAge := now - e.details.receiveTime
  mempoolTxLivetime < txAge && !e.details.keptByBlock || mempoolTxFromAltBlockLivetime < txAge && e.details.keptByBlock

def removeStuck (p : TxMemoryPool) (txid : Hash) : TxMemoryPool :=
  match p.parseStored m txid with
  | none => p
  | some (e, tx) =>
    if m.faults.remove txid then p else p.dropTx rules txid tx (UInt64.ofNat e.blob.length)

def removeStuckTransactions (p : TxMemoryPool) : TxMemoryPool :=
  let remove := (p.db.entries.filter (isStuck m.now)).map TxpoolEntry.txid
  let p := { p with
    txsByFeeAndReceiveTime := remove.foldl eraseSorted p.txsByFeeAndReceiveTime
    timedOutTransactions := p.timedOutTransactions ∪ remove.toFinset }
  remove.foldl (removeStuck rules m) p

def removeInvalid (p : TxMemoryPool) (txid : Hash) : TxMemoryPool :=
  match p.parseStored m txid with
  | none => p
  | some (e, tx) =>
    if m.faults.remove txid then p
    else
      let p := p.dropTx rules txid tx (UInt64.ofNat e.blob.length)
      { p with txsByFeeAndReceiveTime := eraseSorted p.txsByFeeAndReceiveTime txid }

def validate (p : TxMemoryPool) : TxMemoryPool :=
  let remove := (p.db.entries.filter fun e => m.transactionSizeLimit < e.details.blobSize || m.haveTx e.txid).map
    TxpoolEntry.txid
  remove.foldl (removeInvalid rules m)
    { p with txpoolSize := Wrapping.sum (p.db.entries.map fun e => e.details.blobSize) }

def checkInputsTypesSupported (tx : Transaction) : Bool := tx.vin.all fun txin => txin.getToKey.isSome

def getInputsMoneyAmount (tx : Transaction) : Option UInt64 :=
  (tx.vin.mapM TxIn.getToKey).map fun inputs => Wrapping.sum (inputs.map TxinToKey.amount)

def getOutsMoneyAmount (tx : Transaction) : UInt64 := Wrapping.sum (tx.vout.map TxOut.amount)

def feeOf (tx : Transaction) (tvc : TxVerificationContext) : Except TxVerificationContext UInt64 :=
  if tx.version = 1 then
    match getInputsMoneyAmount tx with
    | none => .error { tvc with verificationFailed := true }
    | some inputsAmount =>
      let outputsAmount := getOutsMoneyAmount tx
      if inputsAmount < outputsAmount then .error { tvc with verificationFailed := true, overspend := true }
      else if outputsAmount = inputsAmount then .error { tvc with verificationFailed := true, feeTooLow := true }
      else .ok (inputsAmount - outputsAmount)
  else .ok tx.rctSignatures.txnFee

/-- `mixin_too_high` behind the loop over the inputs; `none` is an input of another type. A ring of one member ends the
loop, with `mixin_too_low` set to false. -/
def mixinTooHigh : List TxIn → Option Bool
  | [] => some false
  | txin :: vin =>
    match txin.getToKey with
    | none => none
    | some tokey =>
      let mixin := UInt64.ofNat tokey.keyOffsets.length - 1
      if mixin < minMixin then some false
      else if maxMixin < mixin then some true
      else mixinTooHigh vin

def insertTx (p : TxMemoryPool) (tx : Transaction) (id : Hash) (details : TxpoolTxMeta) (removeFirst : Bool) :
    Bool × TxMemoryPool :=
  let txid := rules.getTransactionHash tx
  if removeFirst && m.faults.remove txid then (false, p)
  else
    let db := if removeFirst then p.db.remove txid else p.db
    if m.faults.add txid then (false, { p with db })
    else match db.add ⟨txid, details, (txToBlob tx).getD []⟩ with
      | none => (false, { p with db })
      | some db =>
        match insertKeyImages txid details.keptByBlock p.spentKeyImages tx.vin with
        | (false, spentKeyImages) => (false, { p with db, spentKeyImages })
        | (true, spentKeyImages) =>
          (true, { p with
            db, spentKeyImages
            txsByFeeAndReceiveTime :=
              emplace ⟨rules.feePerByte details.fee details.blobSize, details.receiveTime, id⟩ p.txsByFeeAndReceiveTime })

def finishAdd (p : TxMemoryPool) (blobSize : UInt64) : TxMemoryPool :=
  prune rules m p.txpoolMaxSize { p with txpoolSize := p.txpoolSize + blobSize }

def addChecked (p : TxMemoryPool) (tx : Transaction) (id : Hash) (blobSize fee : UInt64) (tvc : TxVerificationContext)
    (keptByBlock relayed doNotRelay : Bool) : Bool × TxVerificationContext × TxMemoryPool :=
  let details : TxpoolTxMeta :=
    { maxUsedBlockId := nullHash, lastFailedId := nullHash, blobSize, fee, maxUsedBlockHeight := 0, lastFailedHeight := 0
      receiveTime := m.now, lastRelayedTime := m.now, keptByBlock, relayed, doNotRelay, doubleSpendSeen := false }
  match m.checkTxInputs tx keptByBlock { tvc with verificationFailed := true } with
  | (none, tvc) =>
    if keptByBlock then
      -- it may become valid again
      match p.insertTx rules m tx id { details with doubleSpendSeen := p.haveTxKeyimgesAsSpent tx.vin } false with
      | (false, p) => (false, tvc, p)
      | (true, p) =>
        (true, { tvc with verificationImpossible := true, addedToPool := true, verificationFailed := false },
          p.finishAdd rules m blobSize)
    else (false, { tvc with verificationFailed := true, invalidInput := true }, p)
  | (some (maxUsedBlockHeight, maxUsedBlockId), tvc) =>
    match p.insertTx rules m tx id { details with maxUsedBlockHeight, maxUsedBlockId } true with
    | (false, p) => (false, tvc, p)
    | (true, p) =>
      (true, { tvc with
        addedToPool := true, shouldBeRelayed := tvc.shouldBeRelayed || (0 < fee && !doNotRelay), verificationFailed := false },
        p.finishAdd rules m blobSize)

theorem addChecked_cases (p : TxMemoryPool) (tx : Transaction) (id : Hash) (blobSize fee : UInt64)
    (tvc : TxVerificationContext) (keptByBlock relayed doNotRelay : Bool) :
    (∃ tvc', p.addChecked rules m tx id blobSize fee tvc keptByBlock relayed doNotRelay = (false, tvc', p)) ∨
    ∃ details removeFirst p' tvc', details.blobSize = blobSize ∧ details.keptByBlock = keptByBlock ∧
      details.receiveTime = m.now ∧
      ((p.insertTx rules m tx id details removeFirst = (false, p') ∧
        p.addChecked rules m tx id blobSize fee tvc keptByBlock relayed doNotRelay = (false, tvc', p')) ∨
      (p.insertTx rules m tx id details removeFirst = (true, p') ∧
        p.addChecked rules m tx id blobSize fee tvc keptByBlock relayed doNotRelay =
          (true, tvc', p'.finishAdd rules m blobSize))) := by
  unfold addChecked
  rcases m.checkTxInputs tx keptByBlock { tvc with verificationFailed := true } with ⟨_ | ⟨height, blockId⟩, tvc'⟩
  · dsimp only
    cases keptByBlock with
    | false => exact .inl ⟨_, rfl⟩
    | true =>
      rw [if_pos rfl]
      generalize hr : p.insertTx rules m tx id _ _ = r
      obtain ⟨_ | _, p'⟩ := r
      · exact .inr ⟨_, _, p', _, rfl, rfl, rfl, .inl ⟨hr, rfl⟩⟩
      · exact .inr ⟨_, _, p', _, rfl, rfl, rfl, .inr ⟨hr, rfl⟩⟩
  · dsimp only
    generalize hr : p.insertTx rules m tx id _ _ = r
    obtain ⟨_ | _, p'⟩ := r
    · grind
    · grind

def addTx (p : TxMemoryPool) (tx : Transaction) (id : Hash) (blobSize : UInt64) (tvc : TxVerificationContext)
    (keptByBlock relayed doNotRelay : Bool) : Bool × TxVerificationContext × TxMemoryPool :=
  if tx.version = 0 then (false, { tvc with verificationFailed := true }, p)
  else if !keptByBlock && id ∈ p.timedOutTransactions then (false, { tvc with verificationFailed := true }, p)
  else if !checkInputsTypesSupported tx then (false, { tvc with verificationFailed := true, invalidInput := true }, p)
  else match feeOf tx tvc with
    | .error tvc => (false, tvc, p)
    | .ok fee =>
      if !keptByBlock && !m.checkFee blobSize fee then
        (false, { tvc with verificationFailed := true, feeTooLow := true }, p)
      else if !keptByBlock && m.transactionSizeLimit < blobSize then
        (false, { tvc with verificationFailed := true, tooBig := true }, p)
      else match mixinTooHigh tx.vin with
        | none => (false, tvc, p)
        | some tooHigh =>
          if !keptByBlock && tooHigh then (false, { tvc with highMixin := true, verificationFailed := true }, p)
          else if !keptByBlock && p.haveTxKeyimgesAsSpent tx.vin then
            (false, { tvc with verificationFailed := true, doubleSpend := true }, p.markDoubleSpend m tx.vin)
          else match m.checkTxOutputs tx tvc with
            | (false, tvc) => (false, { tvc with verificationFailed := true, invalidOutput := true }, p)
            | (true, tvc) => p.addChecked rules m tx id blobSize fee tvc keptByBlock relayed doNotRelay

theorem addTx_cases (p : TxMemoryPool) (tx : Transaction) (id : Hash) (blobSize : UInt64) (tvc : TxVerificationContext)
    (keptByBlock relayed doNotRelay : Bool) :
    (∃ tvc', p.addTx rules m tx id blobSize tvc keptByBlock relayed doNotRelay = (false, tvc', p)) ∨
    (∃ tvc', p.addTx rules m tx id blobSize tvc keptByBlock relayed doNotRelay = (false, tvc', p.markDoubleSpend m tx.vin)) ∨
    (checkInputsTypesSupported tx = true ∧
      (∃ tooHigh, mixinTooHigh tx.vin = some tooHigh ∧ (keptByBlock = true ∨ tooHigh = false)) ∧
      (keptByBlock = true ∨ p.haveTxKeyimgesAsSpent tx.vin = false) ∧
      ∃ fee tvc', p.addTx rules m tx id blobSize tvc keptByBlock relayed doNotRelay =
        p.addChecked rules m tx id blobSize fee tvc' keptByBlock relayed doNotRelay) := by
  have hkept : ∀ {b : Bool}, ¬ (!keptByBlock && b) = true → keptByBlock = true ∨ b = false := by
    intro b hb
    cases keptByBlock <;> simp_all
  generalize hr : p.addTx rules m tx id blobSize tvc keptByBlock relayed doNotRelay = r
  unfold addTx at hr
  -- the version, the list of transactions that timed out and the kinds of inputs
  rcases ite_eq_iff.1 hr with ⟨-, hr⟩ | ⟨-, hr⟩
  · exact .inl ⟨_, hr.symm⟩
  rcases ite_eq_iff.1 hr with ⟨-, hr⟩ | ⟨-, hr⟩
  · exact .inl ⟨_, hr.symm⟩
  rcases ite_eq_iff.1 hr with ⟨-, hr⟩ | ⟨hsupported, hr⟩
  · exact .inl ⟨_, hr.symm⟩
  rcases hfeeOf : feeOf tx tvc with tvc' | fee <;> rw [hfeeOf] at hr
  · exact .inl ⟨_, hr.symm⟩
  -- the fee and the size
  rcases ite_eq_iff.1 hr with ⟨-, hr⟩ | ⟨-, hr⟩
  · exact .inl ⟨_, hr.symm⟩
  rcases ite_eq_iff.1 hr with ⟨-, hr⟩ | ⟨-, hr⟩
  · exact .inl ⟨_, hr.symm⟩
  rcases hloop : mixinTooHigh tx.vin with _ | tooHigh <;> rw [hloop] at hr
  · exact .inl ⟨_, hr.symm⟩
  rcases ite_eq_iff.1 hr with ⟨-, hr⟩ | ⟨hmixin, hr⟩
  · exact .inl ⟨_, hr.symm⟩
  rcases ite_eq_iff.1 hr with ⟨-, hr⟩ | ⟨hspent, hr⟩
  · exact .inr (.inl ⟨_, hr.symm⟩)
  rcases houtputs : m.checkTxOutputs tx tvc with ⟨_ | _, tvc'⟩ <;> rw [houtputs] at hr
  · exact .inl ⟨_, hr.symm⟩
  exact .inr (.inr ⟨by simpa using hsupported, ⟨tooHigh, rfl, hkept hmixin⟩, hkept hspent, fee, tvc', hr.symm⟩)

def addTxOf (p : TxMemoryPool) (tx : Transaction) (tvc : TxVerificationContext) (keptByBlock relayed doNotRelay : Bool) :
    Bool × TxVerificationContext × TxMemoryPool :=
  match txToBlob tx with
  | none => (false, tvc, p)
  | some blob =>
    if blob = [] then (false, tvc, p)
    else p.addTx rules m tx (rules.getTransactionHash tx) (UInt64.ofNat blob.length) tvc keptByBlock relayed doNotRelay

def new : TxMemoryPool := ⟨.empty, defaultTxpoolMaxSize, 0, [], ∅, ∅⟩

def initTx (e : TxpoolEntry) : Transaction × List Hash :=
  match parseAndValidateTxFromBlob e.blob with
  | some tx => (tx, [])
  | none => (rules.leftover e.blob, [e.txid])

def initEntry (state : TxMemoryPool × List Hash) (e : TxpoolEntry) :
    Except (TxMemoryPool × List Hash) (TxMemoryPool × List Hash) :=
  let (tx, noted) := initTx rules e
  match insertKeyImages (rules.getTransactionHash tx) e.details.keptByBlock state.1.spentKeyImages tx.vin with
  | (false, spentKeyImages) => .error ({ state.1 with spentKeyImages }, state.2 ++ noted)
  | (true, spentKeyImages) =>
    .ok ({ state.1 with
      spentKeyImages
      txsByFeeAndReceiveTime :=
        emplace ⟨rules.feePerByte e.details.fee e.details.blobSize, e.details.receiveTime, e.txid⟩
          state.1.txsByFeeAndReceiveTime
      txpoolSize := state.1.txpoolSize + e.details.blobSize }, state.2 ++ noted)

def init (p : TxMemoryPool) (maxTxpoolSize : UInt64) : Bool × TxMemoryPool :=
  let p := { p with
    txpoolMaxSize := if maxTxpoolSize = 0 then defaultTxpoolMaxSize else maxTxpoolSize
    txsByFeeAndReceiveTime := [], spentKeyImages := ∅, txpoolSize := 0 }
  let entries := p.db.entries.filter (fun e => !e.details.keptByBlock) ++ p.db.entries.filter (·.details.keptByBlock)
  match entries.foldlM (initEntry rules) (p, []) with
  | .error (p, _) => (false, p)
  | .ok (p, remove) =>
    (true, { p with db := (remove.filter fun txid => !m.faults.remove txid).foldl TxpoolDb.remove p.db })

end TxMemoryPool

/-! ## A plain pool

For runs on concrete inputs. -/

def plainRules : PoolRules where
  getTransactionHash tx := Env.plainHash ((txToBlob tx).getD [])
  feePerByte _ _ := 0
  leftover blob := ((transaction false).read blob).elim { version := 1, unlockTime := 0, vin := [], vout := [], extra := [] } Prod.fst

def calmMoment : PoolMoment where
  now := 0
  checkFee _ _ := true
  transactionSizeLimit := 1000000
  checkTxOutputs _ tvc := (true, tvc)
  checkTxInputs _ _ tvc := (some (0, nullHash), tvc)
  haveTx _ := false
  faults := ⟨fun _ => false, fun _ => false, fun _ => false, fun _ => false, fun _ => false⟩

end Electronero.Wire
