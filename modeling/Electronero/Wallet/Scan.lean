import Electronero.Core.TxPool
import Electronero.Lib.ExceptLoop
import Electronero.Wallet.Subaddresses
/-!
# Scanning transactions (`src/wallet/wallet2.cpp:995-1650`)

`exit(1)` is one of the exceptions (`WalletError`). The two ways to check the outputs give the same outputs. Left out are
callbacks and logs, the ring database, `m_unconfirmed_payments`, which nothing here reads, and the multisig data.
`received` and `spentImages` are for the statements; no function reads them.
-/
namespace Electronero.Wire
open Text FiniteMap

abbrev KeyDerivation := Pod 32

inductive RefreshType where
  | full
  | optimizeCoinbase
  | noCoinbase
deriving DecidableEq

/-- The device's functions are those of the account's keys. The one-time secret key of an output that was found has the
output's key as its public key (`derives`), so its key image depends on that key alone; a wallet that knows its spend
key has different key images for different keys. -/
structure WalletAccount extends SubaddressKeys where
  watchOnly : Bool
  multisig : Bool
  refreshType : RefreshType
  createtime : UInt64
  refreshFromBlockHeight : UInt64
  storeTxInfo : Bool
  /-- `generate_key_derivation` with the view secret key -/
  generateKeyDerivation : PublicKey → Option KeyDerivation
  deriveSubaddressPublicKey : PublicKey → KeyDerivation → Nat → PublicKey
  /-- `generate_key_image_helper_precomp` succeeds -/
  derives : PublicKey → KeyDerivation → Nat → SubaddressIndex → Bool
  keyImage : PublicKey → KeyImage
  keyImage_injective : watchOnly = false → multisig = false → Function.Injective keyImage
  /-- amount and mask, 0 if the signature cannot be decoded -/
  decodeRct : RctSig → KeyDerivation → Nat → UInt64 × Key
  /-- `parse_tx_extra`, as far as it gets -/
  parseTxExtra : Bytes → List TxExtraField
  decryptPaymentId : Pod 8 → PublicKey → Option (Pod 8)
  getTransactionHash : Transaction → Hash

inductive WalletError where
  | accOutsLookup
  | keyImageFailed
  | outputIndices
  | unexpectedTransferIndex
  | unexpectedValues
  | inconsistentPublicKeys
  | consistencyFailure
  | blockIndices
  | wrongAmountOfTransactions
  | txParse
  | reorgBelowCheckpoint
  | keyImageNotFound
  | publicKeyNotFound
deriving DecidableEq

structure TransferDetails where
  blockHeight : UInt64
  tx : TransactionPrefix
  txid : Hash
  internalOutputIndex : Nat
  globalOutputIndex : UInt64
  spent : Bool
  spentHeight : UInt64
  keyImage : KeyImage
  mask : Key
  amount : UInt64
  rct : Bool
  keyImageKnown : Bool
  pkIndex : Nat
  subaddrIndex : SubaddressIndex
  keyImagePartial : Bool
deriving DecidableEq

structure PaymentDetails where
  txHash : Hash
  amount : UInt64
  fee : UInt64
  blockHeight : UInt64
  unlockTime : UInt64
  timestamp : UInt64
  subaddrIndex : SubaddressIndex
deriving DecidableEq

structure TxDestinationEntry where
  amount : UInt64
  addr : AccountPublicAddress
  isSubaddress : Bool
deriving DecidableEq

inductive UnconfirmedState where
  | pending
  | pendingNotInPool
  | failed
deriving DecidableEq

structure UnconfirmedTransferDetails where
  tx : TransactionPrefix
  amountIn : UInt64
  amountOut : UInt64
  change : UInt64
  dests : List TxDestinationEntry
  paymentId : Hash
  state : UnconfirmedState
  timestamp : UInt64
  subaddrAccount : UInt32
  subaddrIndices : Finset UInt32
  rings : List (KeyImage × List UInt64)
deriving DecidableEq

structure ConfirmedTransferDetails where
  amountIn : UInt64 := 0
  amountOut : UInt64 := 0
  change : UInt64 := 0 - 1
  blockHeight : UInt64 := 0
  dests : List TxDestinationEntry := []
  paymentId : Hash := default
  timestamp : UInt64 := 0
  unlockTime : UInt64 := 0
  subaddrAccount : UInt32 := 0 - 1
  subaddrIndices : Finset UInt32 := ∅
  rings : List (KeyImage × List UInt64) := []
deriving DecidableEq

structure Hashchain where
  offset : Nat
  genesis : Hash
  blocks : List Hash
deriving DecidableEq

namespace Hashchain

def size (c : Hashchain) : Nat := c.blocks.length + c.offset

def pushBack (c : Hashchain) (hash : Hash) : Hashchain :=
  { c with
    genesis := if c.offset = 0 ∧ c.blocks = [] then hash else c.genesis
    blocks := c.blocks ++ [hash] }

def crop (c : Hashchain) (height : Nat) : Hashchain := { c with blocks := resize (height - c.offset) default c.blocks }

end Hashchain

structure Receipt where
  key : PublicKey
  amount : UInt64
  clear : Bool
  globalIndex : UInt64
deriving DecidableEq

structure Wallet2 where
  transfers : List TransferDetails
  keyImages : UMap KeyImage Nat
  pubKeys : UMap PublicKey Nat
  payments : Multiset (Hash × PaymentDetails)
  confirmedTxs : UMap Hash ConfirmedTransferDetails
  unconfirmedTxs : UMap Hash UnconfirmedTransferDetails
  chain : Hashchain
  localBcHeight : UInt64
  table : SubaddressTable
  received : List Receipt
  spentImages : List KeyImage

def Wallet2.fresh (table : SubaddressTable) (unconfirmedTxs : UMap Hash UnconfirmedTransferDetails) (offset : Nat) :
    Wallet2 :=
  ⟨[], ∅, ∅, 0, ∅, unconfirmedTxs, ⟨offset, default, []⟩, .ofNat offset, table, [], []⟩

structure ProcessedTx where
  txid : Hash
  tx : Transaction
  oIndices : List UInt64
  height : UInt64
  ts : UInt64
  minerTx : Bool
  pool : Bool

def rctIdentity : Pod 32 := ⟨1 :: List.replicate 31 0, rfl⟩

def TxoutTarget.key? : TxoutTarget → Option PublicKey
  | .toKey key => some key
  | _ => none

def TransferDetails.publicKey (td : TransferDetails) : Option PublicKey :=
  td.tx.vout[td.internalOutputIndex]?.bind fun o => TxoutTarget.key? o.target

def credit {κ : Type} [DecidableEq κ] (m : UMap κ UInt64) (k : κ) (amount : UInt64) : UMap κ UInt64 :=
  m.insert k (getD m k 0 + amount)

def sum64 (amounts : Multiset UInt64) : UInt64 := .ofNat (amounts.map UInt64.toNat).sum

section
variable (acct : WalletAccount)

structure SubaddressReceiveInfo where
  index : SubaddressIndex
  derivation : KeyDerivation

def isOutToAccPrecomp (subaddresses : UMap PublicKey SubaddressIndex) (outKey : PublicKey) (derivation : KeyDerivation)
    (additional : List KeyDerivation) (i : Nat) : Option SubaddressReceiveInfo :=
  match subaddresses.lookup (acct.deriveSubaddressPublicKey outKey derivation i) with
  | some index => some ⟨index, derivation⟩
  | none =>
    -- too few additional derivations are only logged
    (additional[i]?).bind fun d =>
      (subaddresses.lookup (acct.deriveSubaddressPublicKey outKey d i)).map fun index => ⟨index, d⟩

/-- What a round knows about an output it has found: `tx_scan_info[o]`. `amount` is `money_transfered`. -/
structure ScannedOutput where
  o : Nat
  out : TxOut
  key : PublicKey
  ki : KeyImage
  mask : Key
  amount : UInt64
  index : SubaddressIndex

structure ScanRound where
  subaddresses : UMap PublicKey SubaddressIndex
  derivation : KeyDerivation
  additional : List KeyDerivation
  found : List Nat

def checkAccOutPrecompOnce (r : ScanRound) (out : TxOut) (i : Nat) :
    Except WalletError (Option (PublicKey × SubaddressReceiveInfo)) :=
  if i ∈ r.found then .ok none
  else match TxoutTarget.key? out.target with
    | none => .error .accOutsLookup
    | some key => .ok ((isOutToAccPrecomp acct r.subaddresses key r.derivation r.additional i).map (key, ·))

def scanOutput (tx : Transaction) (out : TxOut) (i : Nat) (key : PublicKey) (received : SubaddressReceiveInfo) :
    Except WalletError ScannedOutput :=
  if acct.multisig = false ∧ acct.derives key received.derivation i received.index = false then .error .keyImageFailed
  else
    let decoded := acct.decodeRct tx.rctSignatures received.derivation i
    .ok {
      o := i
      out := out
      key := key
      ki := if acct.multisig then default else acct.keyImage key
      mask := decoded.2
      amount := if out.amount = 0 then decoded.1 else out.amount
      index := received.index }

def scanStep (tx : Transaction) (r : ScanRound) (outs : List ScannedOutput) (out : TxOut × Nat) :
    Except WalletError (List ScannedOutput) :=
  match checkAccOutPrecompOnce acct r out.1 out.2 with
  | .error e => .error e
  | .ok none => .ok outs
  | .ok (some (key, received)) => (scanOutput acct tx out.1 out.2 key received).map fun s => outs ++ [s]

def scanOutputs (p : ProcessedTx) (r : ScanRound) : Except WalletError (List ScannedOutput) :=
  let all := p.tx.vout.zipIdx.foldlM (scanStep acct p.tx r) []
  if p.minerTx then
    match acct.refreshType with
    | .full => all
    | .noCoinbase => .ok []
    | .optimizeCoinbase =>
      -- the miner transaction is taken to pay a single address
      match p.tx.vout with
      | [] => .ok []
      | out :: _ =>
        match checkAccOutPrecompOnce acct r out 0 with
        | .error e => .error e
        | .ok none => .ok []
        | .ok (some _) => all
  else all

namespace ScannedOutput

def credited (s : ScannedOutput) : UInt64 := if s.out.amount ≠ 0 then s.out.amount else s.amount

def receipt (s : ScannedOutput) (p : ProcessedTx) : Receipt :=
  ⟨s.key, s.credited, s.out.amount ≠ 0, p.oIndices.getD s.o 0⟩

end ScannedOutput

def TransferDetails.write (td : TransferDetails) (p : ProcessedTx) (pkIndex : Nat) (s : ScannedOutput) :
    TransferDetails :=
  { td with
    blockHeight := p.height
    internalOutputIndex := s.o
    globalOutputIndex := p.oIndices.getD s.o 0
    tx := p.tx.toTransactionPrefix
    txid := p.txid
    amount := s.credited
    pkIndex := pkIndex
    subaddrIndex := s.index
    mask := if s.out.amount = 0 then s.mask else rctIdentity
    rct := s.out.amount = 0 ∨ p.minerTx = true ∧ p.tx.version = 2 }

def TransferDetails.initial (s : ScannedOutput) : TransferDetails where
  blockHeight := 0
  tx := ⟨0, 0, [], [], []⟩
  txid := default
  internalOutputIndex := 0
  globalOutputIndex := 0
  spent := false
  spentHeight := 0
  keyImage := s.ki
  mask := default
  amount := 0
  rct := false
  keyImageKnown := !acct.watchOnly && !acct.multisig
  pkIndex := 0
  subaddrIndex := s.index
  keyImagePartial := acct.multisig

namespace Wallet2

def pushTransfer (w : Wallet2) (p : ProcessedTx) (pkIndex : Nat) (s : ScannedOutput) : Wallet2 :=
  { w with
    transfers := w.transfers ++ [(TransferDetails.initial acct s).write p pkIndex s]
    table := w.table.expandSubaddresses acct.toSubaddressKeys s.index
    keyImages := if !acct.multisig && !acct.watchOnly then w.keyImages.insert s.ki w.transfers.length else w.keyImages
    pubKeys := w.pubKeys.insert s.key w.transfers.length }

def replaceTransfer (w : Wallet2) (k : Nat) (td : TransferDetails) (p : ProcessedTx) (pkIndex : Nat)
    (s : ScannedOutput) : Wallet2 :=
  { w with
    transfers := w.transfers.set k (td.write p pkIndex s)
    table := w.table.expandSubaddresses acct.toSubaddressKeys s.index }

def note (w : Wallet2) (p : ProcessedTx) (s : ScannedOutput) : Wallet2 :=
  if p.pool then w else { w with received := w.received ++ [s.receipt p] }

end Wallet2

structure Takings where
  wallet : Wallet2
  got : UMap SubaddressIndex UInt64
  total : UInt64

def receiveOutput (p : ProcessedTx) (pkIndex : Nat) (t : Takings) (s : ScannedOutput) : Except WalletError Takings :=
  match t.wallet.pubKeys.lookup s.key with
  | none =>
    .ok { t with
      wallet := (if p.pool then t.wallet else t.wallet.pushTransfer acct p pkIndex s).note p s
      total := t.total + s.credited }
  | some k =>
    match t.wallet.transfers[k]? with
    | none => .error .unexpectedTransferIndex
    | some td =>
      let got := getD t.got s.index 0
      if td.spent ∨ td.amount ≥ s.out.amount then
        if got < s.amount then .error .unexpectedValues
        else .ok { t with wallet := t.wallet.note p s, got := t.got.insert s.index (got - s.amount) }
      else if got < s.amount ∨ td.amount > s.amount then .error .unexpectedValues
      else if p.pool = false ∧ (td.write p pkIndex s).publicKey ≠ some s.key then .error .inconsistentPublicKeys
      else .ok {
        wallet := (if p.pool then t.wallet else t.wallet.replaceTransfer acct k td p pkIndex s).note p s
        got := t.got.insert s.index (got - td.amount)
        total := t.total + (s.credited - td.amount) }

structure Sweep extends Takings where
  found : List Nat

def pubKeyFields (fields : List TxExtraField) : List PublicKey :=
  fields.filterMap fun | .pubKey key => some key | _ => none

def getAdditionalTxPubKeysFromExtra (fields : List TxExtraField) : List PublicKey :=
  (fields.findSome? fun | .additionalPubKeys keys => some keys | _ => none).getD []

def scanPubKey (p : ProcessedTx) (st : Sweep) (pub : PublicKey × Nat) : Except WalletError Sweep :=
  let round : ScanRound := {
    subaddresses := st.wallet.table.subaddresses
    derivation := (acct.generateKeyDerivation pub.1).getD rctIdentity
    additional := (getAdditionalTxPubKeysFromExtra (acct.parseTxExtra p.tx.extra)).filterMap acct.generateKeyDerivation
    found := st.found }
  match scanOutputs acct p round with
  | .error e => .error e
  | .ok outs =>
    if outs ≠ [] ∧ p.pool = false ∧ p.tx.vout.length ≠ p.oIndices.length then .error .outputIndices
    else
      let got := outs.foldl (fun got s => credit got s.index s.amount) st.got
      (outs.foldlM (receiveOutput acct p pub.2) { st.toTakings with got := got }).map fun t =>
        { t with found := st.found ++ outs.map (·.o) }

structure Spendings where
  wallet : Wallet2
  spent : UInt64
  account : Option UInt32
  indices : Finset UInt32

def TransferDetails.spend (td : TransferDetails) (p : ProcessedTx) (amount : UInt64) : TransferDetails :=
  { td with
    amount := if amount > 0 then amount else td.amount
    spent := if p.pool then td.spent else true
    spentHeight := if p.pool then td.spentHeight else p.height }

def spendInput (p : ProcessedTx) (s : Spendings) : TxIn → Spendings
  | .toKey amount _ kImage =>
    let s := { s with wallet := { s.wallet with spentImages := s.wallet.spentImages ++ [kImage] } }
    match s.wallet.keyImages.lookup kImage with
    | none => s
    | some k =>
      match s.wallet.transfers[k]? with
      | none => s
      | some td => {
          wallet := { s.wallet with transfers := s.wallet.transfers.set k (td.spend p amount) }
          spent := s.spent + (td.spend p amount).amount
          account := some td.subaddrIndex.major
          indices := insert td.subaddrIndex.minor s.indices }
  | _ => s

def UnconfirmedTransferDetails.confirm (u : UnconfirmedTransferDetails) (height : UInt64) : ConfirmedTransferDetails where
  amountIn := u.amountIn
  amountOut := u.amountOut
  change := u.change
  blockHeight := height
  dests := u.dests
  paymentId := u.paymentId
  timestamp := u.timestamp
  unlockTime := u.tx.unlockTime
  subaddrAccount := u.subaddrAccount
  subaddrIndices := u.subaddrIndices
  rings := u.rings

def insertNew {κ ν : Type} [DecidableEq κ] (m : UMap κ ν) (k : κ) (v : ν) : UMap κ ν :=
  match m.lookup k with
  | some _ => m
  | none => m.insert k v

def Wallet2.processUnconfirmed (w : Wallet2) (txid : Hash) (height : UInt64) : Wallet2 :=
  match w.unconfirmedTxs.lookup txid with
  | none => w
  | some u =>
    { w with
      confirmedTxs := if acct.storeTxInfo then insertNew w.confirmedTxs txid (u.confirm height) else w.confirmedTxs
      unconfirmedTxs := w.unconfirmedTxs.erase txid }

def getPaymentIdFromTxExtraNonce (nonce : Bytes) : Option Hash :=
  if h : nonce.length = 33 ∧ nonce.head? = some 0 then some ⟨nonce.drop 1, by simp [h.1]⟩ else none

def getEncryptedPaymentIdFromTxExtraNonce (nonce : Bytes) : Option (Pod 8) :=
  if h : nonce.length = 9 ∧ nonce.head? = some 1 then some ⟨nonce.drop 1, by simp [h.1]⟩ else none

def extraNonce (fields : List TxExtraField) : Option Bytes :=
  fields.findSome? fun | .nonce nonce => some nonce | _ => none

def ringsOf (tx : Transaction) : List (KeyImage × List UInt64) :=
  tx.vin.filterMap fun | .toKey _ keyOffsets kImage => some (kImage, keyOffsets) | _ => none

def Wallet2.processOutgoing (w : Wallet2) (p : ProcessedTx) (spent received : UInt64) (account : UInt32)
    (indices : Finset UInt32) : Wallet2 :=
  let entry : ConfirmedTransferDetails := (w.confirmedTxs.lookup p.txid).getD {
    amountIn := spent
    amountOut := if p.tx.version = 1 then TxMemoryPool.getOutsMoneyAmount p.tx else spent - p.tx.rctSignatures.txnFee
    change := received
    paymentId := ((extraNonce (acct.parseTxExtra p.tx.extra)).bind getPaymentIdFromTxExtraNonce).getD default
    subaddrAccount := account
    subaddrIndices := indices }
  { w with
    confirmedTxs := w.confirmedTxs.insert p.txid { entry with
      rings := entry.rings ++ ringsOf p.tx
      blockHeight := p.height
      timestamp := p.ts
      unlockTime := p.tx.unlockTime } }

def widen (id : Pod 8) : Hash := ⟨id.bytes ++ List.replicate 24 0, by simp [id.size]⟩

def paymentIdOf (fields : List TxExtraField) (txPubKey : PublicKey) : Hash :=
  let nonce := (extraNonce fields).getD []
  match getEncryptedPaymentIdFromTxExtraNonce nonce with
  | some id => if txPubKey = default then default else ((acct.decryptPaymentId id txPubKey).map widen).getD default
  | none => (getPaymentIdFromTxExtraNonce nonce).getD default

def Wallet2.setChange (w : Wallet2) (txid : Hash) (change : UInt64) : Wallet2 :=
  match w.confirmedTxs.lookup txid with
  | none => w
  | some c => { w with confirmedTxs := w.confirmedTxs.insert txid { c with change := change } }

/-- A transaction that sends all to the spending account itself counts as one of amount 0. -/
def recordOutgoing (p : ProcessedTx) (s : Spendings) (selfReceived fee : UInt64) : Wallet2 :=
  if s.spent > 0 ∧ p.pool = false then
    let w := s.wallet.processOutgoing acct p s.spent selfReceived (s.account.getD 0) s.indices
    if s.spent = selfReceived + fee then w.setChange p.txid selfReceived else w
  else s.wallet

/-- `remaining` is `tx_money_got_in_outs` without the change of the spending account. -/
def settle (p : ProcessedTx) (txPubKey : PublicKey) (got : UMap SubaddressIndex UInt64) (total : UInt64)
    (s : Spendings) : Except WalletError Wallet2 :=
  let fee := if p.minerTx then 0 else if p.tx.version = 1 then s.spent - TxMemoryPool.getOutsMoneyAmount p.tx
    else p.tx.rctSignatures.txnFee
  let own := got.entries.filter fun e => s.account = some e.1.major
  let remaining := got.entries.filter fun e => s.account ≠ some e.1.major
  let w := recordOutgoing acct p s (sum64 (own.map (·.2))) fee
  if remaining = 0 then .ok w
  else if total ≠ sum64 (got.entries.map (·.2)) then .error .consistencyFailure
  else if p.pool then .ok w
  else
    let paymentId := paymentIdOf acct (acct.parseTxExtra p.tx.extra) txPubKey
    .ok { w with payments := w.payments + remaining.map fun e =>
      (paymentId, ⟨p.txid, e.2, fee, p.height, p.tx.unlockTime, p.ts, e.1⟩) }

def processNewTransaction (w : Wallet2) (p : ProcessedTx) : Except WalletError Wallet2 :=
  let w := if p.minerTx = false ∧ p.pool = false then w.processUnconfirmed acct p.txid p.height else w
  let pubs := if p.tx.vout = [] then [] else pubKeyFields (acct.parseTxExtra p.tx.extra)
  match pubs.zipIdx.foldlM (scanPubKey acct p) ⟨⟨w, ∅, 0⟩, []⟩ with
  | .error e => .error e
  | .ok st =>
    settle acct p (pubs.getLastD default) st.got st.total (p.tx.vin.foldl (spendInput p) ⟨st.wallet, 0, none, ∅⟩)

/-- A transaction of a block as the daemon sent it: `tx` is what `parse_and_validate_tx_base_from_blob` makes of it. -/
structure BlockTx where
  tx : Option Transaction
  txid : Hash
  oIndices : List UInt64
  minerTx : Bool

structure WalletBlock where
  block : Block
  id : Hash
  txs : List (Option Transaction)
  oIndices : List (List UInt64)

namespace WalletBlock

def minerTx (b : WalletBlock) : BlockTx :=
  ⟨some b.block.minerTx, acct.getTransactionHash b.block.minerTx, b.oIndices.headD [], true⟩

def blockTxs (b : WalletBlock) : List BlockTx :=
  (b.txs.zip (b.block.txHashes.zip b.oIndices.tail)).map fun t => ⟨t.1, t.2.1, t.2.2, false⟩

end WalletBlock

def processBlockTx (height ts : UInt64) (w : Wallet2) (t : BlockTx) : Except WalletError Wallet2 :=
  match t.tx with
  | none => .error .txParse
  | some tx => processNewTransaction acct w ⟨t.txid, tx, t.oIndices, height, ts, t.minerTx, false⟩

def processTransactions (w : Wallet2) (b : WalletBlock) (height : UInt64) : Except WalletError Wallet2 :=
  match processBlockTx acct height b.block.timestamp w (b.minerTx acct) with
  | .error e => .error e
  | .ok w =>
    if b.txs.length ≠ b.block.txHashes.length then .error .wrongAmountOfTransactions
    else b.blockTxs.foldlM (processBlockTx acct height b.block.timestamp) w

def Scans (b : WalletBlock) (height : UInt64) : Prop :=
  b.block.timestamp + 60 * 60 * 24 > acct.createtime ∧ height ≥ acct.refreshFromBlockHeight

instance (b : WalletBlock) (height : UInt64) : Decidable (Scans acct b height) := inferInstanceAs (Decidable (_ ∧ _))

def processNewBlockchainEntry (w : Wallet2) (b : WalletBlock) (height : UInt64) : Except WalletError Wallet2 :=
  if b.txs.length + 1 ≠ b.oIndices.length then .error .blockIndices
  else
    (if Scans acct b height then processTransactions acct w b height else .ok w).map fun w =>
      { w with chain := w.chain.pushBack b.id, localBcHeight := w.localBcHeight + 1 }

end

namespace Wallet2

def changes (w : Wallet2) (indexMajor : UInt32) : Multiset UInt64 :=
  (w.unconfirmedTxs.entries.filter fun u => u.2.subaddrAccount = indexMajor ∧ u.2.state ≠ .failed).map
    fun u => u.2.change

def balancePerSubaddress (w : Wallet2) (indexMajor : UInt32) : UMap UInt32 UInt64 :=
  let transfers := w.transfers.filter fun td => td.subaddrIndex.major = indexMajor ∧ td.spent = false
  let amounts := transfers.foldl (fun m td => credit m td.subaddrIndex.minor td.amount) ∅
  -- all changes go to subaddress 0 of the account
  if w.changes indexMajor = 0 then amounts else credit amounts 0 (sum64 (w.changes indexMajor))

def balance (w : Wallet2) (indexMajor : UInt32) : UInt64 :=
  sum64 ((w.balancePerSubaddress indexMajor).entries.map (·.2))

end Wallet2
end Electronero.Wire
