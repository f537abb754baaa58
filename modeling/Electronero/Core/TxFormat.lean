import Electronero.Core.Archive
/-!
# The wire form of transactions and blocks (`cryptonote_basic.h`, `src/ringct/rctTypes.h`)

One template writes and reads each type, so each is one format. `Transaction.onWire` is the transaction without the
signatures that do not belong to its version and type.
-/
namespace Electronero.Wire
open Text Codec Codec.Format Archive

abbrev KeyImage := Pod 32
abbrev Key := Pod 32
abbrev Key64 := Pod 2048
abbrev BoroSig := Pod 4128

structure TxoutToScript where
  keys : List PublicKey
  script : Bytes
deriving DecidableEq

inductive TxoutTarget where
  | toScript (script : TxoutToScript)
  | toScripthash (hash : Hash)
  | toKey (key : PublicKey)
deriving DecidableEq

structure TxOut where
  amount : UInt64
  target : TxoutTarget
deriving DecidableEq

inductive TxIn where
  | gen (height : UInt64)
  | toScript (prev : Hash) (prevout : UInt64) (sigset : Bytes)
  | toScripthash (prev : Hash) (prevout : UInt64) (script : TxoutToScript) (sigset : Bytes)
  | toKey (amount : UInt64) (keyOffsets : List UInt64) (kImage : KeyImage)
deriving DecidableEq

structure TransactionPrefix where
  version : UInt64
  unlockTime : UInt64
  vin : List TxIn
  vout : List TxOut
  extra : Bytes
deriving DecidableEq

def rctTypeNull : UInt8 := 0
def rctTypeFull : UInt8 := 1
def rctTypeSimple : UInt8 := 2
def rctTypeFullBulletproof : UInt8 := 3
def rctTypeSimpleBulletproof : UInt8 := 4

structure EcdhTuple where
  mask : Key
  amount : Key
deriving DecidableEq

structure RangeSig where
  asig : BoroSig
  ci : Key64
deriving DecidableEq

structure Bulletproof where
  A : Key
  S : Key
  T1 : Key
  T2 : Key
  taux : Key
  mu : Key
  L : List Key
  R : List Key
  a : Key
  b : Key
  t : Key
deriving DecidableEq

structure MgSig where
  ss : List (List Key)
  cc : Key
deriving DecidableEq

/-- `outPk` holds the masks, the half of the pairs that is written. -/
structure RctSigBase where
  type : UInt8 := rctTypeNull
  txnFee : UInt64 := 0
  pseudoOuts : List Key := []
  ecdhInfo : List EcdhTuple := []
  outPk : List Key := []
deriving DecidableEq

structure RctSigPrunable where
  rangeSigs : List RangeSig := []
  bulletproofs : List Bulletproof := []
  MGs : List MgSig := []
  pseudoOuts : List Key := []
deriving DecidableEq

structure RctSig extends RctSigBase where
  p : RctSigPrunable := {}
deriving DecidableEq

structure Transaction extends TransactionPrefix where
  signatures : List (List Signature) := []
  rctSignatures : RctSig := {}
deriving DecidableEq

structure BlockHeader where
  majorVersion : UInt8
  minorVersion : UInt8
  timestamp : UInt64
  prevId : Hash
  nonce : UInt32
deriving DecidableEq

structure Block extends BlockHeader where
  minerTx : Transaction
  txHashes : List Hash
deriving DecidableEq

section
variable (checked : Bool)

def txoutToScript : Format UInt8 TxoutToScript :=
  ((container checked (blob 32)).seq fun _ => container checked byte).part (fun s => some (s.keys, s.script))
    fun q => ⟨q.1, q.2⟩

def TxoutTarget.tag : TxoutTarget → UInt8
  | .toScript _ => 0
  | .toScripthash _ => 1
  | .toKey _ => 2

def TxoutTarget.body (t : UInt8) : Format UInt8 TxoutTarget :=
  if t = 0 then (txoutToScript checked).part (fun | .toScript s => some s | _ => none) .toScript
  else if t = 1 then (blob 32).part (fun | .toScripthash h => some h | _ => none) .toScripthash
  else if t = 2 then (blob 32).part (fun | .toKey k => some k | _ => none) .toKey
  else fail

def txoutTarget : Format UInt8 TxoutTarget := tagged byte TxoutTarget.tag (TxoutTarget.body checked)

def txOut : Format UInt8 TxOut :=
  ((varint64 checked).seq fun _ => txoutTarget checked).part (fun o => some (o.amount, o.target)) fun q => ⟨q.1, q.2⟩

def TxIn.tag : TxIn → UInt8
  | .gen _ => 0xff
  | .toScript .. => 0
  | .toScripthash .. => 1
  | .toKey .. => 2

def TxIn.body (t : UInt8) : Format UInt8 TxIn :=
  if t = 0xff then (varint64 checked).part (fun | .gen h => some h | _ => none) .gen
  else if t = 0 then
    ((blob 32).seq fun _ => (varint64 checked).seq fun _ => container checked byte).part
      (fun | .toScript p o s => some (p, o, s) | _ => none) fun q => .toScript q.1 q.2.1 q.2.2
  else if t = 1 then
    ((blob 32).seq fun _ => (varint64 checked).seq fun _ => (txoutToScript checked).seq fun _ =>
      container checked byte).part
      (fun | .toScripthash p o c s => some (p, o, c, s) | _ => none) fun q => .toScripthash q.1 q.2.1 q.2.2.1 q.2.2.2
  else if t = 2 then
    ((varint64 checked).seq fun _ => (container checked (varint64 checked)).seq fun _ => blob 32).part
      (fun | .toKey a o k => some (a, o, k) | _ => none) fun q => .toKey q.1 q.2.1 q.2.2
  else fail

def txIn : Format UInt8 TxIn := tagged byte TxIn.tag (TxIn.body checked)

def currentTransactionVersion : UInt64 := 2

def transactionPrefix : Format UInt8 TransactionPrefix :=
  (((varint64 checked).guard fun v => v ≠ 0 ∧ v ≤ currentTransactionVersion).seq fun _ =>
    (varint64 checked).seq fun _ => (container checked (txIn checked)).seq fun _ =>
    (container checked (txOut checked)).seq fun _ => container checked byte).part
    (fun p => some (p.version, p.unlockTime, p.vin, p.vout, p.extra))
    fun q => ⟨q.1, q.2.1, q.2.2.1, q.2.2.2.1, q.2.2.2.2⟩

def key : Format UInt8 Key := blob 32

def ecdhTuple : Format UInt8 EcdhTuple :=
  (key.seq fun _ => key).part (fun e => some (e.mask, e.amount)) fun q => ⟨q.1, q.2⟩

def rangeSig : Format UInt8 RangeSig :=
  ((blob 4128).seq fun _ => blob 2048).part (fun r => some (r.asig, r.ci)) fun q => ⟨q.1, q.2⟩

def bulletproof : Format UInt8 Bulletproof :=
  ((key.seq fun _ => key.seq fun _ => key.seq fun _ => key.seq fun _ => key.seq fun _ => key.seq fun _ =>
    (container checked key).seq fun _ => (container checked key).seq fun _ => key.seq fun _ => key.seq fun _ =>
    key).part
    (fun b => some (b.A, b.S, b.T1, b.T2, b.taux, b.mu, b.L, b.R, b.a, b.b, b.t))
    fun ⟨A, S, T1, T2, taux, mu, L, R, a, b, t⟩ => ⟨A, S, T1, T2, taux, mu, L, R, a, b, t⟩).guard
    fun b => b.L ≠ [] ∧ b.L.length = b.R.length

/-- The types that carry a signature; `RCTTypeNull` carries none, and every other byte is refused. -/
def rctTypeKnown (type : UInt8) : Bool :=
  type = rctTypeFull ∨ type = rctTypeFullBulletproof ∨ type = rctTypeSimple ∨ type = rctTypeSimpleBulletproof

def rctsigBaseBody (inputs outputs : Nat) (type : UInt8) :
    Format UInt8 (UInt64 × List Key × List EcdhTuple × List Key) :=
  if type = rctTypeNull then absent (0, [], [], [])
  else if rctTypeKnown type then
    (varint64 checked).seq fun _ => (if type = rctTypeSimple then key.times inputs else absent []).seq fun _ =>
      (ecdhTuple.times outputs).seq fun _ => key.times outputs
  else fail

def rctsigBase (inputs outputs : Nat) : Format UInt8 RctSigBase :=
  (byte.seq (rctsigBaseBody checked inputs outputs)).part
    (fun r => some (r.type, r.txnFee, r.pseudoOuts, r.ecdhInfo, r.outPk))
    fun q => ⟨q.1, q.2.1, q.2.2.1, q.2.2.2.1, q.2.2.2.2⟩

def isSimple (type : UInt8) : Bool := type = rctTypeSimple ∨ type = rctTypeSimpleBulletproof

def isBulletproof (type : UInt8) : Bool := type = rctTypeSimpleBulletproof ∨ type = rctTypeFullBulletproof

/-- The arrays of an `mgSig` go out without their sizes: `mixin + 1` columns of one key more than there are inputs to
sign for. -/
def mgSig (type : UInt8) (inputs : Nat) (mixin : UInt64) : Format UInt8 MgSig :=
  (((key.times ((if isSimple type then 1 else inputs) + 1)).times (mixin + 1).toNat).seq fun _ => key).part
    (fun m => some (m.ss, m.cc)) fun q => ⟨q.1, q.2⟩

def rctsigPrunable (type : UInt8) (inputs outputs : Nat) (mixin : UInt64) : Format UInt8 RctSigPrunable :=
  if type = rctTypeNull then absent {}
  else if rctTypeKnown type then
    ((if isBulletproof type then absent [] else rangeSig.times outputs).seq fun _ =>
      (if isBulletproof type then (bulletproof checked).times outputs else absent []).seq fun _ =>
      ((mgSig type inputs mixin).times (if isSimple type then inputs else 1)).seq fun _ =>
      if type = rctTypeSimpleBulletproof then key.times inputs else absent []).part
      (fun p => some (p.rangeSigs, p.bulletproofs, p.MGs, p.pseudoOuts))
      fun q => ⟨q.1, q.2.1, q.2.2.1, q.2.2.2⟩
  else fail

/-- `vin[0].type() == typeid(txin_to_key) ? key_offsets.size() - 1 : 0`, in `size_t`. -/
def mixin : List TxIn → UInt64
  | .toKey _ offsets _ :: _ => UInt64.ofNat offsets.length - 1
  | _ => 0

def rctSig (p : TransactionPrefix) : Format UInt8 RctSig :=
  ((rctsigBase checked p.vin.length p.vout.length).seq fun b =>
    rctsigPrunable checked b.type p.vin.length p.vout.length (mixin p.vin)).part
    (fun r => some (r.toRctSigBase, r.p)) fun q => ⟨q.1, q.2⟩

def getSignatureSize : TxIn → Nat
  | .toKey _ offsets _ => offsets.length
  | _ => 0

/-- `signatures_not_expected`: no signature at all may stand for as many empty ones as there are inputs. -/
def expandSignatures (vin : List TxIn) (sigs : List (List Signature)) : List (List Signature) :=
  if sigs = [] ∧ vin.all (getSignatureSize · = 0) then vin.map fun _ => [] else sigs

def signatures (vin : List TxIn) : Format UInt8 (List (List Signature)) :=
  (each (vin.map fun i => (blob 64).times (getSignatureSize i))).part (fun sigs => some (expandSignatures vin sigs)) id

def transactionBody (p : TransactionPrefix) : Format UInt8 (List (List Signature) × RctSig) :=
  if p.version = 1 then (signatures p.vin).part (fun q => some q.1) fun sigs => (sigs, {})
  else if p.vin = [] then absent ([], {})
  else (rctSig checked p).part (fun q => some q.2) fun r => ([], r)

def transaction : Format UInt8 Transaction :=
  ((transactionPrefix checked).seq (transactionBody checked)).part
    (fun tx => some (tx.toTransactionPrefix, tx.signatures, tx.rctSignatures)) fun q => ⟨q.1, q.2.1, q.2.2⟩

def blockHeader : Format UInt8 BlockHeader :=
  ((varint8 checked).seq fun _ => (varint8 checked).seq fun _ => (varint64 checked).seq fun _ =>
    (blob 32).seq fun _ => uint32).part
    (fun h => some (h.majorVersion, h.minorVersion, h.timestamp, h.prevId, h.nonce))
    fun q => ⟨q.1, q.2.1, q.2.2.1, q.2.2.2.1, q.2.2.2.2⟩

def block : Format UInt8 Block :=
  ((blockHeader checked).seq fun _ => (transaction checked).seq fun _ => container checked (blob 32)).part
    (fun b => some (b.toBlockHeader, b.minerTx, b.txHashes)) fun q => ⟨q.1, q.2.1, q.2.2⟩

end

/-! ## Blobs and hashes (`src/cryptonote_basic/cryptonote_format_utils.cpp`) -/

def txToBlob (tx : Transaction) : Option Bytes := (transaction false).write tx

def blockToBlob (b : Block) : Option Bytes := (block false).write b

def isCoinbase (tx : Transaction) : Bool :=
  match tx.vin with
  | [.gen _] => true
  | _ => false

/-- How `expand_transaction_1` ends; `badGet` is the exception of `boost::get<txout_to_key>`. -/
inductive Expansion where
  | expanded
  | badOutPkSize
  | badBulletproofsSize
  | badGet
deriving DecidableEq, Repr

def TxOut.isToKey (o : TxOut) : Bool :=
  match o.target with
  | .toKey _ => true
  | _ => false

/-- What it fills in is not on the wire, so only its verdict is kept. -/
def expandTransaction1 (tx : Transaction) : Expansion :=
  if 2 ≤ tx.version ∧ ¬ isCoinbase tx then
    if tx.rctSignatures.outPk.length ≠ tx.vout.length then .badOutPkSize
    else if ¬ tx.vout.all TxOut.isToKey then .badGet
    else if isBulletproof tx.rctSignatures.type ∧ tx.rctSignatures.p.bulletproofs.length ≠ tx.vout.length then
      .badBulletproofsSize
    else .expanded
  else .expanded

def parseWhole {α : Type} (f : Format UInt8 α) (blob : Bytes) : Option α :=
  match f.read blob with
  | some (a, []) => some a
  | _ => none

def parseAndValidateTxFromBlob (txBlob : Bytes) : Option Transaction :=
  (parseWhole (transaction false) txBlob).bind fun tx => if expandTransaction1 tx = .expanded then some tx else none

def parseAndValidateBlockFromBlob (bBlob : Bytes) : Option Block := parseWhole (block false) bBlob

def nullHash : Hash := default

def prunableHash (cnFastHash : Bytes → Hash) (p : TransactionPrefix) (r : RctSig) : Option Hash :=
  if r.type = rctTypeNull then some nullHash
  else ((rctsigPrunable false r.type p.vin.length p.vout.length (mixin p.vin)).write r.p).map cnFastHash

def calculateTransactionHashV2 (cnFastHash : Bytes → Hash) (p : TransactionPrefix) (r : RctSig) : Option Hash := do
  let prefixBlob ← (transactionPrefix false).write p
  let base ← (rctsigBase false p.vin.length p.vout.length).write r.toRctSigBase
  let prunable ← prunableHash cnFastHash p r
  some (cnFastHash ((cnFastHash prefixBlob).bytes ++ (cnFastHash base).bytes ++ prunable.bytes))

def calculateTransactionHash (cnFastHash : Bytes → Hash) (tx : Transaction) : Option Hash :=
  if tx.version = 1 then (txToBlob tx).map cnFastHash
  else calculateTransactionHashV2 cnFastHash tx.toTransactionPrefix tx.rctSignatures

end Electronero.Wire
