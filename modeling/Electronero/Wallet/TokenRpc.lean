import Electronero.Token.Extra
import Electronero.Token.Store
/-!
# The wallet's token commands (`src/wallet/wallet_rpc_server.cpp:2962-3700`)

`s` is the store after the file is loaded. A command always signs with the base account's spend key. `tk->creator` is read
after the store call, through a pointer into the store. `funded`: `create_transactions_2` found a transaction.
-/
namespace Electronero
open Text FiniteMap

/-- Account 0 is the base account. The laws are those of the address format and of the signatures:
the text of an address reads back, an account other than the base one has another spend key, and a
signature is good under the key it was made with and no other. -/
structure Wallet (env : Env) where
  spendPublicKey : PublicKey
  spendSecretKey : SecretKey
  subaddress : UInt32 → Bytes
  subaddress_text : ∀ i, subaddress i ≠ [] ∧ tab ∉ subaddress i
  subaddress_key : ∀ i, ∃ info, env.getAccountAddressFromStr env.nettype (subaddress i) = some info ∧
    (info.address.spendPublicKey = spendPublicKey ↔ i = 0)
  signs : ∀ hash pub,
    env.checkSignature hash pub (env.generateSignature hash spendPublicKey spendSecretKey) = true ↔ pub = spendPublicKey

def Wallet.baseAddress {env : Env} (w : Wallet env) : Bytes := w.subaddress 0

inductive TokenRpc where
  | create (name symbol : Bytes) (supply creatorFee : UInt64)
  | transfer (tokenAddress toAcc : Bytes) (amount : UInt64) (accountIndex : UInt32)
  | approve (name spender : Bytes) (amount : UInt64) (accountIndex : UInt32)
  | transferFrom (tokenAddress fromAcc toAcc : Bytes) (amount : UInt64) (accountIndex : UInt32)
  | burn (tokenAddress : Bytes) (amount : UInt64) (accountIndex : UInt32)
  | mint (tokenAddress : Bytes) (amount : UInt64)
  | setFee (tokenAddress : Bytes) (creatorFee : UInt64)
  | lockFee (tokenAddress : Bytes)
  | transferOwnership (tokenAddress newOwner : Bytes)
  | pause (tokenAddress : Bytes) (paused : Bool)
  | freeze (tokenAddress account : Bytes) (frozen : Bool)

inductive RpcErrorCode where
  | wrongAddress
  | unknownError
  | txNotPossible
deriving DecidableEq

structure RpcError where
  code : RpcErrorCode
  message : String
deriving DecidableEq

namespace RpcError

def tokenNotFound : RpcError := ⟨.unknownError, "token not found"⟩
def invalidAddress : RpcError := ⟨.wrongAddress, "Invalid address"⟩
def invalidGovernance : RpcError := ⟨.wrongAddress, "Invalid governance address"⟩
def notBaseAddress : RpcError := ⟨.wrongAddress, "new owner must be a base wallet address"⟩
def noFeeTransaction : RpcError := ⟨.txNotPossible, "Failed to create fee transaction"⟩

end RpcError

structure RpcOutcome where
  tokens : TokenStore
  payload : Option Bytes
  response : Except RpcError Bool

structure Order where
  call : StoreOp
  op : TokenOpType
  fields : List Bytes

def number (n : UInt64) : Bytes := decimal n.toNat

def flag (b : Bool) : Bytes := if b then ascii "1" else ascii "0"

def creatorAt (s : TokenStore) (tokenAddress : Bytes) : Bytes := ((s.getByAddress tokenAddress).map (·.creator)).getD []

namespace Wallet
variable {env : Env} (w : Wallet env) (s : TokenStore)

def createOrder (nonce : UInt64) (name symbol : Bytes) (supply creatorFee : UInt64) : Order where
  call := .create name symbol supply w.baseAddress creatorFee [] nonce
  op := .create
  fields := [s.createAddress env name symbol w.baseAddress [] nonce, name, symbol, number supply, w.baseAddress,
    number creatorFee]

def transferOrder (tokenAddress toAcc : Bytes) (amount : UInt64) (accountIndex : UInt32) : Order where
  call := .transferByAddress tokenAddress (w.subaddress accountIndex) toAcc amount
  op := .transfer
  fields := [tokenAddress, w.subaddress accountIndex, toAcc, number amount]

def approveOrder (name spender : Bytes) (amount : UInt64) (accountIndex : UInt32) : Order where
  call := .approve name (w.subaddress accountIndex) spender amount (w.subaddress accountIndex)
  op := .approve
  fields := [name, w.subaddress accountIndex, spender, number amount]

def transferFromOrder (tokenAddress fromAcc toAcc : Bytes) (amount : UInt64) (accountIndex : UInt32) : Order where
  call := .transferFromByAddress tokenAddress (w.subaddress accountIndex) fromAcc toAcc amount
  op := .transferFrom
  fields := [tokenAddress, w.subaddress accountIndex, fromAcc, toAcc, number amount]

def burnOrder (tokenAddress : Bytes) (amount : UInt64) (accountIndex : UInt32) : Order where
  call := .burn tokenAddress (w.subaddress accountIndex) amount
  op := .burn
  fields := [tokenAddress, w.subaddress accountIndex, number amount]

def mintOrder (tokenAddress : Bytes) (amount : UInt64) : Order where
  call := .mint tokenAddress w.baseAddress amount
  op := .mint
  fields := [tokenAddress, w.baseAddress, number amount]

def setFeeOrder (tokenAddress : Bytes) (creatorFee : UInt64) : Order where
  call := .setCreatorFee tokenAddress (creatorAt s tokenAddress) creatorFee
  op := .setFee
  fields := [tokenAddress,
    creatorAt (s.setCreatorFee tokenAddress (creatorAt s tokenAddress) creatorFee).1 tokenAddress, number creatorFee]

def lockFeeOrder (tokenAddress : Bytes) : Order where
  call := .lockCreatorFee tokenAddress (creatorAt s tokenAddress)
  op := .lockFee
  fields := [tokenAddress, creatorAt (s.lockCreatorFee tokenAddress (creatorAt s tokenAddress)).1 tokenAddress]

def transferOwnershipOrder (tokenAddress newOwner : Bytes) : Order where
  call := .transferOwnership tokenAddress w.baseAddress newOwner
  op := .transferOwnership
  fields := [tokenAddress, creatorAt (s.transferOwnership tokenAddress w.baseAddress newOwner).1 tokenAddress, newOwner]

def pauseOrder (tokenAddress : Bytes) (paused : Bool) : Order where
  call := .setPaused tokenAddress w.baseAddress paused
  op := .pause
  fields := [tokenAddress, w.baseAddress, flag paused]

def freezeOrder (tokenAddress account : Bytes) (frozen : Bool) : Order where
  call := .setFrozen tokenAddress w.baseAddress account frozen
  op := .freeze
  fields := [tokenAddress, w.baseAddress, account, flag frozen]

def signsAt (height : Option UInt64) : Bool := height.any (tokenSignatureActivationHeight ≤ ·)

def extra (sign : Bool) (o : Order) : Bytes :=
  if sign then makeSignedTokenExtra env o.op o.fields w.spendPublicKey w.spendSecretKey
  else makeTokenExtra o.op o.fields

def governanceKnown (env : Env) : Bool :=
  (env.getAccountAddressFromStr env.nettype governanceWalletAddress).isSome

/-- `needsGovernance`: the command pays a fee to the governance address. -/
def submit (needsGovernance sign funded : Bool) (o : Order) : RpcOutcome :=
  let r := s.step env o.call
  if needsGovernance && !governanceKnown env then ⟨r.1, none, .error .invalidGovernance⟩
  else if r.2 && funded then ⟨r.1, some (w.extra sign o), .ok true⟩
  else ⟨r.1, none, .ok false⟩

def early (s : TokenStore) (response : Except RpcError Bool) : RpcOutcome := ⟨s, none, response⟩

/-- Here the governance address is looked up before the store is changed. -/
def onTokenCreate (height : Option UInt64) (funded : Bool) (nonce : UInt64) (name symbol : Bytes)
    (supply creatorFee : UInt64) : RpcOutcome :=
  let o := w.createOrder s nonce name symbol supply creatorFee
  let r := s.step env o.call
  if !governanceKnown env then early s (.error .invalidGovernance)
  else if funded then ⟨r.1, some (w.extra (signsAt height) o), .ok true⟩
  else ⟨r.1, none, .error .noFeeTransaction⟩

def onTokenTransfer (height : Option UInt64) (funded : Bool) (tokenAddress toAcc : Bytes) (amount : UInt64)
    (accountIndex : UInt32) : RpcOutcome :=
  if (s.getByAddress tokenAddress).isNone then early s (.error .tokenNotFound)
  else if (env.getAccountAddressFromStr env.nettype toAcc).isNone then early s (.error .invalidAddress)
  else w.submit s true (signsAt height) funded (w.transferOrder tokenAddress toAcc amount accountIndex)

def onTokenApprove (height : Option UInt64) (funded : Bool) (name spender : Bytes) (amount : UInt64)
    (accountIndex : UInt32) : RpcOutcome :=
  w.submit s false (signsAt height) funded (w.approveOrder name spender amount accountIndex)

def onTokenTransferFrom (height : Option UInt64) (funded : Bool) (tokenAddress fromAcc toAcc : Bytes)
    (amount : UInt64) (accountIndex : UInt32) : RpcOutcome :=
  if (s.getByAddress tokenAddress).isNone then early s (.error .tokenNotFound)
  else if (env.getAccountAddressFromStr env.nettype toAcc).isNone then early s (.error .invalidAddress)
  else w.submit s true (signsAt height) funded (w.transferFromOrder tokenAddress fromAcc toAcc amount accountIndex)

def onTokenBurn (height : Option UInt64) (funded : Bool) (tokenAddress : Bytes) (amount : UInt64)
    (accountIndex : UInt32) : RpcOutcome :=
  if (s.getByAddress tokenAddress).isNone then early s (.error .tokenNotFound)
  else w.submit s true (signsAt height) funded (w.burnOrder tokenAddress amount accountIndex)

def onTokenMint (height : Option UInt64) (funded : Bool) (tokenAddress : Bytes) (amount : UInt64) : RpcOutcome :=
  match s.getByAddress tokenAddress with
  | none => early s (.error .tokenNotFound)
  | some tk =>
    if tk.creator ≠ w.baseAddress then early s (.ok false)
    else w.submit s true (signsAt height) funded (w.mintOrder tokenAddress amount)

def notCreator (tokenAddress : Bytes) : Bool := !(s.getByAddress tokenAddress).any (·.creator = w.baseAddress)

def onTokenSetFee (height : Option UInt64) (funded : Bool) (tokenAddress : Bytes) (creatorFee : UInt64) : RpcOutcome :=
  if w.notCreator s tokenAddress then early s (.ok false)
  else w.submit s true (signsAt height) funded (setFeeOrder s tokenAddress creatorFee)

def onTokenLockFee (height : Option UInt64) (funded : Bool) (tokenAddress : Bytes) : RpcOutcome :=
  if w.notCreator s tokenAddress then early s (.ok false)
  else w.submit s true (signsAt height) funded (lockFeeOrder s tokenAddress)

def onTokenTransferOwnership (height : Option UInt64) (funded : Bool) (tokenAddress newOwner : Bytes) : RpcOutcome :=
  if w.notCreator s tokenAddress then early s (.ok false)
  else match env.getAccountAddressFromStr env.nettype newOwner with
    | none => early s (.error .invalidAddress)
    | some info =>
      if info.isSubaddress || info.hasPaymentId then early s (.error .notBaseAddress)
      else w.submit s true (signsAt height) funded (w.transferOwnershipOrder s tokenAddress newOwner)

def onTokenPause (height : Option UInt64) (funded : Bool) (tokenAddress : Bytes) (paused : Bool) : RpcOutcome :=
  if w.notCreator s tokenAddress then early s (.ok false)
  else w.submit s true (signsAt height) funded (w.pauseOrder tokenAddress paused)

def onTokenFreeze (funded : Bool) (tokenAddress account : Bytes) (frozen : Bool) : RpcOutcome :=
  if (s.getByAddress tokenAddress).isNone || w.baseAddress != governanceWalletAddress then early s (.ok false)
  else w.submit s true true funded (w.freezeOrder tokenAddress account frozen)

def handle (height : Option UInt64) (funded : Bool) (nonce : UInt64) : TokenRpc → RpcOutcome
  | .create name symbol supply fee => w.onTokenCreate s height funded nonce name symbol supply fee
  | .transfer address toAcc amount index => w.onTokenTransfer s height funded address toAcc amount index
  | .approve name spender amount index => w.onTokenApprove s height funded name spender amount index
  | .transferFrom address fromAcc toAcc amount index =>
    w.onTokenTransferFrom s height funded address fromAcc toAcc amount index
  | .burn address amount index => w.onTokenBurn s height funded address amount index
  | .mint address amount => w.onTokenMint s height funded address amount
  | .setFee address fee => w.onTokenSetFee s height funded address fee
  | .lockFee address => w.onTokenLockFee s height funded address
  | .transferOwnership address newOwner => w.onTokenTransferOwnership s height funded address newOwner
  | .pause address paused => w.onTokenPause s height funded address paused
  | .freeze address account frozen => w.onTokenFreeze s funded address account frozen

def order (nonce : UInt64) : TokenRpc → Order
  | .create name symbol supply fee => w.createOrder s nonce name symbol supply fee
  | .transfer address toAcc amount index => w.transferOrder address toAcc amount index
  | .approve name spender amount index => w.approveOrder name spender amount index
  | .transferFrom address fromAcc toAcc amount index => w.transferFromOrder address fromAcc toAcc amount index
  | .burn address amount index => w.burnOrder address amount index
  | .mint address amount => w.mintOrder address amount
  | .setFee address fee => setFeeOrder s address fee
  | .lockFee address => lockFeeOrder s address
  | .transferOwnership address newOwner => w.transferOwnershipOrder s address newOwner
  | .pause address paused => w.pauseOrder address paused
  | .freeze address account frozen => w.freezeOrder address account frozen

end Wallet

end Electronero
