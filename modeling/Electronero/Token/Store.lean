import Electronero.Basic
import Electronero.Lib.FiniteMap
/-!
# The token store (`src/token/token.h`, `src/token/token.cpp:57-422`)

Writing through a `token_info *` is `put` at the name it was found under. Every operation returns the new store and the
C++ result.
-/
namespace Electronero
open Text FiniteMap

@[ext] structure TokenInfo where
  name : Bytes
  symbol : Bytes
  address : Bytes
  creator : Bytes
  totalSupply : UInt64
  creatorFee : UInt64
  creatorFeeLocked : Bool
  paused : Bool
  frozenAccounts : Finset Bytes
  balances : UMap Bytes UInt64
  allowances : UMap Bytes (UMap Bytes UInt64)
deriving DecidableEq

def TokenInfo.empty : TokenInfo :=
  { name := [], symbol := [], address := [], creator := [], totalSupply := 0, creatorFee := 0,
    creatorFeeLocked := false, paused := false, frozenAccounts := ∅, balances := ∅, allowances := ∅ }

structure TokenTransferRecord where
  tokenAddress : Bytes
  fromAcc : Bytes
  toAcc : Bytes
  amount : UInt64
deriving DecidableEq

structure TokenStore where
  tokens : UMap Bytes TokenInfo
  addressIndex : UMap Bytes Bytes
  creatorTokens : UMap Bytes (List Bytes)
  transferHistory : List TokenTransferRecord
deriving DecidableEq

def TokenStore.empty : TokenStore := ⟨∅, ∅, ∅, []⟩

/-! ## Balances and allowances of one token -/

namespace TokenInfo

def balance (t : TokenInfo) (acc : Bytes) : UInt64 := getD t.balances acc 0

def allowance (t : TokenInfo) (owner spender : Bytes) : UInt64 :=
  getD (getD t.allowances owner ∅) spender 0

def setAllowance (t : TokenInfo) (owner spender : Bytes) (amount : UInt64) : TokenInfo :=
  { t with allowances := t.allowances.insert owner ((getD t.allowances owner ∅).insert spender amount) }

def debit (t : TokenInfo) (acc : Bytes) (amount : UInt64) : TokenInfo :=
  { t with balances := t.balances.insert acc (t.balance acc - amount) }

/-- `balances[acc] += amount`, inserting a zero entry first when there is none. -/
def credit (t : TokenInfo) (acc : Bytes) (amount : UInt64) : TokenInfo :=
  { t with balances := t.balances.insert acc (t.balance acc + amount) }

def short (t : TokenInfo) (acc : Bytes) (amount : UInt64) : Bool :=
  match t.balances.lookup acc with
  | none => true
  | some b => b < amount

end TokenInfo

namespace TokenStore
variable (s : TokenStore)

def get (name : Bytes) : Option TokenInfo := s.tokens.lookup name

def getByAddress (address : Bytes) : Option TokenInfo := (s.addressIndex.lookup address).bind s.get

def balanceOf (name acc : Bytes) : UInt64 := ((s.get name).map (·.balance acc)).getD 0

def allowanceOf (name owner spender : Bytes) : UInt64 := ((s.get name).map (·.allowance owner spender)).getD 0

def totalSupplyOf (name : Bytes) : UInt64 := ((s.get name).map (·.totalSupply)).getD 0

def namesOf (creator : Bytes) : List Bytes := getD s.creatorTokens creator []

def listByCreator (creator : Bytes) : List TokenInfo := (s.namesOf creator).filterMap s.get

def put (name : Bytes) (t : TokenInfo) : TokenStore := { s with tokens := s.tokens.insert name t }

def recordTransfer (tokenAddress fromAcc toAcc : Bytes) (amount : UInt64) : TokenStore :=
  { s with transferHistory := s.transferHistory ++ [⟨tokenAddress, fromAcc, toAcc, amount⟩] }

end TokenStore

/-- `creator + name + symbol + to_string(tokens.size()) + to_string(nonce)`, hashed; the count
already includes the new token. -/
def generatedAddress (env : Env) (creator name symbol : Bytes) (size : Nat) (nonce : UInt64) : Bytes :=
  ascii "cEVM" ++ (podToHex (env.cnFastHash
    (creator ++ name ++ symbol ++ decimal size ++ decimal nonce.toNat))).take 46

def TokenStore.createAddress (env : Env) (s : TokenStore) (name symbol creator address : Bytes)
    (nonce : UInt64) : Bytes :=
  if address = [] then
    generatedAddress env creator name symbol (s.tokens.insert name TokenInfo.empty).keys.card nonce
  else address

/-- `nonce` is what `crypto::rand<uint64_t>()` would return. -/
def TokenStore.create (env : Env) (s : TokenStore) (name symbol : Bytes) (supply : UInt64) (creator : Bytes)
    (creatorFee : UInt64) (address : Bytes) (nonce : UInt64) : TokenStore :=
  let tok := getD s.tokens name TokenInfo.empty
  let addr := s.createAddress env name symbol creator address nonce
  let tok := { tok with
    name := name, symbol := symbol, creator := creator, totalSupply := supply, creatorFee := creatorFee,
    creatorFeeLocked := false, paused := false, balances := tok.balances.insert creator supply,
    address := addr }
  { s with
    tokens := s.tokens.insert name tok
    creatorTokens := s.creatorTokens.insert creator (s.namesOf creator ++ [name])
    addressIndex := s.addressIndex.insert addr name }

def parseAnyAddress (env : Env) (str : Bytes) : Option (AddressParseInfo × NetworkType) :=
  [NetworkType.mainnet, .testnet, .stagenet].findSome? fun n =>
    (env.getAccountAddressFromStr n str).map fun info => (info, n)

def integratedBase (env : Env) (str : Bytes) : Option Bytes :=
  match parseAnyAddress env str with
  | some (info, net) =>
    if info.hasPaymentId then some (env.getAccountAddressAsStr net info.isSubaddress info.address) else none
  | none => none

namespace TokenStore
variable (env : Env) (s : TokenStore)

def withToken (slot : Option Bytes) (f : Bytes → TokenInfo → TokenStore × Bool) : TokenStore × Bool :=
  match slot with
  | none => (s, false)
  | some n => match s.get n with
    | none => (s, false)
    | some tok => f n tok

/-- The common body of the two transfers: `slot` is where the token was found, `recAddr` the
address written to the history. -/
def transferAt (slot : Option Bytes) (recAddr : TokenInfo → Bytes) (fromAcc toAcc : Bytes) (amount : UInt64) :
    TokenStore × Bool :=
  s.withToken slot fun n tok =>
    if tok.paused then (s, false)
    else if fromAcc ∈ tok.frozenAccounts ∨ toAcc ∈ tok.frozenAccounts then (s, false)
    else if tok.short fromAcc amount then (s, false)
    else
      let moved := (tok.debit fromAcc amount).credit toAcc amount
      let tok' := match integratedBase env toAcc with
        | some base => moved.setAllowance toAcc base (moved.allowance toAcc base + amount)
        | none => moved
      ((s.put n tok').recordTransfer (recAddr tok) fromAcc toAcc amount, true)

def transfer (name fromAcc toAcc : Bytes) (amount : UInt64) : TokenStore × Bool :=
  s.transferAt env (some name) (·.address) fromAcc toAcc amount

def transferByAddress (address fromAcc toAcc : Bytes) (amount : UInt64) : TokenStore × Bool :=
  s.transferAt env (s.addressIndex.lookup address) (fun _ => address) fromAcc toAcc amount

def approve (name owner spender : Bytes) (amount : UInt64) (caller : Bytes) : TokenStore × Bool :=
  s.withToken (some name) fun n tok =>
    if caller ≠ owner then (s, false)
    else match tok.balances.lookup owner with
      | none => (s, false)
      | some _ => (s.put n (tok.setAllowance owner spender amount), true)

def transferFromAt (slot : Option Bytes) (recAddr : TokenInfo → Bytes) (spender fromAcc toAcc : Bytes)
    (amount : UInt64) : TokenStore × Bool :=
  s.withToken slot fun n tok =>
    if tok.paused then (s, false)
    else if spender ∈ tok.frozenAccounts ∨ fromAcc ∈ tok.frozenAccounts ∨ toAcc ∈ tok.frozenAccounts then
      (s, false)
    else
      -- `auto &allowed = tok->allowances[from][spender]` creates the entry it reads
      let allowed := tok.allowance fromAcc spender
      let tok := tok.setAllowance fromAcc spender allowed
      if allowed < amount then (s.put n tok, false)
      else if tok.short fromAcc amount then (s.put n tok, false)
      else
        let tok' := ((tok.setAllowance fromAcc spender (allowed - amount)).debit fromAcc amount).credit toAcc amount
        ((s.put n tok').recordTransfer (recAddr tok) fromAcc toAcc amount, true)

def transferFrom (name spender fromAcc toAcc : Bytes) (amount : UInt64) : TokenStore × Bool :=
  s.transferFromAt (some name) (·.address) spender fromAcc toAcc amount

def transferFromByAddress (address spender fromAcc toAcc : Bytes) (amount : UInt64) : TokenStore × Bool :=
  s.transferFromAt (s.addressIndex.lookup address) (fun _ => address) spender fromAcc toAcc amount

def burn (address owner : Bytes) (amount : UInt64) : TokenStore × Bool :=
  s.withToken (s.addressIndex.lookup address) fun n tok =>
    if owner ∈ tok.frozenAccounts then (s, false)
    else if tok.short owner amount then (s, false)
    else
      let tok' := { tok.debit owner amount with totalSupply := tok.totalSupply - amount }
      ((s.put n tok').recordTransfer address owner [] amount, true)

def mint (address creator : Bytes) (amount : UInt64) : TokenStore × Bool :=
  s.withToken (s.addressIndex.lookup address) fun n tok =>
    if tok.creator ≠ creator then (s, false)
    else if creator ∈ tok.frozenAccounts then (s, false)
    else
      let tok' := { tok.credit creator amount with totalSupply := tok.totalSupply + amount }
      ((s.put n tok').recordTransfer address [] creator amount, true)

/-- The common body of the administrative setters: `refused` is the check on the token found,
`edit` the field that is written. -/
def administer (address : Bytes) (refused : TokenInfo → Bool) (edit : TokenInfo → TokenInfo) : TokenStore × Bool :=
  s.withToken (s.addressIndex.lookup address) fun n tok =>
    if refused tok then (s, false) else (s.put n (edit tok), true)

def setCreatorFee (address creator : Bytes) (fee : UInt64) : TokenStore × Bool :=
  s.administer address (fun tok => tok.creator ≠ creator || tok.creatorFeeLocked)
    fun tok => { tok with creatorFee := fee }

def lockCreatorFee (address creator : Bytes) : TokenStore × Bool :=
  s.administer address (fun tok => tok.creator ≠ creator || tok.creatorFeeLocked)
    fun tok => { tok with creatorFeeLocked := true }

def setPaused (address creator : Bytes) (p : Bool) : TokenStore × Bool :=
  s.administer address (fun tok => tok.creator ≠ creator) fun tok => { tok with paused := p }

def setFrozen (address creator account : Bytes) (f : Bool) : TokenStore × Bool :=
  s.administer address (fun _ => creator ≠ governanceWalletAddress) fun tok =>
    { tok with frozenAccounts :=
        if f then insert account tok.frozenAccounts else tok.frozenAccounts.erase account }

def transferOwnership (address creator newOwner : Bytes) : TokenStore × Bool :=
  s.withToken (s.addressIndex.lookup address) fun n tok =>
    if tok.creator ≠ creator then (s, false)
    else
      let ct := s.creatorTokens.insert creator ((s.namesOf creator).filter (· ≠ n))
      let s' := s.put n { tok with creator := newOwner }
      ({ s' with creatorTokens := ct.insert newOwner (getD ct newOwner [] ++ [n]) }, true)

def indexOne (s : TokenStore) (n : Bytes) : TokenStore :=
  match s.get n with
  | none => s
  | some tok => { s with
    addressIndex := s.addressIndex.insert tok.address n
    creatorTokens := s.creatorTokens.insert tok.creator (s.namesOf tok.creator ++ [n]) }

def rebuildIndexes (order : List Bytes) : TokenStore :=
  order.foldl indexOne { s with addressIndex := ∅, creatorTokens := ∅ }

end TokenStore

/-- `token_store_data` (token.h:118): what `save` writes and `load` reads. -/
structure TokenStoreData where
  tokens : UMap Bytes TokenInfo
  transfers : List TokenTransferRecord
deriving DecidableEq

def TokenStore.save (s : TokenStore) : TokenStoreData := ⟨s.tokens, s.transferHistory⟩

def TokenStore.load (d : TokenStoreData) (order : List Bytes) : TokenStore :=
  TokenStore.rebuildIndexes ⟨d.tokens, ∅, ∅, d.transfers⟩ order

inductive StoreOp where
  | create (name symbol : Bytes) (supply : UInt64) (creator : Bytes) (creatorFee : UInt64) (address : Bytes)
      (nonce : UInt64)
  | transfer (name fromAcc toAcc : Bytes) (amount : UInt64)
  | transferByAddress (address fromAcc toAcc : Bytes) (amount : UInt64)
  | approve (name owner spender : Bytes) (amount : UInt64) (caller : Bytes)
  | transferFrom (name spender fromAcc toAcc : Bytes) (amount : UInt64)
  | transferFromByAddress (address spender fromAcc toAcc : Bytes) (amount : UInt64)
  | burn (address owner : Bytes) (amount : UInt64)
  | mint (address creator : Bytes) (amount : UInt64)
  | setCreatorFee (address creator : Bytes) (fee : UInt64)
  | lockCreatorFee (address creator : Bytes)
  | setPaused (address creator : Bytes) (p : Bool)
  | setFrozen (address creator account : Bytes) (f : Bool)
  | transferOwnership (address creator newOwner : Bytes)
deriving DecidableEq

def TokenStore.step (env : Env) (s : TokenStore) : StoreOp → TokenStore × Bool
  | .create name symbol supply creator fee address nonce =>
    (s.create env name symbol supply creator fee address nonce, true)
  | .transfer name f t amount => s.transfer env name f t amount
  | .transferByAddress address f t amount => s.transferByAddress env address f t amount
  | .approve name owner spender amount caller => s.approve name owner spender amount caller
  | .transferFrom name spender f t amount => s.transferFrom name spender f t amount
  | .transferFromByAddress address spender f t amount => s.transferFromByAddress address spender f t amount
  | .burn address owner amount => s.burn address owner amount
  | .mint address creator amount => s.mint address creator amount
  | .setCreatorFee address creator fee => s.setCreatorFee address creator fee
  | .lockCreatorFee address creator => s.lockCreatorFee address creator
  | .setPaused address creator p => s.setPaused address creator p
  | .setFrozen address creator account f => s.setFrozen address creator account f
  | .transferOwnership address creator newOwner => s.transferOwnership address creator newOwner

end Electronero
