import Electronero.Token.Effects
import Electronero.Token.Extra
/-!
# Executing a token transaction (`cryptonote_protocol_handler.inl:1837-1948`)

`crypto::rand` is the explicit `nonce`. Saving the token file at the end (:1946) is in the modules about the file.
-/
namespace Electronero
open Text FiniteMap

def signerOf : TokenOpType → List Bytes → Bytes
  | .create, _ :: _ :: _ :: _ :: creator :: _ => creator
  | .transfer, [_, signer, _, _] => signer
  | .approve, [_, signer, _, _] => signer
  | .transferFrom, [_, signer, _, _, _] => signer
  | .setFee, [_, signer, _] => signer
  | .burn, [_, signer, _] => signer
  | .mint, [_, signer, _] => signer
  | .transferOwnership, [_, signer, _] => signer
  | .pause, [_, signer, _] => signer
  | .freeze, [_, signer, _, _] => signer
  | .lockFee, [_, signer] => signer
  | _, _ => []

structure TokenRequest where
  op : TokenOpType
  parts : List Bytes
  sig : Option Signature
  signer : Bytes
  info : AddressParseInfo
deriving DecidableEq

def requestOf (env : Env) (e : TokenExtra) : Option TokenRequest :=
  let signer := signerOf e.op e.fields
  if signer = [] then none
  else (env.getAccountAddressFromStr env.nettype signer).map fun info => ⟨e.op, e.fields, e.sig, signer, info⟩

def tokenRequest (env : Env) (tx : Transaction) : Option TokenRequest :=
  (tx.tokenExtra.bind parseTokenExtra).bind (requestOf env)

def needsCreator : TokenOpType → Bool
  | .mint => true
  | .setFee => true
  | .transferOwnership => true
  | .pause => true
  | .lockFee => true
  | _ => false

def permitted (s : TokenStore) (r : TokenRequest) : Bool :=
  if r.op = .freeze then r.signer == governanceWalletAddress
  else if needsCreator r.op then (s.getByAddress (r.parts.headD [])).any (·.creator = r.signer)
  else true

def requireSig (height : UInt64) (op : TokenOpType) : Bool :=
  op == .freeze || tokenSignatureActivationHeight ≤ height

def signatureOk (env : Env) (height : UInt64) (r : TokenRequest) : Bool :=
  match r.sig with
  | some sig => verifyTokenExtra env r.op r.parts r.info.address.spendPublicKey sig
  | none => !requireSig height r.op

def authorised (env : Env) (s : TokenStore) (height : UInt64) (r : TokenRequest) : Bool :=
  permitted s r && signatureOk env height r

def creatorFeeOf : List Bytes → Except StdException UInt64
  | [fee] => stoull fee
  | _ => .ok 0

def dispatch (nonce : UInt64) : TokenOpType → List Bytes → Except StdException (Option StoreOp)
  | .create, address :: name :: symbol :: supply :: creator :: rest => do
    let creatorFee ← creatorFeeOf rest
    let supply ← stoull supply
    return some (.create name symbol supply creator creatorFee address nonce)
  | .transfer, [address, fromAcc, toAcc, amount] => do
    let amount ← stoull amount
    return some (.transferByAddress address fromAcc toAcc amount)
  | .approve, [name, owner, spender, amount] => do
    let amount ← stoull amount
    return some (.approve name owner spender amount owner)
  | .transferFrom, [address, spender, fromAcc, toAcc, amount] => do
    let amount ← stoull amount
    return some (.transferFromByAddress address spender fromAcc toAcc amount)
  | .setFee, [address, creator, fee] => do
    let fee ← stoull fee
    return some (.setCreatorFee address creator fee)
  | .lockFee, [address, creator] => return some (.lockCreatorFee address creator)
  | .burn, [address, owner, amount] => do
    let amount ← stoull amount
    return some (.burn address owner amount)
  | .mint, [address, creator, amount] => do
    let amount ← stoull amount
    return some (.mint address creator amount)
  | .transferOwnership, [address, creator, newOwner] => return some (.transferOwnership address creator newOwner)
  | .pause, [address, creator, flag] => do
    let flag ← stoull flag
    return some (.setPaused address creator (flag != 0))
  | .freeze, [address, creator, account, flag] => do
    let flag ← stoull flag
    return some (.setFrozen address creator account (flag != 0))
  | _, _ => return none

/-- The store call a transaction leads to; `ok none` is an early return. -/
def executes (env : Env) (s : TokenStore) (height : UInt64) (tx : Transaction) (nonce : UInt64) :
    Except StdException (Option StoreOp) :=
  match tokenRequest env tx with
  | none => .ok none
  | some r => if authorised env s height r then dispatch nonce r.op r.parts else .ok none

def processTokenTx (env : Env) (s : TokenStore) (height : UInt64) (tx : Transaction) (nonce : UInt64) :
    Except StdException TokenStore :=
  match executes env s height tx nonce with
  | .error e => .error e
  | .ok none => .ok s
  | .ok (some op) => .ok (s.step env op).1

def signedTx (id k : UInt8) (op : TokenOpType) (fields : List Bytes) : Transaction :=
  ⟨Env.plainKey id, 2,
    some [.tokenData (makeSignedTokenExtra Env.plain op fields (Env.plainKey k) (Env.plainKey k))]⟩

/-! ## When it throws, when it does nothing -/

def numberFields : TokenOpType → List Bytes → List Bytes
  | .create, [_, _, _, supply, _, fee] => [fee, supply]
  | .create, _ :: _ :: _ :: supply :: _ :: _ => [supply]
  | .transfer, [_, _, _, amount] => [amount]
  | .approve, [_, _, _, amount] => [amount]
  | .transferFrom, [_, _, _, _, amount] => [amount]
  | .setFee, [_, _, fee] => [fee]
  | .burn, [_, _, amount] => [amount]
  | .mint, [_, _, amount] => [amount]
  | .pause, [_, _, flag] => [flag]
  | .freeze, [_, _, _, flag] => [flag]
  | _, _ => []

def badNumber (r : TokenRequest) : Bool := (numberFields r.op r.parts).any fun field => !(stoull field).toBool

def isTokenTx (env : Env) (tx : Transaction) : Bool := (tokenRequest env tx).isSome

variable {env : Env} {s : TokenStore} {height : UInt64} {tx : Transaction} {nonce : UInt64}

theorem processTokenTx_of_not_token (h : isTokenTx env tx = false) : processTokenTx env s height tx nonce = .ok s := by
  unfold isTokenTx at h
  unfold processTokenTx executes
  grind

def StoreOp.withNonce (nonce : UInt64) : StoreOp → StoreOp
  | .create name symbol supply creator fee address _ => .create name symbol supply creator fee address nonce
  | op => op

theorem dispatch_nonce (op : TokenOpType) (parts : List Bytes) (nonce nonce' : UInt64) :
    dispatch nonce' op parts = (dispatch nonce op parts).map (Option.map (StoreOp.withNonce nonce')) := by
  fun_cases dispatch nonce op parts with
  | case1 address name symbol supply creator rest =>
    unfold dispatch
    cases creatorFeeOf rest with
    | error e => rfl
    | ok fee => cases stoull supply <;> rfl
  | case2 address fromAcc toAcc amount => unfold dispatch; cases stoull amount <;> rfl
  | case3 name owner spender amount => unfold dispatch; cases stoull amount <;> rfl
  | case4 address spender fromAcc toAcc amount => unfold dispatch; cases stoull amount <;> rfl
  | case5 address creator fee => unfold dispatch; cases stoull fee <;> rfl
  | case7 address owner amount => unfold dispatch; cases stoull amount <;> rfl
  | case8 address creator amount => unfold dispatch; cases stoull amount <;> rfl
  | case10 address creator flag => unfold dispatch; cases stoull flag <;> rfl
  | case11 address creator account flag => unfold dispatch; cases stoull flag <;> rfl
  | case12 op parts =>
    -- no pattern fits, with the one nonce or the other
    have hnone : dispatch nonce' op parts = .ok none := by
      fun_cases dispatch nonce' op parts <;> first | rfl | grind
    rw [hnone]
    rfl
  | _ => rfl

theorem toBool_bind_pure {α β : Type} (x : Except StdException α) (f : α → β) :
    (x >>= fun a => pure (f a)).toBool = x.toBool := by
  cases x <;> rfl

theorem dispatch_toBool (nonce : UInt64) (op : TokenOpType) (parts : List Bytes) :
    (dispatch nonce op parts).toBool = (numberFields op parts).all fun field => (stoull field).toBool := by
  fun_cases dispatch nonce op parts with
  | case1 address name symbol supply creator rest =>
    -- a sixth field, and only that, is the fee
    match rest with
    | [] =>
      simp only [numberFields, List.all_cons, List.all_nil, Bool.and_true]
      exact toBool_bind_pure _ _
    | [fee] =>
      simp only [creatorFeeOf, numberFields, List.all_cons, List.all_nil, Bool.and_true]
      cases stoull fee with
      | error e => rfl
      | ok n => exact toBool_bind_pure _ _
    | _ :: _ :: _ =>
      simp only [numberFields, List.all_cons, List.all_nil, Bool.and_true]
      exact toBool_bind_pure _ _
  | case12 op parts =>
    have hnone : numberFields op parts = [] := by
      fun_cases numberFields op parts <;> first | rfl | grind
    rw [hnone]
    rfl
  | _ =>
    simp only [numberFields, List.all_cons, List.all_nil, Bool.and_true]
    first
      | exact toBool_bind_pure _ _
      | rfl

theorem dispatch_error_iff (r : TokenRequest) (nonce : UInt64) :
    (∃ e, dispatch nonce r.op r.parts = .error e) ↔ badNumber r = true := by
  have hbad : badNumber r = !(dispatch nonce r.op r.parts).toBool := by grind [badNumber, dispatch_toBool]
  rw [hbad]
  cases dispatch nonce r.op r.parts <;> simp [Except.toBool]

theorem processTokenTx_throws_iff : (∃ e, processTokenTx env s height tx nonce = .error e) ↔
      ∃ r, tokenRequest env tx = some r ∧ authorised env s height r = true ∧ badNumber r = true := by
  unfold processTokenTx executes
  cases hr : tokenRequest env tx with
  | none => simp
  | some r =>
    cases ha : authorised env s height r with
    | false => simp [ha]
    | true =>
      simp only [if_true, Option.some.injEq, exists_eq_left', ha, true_and]
      rw [← dispatch_error_iff r nonce]
      cases hd : dispatch nonce r.op r.parts with
      | error e => simp
      | ok o => cases o <;> simp

def throws (env : Env) (s : TokenStore) (height : UInt64) (tx : Transaction) : Bool :=
  (tokenRequest env tx).any fun r => authorised env s height r && badNumber r

theorem throws_iff : throws env s height tx = true ↔ ∃ e, processTokenTx env s height tx nonce = .error e := by
  rw [processTokenTx_throws_iff]
  unfold throws
  cases tokenRequest env tx <;> simp

variable {s' : TokenStore} {parts : List Bytes} {call : StoreOp} {op : TokenOpType}

theorem not_throws_of_ok (h : processTokenTx env s height tx nonce = .ok s') : throws env s height tx = false := by
  cases ht : throws env s height tx with
  | false => rfl
  | true =>
    obtain ⟨e, he⟩ := (@throws_iff env s height tx nonce).1 ht
    rw [h] at he
    cases he

theorem dispatch_create (h : dispatch nonce .create parts = .ok (some call)) :
    ∃ address name symbol digits creator rest supply fee,
      parts = address :: name :: symbol :: digits :: creator :: rest ∧ call = .create name symbol supply creator fee address nonce := by
  match parts, h with
  | address :: name :: symbol :: digits :: creator :: rest, h =>
    simp only [dispatch] at h
    cases hfee : creatorFeeOf rest with
    | error e =>
      rw [hfee] at h
      cases h
    | ok fee =>
      cases hsupply : stoull digits with
      | error e =>
        rw [hfee, hsupply] at h
        cases h
      | ok supply =>
        rw [hfee, hsupply] at h
        cases h
        grind

theorem eq_of_bind_pure {α β : Type} {x : Except StdException α} {f : α → β} {c : β}
    (h : (x >>= fun a => pure (f a)) = .ok c) : ∃ a, f a = c := by
  cases x with
  | error e => cases h
  | ok a => exact ⟨a, Except.ok.inj h⟩

theorem op_of_dispatch_create {name symbol creator address : Bytes} {supply fee nonce' : UInt64}
    (h : dispatch nonce op parts = .ok (some (.create name symbol supply creator fee address nonce'))) :
    op = .create := by
  revert h
  fun_cases dispatch nonce op parts with
  | case1 => exact fun _ => rfl
  | _ =>
    intro h
    first
      | cases h
      | obtain ⟨a, ha⟩ := eq_of_bind_pure h
        cases ha

theorem eq_of_requestOf {e : TokenExtra} {r : TokenRequest} (h : requestOf env e = some r) :
    ∃ info, r = ⟨e.op, e.fields, e.sig, signerOf e.op e.fields, info⟩ := by
  unfold requestOf at h
  dsimp only at h
  split at h
  · cases h
  · obtain ⟨info, -, rfl⟩ := Option.map_eq_some_iff.1 h
    exact ⟨info, rfl⟩

theorem executes_of_no_request (h : tokenRequest env tx = none) : executes env s height tx nonce = .ok none := by
  unfold executes
  rw [h]

theorem executes_cases {op : StoreOp} (h : executes env s height tx nonce = .ok (some op)) :
    ∃ r, tokenRequest env tx = some r ∧ permitted s r = true ∧ signatureOk env height r = true ∧
      dispatch nonce r.op r.parts = .ok (some op) := by
  unfold executes at h
  cases hr : tokenRequest env tx with
  | none => simp [hr] at h
  | some r =>
    simp only [hr] at h
    split at h
    · rename_i ha
      obtain ⟨hp, hs⟩ := Bool.and_eq_true_iff.1 ha
      exact ⟨r, rfl, hp, hs, h⟩
    · cases h

theorem processTokenTx_cases (h : processTokenTx env s height tx nonce = .ok s') :
    s' = s ∨ ∃ op, executes env s height tx nonce = .ok (some op) ∧ s' = (s.step env op).1 := by
  unfold processTokenTx at h
  grind

/-! ## Transactions one after the other -/

structure OnChain where
  height : UInt64
  tx : Transaction
  nonce : UInt64

def OnChain.effect (env : Env) (s : TokenStore) (o : OnChain) : TokenStore :=
  match executes env s o.height o.tx o.nonce with
  | .ok (some op) => (s.step env op).1
  | _ => s

def StoreOp.signer : StoreOp → Bytes
  | .create _ _ _ creator _ _ _ => creator
  | .transfer _ f _ _ => f
  | .transferByAddress _ f _ _ => f
  | .approve _ owner _ _ _ => owner
  | .transferFrom _ spender _ _ _ => spender
  | .transferFromByAddress _ spender _ _ _ => spender
  | .burn _ owner _ => owner
  | .mint _ creator _ => creator
  | .setCreatorFee _ creator _ => creator
  | .lockCreatorFee _ creator => creator
  | .setPaused _ creator _ => creator
  | .setFrozen _ creator _ _ => creator
  | .transferOwnership _ creator _ => creator

theorem signer_of_dispatch (h : dispatch nonce op parts = .ok (some call)) : call.signer = signerOf op parts := by
  revert h
  fun_cases dispatch nonce op parts with
  | case1 address name symbol supply creator rest =>
    intro h
    have hd : dispatch nonce .create (address :: name :: symbol :: supply :: creator :: rest) = .ok (some call) := h
    obtain ⟨_, _, _, _, _, _, _, _, hparts, rfl⟩ := dispatch_create hd
    cases hparts
    rfl
  | _ =>
    intro h
    first
      | cases h; rfl
      | cases h
      | obtain ⟨a, ha⟩ := eq_of_bind_pure h
        cases ha
        rfl

end Electronero
