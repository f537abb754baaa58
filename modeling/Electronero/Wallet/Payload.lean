import Electronero.Protocol.ProcessTokenTx
import Electronero.Wallet.TokenRpc
/-!
# From a wallet's command to the daemon's request

The daemon reads the fields as they were written if none has a tab, and nothing otherwise (`create` apart).
-/
namespace Electronero
open Text FiniteMap

def TokenRpc.strings : TokenRpc → List Bytes
  | .create name symbol _ _ => [name, symbol]
  | .transfer address toAcc _ _ => [address, toAcc]
  | .approve name spender _ _ => [name, spender]
  | .transferFrom address fromAcc toAcc _ _ => [address, fromAcc, toAcc]
  | .burn address _ _ => [address]
  | .mint address _ => [address]
  | .setFee address _ => [address]
  | .lockFee address => [address]
  | .transferOwnership address newOwner => [address, newOwner]
  | .pause address _ => [address]
  | .freeze address account _ => [address, account]

def TokenRpc.account : TokenRpc → UInt32
  | .transfer _ _ _ index => index
  | .approve _ _ _ index => index
  | .transferFrom _ _ _ _ index => index
  | .burn _ _ index => index
  | _ => 0

def TokenRpc.forCreator : TokenRpc → Option Bytes
  | .mint address _ => some address
  | .setFee address _ => some address
  | .lockFee address => some address
  | .transferOwnership address _ => some address
  | .pause address _ => some address
  | _ => none

def TokenRpc.isCreate : TokenRpc → Bool
  | .create _ _ _ _ => true
  | _ => false

def TokenRpc.isFreeze : TokenRpc → Bool
  | .freeze _ _ _ => true
  | _ => false

def TokenRpc.newOwner : TokenRpc → Option Bytes
  | .transferOwnership _ newOwner => some newOwner
  | _ => none

/-! ## Reading through `tk` after the call -/

section Creator
variable {env : Env} {s : TokenStore}

variable {address : Bytes}

theorem creatorAt_administer {refused : TokenInfo → Bool} {edit : TokenInfo → TokenInfo}
    (h : ∀ t, (edit t).creator = t.creator) :
    creatorAt (s.administer address refused edit).1 address = creatorAt s address := by
  obtain hr | ⟨n, t, hslot, hg, hr⟩ := TokenStore.withToken_cases (rfl : s.administer address refused edit = _)
  · rw [hr]
  · rw [← hr]
    split
    · rfl
    · simp only [creatorAt, TokenStore.getByAddress, TokenStore.put, hslot, Option.bind_some]
      unfold TokenStore.get at hg ⊢
      simp [hg, h t]

theorem creatorAt_transferOwnership {creator newOwner : Bytes}
    (h : (s.transferOwnership address creator newOwner).2 = true) :
    creatorAt (s.transferOwnership address creator newOwner).1 address = newOwner := by
  obtain ⟨n, t, hslot, hg, hr⟩ := TokenStore.withToken_success h
  unfold TokenStore.transferOwnership at h ⊢
  rw [hr] at h ⊢
  split_ifs at h ⊢
  simp only [creatorAt, TokenStore.getByAddress, TokenStore.put, hslot, Option.bind_some]
  unfold TokenStore.get
  simp

theorem creatorAt_of_any {base : Bytes} (h : (s.getByAddress address).any (·.creator = base) = true) :
    creatorAt s address = base := by
  unfold creatorAt
  cases hg : s.getByAddress address with
  | none => simp [hg] at h
  | some t => simpa [hg] using h

end Creator

theorem stoull_number (n : UInt64) : stoull (number n) = .ok n := stoull_decimal n

theorem stoull_flag (b : Bool) : stoull (flag b) = .ok (if b then 1 else 0) := by
  cases b <;> decide +kernel

theorem tab_not_mem_number (n : UInt64) : tab ∉ number n := tab_not_mem_decimal _

theorem tab_not_mem_flag (b : Bool) : tab ∉ flag b := by
  cases b <;> decide

theorem generatedAddress_text (env : Env) (creator name symbol : Bytes) (size : Nat) (nonce : UInt64) :
    generatedAddress env creator name symbol size nonce ≠ [] ∧
      tab ∉ generatedAddress env creator name symbol size nonce := by
  unfold generatedAddress
  constructor
  · exact List.append_ne_nil_of_left_ne_nil (by decide) _
  · intro h
    rcases List.mem_append.1 h with h | h
    · revert h
      decide
    · exact tab_not_mem_podToHex _ (List.mem_of_mem_take h)

theorem createAddress_text (env : Env) (s : TokenStore) (name symbol creator : Bytes) (nonce : UInt64) :
    s.createAddress env name symbol creator [] nonce ≠ [] ∧ tab ∉ s.createAddress env name symbol creator [] nonce := by
  unfold TokenStore.createAddress
  grind [generatedAddress_text]

namespace Wallet
variable {env : Env} {w : Wallet env} {s : TokenStore} {height nonce : UInt64} {funded : Bool} {req : TokenRpc}

structure Sent (w : Wallet env) (s : TokenStore) (nonce : UInt64) (req : TokenRpc) (out : RpcOutcome) : Prop where
  tokens : out.tokens = (s.step env (w.order s nonce req).call).1
  success : (s.step env (w.order s nonce req).call).2 = true
  payload : out.payload = some (w.extra true (w.order s nonce req))
  creator : ∀ address, req.forCreator = some address → (s.getByAddress address).any (·.creator = w.baseAddress) = true
  governance : req.isFreeze = true → w.baseAddress = governanceWalletAddress

variable {needsGovernance : Bool}

theorem submit_success {sign : Bool} {o : Order} (h : (w.submit s needsGovernance sign funded o).response = .ok true) :
    (w.submit s needsGovernance sign funded o).tokens = (s.step env o.call).1 ∧ (s.step env o.call).2 = true ∧
      (w.submit s needsGovernance sign funded o).payload = some (w.extra sign o) := by
  unfold submit at h ⊢
  dsimp only at h ⊢
  grind

theorem sent_of_submit (hnone : req.forCreator = none) (hfreeze : req.isFreeze = false)
    (h : (w.submit s needsGovernance true funded (w.order s nonce req)).response = .ok true) :
    Sent w s nonce req (w.submit s needsGovernance true funded (w.order s nonce req)) := by
  obtain ⟨h1, h2, h3⟩ := submit_success h
  exact ⟨h1, h2, h3, by simp [hnone], by simp [hfreeze]⟩

theorem sent_of_creator {address : Bytes} (haddress : req.forCreator = some address) (hfreeze : req.isFreeze = false)
    (hcreator : (s.getByAddress address).any (·.creator = w.baseAddress) = true)
    (h : (w.submit s true true funded (w.order s nonce req)).response = .ok true) :
    Sent w s nonce req (w.submit s true true funded (w.order s nonce req)) := by
  obtain ⟨h1, h2, h3⟩ := submit_success h
  refine ⟨h1, h2, h3, ?_, by simp [hfreeze]⟩
  grind

theorem any_of_notCreator {address : Bytes} (h : ¬ w.notCreator s address = true) :
    (s.getByAddress address).any (·.creator = w.baseAddress) = true := by
  unfold notCreator at h
  simpa using h

theorem sent_of_success (hheight : tokenSignatureActivationHeight ≤ height)
    (h : (w.handle s (some height) funded nonce req).response = .ok true) :
    Sent w s nonce req (w.handle s (some height) funded nonce req) := by
  have hsign : signsAt (some height) = true := by simp [signsAt, hheight]
  -- the early returns answer with an error or `false`
  cases req with
  | create name symbol supply fee =>
    simp only [handle, onTokenCreate, hsign] at h ⊢
    split_ifs at h ⊢
    · cases h
    · exact ⟨rfl, rfl, rfl, nofun, nofun⟩
  | transfer address toAcc amount index =>
    simp only [handle, onTokenTransfer, hsign] at h ⊢
    split_ifs at h ⊢
    · cases h
    · cases h
    · exact sent_of_submit rfl rfl h
  | approve name spender amount index =>
    simp only [handle, onTokenApprove, hsign] at h ⊢
    exact sent_of_submit rfl rfl h
  | transferFrom address fromAcc toAcc amount index =>
    simp only [handle, onTokenTransferFrom, hsign] at h ⊢
    split_ifs at h ⊢
    · cases h
    · cases h
    · exact sent_of_submit rfl rfl h
  | burn address amount index =>
    simp only [handle, onTokenBurn, hsign] at h ⊢
    split_ifs at h ⊢
    · cases h
    · exact sent_of_submit rfl rfl h
  | mint address amount =>
    simp only [handle, onTokenMint, hsign] at h ⊢
    cases hg : s.getByAddress address with
    | none =>
      simp only [hg] at h
      cases h
    | some tk =>
      simp only [hg] at h ⊢
      split_ifs at h ⊢ with hc
      · cases h
      · have hcreator : (s.getByAddress address).any (·.creator = w.baseAddress) = true := by
          simpa [hg] using hc
        exact @sent_of_creator env w s nonce funded (.mint address amount) address rfl rfl hcreator h
  | setFee address fee =>
    simp only [handle, onTokenSetFee, hsign] at h ⊢
    split_ifs at h ⊢ with hc
    · cases h
    · exact @sent_of_creator env w s nonce funded (.setFee address fee) address rfl rfl (any_of_notCreator hc) h
  | lockFee address =>
    simp only [handle, onTokenLockFee, hsign] at h ⊢
    split_ifs at h ⊢ with hc
    · cases h
    · exact @sent_of_creator env w s nonce funded (.lockFee address) address rfl rfl (any_of_notCreator hc) h
  | transferOwnership address newOwner =>
    simp only [handle, onTokenTransferOwnership, hsign] at h ⊢
    cases hinfo : env.getAccountAddressFromStr env.nettype newOwner with
    | none =>
      simp only [hinfo] at h
      split_ifs at h
      · cases h
      · cases h
    | some info =>
      simp only [hinfo] at h ⊢
      split_ifs at h ⊢ with hc hi
      · cases h
      · cases h
      · exact @sent_of_creator env w s nonce funded (.transferOwnership address newOwner) address rfl rfl
          (any_of_notCreator hc) h
  | pause address paused =>
    simp only [handle, onTokenPause, hsign] at h ⊢
    split_ifs at h ⊢ with hc
    · cases h
    · exact @sent_of_creator env w s nonce funded (.pause address paused) address rfl rfl (any_of_notCreator hc) h
  | freeze address account frozen =>
    simp only [handle, onTokenFreeze] at h ⊢
    split_ifs at h ⊢ with hc
    · cases h
    · obtain ⟨h1, h2, h3⟩ := submit_success h
      refine ⟨h1, h2, h3, nofun, fun _ => ?_⟩
      grind

section Fields
variable {out : RpcOutcome}

def signer (w : Wallet env) (req : TokenRpc) : Bytes := req.newOwner.getD (w.subaddress req.account)

variable {address : Bytes}

theorem creatorAt_after_setFee {fee : UInt64} (h : Sent w s nonce (.setFee address fee) out) :
    creatorAt (s.setCreatorFee address (creatorAt s address) fee).1 address = w.baseAddress := by
  unfold TokenStore.setCreatorFee
  refine Eq.trans (creatorAt_administer ?_) (creatorAt_of_any (h.creator address rfl))
  intro t
  rfl

theorem creatorAt_after_lockFee (h : Sent w s nonce (.lockFee address) out) :
    creatorAt (s.lockCreatorFee address (creatorAt s address)).1 address = w.baseAddress := by
  unfold TokenStore.lockCreatorFee
  refine Eq.trans (creatorAt_administer ?_) (creatorAt_of_any (h.creator address rfl))
  intro t
  rfl

theorem creatorAt_after_transferOwnership {newOwner : Bytes}
    (h : Sent w s nonce (.transferOwnership address newOwner) out) :
    creatorAt (s.transferOwnership address w.baseAddress newOwner).1 address = newOwner :=
  creatorAt_transferOwnership h.success

theorem tab_not_mem_baseAddress (w : Wallet env) : tab ∉ w.baseAddress := (w.subaddress_text 0).2

theorem signerOf_order (h : Sent w s nonce req out) :
    signerOf (w.order s nonce req).op (w.order s nonce req).fields = w.signer req := by
  cases req with
  | setFee address fee => exact creatorAt_after_setFee h
  | lockFee address => exact creatorAt_after_lockFee h
  | transferOwnership address newOwner => exact creatorAt_after_transferOwnership h
  | _ => rfl

theorem tabFree_fields_iff (h : Sent w s nonce req out) :
    (∀ f ∈ (w.order s nonce req).fields, tab ∉ f) ↔ ∀ x ∈ req.strings, tab ∉ x := by
  have hbase := w.tab_not_mem_baseAddress
  have hsub : ∀ i, tab ∉ w.subaddress i := fun i => (w.subaddress_text i).2
  cases req with
  | create name symbol supply fee =>
    have haddr := (createAddress_text env s name symbol w.baseAddress nonce).2
    simp [order, createOrder, TokenRpc.strings, haddr, hbase, tab_not_mem_number]
  | transfer address toAcc amount index =>
    simp [order, transferOrder, TokenRpc.strings, hsub, tab_not_mem_number]
  | approve name spender amount index =>
    simp [order, approveOrder, TokenRpc.strings, hsub, tab_not_mem_number]
  | transferFrom address fromAcc toAcc amount index =>
    simp [order, transferFromOrder, TokenRpc.strings, hsub, tab_not_mem_number]
  | burn address amount index => simp [order, burnOrder, TokenRpc.strings, hsub, tab_not_mem_number]
  | mint address amount => simp [order, mintOrder, TokenRpc.strings, hbase, tab_not_mem_number]
  | setFee address fee =>
    have hc := creatorAt_after_setFee h
    simp [order, setFeeOrder, TokenRpc.strings, hc, hbase, tab_not_mem_number]
  | lockFee address =>
    have hc := creatorAt_after_lockFee h
    simp [order, lockFeeOrder, TokenRpc.strings, hc, hbase]
  | transferOwnership address newOwner =>
    have hc := creatorAt_after_transferOwnership h
    simp [order, transferOwnershipOrder, TokenRpc.strings, hc]
  | pause address paused => simp [order, pauseOrder, TokenRpc.strings, hbase, tab_not_mem_flag]
  | freeze address account frozen => simp [order, freezeOrder, TokenRpc.strings, hbase, tab_not_mem_flag]

theorem step_create_given (name symbol creator : Bytes) (supply fee nonce' : UInt64) :
    s.step env (.create name symbol supply creator fee (s.createAddress env name symbol creator [] nonce) nonce') =
      s.step env (.create name symbol supply creator fee [] nonce) := by
  have hgiven : ∀ address, address ≠ [] → s.createAddress env name symbol creator address nonce' = address :=
    fun address hne => if_neg hne
  grind [createAddress_text, TokenStore.step, TokenStore.create]

theorem flag_ne_zero (b : Bool) : ((if b then 1 else 0 : UInt64) != 0) = b := by
  cases b <;> rfl

theorem dispatch_order (h : Sent w s nonce req out) (howner : req.newOwner.all (· == w.baseAddress) = true)
    (nonce' : UInt64) :
    ∃ call, dispatch nonce' (w.order s nonce req).op (w.order s nonce req).fields = .ok (some call) ∧
      s.step env call = s.step env (w.order s nonce req).call := by
  cases req with
  | create name symbol supply fee =>
    refine ⟨_, ?_, step_create_given name symbol w.baseAddress supply fee nonce'⟩
    simp only [order, createOrder, dispatch, creatorFeeOf, stoull_number]
    rfl
  | setFee address fee =>
    have hc := creatorAt_of_any (h.creator address rfl)
    refine ⟨.setCreatorFee address w.baseAddress fee, ?_, ?_⟩
    · simp only [order, setFeeOrder, dispatch, stoull_number, creatorAt_after_setFee h]
      rfl
    · simp only [order, setFeeOrder, hc]
  | lockFee address =>
    have hc := creatorAt_of_any (h.creator address rfl)
    refine ⟨.lockCreatorFee address w.baseAddress, ?_, ?_⟩
    · simp only [order, lockFeeOrder, dispatch, creatorAt_after_lockFee h]
      rfl
    · simp only [order, lockFeeOrder, hc]
  | transferOwnership address newOwner =>
    have hown : newOwner = w.baseAddress := by simpa [TokenRpc.newOwner] using howner
    refine ⟨.transferOwnership address newOwner newOwner, ?_, ?_⟩
    · simp only [order, transferOwnershipOrder, dispatch, creatorAt_after_transferOwnership h]
      rfl
    · simp only [order, transferOwnershipOrder, hown]
  | pause address paused =>
    refine ⟨.setPaused address w.baseAddress paused, ?_, rfl⟩
    simp only [order, pauseOrder, dispatch, stoull_flag, bind, Except.bind, flag_ne_zero]
    rfl
  | freeze address account frozen =>
    refine ⟨.setFrozen address w.baseAddress account frozen, ?_, rfl⟩
    simp only [order, freezeOrder, dispatch, stoull_flag, bind, Except.bind, flag_ne_zero]
    rfl
  | _ =>
    refine ⟨_, ?_, rfl⟩
    simp only [order, transferOrder, approveOrder, transferFromOrder, burnOrder, mintOrder, dispatch, stoull_number]
    rfl

end Fields

section Daemon
variable {out : RpcOutcome} {tx : Transaction} {o : Order} {dheight nonce' : UInt64}

def signature (w : Wallet env) (op : TokenOpType) (fields : List Bytes) : Signature :=
  env.generateSignature (env.cnFastHash (makeTokenExtra op fields)) w.spendPublicKey w.spendSecretKey

variable {gs : List Bytes}

theorem tokenRequest_of_payload (htx : tx.tokenExtra = some (w.extra true o))
    (hjoin : joinFields tab gs = joinFields tab o.fields) (hfree : ∀ g ∈ gs, tab ∉ g) :
    tokenRequest env tx = requestOf env ⟨o.op, gs, some (w.signature o.op gs)⟩ := by
  have hsame : makeTokenExtra o.op gs = makeTokenExtra o.op o.fields := by
    unfold makeTokenExtra
    rw [hjoin]
  have hextra : w.extra true o = makeSignedTokenExtra env o.op gs w.spendPublicKey w.spendSecretKey := by
    simp only [extra, if_true, makeSignedTokenExtra, hsame]
  unfold tokenRequest
  rw [htx, hextra, Option.bind_some, parseTokenExtra_makeSigned _ _ _ _ _ hfree]
  rfl

theorem signatureOk_iff (op : TokenOpType) (gs : List Bytes) (signer : Bytes) (info : AddressParseInfo) :
    signatureOk env dheight ⟨op, gs, some (w.signature op gs), signer, info⟩ = true ↔
      info.address.spendPublicKey = w.spendPublicKey := w.signs _ _

def fieldCount : TokenOpType → Nat
  | .transfer => 4
  | .approve => 4
  | .transferFrom => 5
  | .setFee => 3
  | .burn => 3
  | .mint => 3
  | .transferOwnership => 3
  | .pause => 3
  | .freeze => 4
  | .lockFee => 2
  | _ => 0

theorem length_of_signerOf {op : TokenOpType} (hop : op ≠ .create) (h : signerOf op gs ≠ []) :
    gs.length = fieldCount op := by
  fun_cases signerOf op gs with
  | case1 => exact absurd rfl hop
  | case12 => simp_all [signerOf]
  | _ => rfl

theorem length_fields_order (hcreate : req.isCreate = false) :
    (w.order s nonce req).op ≠ .create ∧ (w.order s nonce req).fields.length = fieldCount (w.order s nonce req).op := by
  cases req with
  | create name symbol supply fee => cases hcreate
  | _ => exact ⟨nofun, rfl⟩

theorem tokenRequest_of_tab (hcreate : req.isCreate = false) {f : Bytes} (hf : f ∈ (w.order s nonce req).fields)
    (htab : tab ∈ f) (htx : tx.tokenExtra = some (w.extra true (w.order s nonce req))) :
    tokenRequest env tx = none := by
  obtain ⟨gs, hjoin, hfree, hlen⟩ := @exists_recut UInt8 _ tab (w.order s nonce req).fields
  obtain ⟨hop, hcount⟩ := @length_fields_order env w s nonce req hcreate
  have hmore :=
    List.count_pos_iff.2 (List.mem_flatten.2 ⟨f, hf, htab⟩)
  have hsigner : signerOf (w.order s nonce req).op gs = [] := by grind [length_of_signerOf]
  rw [tokenRequest_of_payload htx hjoin hfree]
  unfold requestOf
  dsimp only
  rw [if_pos hsigner]

theorem executes_of_tabFree (h : Sent w s nonce req out) (hfree : ∀ f ∈ (w.order s nonce req).fields, tab ∉ f)
    {info : AddressParseInfo} (hinfo : env.getAccountAddressFromStr env.nettype (w.signer req) = some info)
    (hne : w.signer req ≠ []) (htx : tx.tokenExtra = some (w.extra true (w.order s nonce req))) :
    let r : TokenRequest := ⟨(w.order s nonce req).op, (w.order s nonce req).fields,
      some (w.signature (w.order s nonce req).op (w.order s nonce req).fields), w.signer req, info⟩
    executes env s dheight tx nonce' =
      if authorised env s dheight r then dispatch nonce' r.op r.parts else .ok none := by
  intro r
  have hr : tokenRequest env tx = some r := by grind [tokenRequest_of_payload, requestOf, signerOf_order]
  unfold executes
  rw [hr]

theorem signer_eq_baseAddress (haccount : req.account = 0) (howner : req.newOwner.all (· == w.baseAddress) = true) :
    w.signer req = w.baseAddress := by
  unfold signer
  rw [haccount]
  cases hn : req.newOwner with
  | none => rfl
  | some newOwner => simpa [hn] using howner

theorem permitted_order (h : Sent w s nonce req out) (haccount : req.account = 0)
    (howner : req.newOwner.all (· == w.baseAddress) = true) (sig : Option Signature) (info : AddressParseInfo) :
    permitted s ⟨(w.order s nonce req).op, (w.order s nonce req).fields, sig, w.signer req, info⟩ = true := by
  rw [signer_eq_baseAddress haccount howner]
  cases req with
  | mint address amount => exact h.creator address rfl
  | setFee address fee => exact h.creator address rfl
  | lockFee address => exact h.creator address rfl
  | transferOwnership address newOwner => exact h.creator address rfl
  | pause address paused => exact h.creator address rfl
  | freeze address account frozen =>
    unfold permitted
    simp [order, freezeOrder, h.governance rfl]
  | _ => rfl

theorem not_permitted_newOwner {address newOwner : Bytes} (h : Sent w s nonce (.transferOwnership address newOwner) out)
    (hne : newOwner ≠ w.baseAddress) (sig : Option Signature) (info : AddressParseInfo) :
    permitted s ⟨(w.order s nonce (.transferOwnership address newOwner)).op,
      (w.order s nonce (.transferOwnership address newOwner)).fields, sig, newOwner, info⟩ = false := by
  have hcreator := h.creator address rfl
  have hrole : permitted s ⟨(w.order s nonce (.transferOwnership address newOwner)).op,
      (w.order s nonce (.transferOwnership address newOwner)).fields, sig, newOwner, info⟩ =
      (s.getByAddress address).any (·.creator = newOwner) := rfl
  rw [hrole]
  cases hg : s.getByAddress address with
  | none => rfl
  | some t => grind

end Daemon

end Wallet

end Electronero
