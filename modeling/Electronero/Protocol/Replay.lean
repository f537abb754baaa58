import Electronero.Protocol.ProcessTokenTx
/-!
# A payload processed again

A signed payload is bound to nothing but its own bytes, and the handler keeps no record of payloads it has executed.
-/
namespace Electronero
open Text FiniteMap

def StoreOp.isAdministrative : StoreOp → Bool
  | .setCreatorFee .. => true
  | .lockCreatorFee .. => true
  | .setPaused .. => true
  | .setFrozen .. => true
  | .transferOwnership .. => true
  | _ => false

namespace TokenStore
variable {env : Env} {s s' : TokenStore}

def SameLedger (s s' : TokenStore) : Prop :=
  (∀ n acc, s'.balanceOf n acc = s.balanceOf n acc) ∧
  (∀ n owner spender, s'.allowanceOf n owner spender = s.allowanceOf n owner spender) ∧
  ∀ n, s'.totalSupplyOf n = s.totalSupplyOf n

theorem sameLedger_refl (s : TokenStore) : SameLedger s s := ⟨fun _ _ => rfl, fun _ _ _ => rfl, fun _ => rfl⟩

theorem sameLedger_write {n : Bytes} {t : TokenInfo} (t' : TokenInfo) (hg : s.get n = some t)
    (hb : t'.balances = t.balances) (ha : t'.allowances = t.allowances) (hs : t'.totalSupply = t.totalSupply)
    (recs : List TokenTransferRecord) : SameLedger s (s.write n t' recs) := by
  refine ⟨fun m acc => ?_, fun m owner spender => ?_, fun m => ?_⟩
  · grind [balanceOf, get_write, TokenInfo.balance]
  · grind [allowanceOf, get_write, TokenInfo.allowance]
  · grind [totalSupplyOf, get_write]

variable {address creator : Bytes} {refused : TokenInfo → Bool} {edit : TokenInfo → TokenInfo} {b : Bool}

theorem sameLedger_administer (h : s.administer address refused edit = (s', b))
    (he : ∀ t, ∃ fee locked paused frozen, edit t = (Change.admin fee locked paused frozen).apply t) :
    SameLedger s s' := by
  obtain rfl | ⟨fee, locked, paused, frozen, n, t, recs, hg, -, -, rfl⟩ := @administer_cases _ _ _ _ _ _ [] h he
  · exact sameLedger_refl s'
  · exact sameLedger_write ((Change.admin fee locked paused frozen).apply t) hg rfl rfl rfl recs

theorem sameLedger_step {op : StoreOp} (ho : op.isAdministrative = true) (h : s.step env op = (s', b)) :
    SameLedger s s' := by
  cases op with
  | setCreatorFee address creator fee =>
    exact sameLedger_administer h fun t => ⟨fee, t.creatorFeeLocked, t.paused, t.frozenAccounts, rfl⟩
  | lockCreatorFee address creator =>
    exact sameLedger_administer h fun t => ⟨t.creatorFee, true, t.paused, t.frozenAccounts, rfl⟩
  | setPaused address creator p =>
    exact sameLedger_administer h fun t => ⟨t.creatorFee, t.creatorFeeLocked, p, t.frozenAccounts, rfl⟩
  | setFrozen address creator account f =>
    exact sameLedger_administer h fun t => ⟨t.creatorFee, t.creatorFeeLocked, t.paused, _, rfl⟩
  | transferOwnership address creator newOwner =>
    obtain rfl | ⟨n, t, hg, -, rfl⟩ := transferOwnership_cases h
    · exact sameLedger_refl s'
    · exact sameLedger_write { t with creator := newOwner } hg rfl rfl rfl []
  | _ => simp [StoreOp.isAdministrative] at ho

theorem withToken_refused {f : Bytes → TokenInfo → TokenStore × Bool}
    (h : (s.getByAddress address).any (·.creator = creator) = false)
    (hf : ∀ n t, t.creator ≠ creator → f n t = (s, false)) :
    s.withToken (s.addressIndex.lookup address) f = (s, false) := by
  unfold getByAddress at h
  unfold withToken
  grind

theorem administer_refused (h : (s.getByAddress address).any (·.creator = creator) = false)
    (hr : ∀ t, t.creator ≠ creator → refused t = true) : (s.administer address refused edit).1 = s :=
  congrArg Prod.fst (withToken_refused h fun _ t ht => if_pos (hr t ht))

end TokenStore

variable {env : Env} {s : TokenStore} {height : UInt64} {tx : Transaction} {nonce : UInt64}

variable {op : StoreOp} {r : TokenRequest}

theorem step_of_not_permitted {opType : TokenOpType} {parts : List Bytes}
    (hd : dispatch nonce opType parts = .ok (some op)) (hc : needsCreator opType = true)
    (hp : (s.getByAddress (parts.headD [])).any (·.creator = signerOf opType parts) = false) :
    (s.step env op).1 = s := by
  revert hd
  fun_cases dispatch nonce opType parts with
  | case5 address creator fee =>
    intro hd
    obtain ⟨n, hn⟩ := eq_of_bind_pure hd
    cases hn
    exact TokenStore.administer_refused hp fun t (ht : t.creator ≠ creator) => by simp [ht]
  | case6 address creator =>
    intro hd
    cases hd
    exact TokenStore.administer_refused hp fun t (ht : t.creator ≠ creator) => by simp [ht]
  | case8 address creator amount =>
    intro hd
    obtain ⟨n, hn⟩ := eq_of_bind_pure hd
    cases hn
    exact congrArg Prod.fst (TokenStore.withToken_refused hp fun _ t ht => if_pos ht)
  | case9 address creator newOwner =>
    intro hd
    cases hd
    exact congrArg Prod.fst (TokenStore.withToken_refused hp fun _ t ht => if_pos ht)
  | case10 address creator flag =>
    intro hd
    obtain ⟨n, hn⟩ := eq_of_bind_pure hd
    cases hn
    exact TokenStore.administer_refused hp fun t (ht : t.creator ≠ creator) => by simp [ht]
  | case12 => intro hd; cases hd
  | _ => simp [needsCreator] at hc

theorem signer_of_request (h : tokenRequest env tx = some r) : r.signer = signerOf r.op r.parts := by
  unfold tokenRequest at h
  obtain ⟨e, -, he⟩ := Option.bind_eq_some_iff.1 h
  obtain ⟨info, rfl⟩ := eq_of_requestOf he
  rfl

theorem signatureOk_later {height' : UInt64} (hh : tokenSignatureActivationHeight ≤ height)
    (h : signatureOk env height r = true) : signatureOk env height' r = true := by
  unfold signatureOk requireSig at *
  grind

theorem tokenRequest_congr {tx' : Transaction} (h : tx'.tokenExtra = tx.tokenExtra) :
    tokenRequest env tx' = tokenRequest env tx := by
  unfold tokenRequest
  rw [h]

theorem processTokenTx_again (hh : tokenSignatureActivationHeight ≤ height)
    (hx : executes env s height tx nonce = .ok (some op)) (s' : TokenStore) (height' : UInt64) (tx' : Transaction)
    (nonce' : UInt64) (htx : tx'.tokenExtra = tx.tokenExtra) :
    processTokenTx env s' height' tx' nonce' = .ok (s'.step env (op.withNonce nonce')).1 := by
  obtain ⟨r, hr, hp, hs, hd⟩ := executes_cases hx
  have hd' : dispatch nonce' r.op r.parts = .ok (some (op.withNonce nonce')) := by
    rw [dispatch_nonce r.op r.parts nonce nonce', hd]
    rfl
  have hs' : signatureOk env height' r = true := signatureOk_later hh hs
  unfold processTokenTx executes
  rw [tokenRequest_congr htx, hr]
  simp only [authorised, hs', Bool.and_true]
  cases hp' : permitted s' r with
  | true => simp [hd']
  | false =>
    have hsigner := signer_of_request hr
    -- the governance check does not depend on the store
    have hfreeze : r.op ≠ .freeze := by
      intro hf
      unfold permitted at hp hp'
      rw [if_pos hf] at hp hp'
      rw [hp] at hp'
      cases hp'
    unfold permitted at hp'
    rw [if_neg hfreeze] at hp'
    split at hp'
    · rename_i hc
      rw [hsigner] at hp'
      have hstep : (s'.step env (op.withNonce nonce')).1 = s' := step_of_not_permitted hd' hc hp'
      simp [hstep]
    · cases hp'

/-- **A signed payload processed again** is the same call again, in any later store. -/
theorem replayed_payload_executes (env : Env) (s : TokenStore) (height : UInt64) (tx : Transaction) (nonce : UInt64)
    (op : StoreOp) (hh : tokenSignatureActivationHeight ≤ height)
    (hx : executes env s height tx nonce = .ok (some op)) (s' : TokenStore) (height' : UInt64) (tx' : Transaction)
    (nonce' : UInt64) (htx : tx'.tokenExtra = tx.tokenExtra) :
    processTokenTx env s' height' tx' nonce' = .ok (s'.step env (op.withNonce nonce')).1 ∧
      (op.isAdministrative = true → TokenStore.SameLedger s' (s'.step env (op.withNonce nonce')).1) := by
  refine ⟨processTokenTx_again hh hx s' height' tx' nonce' htx, fun hadm => ?_⟩
  have hsame : op.withNonce nonce' = op := by
    cases op <;> first | rfl | simp [StoreOp.isAdministrative] at hadm
  rw [hsame]
  exact TokenStore.sameLedger_step hadm rfl

section Example

def goldStore : TokenStore :=
  TokenStore.empty.create Env.plain (ascii "Gold") (ascii "GLD") 10 (Env.plainAddress 1) 0 (ascii "cEVM1") 0

def payThree (id : UInt8) : Transaction :=
  signedTx id 1 .transfer [ascii "cEVM1", Env.plainAddress 1, Env.plainAddress 2, ascii "3"]

theorem payThree_executes : executes Env.plain goldStore tokenSignatureActivationHeight (payThree 1) 0 =
    .ok (some (.transferByAddress (ascii "cEVM1") (Env.plainAddress 1) (Env.plainAddress 2) 3)) := by decide +kernel

theorem payThree_again :
    let call := StoreOp.transferByAddress (ascii "cEVM1") (Env.plainAddress 1) (Env.plainAddress 2) 3
    let paid := (goldStore.step Env.plain call).1
    processTokenTx Env.plain paid tokenSignatureActivationHeight (payThree 2) 0 = .ok (paid.step Env.plain call).1 := by
  intro call paid
  exact (replayed_payload_executes Env.plain goldStore tokenSignatureActivationHeight (payThree 1) 0 call (by decide)
    payThree_executes paid tokenSignatureActivationHeight (payThree 2) 0 rfl).1

theorem payThree_pays_twice : (payThree 2).tokenExtra = (payThree 1).tokenExtra ∧ ∃ paid paidAgain,
      processTokenTx Env.plain goldStore tokenSignatureActivationHeight (payThree 1) 0 = .ok paid ∧
      processTokenTx Env.plain paid tokenSignatureActivationHeight (payThree 2) 0 = .ok paidAgain ∧
      paid.balanceOf (ascii "Gold") (Env.plainAddress 2) = 3 ∧
      paidAgain.balanceOf (ascii "Gold") (Env.plainAddress 2) = 6 := by
  let call := StoreOp.transferByAddress (ascii "cEVM1") (Env.plainAddress 1) (Env.plainAddress 2) 3
  let paid := (goldStore.step Env.plain call).1
  refine ⟨rfl, paid, (paid.step Env.plain call).1, ?_, ?_, ?_, ?_⟩
  all_goals decide +kernel

end Example

end Electronero
