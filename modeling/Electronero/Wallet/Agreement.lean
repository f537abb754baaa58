import Electronero.Wallet.Payload
/-!
# What the daemon makes of a wallet's command

Not `carried` over is a string with a tab in it; an account other than the base one, whose key the wallet signs with; and
a new owner, as the payload names the signer by `tk->creator`, read after the store call has put the new owner there.
-/
namespace Electronero
open Text FiniteMap

namespace Wallet
variable {env : Env} {w : Wallet env} {s : TokenStore} {height nonce : UInt64} {funded : Bool} {req : TokenRpc}

def carried (w : Wallet env) (req : TokenRpc) : Bool :=
  req.strings.all (fun x => decide (tab ∉ x)) && req.account == 0 && req.newOwner.all (· == w.baseAddress)

section Agreement
variable {out : RpcOutcome} {tx : Transaction} {dheight nonce' : UInt64}

theorem carried_iff : w.carried req = true ↔
    (∀ x ∈ req.strings, tab ∉ x) ∧ req.account = 0 ∧ req.newOwner.all (· == w.baseAddress) = true := by
  unfold carried
  grind

theorem executes_of_carried (h : Sent w s nonce req out) (hcarried : w.carried req = true)
    (htx : tx.tokenExtra = some (w.extra true (w.order s nonce req))) :
    ∃ call, executes env s dheight tx nonce' = .ok (some call) ∧
      s.step env call = s.step env (w.order s nonce req).call := by
  obtain ⟨htabs, haccount, howner⟩ := carried_iff.1 hcarried
  have hsigner := signer_eq_baseAddress haccount howner
  obtain ⟨info, hinfo, hkey⟩ := w.subaddress_key 0
  have hne : w.signer req ≠ [] := hsigner ▸ (w.subaddress_text 0).1
  have hparse : env.getAccountAddressFromStr env.nettype (w.signer req) = some info := hsigner ▸ hinfo
  obtain ⟨call, hdispatch, hstep⟩ := dispatch_order h howner nonce'
  refine ⟨call, ?_, hstep⟩
  rw [executes_of_tabFree h ((tabFree_fields_iff h).2 htabs) hparse hne htx]
  have hauth : authorised env s dheight ⟨(w.order s nonce req).op, (w.order s nonce req).fields,
      some (w.signature (w.order s nonce req).op (w.order s nonce req).fields), w.signer req, info⟩ = true := by
    unfold authorised
    grind [permitted_order, signatureOk_iff]
  rw [if_pos hauth]
  exact hdispatch

theorem executes_of_otherAccount (h : Sent w s nonce req out) (htabs : ∀ x ∈ req.strings, tab ∉ x)
    (haccount : req.account ≠ 0) (htx : tx.tokenExtra = some (w.extra true (w.order s nonce req))) :
    executes env s dheight tx nonce' = .ok none := by
  have hsigner : w.signer req = w.subaddress req.account := by
    cases req with
    | transferOwnership address newOwner => exact absurd rfl haccount
    | _ => rfl
  obtain ⟨info, hinfo, hkey⟩ := w.subaddress_key req.account
  have hne : w.signer req ≠ [] := hsigner ▸ (w.subaddress_text req.account).1
  rw [executes_of_tabFree h ((tabFree_fields_iff h).2 htabs) (hsigner ▸ hinfo) hne htx]
  apply if_neg
  intro hauth
  have hsig := (signatureOk_iff _ _ _ _).1 (Bool.and_eq_true_iff.1 hauth).2
  exact haccount (hkey.1 hsig)

variable {address name symbol : Bytes} {supply fee : UInt64}

theorem executes_of_newOwner {newOwner : Bytes} (h : Sent w s nonce (.transferOwnership address newOwner) out)
    (htabs : ∀ x ∈ (TokenRpc.transferOwnership address newOwner).strings, tab ∉ x) (hne : newOwner ≠ w.baseAddress)
    (htx : tx.tokenExtra = some (w.extra true (w.order s nonce (.transferOwnership address newOwner)))) :
    executes env s dheight tx nonce' = .ok none := by
  cases hr : tokenRequest env tx with
  | none => exact executes_of_no_request hr
  | some r =>
    have hr' := hr
    rw [tokenRequest_of_payload htx rfl ((tabFree_fields_iff h).2 htabs)] at hr'
    obtain ⟨info, rfl⟩ := eq_of_requestOf hr'
    unfold executes
    rw [hr]
    apply if_neg
    unfold authorised
    dsimp only
    rw [signerOf_order h, signer, TokenRpc.newOwner, Option.getD_some, not_permitted_newOwner h hne]
    exact Bool.false_ne_true

theorem executes_of_not_carried (h : Sent w s nonce req out) (hcreate : req.isCreate = false)
    (hnot : ¬ w.carried req = true) (htx : tx.tokenExtra = some (w.extra true (w.order s nonce req))) :
    executes env s dheight tx nonce' = .ok none := by
  by_cases htabs : ∀ x ∈ req.strings, tab ∉ x
  · by_cases haccount : req.account = 0
    · cases req with
      | transferOwnership address newOwner =>
        refine executes_of_newOwner h htabs (fun he => hnot ?_) htx
        exact carried_iff.2 ⟨htabs, rfl, by simp [TokenRpc.newOwner, he]⟩
      | _ => exact absurd (carried_iff.2 ⟨htabs, haccount, rfl⟩) hnot
    · exact executes_of_otherAccount h htabs haccount htx
  · grind [tabFree_fields_iff, executes_of_no_request, tokenRequest_of_tab]

theorem create_inj {creator name' symbol' creator' address' : Bytes} {supply' fee' : UInt64}
    (he : s.create env name symbol supply creator fee address nonce =
      s.create env name' symbol' supply' creator' fee' address' nonce') : name = name' ∧ symbol = symbol' := by
  have hname : name = name' := by
    have hnames := congrArg (fun x : TokenStore => x.namesOf creator) he
    simp only [TokenStore.namesOf_create, if_true] at hnames
    split at hnames
    · rename_i hc
      subst hc
      simpa using hnames
    · simp at hnames
  refine ⟨hname, ?_⟩
  have hget := congrArg (fun x : TokenStore => x.get name) he
  simp only [TokenStore.get_create, hname, if_true, Option.some.injEq] at hget
  exact congrArg TokenInfo.symbol hget

theorem processTokenTx_create_tab (htab : tab ∈ name ∨ tab ∈ symbol)
    (htx : tx.tokenExtra = some (w.extra true (w.order s nonce (.create name symbol supply fee)))) :
    processTokenTx env s dheight tx nonce' ≠
      .ok (s.step env (w.order s nonce (.create name symbol supply fee)).call).1 := by
  intro hp
  rcases processTokenTx_cases hp with he | ⟨call, hx, he⟩
  · exact TokenStore.create_ne_self he
  obtain ⟨gs, hjoin, hfree, -⟩ := @exists_recut UInt8 _ tab (w.order s nonce (.create name symbol supply fee)).fields
  obtain ⟨r, hr, -, -, hd⟩ := executes_cases hx
  rw [tokenRequest_of_payload htx hjoin hfree] at hr
  obtain ⟨info, rfl⟩ := eq_of_requestOf hr
  obtain ⟨address', name', symbol', digits, creator', rest, supply', fee', hgs, rfl⟩ := dispatch_create hd
  obtain ⟨rfl, rfl⟩ := create_inj he
  grind

def idle (w : Wallet env) (s : TokenStore) : TokenRpc → Bool
  | .approve name spender amount index => (s.get name).any fun t =>
    (t.allowances.lookup (w.subaddress index)).any (·.lookup spender = some amount)
  | .setFee address fee => (s.getByAddress address).any (·.creatorFee = fee)
  | .lockFee address => (s.getByAddress address).any (·.creatorFeeLocked)
  | .transferOwnership address newOwner => newOwner = w.baseAddress && s.lastOfCreator address w.baseAddress
  | .pause address paused => (s.getByAddress address).any (·.paused = paused)
  | .freeze address account frozen => (s.getByAddress address).any fun t =>
    decide (account ∈ t.frozenAccounts) = frozen
  | _ => false

theorem idle_iff (h : Sent w s nonce req out) :
    (s.step env (w.order s nonce req).call).1 = s ↔ w.idle s req = true := by
  have hok := h.success
  cases req with
  | create name symbol supply fee => exact iff_of_false TokenStore.create_ne_self Bool.false_ne_true
  | transfer address toAcc amount index => exact iff_of_false (TokenStore.transferAt_ne_self hok) Bool.false_ne_true
  | approve name spender amount index =>
    refine (TokenStore.approve_eq_self_iff hok).trans ?_
    simp only [TokenInfo.setAllowance_eq_self_iff, Bool.decide_eq_true]
    rfl
  | transferFrom address fromAcc toAcc amount index =>
    exact iff_of_false (TokenStore.transferFromAt_ne_self hok) Bool.false_ne_true
  | burn address amount index => exact iff_of_false (TokenStore.burn_ne_self hok) Bool.false_ne_true
  | mint address amount => exact iff_of_false (TokenStore.mint_ne_self hok) Bool.false_ne_true
  | setFee address fee =>
    refine (TokenStore.administer_eq_self_iff hok).trans ?_
    simp [idle, TokenInfo.ext_iff, @eq_comm _ fee]
  | lockFee address =>
    refine (TokenStore.administer_eq_self_iff hok).trans ?_
    simp [idle, TokenInfo.ext_iff]
  | transferOwnership address newOwner =>
    refine (TokenStore.transferOwnership_eq_self_iff hok).trans ?_
    simp [idle]
  | pause address paused =>
    refine (TokenStore.administer_eq_self_iff hok).trans ?_
    simp [idle, TokenInfo.ext_iff, @eq_comm _ paused]
  | freeze address account frozen =>
    refine (TokenStore.administer_eq_self_iff hok).trans ?_
    cases frozen
    · simp [idle, TokenInfo.ext_iff]
    · simp [idle, TokenInfo.ext_iff]

end Agreement

/-- **Wallet and daemon agree** on a command the wallet executed and sent signed, exactly if the request
is one the daemon can follow or there was nothing to do. -/
theorem wallet_daemon_agree_iff (w : Wallet env) (s : TokenStore) (req : TokenRpc)
    (hheight : tokenSignatureActivationHeight ≤ height)
    (hok : (w.handle s (some height) funded nonce req).response = .ok true) (tx : Transaction)
    (htx : tx.tokenExtra = (w.handle s (some height) funded nonce req).payload) (dheight nonce' : UInt64) :
    processTokenTx env s dheight tx nonce' = .ok (w.handle s (some height) funded nonce req).tokens ↔
      w.carried req = true ∨ w.idle s req = true := by
  have hsent := sent_of_success hheight hok
  rw [← idle_iff hsent]
  rw [hsent.payload] at htx
  rw [hsent.tokens]
  by_cases hcarried : w.carried req = true
  · obtain ⟨call, hx, hstep⟩ := @executes_of_carried env w s nonce req _ tx dheight nonce' hsent hcarried htx
    grind [processTokenTx]
  simp only [hcarried, false_or, Bool.false_eq_true]
  cases hcreate : req.isCreate with
  | false => grind [processTokenTx, executes_of_not_carried]
  | true =>
    cases req with
    | create name symbol supply fee =>
      have htab : tab ∈ name ∨ tab ∈ symbol := by
        by_contra hno
        push Not at hno
        exact hcarried (carried_iff.2 ⟨by simpa [TokenRpc.strings] using hno, rfl, rfl⟩)
      exact iff_of_false (processTokenTx_create_tab htab htx) TokenStore.create_ne_self
    | _ => cases hcreate

section Example

def governed : Env :=
  { Env.plain with
    getAccountAddressFromStr := fun net str =>
      if str = governanceWalletAddress then some ⟨⟨Env.plainKey 9, Env.plainKey 9⟩, false, false, default⟩
      else Env.plain.getAccountAddressFromStr net str }

theorem plainSign_inj {h : Hash} {a b : Pod 32} : Env.plainSign h a = Env.plainSign h b ↔ a = b := by
  constructor
  · intro he
    have hbytes : h.bytes ++ a.bytes = h.bytes ++ b.bytes := congrArg Pod.bytes he
    cases a
    cases b
    simpa using hbytes
  · rintro rfl
    rfl

def holder : Wallet governed where
  spendPublicKey := Env.plainKey 1
  spendSecretKey := Env.plainKey 1
  subaddress i := if i = 0 then Env.plainAddress 1 else Env.plainPrint true ⟨Env.plainKey 2, Env.plainKey 2⟩
  subaddress_text i := by
    split
    · decide +kernel
    · decide +kernel
  subaddress_key i := by
    by_cases hi : i = 0
    · refine ⟨⟨⟨Env.plainKey 1, Env.plainKey 1⟩, false, false, default⟩, ?_, ?_⟩
      · rw [if_pos hi]
        decide +kernel
      · simp [hi]
    · refine ⟨⟨⟨Env.plainKey 2, Env.plainKey 2⟩, true, false, default⟩, ?_, ?_⟩
      · rw [if_neg hi]
        decide +kernel
      · simp only [hi, iff_false]
        decide +kernel
  signs hash pub := by
    simp only [governed, Env.plain, beq_iff_eq]
    rw [plainSign_inj]
    exact eq_comm

def purse : TokenStore :=
  let gold := TokenStore.empty.create governed (ascii "Gold") (ascii "GLD") 10 holder.baseAddress 0 (ascii "cEVM1") 0
  (gold.step governed (.transferByAddress (ascii "cEVM1") holder.baseAddress (holder.subaddress 1) 3)).1

def answer (req : TokenRpc) : RpcOutcome := holder.handle purse (some tokenSignatureActivationHeight) true 0 req

def broadcast (req : TokenRpc) : Transaction :=
  ⟨Env.plainKey 1, 2, (answer req).payload.map fun payload => [.tokenData payload]⟩

def pay (index : UInt32) : TokenRpc := .transfer (ascii "cEVM1") (Env.plainAddress 3) 2 index

theorem pay_agrees :
    processTokenTx governed purse tokenSignatureActivationHeight (broadcast (pay 0)) 0 = .ok (answer (pay 0)).tokens :=
  (wallet_daemon_agree_iff holder purse (pay 0) (by decide) (by decide +kernel)
    (broadcast (pay 0)) (by decide +kernel) tokenSignatureActivationHeight 0).2 (Or.inl (by decide +kernel))

def Lost (req : TokenRpc) : Prop :=
  (answer req).response = .ok true ∧ (broadcast req).tokenExtra = (answer req).payload ∧
    processTokenTx governed purse tokenSignatureActivationHeight (broadcast req) 0 = .ok purse ∧
    (answer req).tokens ≠ purse

instance (req : TokenRpc) : Decidable (Lost req) := inferInstanceAs (Decidable (_ ∧ _ ∧ _ ∧ _))

/-- A token with a tab in its name, a payment from the second account, a new owner. -/
theorem commands_lost : Lost (.create (ascii "Sil\tver") (ascii "SLV") 5 0) ∧ Lost (pay 1) ∧
      Lost (.transferOwnership (ascii "cEVM1") (Env.plainAddress 3)) := by
  decide +kernel

end Example

end Wallet

end Electronero
