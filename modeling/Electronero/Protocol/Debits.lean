import Electronero.Protocol.Replay
import Electronero.Token.OneToken
import Electronero.Lib.Run
/-!
# Who can lower a balance (`cryptonote_protocol_handler.inl:1837`, `token.cpp:226-335`)

A credit can lower a balance too: `balances[to] += amount` (token.cpp:234, :282) is not checked.
-/
namespace Electronero
open Text FiniteMap Machine

namespace TokenInfo
variable {t : TokenInfo} {f d acc : Bytes} {amount : UInt64}

def overflows (t : TokenInfo) (fromAcc toAcc : Bytes) (amount : UInt64) : Bool :=
  decide (toAcc ≠ fromAcc) && decide (2 ^ 64 ≤ (t.balance toAcc).toNat + amount.toNat)

theorem add_lt_left_iff (a b : UInt64) : a + b < a ↔ 2 ^ 64 ≤ a.toNat + b.toNat := by
  have ha := a.toNat_lt
  have hb := b.toNat_lt
  rw [UInt64.lt_iff_toNat_lt, UInt64.toNat_add]
  omega

theorem overflows_iff : t.overflows f d amount = true ↔ d ≠ f ∧ 2 ^ 64 ≤ (t.balance d).toNat + amount.toNat := by
  simp only [overflows, Bool.and_eq_true, decide_eq_true_eq]

theorem lt_balance_of_moved (h : (t.moved f d amount).balance acc < t.balance acc) :
    acc = f ∨ acc = d ∧ t.overflows f d amount = true := by
  rw [balance_moved] at h
  by_cases hd : acc = d
  · grind [add_lt_left_iff, overflows_iff]
  · grind

theorem moved_lt_of_overflows (h : t.overflows f d amount = true) : (t.moved f d amount).balance d < t.balance d := by
  obtain ⟨hne, hle⟩ := overflows_iff.1 h
  grind [balance_moved, add_lt_left_iff]

end TokenInfo

namespace StoreOp

def wrapsOn (t : TokenInfo) : StoreOp → Option Bytes
  | transfer _ f d amount => if t.admitsTransfer f d amount && t.overflows f d amount then some d else none
  | transferByAddress _ f d amount => if t.admitsTransfer f d amount && t.overflows f d amount then some d else none
  | transferFrom _ sp f d amount =>
    if t.admitsSpender sp f d && t.covers sp f amount && t.overflows f d amount then some d else none
  | transferFromByAddress _ sp f d amount =>
    if t.admitsSpender sp f d && t.covers sp f amount && t.overflows f d amount then some d else none
  | _ => none

def spends : StoreOp → Option (Bytes × Bytes × UInt64)
  | transferFrom _ sp f _ amount => some (sp, f, amount)
  | transferFromByAddress _ sp f _ amount => some (sp, f, amount)
  | _ => none

variable {env : Env} {op : StoreOp} {t : TokenInfo} {acc sp f d : Bytes} {amount : UInt64}

def Spent (t t' : TokenInfo) (owner spender : Bytes) (amount : UInt64) : Prop :=
  amount ≤ t.allowance owner spender ∧ t'.allowance owner spender = t.allowance owner spender - amount

open TokenInfo in
theorem lt_balance_of_onToken (h : (op.onToken env t).1.balance acc < t.balance acc) :
    acc = op.signer ∨ (∃ sp amount, op.spends = some (sp, acc, amount) ∧ Spent t (op.onToken env t).1 acc sp amount) ∨
      op.wrapsOn t = some acc := by
  have hirrefl : ¬ t.balance acc < t.balance acc := by simp
  cases op with
  | create => exact absurd h hirrefl
  | transfer name f d amount | transferByAddress address f d amount =>
    simp only [onToken, onTransfer] at h
    split at h
    · rename_i ha
      rw [balance_transferred] at h
      obtain rfl | ⟨rfl, ho⟩ := lt_balance_of_moved h
      · exact Or.inl rfl
      · exact Or.inr (Or.inr (by simp [wrapsOn, ha, ho]))
    · exact absurd h hirrefl
  | transferFrom name sp f d amount | transferFromByAddress address sp f d amount =>
    simp only [onToken, onTransferFrom] at h ⊢
    split at h
    · rename_i ha
      split at h
      · rename_i hc
        obtain rfl | ⟨rfl, ho⟩ := lt_balance_of_moved h
        · refine Or.inr (Or.inl ⟨sp, amount, rfl, ?_⟩)
          rw [if_pos ha, if_pos hc]
          simp only [covers, Bool.and_eq_true, Bool.not_eq_true', decide_eq_false_iff_not] at hc
          exact ⟨UInt64.not_lt.1 hc.1, (allowance_setAllowance t acc sp _ acc sp).trans (if_pos ⟨rfl, rfl⟩)⟩
        · have hb : (t.setAllowance f sp (t.allowance f sp - amount)).overflows f acc amount =
              t.overflows f acc amount := rfl
          exact Or.inr (Or.inr (by simp [wrapsOn, ha, hc, ← hb, ho]))
      · exact absurd h hirrefl
    · exact absurd h hirrefl
  | approve =>
    simp only [onToken] at h
    split at h <;> exact absurd h hirrefl
  | burn address owner amount =>
    simp only [onToken] at h
    split at h
    · refine Or.inl ?_
      by_contra hne
      have hb := (balance_debit t owner acc amount).trans (if_neg hne)
      exact hirrefl (hb ▸ h)
    · exact absurd h hirrefl
  | mint address creator amount =>
    simp only [onToken] at h
    split at h
    · refine Or.inl ?_
      by_contra hne
      have hb :=
        (balance_credit t creator acc amount).trans (if_neg hne)
      exact hirrefl (hb ▸ h)
    · exact absurd h hirrefl
  | _ =>
    simp only [onToken, onAdminister] at h
    split at h <;> exact absurd h hirrefl

open TokenInfo in
theorem onToken_of_wrapsOn (h : op.wrapsOn t = some d) : (op.onToken env t).1.balance d < t.balance d ∧
      ∀ sp f amount, op.spends = some (sp, f, amount) → ¬ Spent t (op.onToken env t).1 d sp amount := by
  cases op with
  | transfer name f d' amount | transferByAddress address f d' amount =>
    simp only [wrapsOn] at h
    split at h
    · rename_i hc
      cases h
      obtain ⟨ha, ho⟩ := Bool.and_eq_true_iff.1 hc
      simp only [onToken, onTransfer, ha, if_true]
      rw [balance_transferred]
      exact ⟨moved_lt_of_overflows ho, fun _ _ _ hs => by cases hs⟩
    · cases h
  | transferFrom name sp f d' amount | transferFromByAddress address sp f d' amount =>
    simp only [wrapsOn] at h
    split at h
    · rename_i hc
      cases h
      obtain ⟨hac, ho⟩ := Bool.and_eq_true_iff.1 hc
      obtain ⟨ha, hc⟩ := Bool.and_eq_true_iff.1 hac
      simp only [onToken, onTransferFrom, ha, hc, if_true]
      refine ⟨@moved_lt_of_overflows (t.setAllowance f sp (t.allowance f sp - amount)) f d amount ho, ?_⟩
      rintro sp' f' amount' ⟨rfl⟩ ⟨hle, heq⟩
      obtain ⟨hne, hover⟩ := overflows_iff.1 ho
      -- the receiver's own allowance is not the one that was used
      have hsame : (t.spent sp f d amount).allowance d sp = t.allowance d sp :=
        (allowance_setAllowance t f sp _ d sp).trans (if_neg fun h => hne h.1)
      rw [hsame] at heq
      have hzero : amount.toNat = 0 := by
        have := congrArg UInt64.toNat heq
        rw [UInt64.toNat_sub_of_le _ _ hle] at this
        have := UInt64.le_iff_toNat_le.1 hle
        omega
      have := (t.balance d).toNat_lt
      omega
    · cases h
  | _ => cases h

end StoreOp

def signedBy (env : Env) (tx : Transaction) (account : Bytes) : Bool :=
  (tx.tokenExtra.bind parseTokenExtra).any fun e => e.sig.any fun sig =>
    (env.getAccountAddressFromStr env.nettype account).any fun info =>
      verifyTokenExtra env e.op e.fields info.address.spendPublicKey sig

section Executed
variable {env : Env} {s : TokenStore} {height : UInt64} {tx : Transaction} {nonce : UInt64} {op : StoreOp}

theorem signedBy_of_executes (hh : tokenSignatureActivationHeight ≤ height)
    (hx : executes env s height tx nonce = .ok (some op)) : signedBy env tx op.signer = true := by
  obtain ⟨r, hr, -, hs, hd⟩ := executes_cases hx
  obtain ⟨e, he, hreq⟩ := Option.bind_eq_some_iff.1 hr
  unfold requestOf at hreq
  dsimp only at hreq
  split at hreq
  · cases hreq
  obtain ⟨info, hinfo, rfl⟩ := Option.map_eq_some_iff.1 hreq
  unfold signatureOk requireSig at hs
  unfold signedBy
  grind [signer_of_dispatch]

def isSpending (tx : Transaction) (spender : Bytes) (amount : UInt64) : Prop :=
  ∃ e address fromAcc toAcc digits, tx.tokenExtra.bind parseTokenExtra = some e ∧ e.op = .transferFrom ∧
    e.fields = [address, spender, fromAcc, toAcc, digits] ∧ stoull digits = .ok amount

variable {sp : Bytes} {amount : UInt64}

theorem spends_of_dispatch {opType : TokenOpType} {parts : List Bytes} {f : Bytes}
    (h : dispatch nonce opType parts = .ok (some op)) (hs : op.spends = some (sp, f, amount)) :
    opType = .transferFrom ∧ ∃ address d digits, parts = [address, sp, f, d, digits] ∧ stoull digits = .ok amount := by
  revert h
  fun_cases dispatch nonce opType parts with
  | case1 address name symbol supply creator rest =>
    intro h
    have hd : dispatch nonce .create (address :: name :: symbol :: supply :: creator :: rest) = .ok (some op) := h
    obtain ⟨_, _, _, _, _, _, _, _, -, rfl⟩ := dispatch_create hd
    cases hs
  | case4 address spender fromAcc toAcc digits =>
    intro h
    cases ha : stoull digits with
    | error e =>
      rw [ha] at h
      cases h
    | ok a =>
      rw [ha] at h
      cases h
      cases hs
      exact ⟨rfl, address, toAcc, digits, rfl, ha⟩
  | _ =>
    intro h
    first
      | cases h; cases hs
      | cases h
      | obtain ⟨a, ha⟩ := eq_of_bind_pure h
        cases ha
        cases hs

theorem isSpending_iff_spends (hx : executes env s height tx nonce = .ok (some op)) :
    isSpending tx sp amount ↔ ∃ f, op.spends = some (sp, f, amount) := by
  obtain ⟨r, hr, -, -, hd⟩ := executes_cases hx
  obtain ⟨e, he, hreq⟩ := Option.bind_eq_some_iff.1 hr
  obtain ⟨info, rfl⟩ := eq_of_requestOf hreq
  dsimp only at hd
  constructor
  · rintro ⟨e', address, f, d, digits, he', hop, hfields, ha⟩
    obtain rfl := Option.some.inj (he.symm.trans he')
    rw [hop, hfields] at hd
    simp only [dispatch, ha] at hd
    cases hd
    exact ⟨f, rfl⟩
  · rintro ⟨f, hs⟩
    obtain ⟨hop, address, d, digits, hparts, ha⟩ := spends_of_dispatch hd hs
    exact ⟨e, address, f, d, digits, he, hop, hparts, ha⟩

end Executed

namespace TokenStore
variable {env : Env} {s : TokenStore} {op : StoreOp} {n acc : Bytes}

def wraps (s : TokenStore) (op : StoreOp) : Option Bytes := (s.found op).bind op.wrapsOn

def Authorised (env : Env) (tx : Transaction) (s s' : TokenStore) (n acc : Bytes) : Prop :=
  signedBy env tx acc = true ∨ ∃ spender amount, isSpending tx spender amount ∧ signedBy env tx spender = true ∧
    amount ≤ s.allowanceOf n acc spender ∧ s'.allowanceOf n acc spender = s.allowanceOf n acc spender - amount

variable {nonce height : UInt64} {tx : Transaction}

theorem balanceOf_create {name symbol creator address : Bytes} {supply fee : UInt64} (h : acc ≠ creator) :
    (s.create env name symbol supply creator fee address nonce).balanceOf n acc = s.balanceOf n acc := by
  unfold balanceOf
  rw [get_create]
  by_cases hn : n = name
  · subst hn
    have hb : (s.createdToken env n symbol supply creator fee address nonce).balance acc =
        (getD s.tokens n TokenInfo.empty).balance acc := (getD_insert _ _ _ _ _).trans (if_neg h)
    rw [if_pos rfl, Option.map_some, Option.getD_some, hb]
    unfold get getD
    cases s.tokens.lookup n <;> rfl
  · rw [if_neg hn]

theorem lt_balanceOf_of_step (hc : op.isCreate = false) (h : (s.step env op).1.balanceOf n acc < s.balanceOf n acc) :
    ∃ t, op.slot s = some n ∧ s.get n = some t ∧ (op.onToken env t).1.balance acc < t.balance acc := by
  have hirrefl : ∀ x : UInt64, ¬ x < x := by simp
  unfold balanceOf at h
  rw [get_step hc] at h
  split at h
  · cases hg : s.get n with
    | none =>
      rw [hg] at h
      exact absurd h (hirrefl _)
    | some t =>
      rw [hg] at h
      exact ⟨t, ‹_›, rfl, h⟩
  · exact absurd h (hirrefl _)

theorem get_step_found (hc : op.isCreate = false) {t : TokenInfo} (hslot : op.slot s = some n) (hg : s.get n = some t) :
    (s.step env op).1.get n = some (op.onToken env t).1 := by
  rw [get_step hc, if_pos hslot, hg]
  rfl

theorem authorised_of_step (hh : tokenSignatureActivationHeight ≤ height)
    (hx : executes env s height tx nonce = .ok (some op))
    (hw : ∀ acc, s.wraps op = some acc → signedBy env tx acc = true)
    (h : (s.step env op).1.balanceOf n acc < s.balanceOf n acc) : Authorised env tx s (s.step env op).1 n acc := by
  have hsigned := signedBy_of_executes hh hx
  cases hc : op.isCreate with
  | true =>
    cases op with
    | create name symbol supply creator fee address nonce =>
      by_cases ha : acc = creator
      · subst ha
        exact Or.inl hsigned
      · have hb : (s.create env name symbol supply creator fee address nonce).balanceOf n acc = s.balanceOf n acc :=
          balanceOf_create ha
        unfold step at h
        rw [hb] at h
        exact absurd h (by simp)
    | _ => cases hc
  | false =>
    obtain ⟨t, hslot, hg, hlt⟩ := lt_balanceOf_of_step hc h
    obtain rfl | ⟨sp, amount, hs, hspent⟩ | hwraps := StoreOp.lt_balance_of_onToken hlt
    · exact Or.inl hsigned
    · refine Or.inr ⟨sp, amount, (isSpending_iff_spends hx).2 ⟨acc, hs⟩, ?_, ?_⟩
      · have hsp : op.signer = sp := by
          cases op with
          | transferFrom | transferFromByAddress =>
            cases hs
            rfl
          | _ => cases hs
        rw [← hsp]
        exact hsigned
      · unfold allowanceOf
        rw [get_step_found hc hslot hg, hg]
        exact hspent
    · refine Or.inl (hw acc ?_)
      unfold wraps found
      rw [hslot, Option.bind_some, hg]
      exact hwraps

theorem lost_of_wraps (hx : executes env s height tx nonce = .ok (some op)) (h : s.wraps op = some acc) :
    ∃ n, (s.step env op).1.balanceOf n acc < s.balanceOf n acc ∧
      (Authorised env tx s (s.step env op).1 n acc → signedBy env tx acc = true) := by
  obtain ⟨t, hfound, hwraps⟩ := Option.bind_eq_some_iff.1 h
  obtain ⟨n, hslot, hg⟩ := Option.bind_eq_some_iff.1 hfound
  have hc : op.isCreate = false := by
    cases op with
    | create => cases hwraps
    | _ => rfl
  obtain ⟨hlt, hspent⟩ := @StoreOp.onToken_of_wrapsOn env op t acc hwraps
  have hget := @get_step_found env s op n hc t hslot hg
  refine ⟨n, ?_, ?_⟩
  · unfold balanceOf
    rw [hget, hg]
    exact hlt
  · rintro (hs | ⟨sp, amount, hspend, -, hle, heq⟩)
    · exact hs
    · obtain ⟨f, hs⟩ := (isSpending_iff_spends hx).1 hspend
      unfold allowanceOf at hle heq
      rw [hget, hg] at heq
      rw [hg] at hle
      exact absurd ⟨hle, heq⟩ (hspent sp f amount hs)

/-- **No unauthorised debit**, exactly if the call does not make the balance of a receiver wrap who has not signed the
payload. -/
theorem debit_authorised_iff (env : Env) (s : TokenStore) (height : UInt64) (tx : Transaction) (nonce : UInt64)
    (hh : tokenSignatureActivationHeight ≤ height) :
    (∀ s', processTokenTx env s height tx nonce = .ok s' → ∀ n acc, s'.balanceOf n acc < s.balanceOf n acc →
      Authorised env tx s s' n acc) ↔
    ∀ op acc, executes env s height tx nonce = .ok (some op) → s.wraps op = some acc → signedBy env tx acc = true := by
  constructor
  · grind [lost_of_wraps, processTokenTx]
  · grind [processTokenTx_cases, authorised_of_step]

section Example

theorem payThree_authorised :
    (processTokenTx Env.plain goldStore tokenSignatureActivationHeight (payThree 1) 0).isOk = true ∧
    ∀ s', processTokenTx Env.plain goldStore tokenSignatureActivationHeight (payThree 1) 0 = .ok s' →
      ∀ n acc, s'.balanceOf n acc < goldStore.balanceOf n acc → Authorised Env.plain (payThree 1) goldStore s' n acc := by
  refine ⟨by decide +kernel,
    (debit_authorised_iff Env.plain goldStore tokenSignatureActivationHeight (payThree 1) 0 (by decide)).2 ?_⟩
  intro op acc hx hw
  rw [payThree_executes] at hx
  cases hx
  have hnone : goldStore.wraps (.transferByAddress (ascii "cEVM1") (Env.plainAddress 1) (Env.plainAddress 2) 3) = none := by
    decide +kernel
  rw [hnone] at hw
  cases hw

def richRun : List OnChain :=
  [⟨tokenSignatureActivationHeight, signedTx 1 1 .create
      [ascii "cEVM1", ascii "Gold", ascii "GLD", ascii "18446744073709551615", Env.plainAddress 1], 0⟩,
   ⟨tokenSignatureActivationHeight, signedTx 2 1 .transfer
      [ascii "cEVM1", Env.plainAddress 1, Env.plainAddress 2, ascii "18446744073709551615"], 0⟩,
   ⟨tokenSignatureActivationHeight, signedTx 3 1 .mint [ascii "cEVM1", Env.plainAddress 1, ascii "3"], 0⟩]

def richStore : TokenStore := run (fun s o => o.effect Env.plain s) empty richRun

theorem gift_takes_all :
    ∃ s', processTokenTx Env.plain richStore tokenSignatureActivationHeight (payThree 4) 0 = .ok s' ∧
      richStore.balanceOf (ascii "Gold") (Env.plainAddress 2) = 18446744073709551615 ∧
      s'.balanceOf (ascii "Gold") (Env.plainAddress 2) = 2 ∧
      ¬ Authorised Env.plain (payThree 4) richStore s' (ascii "Gold") (Env.plainAddress 2) := by
  let call := StoreOp.transferByAddress (ascii "cEVM1") (Env.plainAddress 1) (Env.plainAddress 2) 3
  have hx : executes Env.plain richStore tokenSignatureActivationHeight (payThree 4) 0 = .ok (some call) ∧
      richStore.balanceOf (ascii "Gold") (Env.plainAddress 2) = 18446744073709551615 ∧
      (richStore.step Env.plain call).1.balanceOf (ascii "Gold") (Env.plainAddress 2) = 2 ∧
      signedBy Env.plain (payThree 4) (Env.plainAddress 2) = false := by decide +kernel
  refine ⟨(richStore.step Env.plain call).1, ?_, hx.2.1, hx.2.2.1, ?_⟩
  · unfold processTokenTx
    rw [hx.1]
  · rintro (hs | ⟨sp, amount, hspend, -⟩)
    · rw [hx.2.2.2] at hs
      cases hs
    · obtain ⟨f, hs⟩ := (isSpending_iff_spends hx.1).1 hspend
      cases hs

end Example

end TokenStore

end Electronero
