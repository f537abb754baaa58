import Electronero.Token.OneToken
import Electronero.Lib.Run
import Mathlib.Data.Nat.ModEq
/-!
# The history as a ledger (`token.cpp:207-285`, `:315-335`, `:479`)

A record is entered under the token's address for a call by name, under the address of the call for the others; a burn has
an empty receiver, a mint an empty sender.
-/
namespace Electronero
open Text FiniteMap Machine List

def received (address acc : Bytes) : List TokenTransferRecord → Nat
  | [] => 0
  | r :: rs => (if r.tokenAddress = address ∧ r.toAcc = acc then r.amount.toNat else 0) + received address acc rs

def sent (address acc : Bytes) : List TokenTransferRecord → Nat
  | [] => 0
  | r :: rs => (if r.tokenAddress = address ∧ r.fromAcc = acc then r.amount.toNat else 0) + sent address acc rs

theorem received_append (address acc : Bytes) (rs rs' : List TokenTransferRecord) :
    received address acc (rs ++ rs') = received address acc rs + received address acc rs' := by
  induction rs with
  | nil => simp [received]
  | cons r rs ih => simp only [cons_append, received, ih, Nat.add_assoc]

theorem sent_append (address acc : Bytes) (rs rs' : List TokenTransferRecord) :
    sent address acc (rs ++ rs') = sent address acc rs + sent address acc rs' := by
  induction rs with
  | nil => simp [sent]
  | cons r rs ih => simp only [cons_append, sent, ih, Nat.add_assoc]

theorem received_other {address acc : Bytes} {rs : List TokenTransferRecord}
    (h : ∀ r ∈ rs, r.tokenAddress ≠ address) : received address acc rs = 0 ∧ sent address acc rs = 0 := by
  induction rs with
  | nil => exact ⟨rfl, rfl⟩
  | cons r rs ih =>
    have hr := h r mem_cons_self
    obtain ⟨h1, h2⟩ := ih fun r' hr' => h r' (mem_cons_of_mem _ hr')
    simp [received, sent, hr, h1, h2]

namespace TokenInfo
variable {t : TokenInfo} {f d acc : Bytes} {amount : UInt64}

def Accounts (address acc : Bytes) (rs : List TokenTransferRecord) (b b' : UInt64) : Prop :=
  b'.toNat + sent address acc rs ≡ b.toNat + received address acc rs [MOD 2 ^ 64]

theorem Accounts.refl (address acc : Bytes) (b : UInt64) : Accounts address acc [] b b := Nat.ModEq.refl _

theorem toNat_add_modEq (a b : UInt64) : (a + b).toNat ≡ a.toNat + b.toNat [MOD 2 ^ 64] := by
  rw [UInt64.toNat_add]
  exact Nat.mod_modEq _ _

theorem accounts_moved (address : Bytes) (hs : t.short f amount = false) :
    Accounts address acc [⟨address, f, d, amount⟩] (t.balance acc) ((t.moved f d amount).balance acc) := by
  have hle := le_balance_of_short hs
  have hsub : (t.balance f - amount).toNat + amount.toNat = (t.balance f).toNat := by
    rw [UInt64.toNat_sub_of_le _ _ (UInt64.le_iff_toNat_le.2 hle)]
    omega
  unfold Accounts
  rw [balance_moved]
  simp only [sent, received, true_and, Nat.add_zero]
  by_cases hd : acc = d
  · subst hd
    by_cases hf : acc = f
    · subst hf
      simp [Nat.ModEq.refl]
    · simpa [hf, Ne.symm hf] using toNat_add_modEq _ _
  · by_cases hf : acc = f
    · subst hf
      simp [hd, Ne.symm hd, hsub, Nat.ModEq.refl]
    · simp [hd, hf, Ne.symm hd, Ne.symm hf, Nat.ModEq.refl]

theorem accounts_onTransfer (env : Env) (address acc f d : Bytes) (amount : UInt64) (t : TokenInfo) :
    Accounts address acc (t.onTransfer env address f d amount).2 (t.balance acc)
      ((t.onTransfer env address f d amount).1.balance acc) := by
  unfold onTransfer
  grind [balance_transferred, accounts_moved, admitsTransfer, Accounts.refl]

theorem accounts_onTransferFrom (address acc sp f d : Bytes) (amount : UInt64) (t : TokenInfo) :
    Accounts address acc (t.onTransferFrom address sp f d amount).2 (t.balance acc)
      ((t.onTransferFrom address sp f d amount).1.balance acc) := by
  unfold onTransferFrom
  split
  · split
    · rename_i h
      simp only [covers, Bool.and_eq_true, Bool.not_eq_true'] at h
      exact @accounts_moved (t.setAllowance f sp (t.allowance f sp - amount)) f d acc amount address h.2
    · exact Accounts.refl _ _ _
  · exact Accounts.refl _ _ _

theorem accounts_onAdminister {refused : Bool} {edited : TokenInfo} (h : edited.balances = t.balances)
    (address acc : Bytes) : Accounts address acc (t.onAdminister refused edited).2 (t.balance acc)
      ((t.onAdminister refused edited).1.balance acc) := by
  have hb : edited.balance acc = t.balance acc := by unfold balance; rw [h]
  grind [onAdminister, Accounts.refl]

end TokenInfo

def StoreOp.enteredUnder (t : TokenInfo) : StoreOp → Bytes
  | transferByAddress address .. => address
  | transferFromByAddress address .. => address
  | burn address .. => address
  | mint address .. => address
  | _ => t.address

open TokenInfo in
theorem StoreOp.accounts_onToken (env : Env) (op : StoreOp) (t : TokenInfo) {acc : Bytes} (hacc : acc ≠ [])
    (haddr : op.enteredUnder t = t.address) :
    Accounts t.address acc (op.onToken env t).2 (t.balance acc) ((op.onToken env t).1.balance acc) := by
  cases op with
  | create => exact Accounts.refl _ _ _
  | transfer name f d amount => exact accounts_onTransfer env t.address acc f d amount t
  | transferByAddress address f d amount =>
    obtain rfl : address = t.address := haddr
    exact accounts_onTransfer env t.address acc f d amount t
  | approve name owner spender amount caller =>
    simp only [onToken]
    split <;> exact Accounts.refl _ _ _
  | transferFrom name sp f d amount => exact accounts_onTransferFrom t.address acc sp f d amount t
  | transferFromByAddress address sp f d amount =>
    obtain rfl : address = t.address := haddr
    exact accounts_onTransferFrom t.address acc sp f d amount t
  | burn address owner amount =>
    obtain rfl : address = t.address := haddr
    simp only [onToken]
    split
    · rename_i h
      have hle := le_balance_of_short h.2
      have hb : TokenInfo.balance { t.debit owner amount with totalSupply := t.totalSupply - amount } acc =
          if acc = owner then t.balance owner - amount else t.balance acc := balance_debit t owner acc amount
      unfold Accounts
      simp only [hb, sent, received, true_and, Nat.add_zero, Ne.symm hacc, if_false]
      by_cases ho : acc = owner
      · subst ho
        rw [if_pos rfl, if_pos rfl, UInt64.toNat_sub_of_le _ _ (UInt64.le_iff_toNat_le.2 hle), Nat.sub_add_cancel hle]
      · rw [if_neg ho, if_neg (Ne.symm ho)]
        rfl
    · exact Accounts.refl _ _ _
  | mint address creator amount =>
    obtain rfl : address = t.address := haddr
    simp only [onToken]
    split
    · have hb : TokenInfo.balance { t.credit creator amount with totalSupply := t.totalSupply + amount } acc =
          if acc = creator then t.balance creator + amount else t.balance acc := balance_credit t creator acc amount
      unfold Accounts
      simp only [hb, sent, received, true_and, Nat.add_zero, Ne.symm hacc, if_false]
      by_cases ho : acc = creator
      · grind [toNat_add_modEq]
      · rw [if_neg ho, if_neg (Ne.symm ho)]
        rfl
    · exact Accounts.refl _ _ _
  | _ =>
    simp only [onToken]
    exact accounts_onAdminister (by rfl) _ _

theorem StoreOp.address_onToken (env : Env) (op : StoreOp) (t : TokenInfo) :
    (op.onToken env t).1.address = t.address := by
  cases op with
  | create => rfl
  | transfer | transferByAddress =>
    simp only [onToken, TokenInfo.onTransfer, TokenInfo.transferred]
    split
    · split <;> rfl
    · rfl
  | transferFrom | transferFromByAddress =>
    simp only [onToken, TokenInfo.onTransferFrom]
    split
    · split <;> rfl
    · rfl
  | approve | burn | mint =>
    simp only [onToken]
    split <;> rfl
  | _ =>
    simp only [onToken, TokenInfo.onAdminister]
    split <;> rfl

theorem StoreOp.tokenAddress_onToken {env : Env} {op : StoreOp} {t : TokenInfo} {r : TokenTransferRecord}
    (h : r ∈ (op.onToken env t).2) : r.tokenAddress = op.enteredUnder t := by
  cases op with
  | create => cases h
  | transfer | transferByAddress =>
    simp only [onToken, TokenInfo.onTransfer] at h
    split at h
    · rw [mem_singleton.1 h]
      rfl
    · cases h
  | transferFrom | transferFromByAddress =>
    simp only [onToken, TokenInfo.onTransferFrom] at h
    split at h
    · split at h
      · rw [mem_singleton.1 h]
        rfl
      · cases h
    · cases h
  | burn | mint =>
    simp only [onToken] at h
    split at h
    · rw [mem_singleton.1 h]
      rfl
    · cases h
  | approve =>
    simp only [onToken] at h
    split at h <;> cases h
  | _ =>
    simp only [onToken, TokenInfo.onAdminister] at h
    split at h <;> cases h

namespace TokenStore
variable {env : Env} {s s' s'' : TokenStore}

/-- `address_index` leads from each token's address to that token, and from no other address. -/
structure OneAddress (s : TokenStore) : Prop where
  addressOf : ∀ n t, s.get n = some t → s.addressIndex.lookup t.address = some n
  only : ∀ n t address, s.get n = some t → s.addressIndex.lookup address = some n → address = t.address

def Ledger (s s' : TokenStore) (recs : List TokenTransferRecord) : Prop :=
  s'.transferHistory = s.transferHistory ++ recs ∧ ∀ n t, s.get n = some t →
    ∃ t', s'.get n = some t' ∧ t'.address = t.address ∧
      ∀ acc, acc ≠ [] → TokenInfo.Accounts t.address acc recs (t.balance acc) (t'.balance acc)

theorem Ledger.trans {recs recs' : List TokenTransferRecord} (h : Ledger s s' recs) (h' : Ledger s' s'' recs') :
    Ledger s s'' (recs ++ recs') := by
  refine ⟨by rw [h'.1, h.1, append_assoc], fun n t hg => ?_⟩
  obtain ⟨t', hg', ha', hb'⟩ := h.2 n t hg
  obtain ⟨t'', hg'', ha'', hb''⟩ := h'.2 n t' hg'
  refine ⟨t'', hg'', ha''.trans ha', fun acc hacc => ?_⟩
  have h1 := hb' acc hacc
  have h2 := hb'' acc hacc
  rw [ha'] at h2
  unfold TokenInfo.Accounts at h1 h2 ⊢
  rw [sent_append, received_append]
  calc (t''.balance acc).toNat + (sent t.address acc recs + sent t.address acc recs')
      = (t''.balance acc).toNat + sent t.address acc recs' + sent t.address acc recs := by omega
    _ ≡ (t'.balance acc).toNat + received t.address acc recs' + sent t.address acc recs [MOD 2 ^ 64] :=
        h2.add_right _
    _ = (t'.balance acc).toNat + sent t.address acc recs + received t.address acc recs' := by omega
    _ ≡ (t.balance acc).toNat + received t.address acc recs + received t.address acc recs' [MOD 2 ^ 64] :=
        h1.add_right _
    _ = (t.balance acc).toNat + (received t.address acc recs + received t.address acc recs') := by omega

variable {op : StoreOp}

theorem OneAddress.enteredUnder (h : s.OneAddress) {n : Bytes} {t : TokenInfo}
    (hslot : op.slot s = some n) (hg : s.get n = some t) : op.enteredUnder t = t.address := by
  cases op with
  | transferByAddress | transferFromByAddress | burn | mint => exact h.only n t _ hg hslot
  | _ => rfl

theorem oneAddress_step (h : s.OneAddress) (hc : op.isCreate = false) : (s.step env op).1.OneAddress := by
  -- tokens keep their addresses and the index is not touched
  have hold : ∀ n t, (s.step env op).1.get n = some t → ∃ u, s.get n = some u ∧ u.address = t.address := by
    intro n t hg
    rw [get_step hc] at hg
    split at hg
    · obtain ⟨u, hu, rfl⟩ := Option.map_eq_some_iff.1 hg
      exact ⟨u, hu, (op.address_onToken env u).symm⟩
    · exact ⟨t, hg, rfl⟩
  constructor
  · intro n t hg
    obtain ⟨u, hu, ha⟩ := hold n t hg
    rw [addressIndex_step hc, ← ha]
    exact h.addressOf n u hu
  · intro n t address hg hl
    obtain ⟨u, hu, ha⟩ := hold n t hg
    rw [addressIndex_step hc] at hl
    rw [← ha]
    exact h.only n u address hu hl

theorem ledger_step (h : s.OneAddress) {op : StoreOp} (hc : op.isCreate = false) :
    ∃ recs, Ledger s (s.step env op).1 recs := by
  refine ⟨_, history_step hc, fun n t hg => ?_⟩
  rw [get_step hc]
  unfold found
  by_cases hslot : op.slot s = some n
  · refine ⟨(op.onToken env t).1, by rw [if_pos hslot, hg]; rfl, op.address_onToken env t, fun acc hacc => ?_⟩
    simp only [hslot, Option.bind_some, hg, Option.map_some, Option.getD_some]
    exact op.accounts_onToken env t hacc (h.enteredUnder hslot hg)
  · refine ⟨t, by rw [if_neg hslot, hg], rfl, fun acc _ => ?_⟩
    -- what was entered for another token stands under another address
    have hother : ∀ r ∈ (((op.slot s).bind s.get).map fun u => (op.onToken env u).2).getD [],
        r.tokenAddress ≠ t.address := by
      intro r hr
      cases hm : op.slot s with
      | none => simp [hm] at hr
      | some m =>
        cases hu : s.get m with
        | none => simp [hm, hu] at hr
        | some u =>
          simp only [hm, Option.bind_some, hu, Option.map_some, Option.getD_some] at hr
          rw [StoreOp.tokenAddress_onToken hr, h.enteredUnder hm hu]
          intro ha
          have h1 := h.addressOf m u hu
          rw [ha, h.addressOf n t hg] at h1
          exact hslot (hm.trans h1.symm)
    obtain ⟨hr, hs⟩ := @received_other t.address acc _ hother
    unfold TokenInfo.Accounts
    rw [hr, hs]

/-- **The history is a complete ledger** over any run without `create`, modulo 2^64. -/
theorem history_is_ledger (env : Env) (s : TokenStore) (ops : List StoreOp) (hi : s.OneAddress)
    (hc : ∀ op ∈ ops, op.isCreate = false) :
    let s' := run (after env) s ops
    let added := s'.transferHistory.drop s.transferHistory.length
    s'.transferHistory = s.transferHistory ++ added ∧
    ∀ n t acc, s.get n = some t → acc ≠ [] →
      (s'.balanceOf n acc).toNat + sent t.address acc added ≡
        (s.balanceOf n acc).toNat + received t.address acc added [MOD 2 ^ 64] := by
  have hrun : ∃ recs, Ledger s (run (after env) s ops) recs := by
    induction ops generalizing s with
    | nil => exact ⟨[], by simp [run], fun n t hg => ⟨t, hg, rfl, fun _ _ => TokenInfo.Accounts.refl _ _ _⟩⟩
    | cons op ops ih =>
      have hop := hc op mem_cons_self
      obtain ⟨recs, h⟩ := @ledger_step env s hi op hop
      obtain ⟨recs', h'⟩ := ih (s.step env op).1 (oneAddress_step hi hop) fun o ho => hc o (mem_cons_of_mem _ ho)
      exact ⟨recs ++ recs', h.trans h'⟩
  obtain ⟨recs, hh, hb⟩ := hrun
  intro s' added
  have hadded : added = recs := by grind
  rw [hadded]
  refine ⟨hh, fun n t acc hg hacc => ?_⟩
  obtain ⟨t', hg', -, hacct⟩ := hb n t hg
  have := hacct acc hacc
  unfold balanceOf
  rw [hg, hg']
  exact this

def tenGold : TokenStore := empty.create Env.plain (ascii "Gold") (ascii "GLD") 10 (ascii "alice") 0 (ascii "cEVM1") 0

theorem oneAddress_tenGold : tenGold.OneAddress := by
  have hget : ∀ n t, tenGold.get n = some t → n = ascii "Gold" ∧ t.address = ascii "cEVM1" := by
    intro n t hg
    unfold tenGold at hg
    rw [get_create] at hg
    split at hg
    · obtain rfl := Option.some.inj hg
      exact ⟨‹_›, rfl⟩
    · simp [get, empty] at hg
  have hindex : ∀ a, tenGold.addressIndex.lookup a = if a = ascii "cEVM1" then some (ascii "Gold") else none :=
    addressIndex_create empty Env.plain (ascii "Gold") (ascii "GLD") 10 (ascii "alice") 0 (ascii "cEVM1") 0
  constructor
  · grind
  · grind

theorem history_is_ledger_tenGold :
    let ops : List StoreOp := [.transfer (ascii "Gold") (ascii "alice") (ascii "bob") 3,
      .transferByAddress (ascii "cEVM1") (ascii "alice") (ascii "alice") 7,
      .transfer (ascii "Gold") (ascii "alice") (ascii "bob") 8,
      .approve (ascii "Gold") (ascii "bob") (ascii "carol") 2 (ascii "bob"),
      .transferFrom (ascii "Gold") (ascii "carol") (ascii "bob") (ascii "alice") 2,
      .transferFromByAddress (ascii "cEVM1") (ascii "carol") (ascii "bob") (ascii "alice") 1,
      .mint (ascii "cEVM1") (ascii "alice") 5, .burn (ascii "cEVM1") (ascii "alice") 1]
    let s' := run (after Env.plain) tenGold ops
    let added := s'.transferHistory.drop tenGold.transferHistory.length
    added.length = 5 ∧ s'.balanceOf (ascii "Gold") (ascii "alice") = 13 ∧
    13 + sent (ascii "cEVM1") (ascii "alice") added ≡ 10 + received (ascii "cEVM1") (ascii "alice") added [MOD 2 ^ 64] := by
  intro ops s' added
  have heval : added.length = 5 ∧ s'.balanceOf (ascii "Gold") (ascii "alice") = 13 := by decide +kernel
  obtain ⟨t, hg, ha⟩ : ∃ t, tenGold.get (ascii "Gold") = some t ∧ t.address = ascii "cEVM1" := ⟨_, rfl, rfl⟩
  have hb : tenGold.balanceOf (ascii "Gold") (ascii "alice") = 10 := by decide +kernel
  have h := (history_is_ledger Env.plain tenGold ops oneAddress_tenGold (by decide)).2 _ t (ascii "alice") hg (by decide)
  rw [ha, hb] at h
  rw [heval.2] at h
  exact ⟨heval.1, heval.2, h⟩

end TokenStore

end Electronero
