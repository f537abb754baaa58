import Electronero.Protocol.Debits
/-!
# Fee locks and frozen accounts over whole runs (`token.cpp:153-179`, `:226-374`)

Only `create` looks at neither: on a name that is taken it writes a new fee, clears the lock and sets its creator's
balance (token.cpp:157-165), while the frozen accounts of the old token stay.
-/
namespace Electronero
open Text FiniteMap Machine

namespace StoreOp
variable {env : Env} {op : StoreOp} {t : TokenInfo} {acc : Bytes}

theorem locked_onToken (h : t.creatorFeeLocked = true) :
    (op.onToken env t).1.creatorFee = t.creatorFee ∧ (op.onToken env t).1.creatorFeeLocked = true := by
  cases op with
  | create => exact ⟨rfl, h⟩
  | transfer | transferByAddress =>
    simp only [onToken, TokenInfo.onTransfer, TokenInfo.transferred]
    split
    · split <;> exact ⟨rfl, h⟩
    · exact ⟨rfl, h⟩
  | transferFrom | transferFromByAddress =>
    simp only [onToken, TokenInfo.onTransferFrom]
    split
    · split <;> exact ⟨rfl, h⟩
    · exact ⟨rfl, h⟩
  | approve | burn | mint =>
    simp only [onToken]
    split <;> exact ⟨rfl, h⟩
  | setCreatorFee | lockCreatorFee =>
    simp only [onToken, TokenInfo.onAdminister, h, Bool.or_true, if_true]
    exact ⟨trivial, trivial⟩
  | _ =>
    simp only [onToken, TokenInfo.onAdminister]
    split <;> exact ⟨rfl, h⟩

theorem balance_moved_frozen {f d : Bytes} {amount : UInt64} (hf : f ∉ t.frozenAccounts) (hd : d ∉ t.frozenAccounts)
    (h : acc ∈ t.frozenAccounts) : (t.moved f d amount).balance acc = t.balance acc := by
  rw [TokenInfo.balance_moved, if_neg, if_neg]
  · rintro rfl
    exact hf h
  · rintro rfl
    exact hd h

theorem frozen_onToken (h : acc ∈ t.frozenAccounts) : (op.onToken env t).1.balance acc = t.balance acc := by
  cases op with
  | create => rfl
  | transfer name f d amount | transferByAddress address f d amount =>
    simp only [onToken, TokenInfo.onTransfer]
    split
    · rename_i ha
      simp only [TokenInfo.admitsTransfer, Bool.and_eq_true, Bool.not_eq_true', decide_eq_false_iff_not, not_or] at ha
      rw [TokenInfo.balance_transferred]
      exact balance_moved_frozen ha.1.2.1 ha.1.2.2 h
    · rfl
  | transferFrom name sp f d amount | transferFromByAddress address sp f d amount =>
    simp only [onToken, TokenInfo.onTransferFrom]
    split
    · rename_i ha
      simp only [TokenInfo.admitsSpender, Bool.and_eq_true, Bool.not_eq_true', decide_eq_false_iff_not, not_or] at ha
      split
      · exact @balance_moved_frozen (t.setAllowance f sp (t.allowance f sp - amount)) acc f d amount ha.2.2.1 ha.2.2.2 h
      · rfl
    · rfl
  | approve =>
    simp only [onToken]
    split <;> rfl
  | burn address owner amount =>
    simp only [onToken]
    split
    · rename_i ho
      refine (TokenInfo.balance_debit t owner acc amount).trans (if_neg ?_)
      rintro rfl
      exact ho.1 h
    · rfl
  | mint address creator amount =>
    simp only [onToken]
    split
    · rename_i ho
      refine (TokenInfo.balance_credit t creator acc amount).trans (if_neg ?_)
      rintro rfl
      exact ho.2 h
    · rfl
  | _ =>
    simp only [onToken, TokenInfo.onAdminister]
    split <;> rfl

end StoreOp

namespace TokenStore
variable {env : Env} {s : TokenStore}

def KeepsLocks (env : Env) (tx : Transaction) (s s' : TokenStore) : Prop :=
  (∀ n t, s.get n = some t → t.creatorFeeLocked = true →
    ∃ t', s'.get n = some t' ∧ t'.creatorFee = t.creatorFee ∧ t'.creatorFeeLocked = true) ∧
  ∀ n t acc, s.get n = some t → acc ∈ t.frozenAccounts → s'.balanceOf n acc ≠ s.balanceOf n acc →
    signedBy env tx governanceWalletAddress = true

/-- If a `create` is executed on the name of a token, that token's fee is not locked, and the creator's
account is not frozen in it or keeps its balance, or the governance address has signed. -/
def respectsLocks (env : Env) (s : TokenStore) (o : OnChain) : Bool :=
  match executes env s o.height o.tx o.nonce with
  | .ok (some (.create name _ supply creator _ _ _)) =>
    (s.get name).all fun t => !t.creatorFeeLocked &&
      (decide (creator ∉ t.frozenAccounts) || t.balance creator == supply || signedBy env o.tx governanceWalletAddress)
  | _ => true

theorem keepsLocks_refl (tx : Transaction) : KeepsLocks env tx s s :=
  ⟨fun _ t hg hl => ⟨t, hg, rfl, hl⟩, fun _ _ _ _ _ hne => absurd rfl hne⟩

theorem keepsLocks_step {op : StoreOp} (hc : op.isCreate = false) (tx : Transaction) :
    KeepsLocks env tx s (s.step env op).1 := by
  constructor
  · grind [get_step, StoreOp.locked_onToken]
  · grind [balanceOf, get_step, StoreOp.frozen_onToken]

theorem keepsLocks_create_iff {name symbol creator address : Bytes} {supply fee nonce : UInt64} (tx : Transaction) :
    KeepsLocks env tx s (s.create env name symbol supply creator fee address nonce) ↔
      ∀ t, s.get name = some t → t.creatorFeeLocked = false ∧
        (creator ∈ t.frozenAccounts → t.balance creator = supply ∨ signedBy env tx governanceWalletAddress = true) := by
  have hget := (get_create s env name symbol supply creator fee address nonce name).trans (if_pos rfl)
  have hbal : (s.create env name symbol supply creator fee address nonce).balanceOf name creator = supply := by
    unfold balanceOf
    rw [hget]
    exact (getD_insert _ _ _ _ _).trans (if_pos rfl)
  constructor
  · rintro ⟨hlock, hfrozen⟩ t hg
    constructor
    · cases hl : t.creatorFeeLocked with
      | false => rfl
      | true =>
        -- the new token is not locked
        obtain ⟨t', hg', -, hl'⟩ := hlock name t hg hl
        rw [hget] at hg'
        cases hg'
        cases hl'
    · grind [balanceOf]
  · intro h
    constructor
    · grind [get_create]
    · intro n t acc hg hf hne
      by_cases hacc : acc = creator
      · subst hacc
        grind [balanceOf, get_create]
      · exact absurd (balanceOf_create hacc) hne

theorem keepsLocks_iff (o : OnChain) : KeepsLocks env o.tx s (o.effect env s) ↔ respectsLocks env s o = true := by
  unfold OnChain.effect respectsLocks
  cases executes env s o.height o.tx o.nonce with
  | error e => exact iff_of_true (keepsLocks_refl _) rfl
  | ok call =>
    cases call with
    | none => exact iff_of_true (keepsLocks_refl _) rfl
    | some op =>
      cases op with
      | create name symbol supply creator fee address nonce =>
        refine (keepsLocks_create_iff o.tx).trans ?_
        show _ ↔ (s.get name).all _ = true
        cases s.get name with
        | none => simp
        | some t => grind
      | _ => exact iff_of_true (keepsLocks_step rfl _) rfl

def FeeLockedAt (n : Bytes) (fee : UInt64) (s : TokenStore) : Prop :=
  ∃ t, s.get n = some t ∧ t.creatorFee = fee ∧ t.creatorFeeLocked = true

theorem feeLockedAt_effect {n : Bytes} {fee : UInt64} (s : TokenStore) (o : OnChain) (h : s.FeeLockedAt n fee)
    (hok : respectsLocks env s o = true) : (o.effect env s).FeeLockedAt n fee := by
  obtain ⟨t, hg, hf, hl⟩ := h
  obtain ⟨t', hg', hf', hl'⟩ := ((keepsLocks_iff o).2 hok).1 n t hg hl
  exact ⟨t', hg', hf'.trans hf, hl'⟩

/-- **Locks hold over whole runs** exactly if no transaction creates over a locked fee or a frozen account. -/
theorem locks_hold_over_runs (env : Env) (s : TokenStore) (os : List OnChain) :
    let step := fun s (o : OnChain) => o.effect env s
    (Meets step (fun s o => KeepsLocks env o.tx s (o.effect env s)) s os ↔
      Meets step (fun s o => respectsLocks env s o = true) s os) ∧
    (Meets step (fun s o => respectsLocks env s o = true) s os →
      ∀ before between later, os = before ++ between ++ later → ∀ n t, (run step s before).get n = some t →
        t.creatorFeeLocked = true →
        ∃ t', (run step s (before ++ between)).get n = some t' ∧ t'.creatorFee = t.creatorFee) := by
  intro step
  refine ⟨⟨Meets.mono fun _ o => (keepsLocks_iff o).1, Meets.mono fun _ o => (keepsLocks_iff o).2⟩, ?_⟩
  rintro hm before between later rfl n t hg hl
  have hmid := (meets_append.1 (meets_append.1 hm).1).2
  obtain ⟨t', hg', hf', -⟩ : (run step (run step s before) between).FeeLockedAt n t.creatorFee :=
    run_invariant feeLockedAt_effect ⟨t, hg, rfl, hl⟩ hmid
  exact ⟨t', by rw [run_append]; exact hg', hf'⟩

section Example

def governedBy (k : UInt8) : Env :=
  { Env.plain with getAccountAddressFromStr := fun _ str =>
      if str = governanceWalletAddress then some ⟨⟨Env.plainKey k, Env.plainKey k⟩, false, false, default⟩
      else Env.plainParse str }

def lockedRun : List OnChain :=
  [⟨tokenSignatureActivationHeight, signedTx 1 1 .create
      [ascii "cEVM1", ascii "Gold", ascii "GLD", ascii "10", Env.plainAddress 1, ascii "5"], 0⟩,
   ⟨tokenSignatureActivationHeight, signedTx 2 1 .lockFee [ascii "cEVM1", Env.plainAddress 1], 0⟩,
   ⟨tokenSignatureActivationHeight, payThree 3, 0⟩,
   ⟨tokenSignatureActivationHeight, signedTx 4 9 .freeze
      [ascii "cEVM1", governanceWalletAddress, Env.plainAddress 2, ascii "1"], 0⟩]

def overGold : OnChain :=
  ⟨tokenSignatureActivationHeight, signedTx 5 2 .create
    [ascii "cEVM2", ascii "Gold", ascii "GLD", ascii "7", Env.plainAddress 2], 0⟩

def standing (t : TokenInfo) : UInt64 × Bool × Bool × UInt64 :=
  (t.creatorFee, t.creatorFeeLocked, decide (Env.plainAddress 2 ∈ t.frozenAccounts), t.balance (Env.plainAddress 2))

theorem lockedRun_holds :
    let step := fun s (o : OnChain) => o.effect (governedBy 9) s
    let attempts : List OnChain :=
      [⟨tokenSignatureActivationHeight, signedTx 5 1 .setFee [ascii "cEVM1", Env.plainAddress 1, ascii "8"], 0⟩,
       ⟨tokenSignatureActivationHeight, payThree 6, 0⟩]
    ∃ t', (run step empty (lockedRun ++ attempts)).get (ascii "Gold") = some t' ∧ t'.creatorFee = 5 := by
  intro step attempts
  have hrun : ((run step empty lockedRun).get (ascii "Gold")).map standing = some (5, true, true, 3) ∧
      Meets step (fun s o => respectsLocks (governedBy 9) s o = true) empty (lockedRun ++ attempts ++ []) := by
    decide +kernel
  obtain ⟨t, hg, ht⟩ := Option.map_eq_some_iff.1 hrun.1
  obtain ⟨t', hg', hf'⟩ := (locks_hold_over_runs (governedBy 9) empty (lockedRun ++ attempts ++ [])).2 hrun.2
    lockedRun attempts [] rfl _ t hg (congrArg (·.2.1) ht)
  exact ⟨t', hg', hf'.trans (congrArg (·.1) ht)⟩

theorem overGold_breaks_locks :
    let s := run (fun s (o : OnChain) => o.effect (governedBy 9) s) empty lockedRun
    (s.get (ascii "Gold")).map standing = some (5, true, true, 3) ∧
    ((overGold.effect (governedBy 9) s).get (ascii "Gold")).map standing = some (0, false, true, 7) ∧
    signedBy (governedBy 9) overGold.tx governanceWalletAddress = false := by decide +kernel

end Example

end TokenStore

end Electronero
