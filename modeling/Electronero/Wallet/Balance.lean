import Electronero.Lib.WrappingSum
import Electronero.Wallet.Burning
import Mathlib.Algebra.Order.Group.Nat
/-!
# What a wallet has and what it may spend (`src/wallet/wallet2.cpp:4080-4144, 4294-4333`)

For a light wallet both are figures of the server, and each function returns the one meant for the other (:4084, :4094).
-/
namespace Electronero.Wire
open FiniteMap List

structure WalletView where
  wallet : Wallet2
  nettype : NetworkType
  currentTime : UInt64
  lightWallet : Bool
  lightWalletBalance : UInt64
  lightWalletUnlockedBalance : UInt64

namespace WalletView
variable (v : WalletView)

def isTxSpendtimeUnlocked (unlockTime blockHeight : UInt64) : Bool :=
  if unlockTime < 500000000 then decide (unlockTime ≤ v.wallet.localBcHeight - 1 + 1)
  else
    let v2height : UInt64 := match v.nettype with
      | .testnet => 624634
      | .stagenet => -1
      | _ => 1009827
    let leeway : UInt64 := if blockHeight < v2height then 60 else 120
    decide (unlockTime ≤ v.currentTime + leeway)

def isTransferUnlocked (td : TransferDetails) : Bool :=
  if !v.isTxSpendtimeUnlocked td.tx.unlockTime td.blockHeight then false
  else if v.wallet.localBcHeight < td.blockHeight + 10 then false
  else true

def unlockedBalancePerSubaddress (indexMajor : UInt32) : UMap UInt32 UInt64 :=
  let transfers := v.wallet.transfers.filter fun td =>
    td.subaddrIndex.major = indexMajor ∧ td.spent = false ∧ v.isTransferUnlocked td = true
  transfers.foldl (fun m td => credit m td.subaddrIndex.minor td.amount) ∅

def balance (indexMajor : UInt32) : UInt64 :=
  if v.lightWallet then v.lightWalletUnlockedBalance else v.wallet.balance indexMajor

def unlockedBalance (indexMajor : UInt32) : UInt64 :=
  if v.lightWallet then v.lightWalletBalance
  else sum64 ((v.unlockedBalancePerSubaddress indexMajor).entries.map (·.2))

end WalletView

def amountsTotal (tds : List TransferDetails) : Nat := Wrapping.total (tds.map (·.amount))

variable {tds tds' : List TransferDetails}

theorem toNat_sumAmounts (h : amountsTotal tds < 2 ^ 64) : (sumAmounts tds).toNat = amountsTotal tds := by
  rw [amountsTotal, ← Wrapping.toNat_sum h, Wrapping.sum, foldl_map]
  rfl

theorem amountsTotal_le (h : tds <+ tds') : amountsTotal tds ≤ amountsTotal tds' := by
  unfold amountsTotal Wrapping.total
  rw [map_map, map_map]
  exact (h.map _).sum_le_sum fun _ _ => Nat.zero_le _

theorem sumAmounts_le (h : tds <+ tds') (hfits : amountsTotal tds' < 2 ^ 64) : sumAmounts tds ≤ sumAmounts tds' := by
  have hle := amountsTotal_le h
  rw [UInt64.le_iff_toNat_le, toNat_sumAmounts hfits, toNat_sumAmounts (hle.trans_lt hfits)]
  exact hle

theorem lookup_foldl_credit (tds : List TransferDetails) (m : UMap UInt32 UInt64) (minor : UInt32) :
    (tds.foldl (fun m td => credit m td.subaddrIndex.minor td.amount) m).lookup minor =
      if tds.filter (·.subaddrIndex.minor = minor) = [] then m.lookup minor
      else some (getD m minor 0 + sumAmounts (tds.filter (·.subaddrIndex.minor = minor))) := by
  induction tds generalizing m with
  | nil => rfl
  | cons td tds ih =>
    have hmiddle := sumAmounts_middle [] (tds.filter (·.subaddrIndex.minor = minor)) td
    rw [foldl_cons, ih, credit, lookup_insert_ite, getD_insert]
    by_cases h : minor = td.subaddrIndex.minor
    · rw [filter_cons_of_pos (by simpa using h.symm), if_neg (cons_ne_nil _ _), if_pos h, if_pos h]
      rw [nil_append, nil_append] at hmiddle
      split
      · rename_i hnil
        rw [hmiddle, hnil, h]
        simp [sumAmounts]
      · rw [hmiddle, UInt64.add_assoc, UInt64.add_comm td.amount, h]
    · rw [filter_cons_of_neg (by simpa using Ne.symm h), if_neg h, if_neg h]

namespace Wallet2

def funds (w : Wallet2) : Nat :=
  amountsTotal w.transfers + total (fun u => u.change.toNat) w.unconfirmedTxs

theorem toNat_changes_le (w : Wallet2) (major : UInt32) :
    (sum64 (w.changes major)).toNat ≤ total (fun u => u.change.toNat) w.unconfirmedTxs := by
  have hsplit := congrArg (fun s => (s.map fun u => u.2.change.toNat).sum) (Multiset.filter_add_not
    (fun u => u.2.subaddrAccount = major ∧ u.2.state ≠ .failed) w.unconfirmedTxs.entries)
  simp only [Multiset.map_add, Multiset.sum_add] at hsplit
  refine (Nat.mod_le _ _).trans ?_
  rw [changes, Multiset.map_map]
  exact (Nat.le_add_right _ _).trans_eq hsplit

theorem le_add_changes {w : Wallet2} (hsum : w.funds < 2 ^ 64) (h : tds <+ w.transfers) (major : UInt32) :
    sumAmounts tds ≤ sumAmounts tds + sum64 (w.changes major) := by
  have hle := amountsTotal_le h
  have hchange := w.toNat_changes_le major
  unfold funds at hsum
  rw [UInt64.le_iff_toNat_le, UInt64.toNat_add, toNat_sumAmounts (by omega), Nat.mod_eq_of_lt (by omega)]
  exact Nat.le_add_right _ _

end Wallet2

namespace WalletView
variable {v : WalletView} {indexMajor : UInt32}

theorem unlocked_sublist (v : WalletView) (indexMajor : UInt32) :
    (v.wallet.transfers.filter fun td => td.subaddrIndex.major = indexMajor ∧ td.spent = false ∧
      v.isTransferUnlocked td = true) <+
    v.wallet.transfers.filter fun td => td.subaddrIndex.major = indexMajor ∧ td.spent = false :=
  monotone_filter_right _ fun td h => by simp_all

section
variable (hsum : v.wallet.funds < 2 ^ 64)
include hsum

theorem amountsTotal_lt (h : tds <+ v.wallet.transfers) : amountsTotal tds < 2 ^ 64 :=
  ((amountsTotal_le h).trans (Nat.le_add_right _ _)).trans_lt hsum

theorem unlocked_le_perSubaddress {minor : UInt32} {u : UInt64}
    (hu : (v.unlockedBalancePerSubaddress indexMajor).lookup minor = some u) :
    ∃ b, (v.wallet.balancePerSubaddress indexMajor).lookup minor = some b ∧ u ≤ b := by
  have hsub := (v.unlocked_sublist indexMajor).filter (·.subaddrIndex.minor = minor)
  rw [unlockedBalancePerSubaddress, lookup_foldl_credit] at hu
  split at hu
  · simp at hu
  rename_i hsome
  -- the unspent transfers to the subaddress, locked or not
  generalize hall : (v.wallet.transfers.filter fun td => td.subaddrIndex.major = indexMajor ∧ td.spent = false) = all
    at hsub
  have hin : all.filter (·.subaddrIndex.minor = minor) <+ v.wallet.transfers :=
    filter_sublist.trans (hall ▸ filter_sublist)
  have hlookup := lookup_foldl_credit all ∅ minor
  have hne : all.filter (·.subaddrIndex.minor = minor) ≠ [] := fun hnil => hsome (sublist_nil.1 (hnil ▸ hsub))
  have hle := sumAmounts_le hsub (amountsTotal_lt hsum hin)
  rw [if_neg hne, FiniteMap.getD, Finmap.lookup_empty, Option.getD_none, UInt64.zero_add] at hlookup
  rw [FiniteMap.getD, Finmap.lookup_empty, Option.getD_none, UInt64.zero_add] at hu
  obtain rfl := Option.some.inj hu
  rw [Wallet2.balancePerSubaddress, hall]
  split
  · exact ⟨_, hlookup, hle⟩
  · rw [credit, lookup_insert_ite]
    split
    · rename_i hzero
      subst hzero
      rw [getD_of_lookup hlookup]
      exact ⟨_, rfl, UInt64.le_trans hle (Wallet2.le_add_changes hsum hin indexMajor)⟩
    · exact ⟨_, hlookup, hle⟩

theorem unlockedBalance_le (hfull : v.lightWallet = false) (indexMajor : UInt32) :
    v.unlockedBalance indexMajor ≤ v.balance indexMajor := by
  have hin := filter_sublist (p := fun td : TransferDetails => td.subaddrIndex.major = indexMajor ∧ td.spent = false)
    (l := v.wallet.transfers)
  rw [unlockedBalance, balance, hfull, if_neg (by simp), if_neg (by simp), Wallet2.balance_eq,
    unlockedBalancePerSubaddress, sum64_foldl_credit]
  exact UInt64.le_trans (sumAmounts_le (v.unlocked_sublist indexMajor) (amountsTotal_lt hsum hin))
    (Wallet2.le_add_changes hsum hin indexMajor)

end

/-- **Unlocked funds** are at most the balance, for a light wallet only if the server reports the two equal. -/
theorem unlocked_le_balance_iff (v : WalletView) (indexMajor : UInt32) (hsum : v.wallet.funds < 2 ^ 64)
    (hserver : v.lightWallet = true → v.lightWalletUnlockedBalance ≤ v.lightWalletBalance) :
    ((∀ minor u, (v.unlockedBalancePerSubaddress indexMajor).lookup minor = some u →
        ∃ b, (v.wallet.balancePerSubaddress indexMajor).lookup minor = some b ∧ u ≤ b) ∧
      v.unlockedBalance indexMajor ≤ v.balance indexMajor) ↔
    (v.lightWallet = true → v.lightWalletUnlockedBalance = v.lightWalletBalance) := by
  refine ⟨fun ⟨_, h⟩ hlight => ?_, fun h => ⟨fun minor u => unlocked_le_perSubaddress hsum, ?_⟩⟩
  · rw [unlockedBalance, balance, if_pos hlight, if_pos hlight] at h
    exact UInt64.le_antisymm (hserver hlight) h
  · cases hlight : v.lightWallet with
    | false => exact unlockedBalance_le hsum hlight indexMajor
    | true =>
      rw [unlockedBalance, balance, if_pos hlight, if_pos hlight, h hlight]
      exact UInt64.le_refl _

def lightExample : WalletView := ⟨.fresh .fresh ∅ 0, .mainnet, 0, true, 5, 3⟩

theorem lightExample_swapped :
    lightExample.unlockedBalance 0 = 5 ∧ lightExample.balance 0 = 3 ∧
      ¬ lightExample.unlockedBalance 0 ≤ lightExample.balance 0 := by
  decide

theorem unlocked_le_balance_iff_light :
    lightExample.wallet.funds < 2 ^ 64 ∧ ¬ lightExample.unlockedBalance 0 ≤ lightExample.balance 0 := by
  have hfunds : lightExample.wallet.funds < 2 ^ 64 := by decide
  refine ⟨hfunds, fun h => ?_⟩
  have hsame := (unlocked_le_balance_iff lightExample 0 hfunds fun _ => by decide).1
    ⟨fun minor u => unlocked_le_perSubaddress hfunds, h⟩ rfl
  revert hsame
  decide

end WalletView
end Electronero.Wire
