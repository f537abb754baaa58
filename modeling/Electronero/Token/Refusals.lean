import Electronero.Token.Supply
/-!
# Refused calls (`src/token/token.cpp:207-390`)

`transfer_from` and `transfer_from_by_address` (:257, :272) read `allowances[from][spender]` in front of the two checks on
the amount, and `operator[]` inserts what it does not find. The others write only behind the last check.
-/
namespace Electronero
open Text FiniteMap

/-- `allowances` has an entry for this pair, be it zero. -/
def TokenInfo.hasAllowance (t : TokenInfo) (owner spender : Bytes) : Bool :=
  (t.allowances.lookup owner).any fun m => (m.lookup spender).isSome

def TokenInfo.missesAllowance (t : TokenInfo) (spender fromAcc toAcc : Bytes) : Bool :=
  !t.paused && decide (¬ (spender ∈ t.frozenAccounts ∨ fromAcc ∈ t.frozenAccounts ∨ toAcc ∈ t.frozenAccounts)) &&
    !t.hasAllowance fromAcc spender

def StoreOp.missesAllowance (s : TokenStore) : StoreOp → Bool
  | .transferFrom name spender f d _ => (s.get name).any (·.missesAllowance spender f d)
  | .transferFromByAddress address spender f d _ => (s.getByAddress address).any (·.missesAllowance spender f d)
  | _ => false

namespace TokenInfo

theorem setAllowance_allowance_eq_self_iff (t : TokenInfo) (owner spender : Bytes) :
    t.setAllowance owner spender (t.allowance owner spender) = t ↔ t.hasAllowance owner spender = true := by
  rw [setAllowance_eq_self_iff]
  unfold hasAllowance allowance getD
  cases t.allowances.lookup owner with
  | none => simp
  | some m =>
    cases h : m.lookup spender with
    | none => simp [h]
    | some a => simp [h]

end TokenInfo

namespace TokenStore
variable {env : Env} {s : TokenStore}

variable {slot : Option Bytes} {f d owner address creator : Bytes} {recAddr : TokenInfo → Bytes} {amount : UInt64}

theorem withToken_refused_eq {f : Bytes → TokenInfo → TokenStore × Bool}
    (hf : ∀ n t, (f n t).2 = false → (f n t).1 = s) (h : (s.withToken slot f).2 = false) :
    (s.withToken slot f).1 = s := by
  obtain hr | ⟨n, t, -, -, hr⟩ := withToken_cases (rfl : s.withToken slot f = _)
  · rw [hr]
  · rw [← hr] at h ⊢
    exact hf n t h

theorem transferAt_refused_eq
    (h : (s.transferAt env slot recAddr f d amount).2 = false) : (s.transferAt env slot recAddr f d amount).1 = s := by
  refine withToken_refused_eq (fun n t => ?_) h
  grind

theorem approve_refused_eq {name spender caller : Bytes} (h : (s.approve name owner spender amount caller).2 = false) :
    (s.approve name owner spender amount caller).1 = s := by
  refine withToken_refused_eq (fun n t => ?_) h
  grind

theorem burn_refused_eq (h : (s.burn address owner amount).2 = false) : (s.burn address owner amount).1 = s := by
  refine withToken_refused_eq (fun n t => ?_) h
  grind

theorem mint_refused_eq (h : (s.mint address creator amount).2 = false) : (s.mint address creator amount).1 = s := by
  refine withToken_refused_eq (fun n t => ?_) h
  grind

theorem administer_refused_eq {refused : TokenInfo → Bool} {edit : TokenInfo → TokenInfo}
    (h : (s.administer address refused edit).2 = false) : (s.administer address refused edit).1 = s := by
  refine withToken_refused_eq (fun n t => ?_) h
  cases refused t <;> simp

theorem transferOwnership_refused_eq {newOwner : Bytes} (h : (s.transferOwnership address creator newOwner).2 = false) :
    (s.transferOwnership address creator newOwner).1 = s := by
  refine withToken_refused_eq (fun n t => ?_) h
  grind

theorem transferFromAt_refused_iff {sp : Bytes} (h : (s.transferFromAt slot recAddr sp f d amount).2 = false) :
    (s.transferFromAt slot recAddr sp f d amount).1 = s ↔
      (slot.bind s.get).any (·.missesAllowance sp f d) = false := by
  cases hslot : slot with
  | none => simp [transferFromAt, withToken]
  | some n =>
    cases hg : s.get n with
    | none => simp [transferFromAt, withToken, hg]
    | some t =>
      rw [hslot] at h
      simp only [Option.bind_some, hg, Option.any_some]
      unfold transferFromAt withToken at h ⊢
      simp only [hg] at h ⊢
      by_cases hpaused : t.paused = true
      · simp [hpaused, TokenInfo.missesAllowance]
      by_cases hfrozen : sp ∈ t.frozenAccounts ∨ f ∈ t.frozenAccounts ∨ d ∈ t.frozenAccounts
      · simp [hpaused, hfrozen, TokenInfo.missesAllowance]
      -- both refusals behind the allowance leave the token as `operator[]` has made it
      have hentry : s.put n (t.setAllowance f sp (t.allowance f sp)) = s ↔ t.missesAllowance sp f d = false := by
        rw [put_eq_self_iff, hg, Option.some.injEq, eq_comm, TokenInfo.setAllowance_allowance_eq_self_iff]
        simp [TokenInfo.missesAllowance, hpaused, hfrozen]
      rw [if_neg hpaused, if_neg hfrozen] at h ⊢
      by_cases hallowed : t.allowance f sp < amount
      · rw [if_pos hallowed]
        exact hentry
      rw [if_neg hallowed] at h ⊢
      by_cases hshort : (t.setAllowance f sp (t.allowance f sp)).short f amount = true
      · rw [if_pos hshort]
        exact hentry
      · rw [if_neg hshort] at h
        cases h

/-- **A refused call changes nothing**, unless it is a delegated transfer that finds no allowance entry. -/
theorem refused_call_unchanged_iff (env : Env) (s : TokenStore) (op : StoreOp) (h : (s.step env op).2 = false) :
    (s.step env op).1 = s ↔ op.missesAllowance s = false := by
  cases op with
  | create name symbol supply creator fee address nonce => cases h
  | transfer name f d amount => exact iff_of_true (transferAt_refused_eq h) rfl
  | transferByAddress address f d amount => exact iff_of_true (transferAt_refused_eq h) rfl
  | approve name owner spender amount caller => exact iff_of_true (approve_refused_eq h) rfl
  | transferFrom name spender f d amount => exact transferFromAt_refused_iff h
  | transferFromByAddress address spender f d amount => exact transferFromAt_refused_iff h
  | burn address owner amount => exact iff_of_true (burn_refused_eq h) rfl
  | mint address creator amount => exact iff_of_true (mint_refused_eq h) rfl
  | setCreatorFee address creator fee => exact iff_of_true (administer_refused_eq h) rfl
  | lockCreatorFee address creator => exact iff_of_true (administer_refused_eq h) rfl
  | setPaused address creator p => exact iff_of_true (administer_refused_eq h) rfl
  | setFrozen address creator account f => exact iff_of_true (administer_refused_eq h) rfl
  | transferOwnership address creator newOwner => exact iff_of_true (transferOwnership_refused_eq h) rfl

theorem refused_call_unchanged_overdraft :
    (fiveGold.step Env.plain (.transfer (ascii "Gold") (ascii "alice") (ascii "bob") 6)).2 = false ∧
      (fiveGold.step Env.plain (.transfer (ascii "Gold") (ascii "alice") (ascii "bob") 6)).1 = fiveGold :=
  ⟨by decide +kernel, (refused_call_unchanged_iff Env.plain fiveGold _ (by decide +kernel)).2 rfl⟩

/-- **A refused call that is written to disk**: `bob` asks for a token of `alice`'s without an allowance,
and from then on has one of zero. -/
theorem refused_transferFrom_inserts :
    let op := StoreOp.transferFrom (ascii "Gold") (ascii "bob") (ascii "alice") (ascii "bob") 1
    (fiveGold.step Env.plain op).2 = false ∧
      (fiveGold.get (ascii "Gold")).map (·.hasAllowance (ascii "alice") (ascii "bob")) = some false ∧
      ((fiveGold.step Env.plain op).1.get (ascii "Gold")).map (·.hasAllowance (ascii "alice") (ascii "bob")) =
        some true ∧
      (fiveGold.step Env.plain op).1 ≠ fiveGold := by
  intro op
  have hbefore : (fiveGold.get (ascii "Gold")).map (·.hasAllowance (ascii "alice") (ascii "bob")) = some false := by
    decide +kernel
  have hafter : ((fiveGold.step Env.plain op).1.get (ascii "Gold")).map
      (·.hasAllowance (ascii "alice") (ascii "bob")) = some true := by
    decide +kernel
  refine ⟨by decide +kernel, hbefore, hafter, fun heq => ?_⟩
  rw [heq, hbefore] at hafter
  cases hafter

end TokenStore

end Electronero
