import Electronero.Token.OneToken
import Electronero.Lib.Run
/-!
# Deposits on integrated addresses (`token.cpp:56-71`, `:207-285`)

`transfer` raises the allowance of the base address by the deposited amount, so that the base wallet can fetch it.
`transfer_from`, `mint` and `create` do not, and the raise can wrap.
-/
namespace Electronero
open Text FiniteMap Machine

namespace TokenInfo

def Spendable (env : Env) (t : TokenInfo) : Prop :=
  ∀ i b, integratedBase env i = some b → (t.balance i).toNat ≤ (t.allowance i b).toNat

/-- A credit of `amount` leaves the balance of `i` within the allowance, or makes it wrap. -/
def Covered (t : TokenInfo) (i b : Bytes) (amount : UInt64) : Prop :=
  (t.balance i).toNat + amount.toNat ≤ (t.allowance i b).toNat ∨ 2 ^ 64 ≤ (t.balance i).toNat + amount.toNat

instance (t : TokenInfo) (i b : Bytes) (amount : UInt64) : Decidable (t.Covered i b amount) :=
  inferInstanceAs (Decidable (_ ∨ _))

variable {env : Env} {t t' : TokenInfo} {f d sp : Bytes} {amount : UInt64}

theorem spendable_iff_at (i : Bytes)
    (ho : ∀ j b, j ≠ i → integratedBase env j = some b → (t'.balance j).toNat ≤ (t'.allowance j b).toNat) :
    t'.Spendable env ↔ ∀ b ∈ integratedBase env i, (t'.balance i).toNat ≤ (t'.allowance i b).toNat := by
  constructor
  · intro h b hb
    exact h i b hb
  · intro h j b hb
    grind

theorem toNat_add_eq (a b : UInt64) :
    (a + b).toNat = if a.toNat + b.toNat < 2 ^ 64 then a.toNat + b.toNat else a.toNat + b.toNat - 2 ^ 64 := by
  have ha := a.toNat_lt
  have hb := b.toNat_lt
  rw [UInt64.toNat_add]
  split <;> omega

theorem allowance_transferred (o sp' : Bytes) : (t.transferred env f d amount).allowance o sp' =
    if o = d ∧ integratedBase env d = some sp' then t.allowance o sp' + amount else t.allowance o sp' := by
  unfold transferred
  cases hb : integratedBase env d with
  | none =>
    rw [if_neg (by simp)]
    rfl
  | some base =>
    refine (allowance_setAllowance (t.moved f d amount) d base _ o sp').trans ?_
    by_cases h : o = d ∧ sp' = base
    · obtain ⟨rfl, rfl⟩ := h
      simp
    · rw [if_neg h, if_neg (by simpa [eq_comm] using h)]
      rfl

theorem balance_moved_le (hs : t.short f amount = false) {j : Bytes} (hj : j ≠ d) :
    ((t.moved f d amount).balance j).toNat ≤ (t.balance j).toNat := by
  rw [balance_moved, if_neg hj]
  split
  · rename_i hf
    subst hf
    rw [UInt64.toNat_sub_of_le _ _ (UInt64.le_iff_toNat_le.2 (le_balance_of_short hs))]
    omega
  · exact Nat.le_refl _

theorem spendable_transferred_iff (h : t.Spendable env) (hs : t.short f amount = false) :
    (t.transferred env f d amount).Spendable env ↔ ∀ b ∈ integratedBase env d,
      (t.allowance d b).toNat + amount.toNat < 2 ^ 64 ∨ f ≠ d ∧ 2 ^ 64 ≤ (t.balance d).toNat + amount.toNat := by
  have hle := le_balance_of_short hs
  rw [spendable_iff_at d]
  · refine forall₂_congr fun b hb => ?_
    have hbal := h d b hb
    have hlt := (t.allowance d b).toNat_lt
    have hraised := (@allowance_transferred env t f d amount d b).trans (if_pos ⟨rfl, hb⟩)
    rw [balance_transferred, balance_moved, if_pos rfl, hraised, toNat_add_eq (t.allowance d b)]
    by_cases hf : d = f
    · grind
    · grind [toNat_add_eq]
  · intro j b hj hb
    rw [balance_transferred, allowance_transferred, if_neg fun e => hj e.1]
    exact (balance_moved_le hs hj).trans (h j b hb)

theorem spendable_spent_iff (h : t.Spendable env) (hc : t.covers sp f amount = true) :
    (t.spent sp f d amount).Spendable env ↔ ∀ b ∈ integratedBase env d,
      if f = d then sp = b → (t.balance d).toNat + amount.toNat ≤ (t.allowance d b).toNat else t.Covered d b amount := by
  simp only [covers, Bool.and_eq_true, Bool.not_eq_true', decide_eq_false_iff_not] at hc
  have hle := le_balance_of_short hc.2
  have hallow : ∀ o s', (t.spent sp f d amount).allowance o s' =
      if o = f ∧ s' = sp then t.allowance f sp - amount else t.allowance o s' :=
    fun o s' => allowance_setAllowance t f sp _ o s'
  have hsub : (t.allowance f sp - amount).toNat + amount.toNat = (t.allowance f sp).toNat := by
    have := UInt64.le_iff_toNat_le.1 (UInt64.not_lt.1 hc.1)
    simp_all
  have hbalance : ∀ j, (t.spent sp f d amount).balance j = (t.moved f d amount).balance j := fun _ => by
    rw [balance_moved]
    exact balance_moved _ f d amount _
  rw [spendable_iff_at d]
  · refine forall₂_congr fun b hb => ?_
    have hbal := h d b hb
    have hamount := amount.toNat_lt
    rw [hbalance, balance_moved, if_pos rfl, hallow]
    by_cases hf : d = f
    · grind
    · grind [toNat_add_eq, Covered]
  · intro j b hj hb
    have hbal := h j b hb
    rw [hbalance, hallow]
    have hm := @balance_moved_le t f d amount hc.2 j hj
    by_cases hjf : j = f ∧ b = sp
    · obtain ⟨rfl, rfl⟩ := hjf
      rw [if_pos ⟨rfl, rfl⟩, balance_moved, if_neg hj, if_pos rfl,
        UInt64.toNat_sub_of_le _ _ (UInt64.le_iff_toNat_le.2 hle)]
      omega
    · rw [if_neg hjf]
      omega

end TokenInfo

namespace StoreOp

def approvesIntegrated (env : Env) : StoreOp → Bool
  | approve _ owner _ _ _ => (integratedBase env owner).isSome
  | _ => false

/-- What the credits of the call need so that every integrated address stays spendable; `t` is the token
it works on, for `create` what stands under the name before. -/
def CoveredOn (env : Env) (t : TokenInfo) : StoreOp → Prop
  | create _ _ supply creator _ _ _ =>
    ∀ b ∈ integratedBase env creator, supply.toNat ≤ (t.allowance creator b).toNat
  | transfer _ f d amount | transferByAddress _ f d amount => t.admitsTransfer f d amount = true →
    ∀ b ∈ integratedBase env d, (t.allowance d b).toNat + amount.toNat < 2 ^ 64 ∨
      f ≠ d ∧ 2 ^ 64 ≤ (t.balance d).toNat + amount.toNat
  | transferFrom _ sp f d amount | transferFromByAddress _ sp f d amount =>
    t.admitsSpender sp f d = true → t.covers sp f amount = true → ∀ b ∈ integratedBase env d,
      if f = d then sp = b → (t.balance d).toNat + amount.toNat ≤ (t.allowance d b).toNat else t.Covered d b amount
  | mint _ creator amount => t.creator = creator → creator ∉ t.frozenAccounts →
    ∀ b ∈ integratedBase env creator, t.Covered creator b amount
  | _ => True

instance (env : Env) (t : TokenInfo) (op : StoreOp) : Decidable (op.CoveredOn env t) := by
  cases op <;> unfold CoveredOn <;> infer_instance

variable {env : Env} {t : TokenInfo} {op : StoreOp}

open TokenInfo in
theorem spendable_onToken_iff (h : t.Spendable env) (hc : op.isCreate = false)
    (hp : op.approvesIntegrated env = false) : (op.onToken env t).1.Spendable env ↔ op.CoveredOn env t := by
  cases op with
  | create => simp [isCreate] at hc
  | transfer name f d amount | transferByAddress address f d amount =>
    simp only [onToken, onTransfer, CoveredOn]
    split
    · rename_i ha
      have hs : t.short f amount = false := by
        simp only [admitsTransfer, Bool.and_eq_true, Bool.not_eq_true'] at ha
        exact ha.2
      rw [ha, spendable_transferred_iff h hs]
      simp
    · simp [*]
  | transferFrom name sp f d amount | transferFromByAddress address sp f d amount =>
    simp only [onToken, onTransferFrom, CoveredOn]
    split
    · split
      · grind [spendable_spent_iff]
      · -- reading the allowance does not change it
        have hprobed : (t.probed sp f).Spendable env := by
          intro i b hb
          have hallow : (t.probed sp f).allowance i b = t.allowance i b := by
            refine (allowance_setAllowance t f sp _ i b).trans ?_
            grind
          rw [hallow]
          exact h i b hb
        simp [*]
    · simp [*]
  | approve name owner spender amount caller =>
    simp only [onToken, CoveredOn]
    have hnone : integratedBase env owner = none := by simpa [approvesIntegrated] using hp
    split
    · refine iff_of_true ?_ trivial
      intro i b hb
      have hne : i ≠ owner := by
        rintro rfl
        rw [hnone] at hb
        cases hb
      rw [allowance_setAllowance, if_neg fun e => hne e.1]
      exact h i b hb
    · exact iff_of_true h trivial
  | burn address owner amount =>
    simp only [onToken, CoveredOn]
    split
    · rename_i hs
      refine iff_of_true ?_ trivial
      intro i b hb
      have hle := le_balance_of_short hs.2
      have hbal : TokenInfo.balance { t.debit owner amount with totalSupply := t.totalSupply - amount } i =
          if i = owner then t.balance owner - amount else t.balance i := balance_debit t owner i amount
      have hi := h i b hb
      rw [hbal]
      split
      · rename_i e
        subst e
        rw [UInt64.toNat_sub_of_le _ _ (UInt64.le_iff_toNat_le.2 hle)]
        exact (Nat.sub_le _ _).trans hi
      · exact hi
    · exact iff_of_true h trivial
  | mint address creator amount =>
    simp only [onToken, CoveredOn]
    have hbal : ∀ i, TokenInfo.balance { t.credit creator amount with totalSupply := t.totalSupply + amount } i =
        if i = creator then t.balance creator + amount else t.balance i := fun i => balance_credit t creator i amount
    split
    · rename_i hok
      rw [spendable_iff_at creator]
      · simp only [hok.1, hok.2, not_false_iff, true_imp_iff]
        refine forall₂_congr fun b hb => ?_
        have hi := h creator b hb
        have hamount := amount.toNat_lt
        rw [hbal, if_pos rfl, toNat_add_eq]
        unfold Covered
        show _ ≤ (t.allowance creator b).toNat ↔ _
        split <;> omega
      · intro j b hj hb
        rw [hbal, if_neg hj]
        exact h j b hb
    · grind
  | _ =>
    simp only [onToken, onAdminister, CoveredOn]
    split <;> exact iff_of_true h trivial

end StoreOp

namespace TokenStore
variable {env : Env} {s : TokenStore} {op : StoreOp}

def Spendable (env : Env) (s : TokenStore) : Prop := ∀ n t, s.get n = some t → t.Spendable env

def CoversDeposits (env : Env) (s : TokenStore) (op : StoreOp) : Prop :=
  match op with
  | .create name .. => op.CoveredOn env (getD s.tokens name TokenInfo.empty)
  | _ => ∀ t ∈ s.found op, op.CoveredOn env t

instance (env : Env) (s : TokenStore) (op : StoreOp) : Decidable (s.CoversDeposits env op) := by
  cases op <;> unfold CoversDeposits <;> infer_instance

theorem spendable_empty (env : Env) : TokenStore.empty.Spendable env := by
  intro n t hg
  simp [get, TokenStore.empty] at hg

theorem spendable_create_iff (h : s.Spendable env) {name symbol creator address : Bytes} {supply fee nonce : UInt64} :
    (s.create env name symbol supply creator fee address nonce).Spendable env ↔
      s.CoversDeposits env (.create name symbol supply creator fee address nonce) := by
  let old := getD s.tokens name TokenInfo.empty
  let new := s.createdToken env name symbol supply creator fee address nonce
  have hold : old.Spendable env := by
    cases hg : s.get name with
    | some t =>
      rw [show old = t from getD_of_lookup hg]
      exact h name t hg
    | none =>
      have hempty : old = TokenInfo.empty := by
        have hg' : s.tokens.lookup name = none := hg
        simp [old, getD, hg']
      rw [hempty]
      exact fun i b _ => Nat.zero_le _
  have hbal : ∀ i, new.balance i = if i = creator then supply else old.balance i := fun i => getD_insert _ _ _ _ _
  have hnew : new.Spendable env ↔ ∀ b ∈ integratedBase env creator, supply.toNat ≤ (old.allowance creator b).toNat := by
    rw [TokenInfo.spendable_iff_at creator]
    · rw [hbal, if_pos rfl]
      rfl
    · intro j b hj hb
      rw [hbal, if_neg hj]
      exact hold j b hb
  refine Iff.trans ?_ hnew
  constructor
  · intro h'
    exact h' name new ((get_create ..).trans (if_pos rfl))
  · intro h' n t hg
    rw [get_create] at hg
    split at hg
    · obtain rfl := Option.some.inj hg
      exact h'
    · exact h n t hg

theorem spendable_step_iff (h : s.Spendable env) (hp : op.approvesIntegrated env = false) :
    (after env s op).Spendable env ↔ s.CoversDeposits env op := by
  cases hc : op.isCreate with
  | true =>
    cases op with
    | create name symbol supply creator fee address nonce => exact spendable_create_iff h
    | _ => cases hc
  | false =>
    have hcond : s.CoversDeposits env op ↔ ∀ t ∈ s.found op, op.CoveredOn env t := by
      cases op with
      | create => cases hc
      | _ => rfl
    rw [hcond]
    constructor
    · intro h' t ht
      obtain ⟨n, hslot, hg⟩ := Option.bind_eq_some_iff.1 ht
      refine (StoreOp.spendable_onToken_iff (h n t hg) hc hp).1 (h' n _ ?_)
      unfold after
      rw [get_step hc, if_pos hslot, hg]
      rfl
    · intro h' n t hg
      unfold after at hg
      rw [get_step hc] at hg
      split at hg
      · rename_i hslot
        obtain ⟨u, hu, rfl⟩ := Option.map_eq_some_iff.1 hg
        refine (StoreOp.spendable_onToken_iff (h n u hu) hc hp).2 (h' u ?_)
        show (op.slot s).bind s.get = some u
        rw [hslot]
        exact hu
      · exact h n t hg

theorem transferFrom_all {n i b d : Bytes} {t : TokenInfo} (h : t.Spendable env) (hg : s.get n = some t)
    (hb : integratedBase env i = some b) (hentry : (t.balances.lookup i).isSome) (hpaused : t.paused = false)
    (hfrozen : b ∉ t.frozenAccounts ∧ i ∉ t.frozenAccounts ∧ d ∉ t.frozenAccounts) :
    (s.transferFrom n b i d (t.balance i)).2 = true := by
  have hallow : ¬ t.allowance i b < t.balance i := by
    rw [UInt64.lt_iff_toNat_lt]
    exact Nat.not_lt.2 (h i b hb)
  have hshort : (t.setAllowance i b (t.allowance i b)).short i (t.balance i) = false := by
    obtain ⟨x, hx⟩ := Option.isSome_iff_exists.1 hentry
    refine TokenInfo.short_eq_false.2 ⟨?_, UInt64.le_refl _⟩
    show t.balances.lookup i = some (getD t.balances i 0)
    rw [hx, getD_of_lookup hx]
  grind [transferFrom, transferFromAt, withToken]

/-- **Deposits on integrated addresses stay spendable** exactly if every call of the run covers the deposits it makes. -/
theorem deposits_spendable_iff (env : Env) (s : TokenStore) (ops : List StoreOp) (hs : s.Spendable env)
    (hp : ∀ op ∈ ops, op.approvesIntegrated env = false) :
    (Always (after env) (Spendable env) s ops ↔ Meets (after env) (fun s op => s.CoversDeposits env op) s ops) ∧
    (Meets (after env) (fun s op => s.CoversDeposits env op) s ops → ∀ n t i b d,
      (run (after env) s ops).get n = some t → integratedBase env i = some b → (t.balances.lookup i).isSome →
      t.paused = false → (b ∉ t.frozenAccounts ∧ i ∉ t.frozenAccounts ∧ d ∉ t.frozenAccounts) →
      ((run (after env) s ops).transferFrom n b i d (t.balance i)).2 = true) := by
  have hiff : Always (after env) (Spendable env) s ops ↔
      Meets (after env) (fun s op => s.CoversDeposits env op) s ops := by
    induction ops generalizing s with
    | nil => exact iff_of_true hs trivial
    | cons op ops ih =>
      have hop := spendable_step_iff hs (hp op List.mem_cons_self)
      have hrest : ∀ o ∈ ops, o.approvesIntegrated env = false := fun o ho => hp o (List.mem_cons_of_mem _ ho)
      constructor
      · rintro ⟨-, h⟩
        exact ⟨hop.1 h.head, (ih _ h.head hrest).1 h⟩
      · rintro ⟨hc, h⟩
        exact ⟨hs, (ih _ (hop.2 hc) hrest).2 h⟩
  refine ⟨hiff, fun hm n t i b d hg hb hentry hpaused hfrozen => ?_⟩
  have hlast : (run (after env) s ops).Spendable env := always_iff_initial.1 (hiff.2 hm) ops (List.prefix_refl _)
  exact transferFrom_all (hlast n t hg) hg hb hentry hpaused hfrozen

section Example

def integratedEnv : Env :=
  { Env.plain with getAccountAddressFromStr := fun _ str =>
      if str.head? = some 105 then
        (Env.plainParse (Env.plainTag false :: str.tail)).map fun info => { info with hasPaymentId := true }
      else Env.plainParse str }

def integratedAddress (k : UInt8) : Bytes := 105 :: (Env.plainAddress k).tail

def createGold : StoreOp := .create (ascii "Gold") (ascii "GLD") 10 (Env.plainAddress 1) 0 (ascii "cEVM1") 0

theorem transfer_deposit_spendable :
    let ops := [createGold, .transfer (ascii "Gold") (Env.plainAddress 1) (integratedAddress 2) 4]
    let s := run (after integratedEnv) empty ops
    s.balanceOf (ascii "Gold") (integratedAddress 2) = 4 ∧
    (s.transferFrom (ascii "Gold") (Env.plainAddress 2) (integratedAddress 2) (Env.plainAddress 2) 4).2 = true := by
  intro ops s
  have hrun : Meets (after integratedEnv) (fun s op => s.CoversDeposits integratedEnv op) empty ops ∧
      integratedBase integratedEnv (integratedAddress 2) = some (Env.plainAddress 2) ∧
      (s.get (ascii "Gold")).map (fun t => (t.balance (integratedAddress 2), (t.balances.lookup (integratedAddress 2)).isSome,
        t.paused, t.frozenAccounts)) = some (4, true, false, ∅) := by decide +kernel
  obtain ⟨hm, hb, hs⟩ := hrun
  obtain ⟨t, hg, ht⟩ := Option.map_eq_some_iff.1 hs
  have hbal : t.balance (integratedAddress 2) = 4 := congrArg (·.1) ht
  have hentry := congrArg (·.2.1) ht
  have hpaused : t.paused = false := congrArg (·.2.2.1) ht
  have hfrozen : t.frozenAccounts = ∅ := congrArg (·.2.2.2) ht
  refine ⟨by rw [balanceOf, hg]; exact hbal, ?_⟩
  have h := (deposits_spendable_iff integratedEnv empty ops (spendable_empty _) (by decide +kernel)).2 hm (ascii "Gold") t
    (integratedAddress 2) (Env.plainAddress 2) (Env.plainAddress 2) hg hb hentry hpaused (by simp [hfrozen])
  rwa [hbal] at h

theorem transferFrom_deposit_stuck :
    let ops := [createGold, .approve (ascii "Gold") (Env.plainAddress 1) (Env.plainAddress 3) 4 (Env.plainAddress 1),
      .transferFrom (ascii "Gold") (Env.plainAddress 3) (Env.plainAddress 1) (integratedAddress 2) 4]
    let s := run (after integratedEnv) empty ops
    (∀ op ∈ ops, op.approvesIntegrated integratedEnv = false) ∧
    integratedBase integratedEnv (integratedAddress 2) = some (Env.plainAddress 2) ∧
    s.balanceOf (ascii "Gold") (integratedAddress 2) = 4 ∧
    s.allowanceOf (ascii "Gold") (integratedAddress 2) (Env.plainAddress 2) = 0 ∧
    (s.transferFrom (ascii "Gold") (Env.plainAddress 2) (integratedAddress 2) (Env.plainAddress 2) 4).2 = false := by
  decide +kernel

end Example

end TokenStore

end Electronero
