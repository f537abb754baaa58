import Mathlib.Data.UInt
import Electronero.Token.Effects
/-!
# Supply conservation

`Conserving`: in every token the balances, as natural numbers, add up to the total supply. `mint` adds without a check.
-/
namespace Electronero
open Text FiniteMap

inductive Arith where
  | add (a b : UInt64)
  | sub (a b : UInt64)
deriving DecidableEq

def Arith.Exact : Arith → Prop
  | add a b => a.toNat + b.toNat < 2 ^ 64
  | sub a b => b.toNat ≤ a.toNat

instance : DecidablePred Arith.Exact := fun a => by cases a <;> unfold Arith.Exact <;> infer_instance

def TokenInfo.moveArith (t : TokenInfo) (fromAcc toAcc : Bytes) (amount : UInt64) : List Arith :=
  [.sub (t.balance fromAcc) amount, .add ((t.debit fromAcc amount).balance toAcc) amount]

namespace StoreOp

def slot (s : TokenStore) : StoreOp → Option Bytes
  | create name .. => some name
  | transfer name .. => some name
  | transferByAddress address .. => s.addressIndex.lookup address
  | approve name .. => some name
  | transferFrom name .. => some name
  | transferFromByAddress address .. => s.addressIndex.lookup address
  | burn address .. => s.addressIndex.lookup address
  | mint address .. => s.addressIndex.lookup address
  | setCreatorFee address .. => s.addressIndex.lookup address
  | lockCreatorFee address .. => s.addressIndex.lookup address
  | setPaused address .. => s.addressIndex.lookup address
  | setFrozen address .. => s.addressIndex.lookup address
  | transferOwnership address .. => s.addressIndex.lookup address

/-- The additions and subtractions on balances and total supply a successful call makes on its
token, in the order of the source. -/
def arithOn (t : TokenInfo) : StoreOp → List Arith
  | transfer _ f d amount => t.moveArith f d amount
  | transferByAddress _ f d amount => t.moveArith f d amount
  | transferFrom _ _ f d amount => t.moveArith f d amount
  | transferFromByAddress _ _ f d amount => t.moveArith f d amount
  | burn _ owner amount => [.sub (t.balance owner) amount, .sub t.totalSupply amount]
  | mint _ creator amount => [.add t.totalSupply amount, .add (t.balance creator) amount]
  | _ => []

def arith (env : Env) (s : TokenStore) (op : StoreOp) : List Arith :=
  match (op.slot s).bind s.get with
  | none => []
  | some t => if (s.step env op).2 then op.arithOn t else []

end StoreOp

namespace TokenInfo

def Conserving (t : TokenInfo) : Prop := total UInt64.toNat t.balances = t.totalSupply.toNat

instance (t : TokenInfo) : Decidable t.Conserving := inferInstanceAs (Decidable (_ = _))

variable {t : TokenInfo} {acc acc' : Bytes} {amount : UInt64}

theorem balance_toNat (t : TokenInfo) (acc : Bytes) :
    ((t.balances.lookup acc).map UInt64.toNat).getD 0 = (t.balance acc).toNat := by
  unfold balance getD
  cases t.balances.lookup acc <;> rfl

theorem balance_le_supply (h : t.Conserving) (acc : Bytes) : (t.balance acc).toNat ≤ t.totalSupply.toNat := by
  have hle := le_total UInt64.toNat t.balances acc
  rwa [balance_toNat, h] at hle

theorem balance_add_le_supply (h : t.Conserving) (hne : acc' ≠ acc) :
    (t.balance acc).toNat + (t.balance acc').toNat ≤ t.totalSupply.toNat := by
  have hle := add_le_total UInt64.toNat t.balances hne
  rwa [balance_toNat, balance_toNat, h] at hle

theorem le_balance_of_short (h : t.short acc amount = false) : amount.toNat ≤ (t.balance acc).toNat :=
  UInt64.le_iff_toNat_le.1 (short_eq_false.1 h).2

theorem total_debit (h : t.short acc amount = false) :
    total UInt64.toNat (t.debit acc amount).balances + amount.toNat = total UInt64.toNat t.balances := by
  have hins := total_insert UInt64.toNat t.balances acc (t.balance acc - amount)
  have hle := le_balance_of_short h
  rw [balance_toNat, UInt64.toNat_sub_of_le _ _ (UInt64.le_iff_toNat_le.2 hle)] at hins
  show total UInt64.toNat (t.balances.insert acc (t.balance acc - amount)) + amount.toNat = _
  omega

theorem total_credit (h : (t.balance acc).toNat + amount.toNat < 2 ^ 64) :
    total UInt64.toNat (t.credit acc amount).balances = total UInt64.toNat t.balances + amount.toNat := by
  have hins := total_insert UInt64.toNat t.balances acc (t.balance acc + amount)
  rw [balance_toNat, UInt64.toNat_add, Nat.mod_eq_of_lt h] at hins
  show total UInt64.toNat (t.balances.insert acc (t.balance acc + amount)) = _
  omega

theorem credit_after_debit_fits (h : t.Conserving) (hs : t.short acc amount = false) (acc' : Bytes) :
    ((t.debit acc amount).balance acc').toNat + amount.toNat < 2 ^ 64 := by
  have hle := le_balance_of_short hs
  have hlt := t.totalSupply.toNat_lt
  rw [balance_debit]
  by_cases hacc : acc' = acc
  · have hbal := balance_le_supply h acc
    rw [if_pos hacc, UInt64.toNat_sub_of_le _ _ (UInt64.le_iff_toNat_le.2 hle)]
    omega
  · have hsum := balance_add_le_supply h hacc
    rw [if_neg hacc]
    omega

theorem moveArith_exact (h : t.Conserving) (hs : t.short acc amount = false) :
    ∀ a ∈ t.moveArith acc acc' amount, a.Exact := by
  intro a ha
  simp only [moveArith, List.mem_cons, List.not_mem_nil, or_false] at ha
  rcases ha with rfl | rfl
  · exact le_balance_of_short hs
  · exact credit_after_debit_fits h hs acc'

end TokenInfo

theorem Change.conserving {t : TokenInfo} {c : Change} (h : t.Conserving) (hf : c.Fits t) (hm : c.isMint = false) :
    (c.apply t).Conserving := by
  cases c with
  | allowances al => exact h
  | admin fee locked paused frozen => exact h
  | mint creator amount => simp [Change.isMint] at hm
  | move f d amount al =>
    have hd := TokenInfo.total_debit hf
    have hc := TokenInfo.total_credit (TokenInfo.credit_after_debit_fits h hf d)
    show total UInt64.toNat ((t.debit f amount).credit d amount).balances = t.totalSupply.toNat
    rw [hc, hd]
    exact h
  | burn owner amount =>
    have hd := TokenInfo.total_debit hf
    have hle := (TokenInfo.le_balance_of_short hf).trans (TokenInfo.balance_le_supply h owner)
    show total UInt64.toNat (t.debit owner amount).balances = (t.totalSupply - amount).toNat
    rw [UInt64.toNat_sub_of_le _ _ (UInt64.le_iff_toNat_le.2 hle), ← h]
    omega

namespace TokenStore

def Conserving (s : TokenStore) : Prop := ∀ n t, s.get n = some t → t.Conserving

variable {env : Env} {s s' : TokenStore} {b : Bool}

variable {n f d address : Bytes} {t : TokenInfo} {slot : Option Bytes} {recAddr : TokenInfo → Bytes} {amount : UInt64}
  {op : StoreOp}

theorem conserving_write (h : s.Conserving) (ht : t.Conserving)
    (recs : List TokenTransferRecord) : (s.write n t recs).Conserving := by
  intro n' t' hg
  rw [get_write] at hg
  split at hg
  · obtain rfl := Option.some.inj hg
    exact ht
  · exact h n' t' hg

theorem balanceOf_write {t' : TokenInfo} {acc : Bytes} (hg : s.get n = some t)
    (hb : t'.balance acc = t.balance acc) (recs : List TokenTransferRecord) (n' : Bytes) :
    (s.write n t' recs).balanceOf n' acc = s.balanceOf n' acc := by
  unfold balanceOf
  grind [get_write]

theorem conserving_empty : TokenStore.empty.Conserving := by
  intro n t hg
  simp [get, TokenStore.empty] at hg

theorem conserving_create (h : s.Conserving) {name : Bytes} (hfresh : s.get name = none) (symbol : Bytes)
    (supply : UInt64) (creator : Bytes) (fee : UInt64) (address : Bytes) (nonce : UInt64) :
    (s.create env name symbol supply creator fee address nonce).Conserving := by
  intro n t hg
  have hold : getD s.tokens name TokenInfo.empty = TokenInfo.empty := by
    have hfresh' : s.tokens.lookup name = none := hfresh
    simp [getD, hfresh']
  rw [get_create] at hg
  split at hg
  · obtain rfl := Option.some.inj hg
    have hins := total_insert UInt64.toNat (∅ : UMap Bytes UInt64) creator supply
    rw [Finmap.lookup_empty, total_empty] at hins
    grind [TokenInfo.Conserving, createdToken, TokenInfo.empty]
  · exact h n t hg

theorem transferAt_short (ht : slot.bind s.get = some t) (h : (s.transferAt env slot recAddr f d amount).2 = true) :
    t.short f amount = false := by
  obtain ⟨n, rfl, hg⟩ := Option.bind_eq_some_iff.1 ht
  grind [transferAt, withToken]

theorem transferFromAt_short {sp : Bytes} (ht : slot.bind s.get = some t)
    (h : (s.transferFromAt slot recAddr sp f d amount).2 = true) : t.short f amount = false := by
  obtain ⟨n, rfl, hg⟩ := Option.bind_eq_some_iff.1 ht
  simp only [transferFromAt, withToken, hg] at h
  split at h
  · simp at h
  split at h
  · simp at h
  split at h
  · simp at h
  split at h
  · simp at h
  rename_i hs
  exact (Bool.not_eq_true _).mp hs

theorem burn_short {owner : Bytes}
    (ht : (s.addressIndex.lookup address).bind s.get = some t) (h : (s.burn address owner amount).2 = true) :
    t.short owner amount = false := by
  obtain ⟨n, hn, hg⟩ := Option.bind_eq_some_iff.1 ht
  simp only [burn, hn, withToken, hg] at h
  split at h
  · simp at h
  split at h
  · simp at h
  rename_i hs
  exact (Bool.not_eq_true _).mp hs

theorem arith_exact (hc : s.Conserving) (hm : op.isMint = false) : ∀ a ∈ op.arith env s, a.Exact := by
  intro a ha
  unfold StoreOp.arith at ha
  cases hslot : (op.slot s).bind s.get with
  | none => simp [hslot] at ha
  | some t =>
    obtain ⟨n, -, hg⟩ := Option.bind_eq_some_iff.1 hslot
    have ht : t.Conserving := hc n t hg
    cases hb : (s.step env op).2 with
    | false => simp [hslot, hb] at ha
    | true =>
      simp only [hslot, hb, if_true] at ha
      cases op with
      | mint => simp [StoreOp.isMint] at hm
      | transfer name f d amount => exact TokenInfo.moveArith_exact ht (transferAt_short hslot hb) a ha
      | transferByAddress address f d amount => exact TokenInfo.moveArith_exact ht (transferAt_short hslot hb) a ha
      | transferFrom name sp f d amount => exact TokenInfo.moveArith_exact ht (transferFromAt_short hslot hb) a ha
      | transferFromByAddress address sp f d amount =>
        exact TokenInfo.moveArith_exact ht (transferFromAt_short hslot hb) a ha
      | burn address owner amount =>
        have hle := TokenInfo.le_balance_of_short (burn_short hslot hb)
        simp only [StoreOp.arithOn, List.mem_cons, List.not_mem_nil, or_false] at ha
        rcases ha with rfl | rfl
        · exact hle
        · exact hle.trans (TokenInfo.balance_le_supply ht owner)
      | _ => simp [StoreOp.arithOn] at ha

theorem step_conserving (hc : s.Conserving) (hcr : op.isCreate = false) (hm : op.isMint = false)
    (h : s.step env op = (s', b)) :
    s'.Conserving ∧ ∀ acc ∉ op.accounts, ∀ n, s'.balanceOf n acc = s.balanceOf n acc := by
  cases hi : op.isIndexing with
  | false =>
    obtain rfl | ⟨c, ⟨n, t, recs, hg, hf, htouch, rfl⟩, hmint⟩ := step_change h hi
    · exact ⟨hc, fun _ _ _ => rfl⟩
    have hcm : c.isMint = false := by grind
    refine ⟨conserving_write hc (Change.conserving (hc n t hg) hf hcm) recs, fun acc hacc n' => ?_⟩
    exact balanceOf_write hg (Change.balance_apply t c fun hmem => hacc (htouch acc hmem)) recs n'
  | true =>
    cases op with
    | transferOwnership address creator newOwner =>
      obtain rfl | ⟨n, t, hg, -, rfl⟩ := transferOwnership_cases h
      · exact ⟨hc, fun _ _ _ => rfl⟩
      have ht : TokenInfo.Conserving { t with creator := newOwner } := hc n t hg
      have hbal : ∀ acc, TokenInfo.balance { t with creator := newOwner } acc = t.balance acc := fun _ => rfl
      exact ⟨conserving_write hc ht [], fun acc _ n' => balanceOf_write hg (hbal acc) [] n'⟩
    | create => simp [StoreOp.isCreate] at hcr
    | _ => simp [StoreOp.isIndexing] at hi

/-- **Supply conservation** for every call except `create` and `mint`. -/
theorem step_conserves (env : Env) (s : TokenStore) (op : StoreOp) (hc : s.Conserving)
    (hcr : op.isCreate = false) (hm : op.isMint = false) :
    (s.step env op).1.Conserving ∧ (∀ a ∈ op.arith env s, a.Exact) ∧
      ∀ acc ∉ op.accounts, ∀ n, (s.step env op).1.balanceOf n acc = s.balanceOf n acc := by
  obtain ⟨h1, h2⟩ := step_conserving hc hcr hm (show s.step env op = (_, _) from rfl)
  exact ⟨h1, arith_exact hc hm, h2⟩

theorem step_conserves_selfTransfer :
    let s := TokenStore.empty.create Env.plain (ascii "Gold") (ascii "GLD") (2 ^ 64 - 1) (ascii "alice") 0
      (ascii "cEVM1") 0
    let op := StoreOp.transfer (ascii "Gold") (ascii "alice") (ascii "alice") (2 ^ 64 - 1)
    s.Conserving ∧ (s.step Env.plain op).2 = true ∧
      ((s.step Env.plain op).1.Conserving ∧ (∀ a ∈ op.arith Env.plain s, a.Exact) ∧
        ∀ acc ∉ op.accounts, ∀ n, (s.step Env.plain op).1.balanceOf n acc = s.balanceOf n acc) := by
  intro s op
  have hc : s.Conserving := conserving_create conserving_empty rfl _ _ _ _ _ _
  exact ⟨hc, by decide +kernel, step_conserves Env.plain s op hc rfl rfl⟩

/-! ## Minting

`mint` adds to the supply and to the creator's balance without looking at either. -/

theorem mint_success {creator : Bytes} (h : (s.mint address creator amount).2 = true) :
    ∃ n t, s.addressIndex.lookup address = some n ∧ s.get n = some t ∧ t.creator = creator ∧
      (s.mint address creator amount).1 =
        s.write n ((Change.mint creator amount).apply t) [⟨address, [], creator, amount⟩] := by
  obtain ⟨n, t, hn, hg, hr⟩ := withToken_success h
  unfold mint at h ⊢
  rw [hr] at h ⊢
  split at h
  · cases h
  · rename_i hcr
    split at h
    · cases h
    · rename_i hfrozen
      rw [if_neg hcr, if_neg hfrozen]
      exact ⟨n, t, hn, hg, not_not.1 hcr, rfl⟩

theorem add_exact_iff (a b : UInt64) :
    ((a + b).toNat = a.toNat + b.toNat ↔ a.toNat + b.toNat < 2 ^ 64) ∧ (a ≤ a + b ↔ a.toNat + b.toNat < 2 ^ 64) := by
  have ha := a.toNat_lt
  have hb := b.toNat_lt
  rw [UInt64.le_iff_toNat_le, UInt64.toNat_add]
  omega

/-- **Minting is exact** exactly if the new supply is below `2^64`; otherwise the supply has decreased. -/
theorem mint_exact_iff (s : TokenStore) (hc : s.Conserving) (address creator : Bytes) (amount : UInt64)
    (h : (s.mint address creator amount).2 = true) :
    ∃ t t', s.getByAddress address = some t ∧ (s.mint address creator amount).1.getByAddress address = some t' ∧
      ((t'.totalSupply.toNat = t.totalSupply.toNat + amount.toNat ∧
          (t'.balance creator).toNat = (t.balance creator).toNat + amount.toNat) ↔
        t.totalSupply.toNat + amount.toNat < 2 ^ 64) ∧
      (t.totalSupply ≤ t'.totalSupply ↔ t.totalSupply.toNat + amount.toNat < 2 ^ 64) ∧
      (t.totalSupply.toNat + amount.toNat < 2 ^ 64 → (s.mint address creator amount).1.Conserving) := by
  obtain ⟨n, t, hn, hg, -, hs'⟩ := mint_success h
  have ht := hc n t hg
  have hle := TokenInfo.balance_le_supply ht creator
  obtain ⟨hsupply, hgrows⟩ := add_exact_iff t.totalSupply amount
  have hbalance : ((Change.mint creator amount).apply t).balance creator = t.balance creator + amount := by
    have := TokenInfo.balance_credit t creator creator amount
    rwa [if_pos rfl] at this
  rw [hs']
  refine ⟨t, (Change.mint creator amount).apply t, ?_, ?_, ?_, hgrows, fun hfits => ?_⟩
  · simp [getByAddress, hn, hg]
  · have hindex : (s.write n ((Change.mint creator amount).apply t) [⟨address, [], creator, amount⟩]).addressIndex =
        s.addressIndex := rfl
    simp [getByAddress, hindex, hn, get_write]
  · rw [hbalance]
    refine ⟨fun hexact => hsupply.1 hexact.1, fun hfits => ⟨hsupply.2 hfits, ?_⟩⟩
    exact (add_exact_iff (t.balance creator) amount).1.2 (by omega)
  · refine conserving_write hc ?_ _
    have hcredit : total UInt64.toNat (t.credit creator amount).balances = total UInt64.toNat t.balances + amount.toNat :=
      TokenInfo.total_credit (by omega)
    show total UInt64.toNat (t.credit creator amount).balances = (t.totalSupply + amount).toNat
    rw [hcredit, hsupply.2 hfits, ht]

def fiveGold : TokenStore :=
  TokenStore.empty.create Env.plain (ascii "Gold") (ascii "GLD") 5 (ascii "alice") 0 (ascii "cEVM1") 0

theorem fiveGold_conserving : fiveGold.Conserving := conserving_create conserving_empty rfl _ _ _ _ _ _

theorem mint_exact_fiveGold : (fiveGold.mint (ascii "cEVM1") (ascii "alice") 7).2 = true ∧
      ∃ t t', fiveGold.getByAddress (ascii "cEVM1") = some t ∧
        (fiveGold.mint (ascii "cEVM1") (ascii "alice") 7).1.getByAddress (ascii "cEVM1") = some t' ∧
        ((t'.totalSupply.toNat = t.totalSupply.toNat + 7 ∧
            (t'.balance (ascii "alice")).toNat = (t.balance (ascii "alice")).toNat + 7) ↔
          t.totalSupply.toNat + 7 < 2 ^ 64) ∧
        (t.totalSupply ≤ t'.totalSupply ↔ t.totalSupply.toNat + 7 < 2 ^ 64) ∧
        (t.totalSupply.toNat + 7 < 2 ^ 64 → (fiveGold.mint (ascii "cEVM1") (ascii "alice") 7).1.Conserving) :=
  ⟨by decide +kernel, mint_exact_iff fiveGold fiveGold_conserving _ _ 7 (by decide +kernel)⟩

/-- **A mint that takes one token away**: the daemon reads the amount `-1` as `2^64 - 1`. -/
theorem mint_minus_one_wraps : fiveGold.Conserving ∧ stoull (ascii "-1") = .ok (2 ^ 64 - 1) ∧
      (fiveGold.mint (ascii "cEVM1") (ascii "alice") (2 ^ 64 - 1)).2 = true ∧
      fiveGold.totalSupplyOf (ascii "Gold") = 5 ∧
      (fiveGold.mint (ascii "cEVM1") (ascii "alice") (2 ^ 64 - 1)).1.totalSupplyOf (ascii "Gold") = 4 ∧
      (fiveGold.mint (ascii "cEVM1") (ascii "alice") (2 ^ 64 - 1)).1.balanceOf (ascii "Gold") (ascii "alice") = 4 :=
  ⟨fiveGold_conserving, by decide +kernel, by decide +kernel, by decide +kernel, by decide +kernel, by decide +kernel⟩

end TokenStore

end Electronero
