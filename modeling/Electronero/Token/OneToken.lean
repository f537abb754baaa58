import Electronero.Token.Supply
/-!
# A call seen from the token it works on

Every call except `create` finds one token (`StoreOp.slot`) and replaces it by a function of that token alone.
-/
namespace Electronero
open Text FiniteMap

namespace TokenInfo
variable (t : TokenInfo)

def admitsTransfer (fromAcc toAcc : Bytes) (amount : UInt64) : Bool :=
  !t.paused && !decide (fromAcc ∈ t.frozenAccounts ∨ toAcc ∈ t.frozenAccounts) && !t.short fromAcc amount

def admitsSpender (spender fromAcc toAcc : Bytes) : Bool :=
  !t.paused && !decide (spender ∈ t.frozenAccounts ∨ fromAcc ∈ t.frozenAccounts ∨ toAcc ∈ t.frozenAccounts)

def covers (spender fromAcc : Bytes) (amount : UInt64) : Bool :=
  !decide (t.allowance fromAcc spender < amount) && !t.short fromAcc amount

def moved (fromAcc toAcc : Bytes) (amount : UInt64) : TokenInfo := (t.debit fromAcc amount).credit toAcc amount

def transferred (env : Env) (fromAcc toAcc : Bytes) (amount : UInt64) : TokenInfo :=
  match integratedBase env toAcc with
  | some base => (t.moved fromAcc toAcc amount).setAllowance toAcc base (t.allowance toAcc base + amount)
  | none => t.moved fromAcc toAcc amount

/-- What `allowances[from][spender]` leaves behind when it is only read. -/
def probed (spender fromAcc : Bytes) : TokenInfo := t.setAllowance fromAcc spender (t.allowance fromAcc spender)

def spent (spender fromAcc toAcc : Bytes) (amount : UInt64) : TokenInfo :=
  (t.setAllowance fromAcc spender (t.allowance fromAcc spender - amount)).moved fromAcc toAcc amount

theorem allowance_setAllowance (owner spender : Bytes) (amount : UInt64) (owner' spender' : Bytes) :
    (t.setAllowance owner spender amount).allowance owner' spender' =
      if owner' = owner ∧ spender' = spender then amount else t.allowance owner' spender' := by
  unfold setAllowance allowance
  grind [getD_insert]

theorem balance_moved (fromAcc toAcc : Bytes) (amount : UInt64) (acc : Bytes) :
    (t.moved fromAcc toAcc amount).balance acc =
      if acc = toAcc then (if toAcc = fromAcc then t.balance acc else t.balance acc + amount)
      else if acc = fromAcc then t.balance acc - amount else t.balance acc := by
  unfold moved
  rw [balance_credit, balance_debit, balance_debit]
  by_cases hd : acc = toAcc
  · grind
  · grind

theorem balance_transferred (env : Env) (fromAcc toAcc : Bytes) (amount : UInt64) (acc : Bytes) :
    (t.transferred env fromAcc toAcc amount).balance acc = (t.moved fromAcc toAcc amount).balance acc := by
  unfold transferred
  cases integratedBase env toAcc <;> rfl

def onTransfer (env : Env) (address fromAcc toAcc : Bytes) (amount : UInt64) : TokenInfo × List TokenTransferRecord :=
  if t.admitsTransfer fromAcc toAcc amount then
    (t.transferred env fromAcc toAcc amount, [⟨address, fromAcc, toAcc, amount⟩])
  else (t, [])

def onTransferFrom (address spender fromAcc toAcc : Bytes) (amount : UInt64) : TokenInfo × List TokenTransferRecord :=
  if t.admitsSpender spender fromAcc toAcc then
    if t.covers spender fromAcc amount then
      (t.spent spender fromAcc toAcc amount, [⟨address, fromAcc, toAcc, amount⟩])
    else (t.probed spender fromAcc, [])
  else (t, [])

def onAdminister (refused : Bool) (edited : TokenInfo) : TokenInfo × List TokenTransferRecord :=
  if refused then (t, []) else (edited, [])

end TokenInfo

namespace StoreOp

def onToken (env : Env) (t : TokenInfo) : StoreOp → TokenInfo × List TokenTransferRecord
  | create .. => (t, [])
  | transfer _ f d amount => t.onTransfer env t.address f d amount
  | transferByAddress address f d amount => t.onTransfer env address f d amount
  | approve _ owner spender amount caller =>
    if caller = owner ∧ (t.balances.lookup owner).isSome then (t.setAllowance owner spender amount, []) else (t, [])
  | transferFrom _ sp f d amount => t.onTransferFrom t.address sp f d amount
  | transferFromByAddress address sp f d amount => t.onTransferFrom address sp f d amount
  | burn address owner amount =>
    if owner ∉ t.frozenAccounts ∧ t.short owner amount = false then
      ({ t.debit owner amount with totalSupply := t.totalSupply - amount }, [⟨address, owner, [], amount⟩])
    else (t, [])
  | mint address creator amount =>
    if t.creator = creator ∧ creator ∉ t.frozenAccounts then
      ({ t.credit creator amount with totalSupply := t.totalSupply + amount }, [⟨address, [], creator, amount⟩])
    else (t, [])
  | setCreatorFee _ creator fee =>
    t.onAdminister (t.creator ≠ creator || t.creatorFeeLocked) { t with creatorFee := fee }
  | lockCreatorFee _ creator =>
    t.onAdminister (t.creator ≠ creator || t.creatorFeeLocked) { t with creatorFeeLocked := true }
  | setPaused _ creator p => t.onAdminister (t.creator ≠ creator) { t with paused := p }
  | setFrozen _ creator account f => t.onAdminister (creator ≠ governanceWalletAddress)
      { t with frozenAccounts := if f then insert account t.frozenAccounts else t.frozenAccounts.erase account }
  | transferOwnership _ creator newOwner => t.onAdminister (t.creator ≠ creator) { t with creator := newOwner }

end StoreOp

namespace TokenStore
variable {env : Env} {s : TokenStore} {n : Bytes} {t : TokenInfo}

theorem write_self (hg : s.get n = some t) : s.write n t [] = s := by
  rw [← put_eq_write]
  exact put_eq_self_iff.2 hg

def SameBooks (s s' : TokenStore) : Prop :=
  s'.tokens = s.tokens ∧ s'.transferHistory = s.transferHistory ∧ s'.addressIndex = s.addressIndex

theorem sameBooks_of_eq {s' : TokenStore} (h : s' = s) : SameBooks s s' := by
  subst h
  exact ⟨rfl, rfl, rfl⟩

theorem sameBooks_self (hg : s.get n = some t) : SameBooks (s.write n t []) s := by
  rw [write_self hg]
  exact ⟨rfl, rfl, rfl⟩

theorem transferAt_found (hg : s.get n = some t) (recAddr : TokenInfo → Bytes) (f d : Bytes) (amount : UInt64) :
    SameBooks (s.write n (t.onTransfer env (recAddr t) f d amount).1 (t.onTransfer env (recAddr t) f d amount).2)
      (s.transferAt env (some n) recAddr f d amount).1 := by
  have hself := sameBooks_self hg
  simp only [transferAt, withToken, hg]
  unfold TokenInfo.onTransfer TokenInfo.admitsTransfer
  by_cases hp : t.paused = true
  · simpa [hp] using hself
  by_cases hf : f ∈ t.frozenAccounts ∨ d ∈ t.frozenAccounts
  · simpa [hf] using hself
  by_cases hs : t.short f amount = true
  · simpa [hs] using hself
  rw [if_neg hp, if_neg hf, if_neg hs, if_pos (by simp [hp, hf, hs])]
  unfold TokenInfo.transferred
  cases integratedBase env d <;> exact ⟨rfl, rfl, rfl⟩

theorem transferFromAt_found (hg : s.get n = some t) (recAddr : TokenInfo → Bytes) (sp f d : Bytes) (amount : UInt64)
    (hr : recAddr (t.probed sp f) = recAddr t) :
    SameBooks (s.write n (t.onTransferFrom (recAddr t) sp f d amount).1 (t.onTransferFrom (recAddr t) sp f d amount).2)
      (s.transferFromAt (some n) recAddr sp f d amount).1 := by
  have hself := sameBooks_self hg
  have hprobed : SameBooks (s.write n (t.probed sp f) []) (s.put n (t.probed sp f)) :=
    sameBooks_of_eq (put_eq_write _ _ _)
  simp only [transferFromAt, withToken, hg]
  unfold TokenInfo.onTransferFrom
  by_cases hp : t.paused = true
  · simpa [TokenInfo.admitsSpender, hp] using hself
  by_cases hf : sp ∈ t.frozenAccounts ∨ f ∈ t.frozenAccounts ∨ d ∈ t.frozenAccounts
  · simpa [TokenInfo.admitsSpender, hf] using hself
  have hadmits : t.admitsSpender sp f d = true := by simp [TokenInfo.admitsSpender, hp, hf]
  have hshort : (t.setAllowance f sp (t.allowance f sp)).short f amount = t.short f amount := rfl
  rw [if_neg hp, if_neg hf, hadmits, hshort]
  by_cases ha : t.allowance f sp < amount
  · rw [if_pos ha, show t.covers sp f amount = false by simp [TokenInfo.covers, ha]]
    exact hprobed
  by_cases hs : t.short f amount = true
  · rw [if_neg ha, if_pos hs, show t.covers sp f amount = false by simp [TokenInfo.covers, hs]]
    exact hprobed
  rw [if_neg ha, if_neg hs, show t.covers sp f amount = true by simp [TokenInfo.covers, ha, hs]]
  -- the entry that was read is overwritten
  have htwice : (t.probed sp f).setAllowance f sp (t.allowance f sp - amount) =
      t.setAllowance f sp (t.allowance f sp - amount) := by
    simp [TokenInfo.probed, TokenInfo.setAllowance, getD_insert]
  refine sameBooks_of_eq ?_
  show (s.put n (((t.probed sp f).setAllowance f sp (t.allowance f sp - amount)).moved f d amount)).recordTransfer
    (recAddr (t.probed sp f)) f d amount = _
  rw [htwice, hr]
  rfl

theorem administer_found {address : Bytes} (hslot : s.addressIndex.lookup address = some n) (hg : s.get n = some t)
    (refused : TokenInfo → Bool) (edit : TokenInfo → TokenInfo) :
    SameBooks (s.write n (t.onAdminister (refused t) (edit t)).1 (t.onAdminister (refused t) (edit t)).2)
      (s.administer address refused edit).1 := by
  simp only [administer, hslot, withToken, hg]
  cases refused t with
  | true => exact sameBooks_self hg
  | false => exact sameBooks_of_eq (put_eq_write _ _ _)

variable {op : StoreOp}

theorem step_missing (hc : op.isCreate = false) (h : (op.slot s).bind s.get = none) : (s.step env op).1 = s := by
  -- every call goes through `withToken`
  have hnone : ∀ f, s.withToken (op.slot s) f = (s, false) := by
    intro f
    unfold withToken
    cases hs : op.slot s with
    | none => rfl
    | some n =>
      rw [hs] at h
      simp only [Option.bind_some] at h
      simp only [h]
  cases op with
  | create => simp [StoreOp.isCreate] at hc
  | _ => exact congrArg Prod.fst (hnone _)

theorem step_found {op : StoreOp} (hc : op.isCreate = false) (hslot : op.slot s = some n) (hg : s.get n = some t) :
    SameBooks (s.write n (op.onToken env t).1 (op.onToken env t).2) (s.step env op).1 := by
  have hself := sameBooks_self hg
  cases op with
  | create => simp [StoreOp.isCreate] at hc
  | transfer name f d amount =>
    obtain rfl := Option.some.inj hslot
    exact transferAt_found hg (·.address) f d amount
  | transferByAddress address f d amount =>
    have h := @transferAt_found env s n t hg (fun _ => address) f d amount
    rw [← hslot] at h
    exact h
  | approve name owner spender amount caller =>
    obtain rfl := Option.some.inj hslot
    simp only [StoreOp.onToken, step, approve, withToken, hg]
    grind [put_eq_write, sameBooks_of_eq]
  | transferFrom name sp f d amount =>
    obtain rfl := Option.some.inj hslot
    exact transferFromAt_found hg (·.address) sp f d amount rfl
  | transferFromByAddress address sp f d amount =>
    have h := @transferFromAt_found s n t hg (fun _ => address) sp f d amount rfl
    rw [← hslot] at h
    exact h
  | burn address owner amount =>
    have hslot : s.addressIndex.lookup address = some n := hslot
    simp only [StoreOp.onToken, step, burn, withToken, hslot, hg]
    by_cases hf : owner ∈ t.frozenAccounts
    · simpa [hf] using hself
    cases hs : t.short owner amount with
    | true => simpa [hf, hs] using hself
    | false =>
      rw [if_pos ⟨hf, rfl⟩, if_neg hf, if_neg Bool.false_ne_true]
      exact ⟨rfl, rfl, rfl⟩
  | mint address creator amount =>
    have hslot : s.addressIndex.lookup address = some n := hslot
    simp only [StoreOp.onToken, step, mint, withToken, hslot, hg]
    by_cases hcr : t.creator = creator
    · by_cases hf : creator ∈ t.frozenAccounts
      · simpa [hcr, hf] using hself
      · rw [if_pos ⟨hcr, hf⟩, if_neg (not_not.2 hcr), if_neg hf]
        exact ⟨rfl, rfl, rfl⟩
    · simpa [hcr] using hself
  | transferOwnership address creator newOwner =>
    have hslot : s.addressIndex.lookup address = some n := hslot
    simp only [StoreOp.onToken, TokenInfo.onAdminister, step, transferOwnership, withToken, hslot, hg]
    by_cases hcr : t.creator = creator
    · simp only [hcr, ne_eq, not_true, if_false, decide_false]
      exact ⟨rfl, (List.append_nil _).symm, rfl⟩
    · simpa [hcr] using hself
  | setCreatorFee address creator fee => exact administer_found hslot hg _ _
  | lockCreatorFee address creator => exact administer_found hslot hg _ _
  | setPaused address creator p => exact administer_found hslot hg _ _
  | setFrozen address creator account f => exact administer_found hslot hg _ _

def after (env : Env) (s : TokenStore) (op : StoreOp) : TokenStore := (s.step env op).1

def found (s : TokenStore) (op : StoreOp) : Option TokenInfo := (op.slot s).bind s.get

theorem get_step (hc : op.isCreate = false) (m : Bytes) : (s.step env op).1.get m =
      if op.slot s = some m then (s.get m).map fun t => (op.onToken env t).1 else s.get m := by
  cases hslot : op.slot s with
  | none => rw [step_missing hc (by rw [hslot]; rfl), if_neg (by simp)]
  | some n =>
    cases hg : s.get n with
    | none => grind [step_missing]
    | some t =>
      have htokens := (@step_found env s n t op hc hslot hg).1
      have hget := @get_write s n m (op.onToken env t).1 (op.onToken env t).2
      unfold get at hget hg ⊢
      grind

theorem history_step (hc : op.isCreate = false) : (s.step env op).1.transferHistory =
      s.transferHistory ++ ((s.found op).map fun t => (op.onToken env t).2).getD [] := by
  unfold found
  cases hslot : op.slot s with
  | none =>
    rw [step_missing hc (by rw [hslot]; rfl)]
    simp
  | some n =>
    cases hg : s.get n with
    | none => grind [step_missing]
    | some t =>
      rw [(@step_found env s n t op hc hslot hg).2.1]
      simp [write, hg]

theorem addressIndex_step (hc : op.isCreate = false) : (s.step env op).1.addressIndex = s.addressIndex := by
  cases hslot : op.slot s with
  | none => rw [step_missing hc (by rw [hslot]; rfl)]
  | some n =>
    cases hg : s.get n with
    | none => rw [step_missing hc (by rw [hslot]; exact hg)]
    | some t => exact (@step_found env s n t op hc hslot hg).2.2

end TokenStore

end Electronero
