import Electronero.Token.Store
/-!
# What a call can do to the store

Every call except `create` and `transfer_ownership` leaves the store as it is or makes one of five `Change`s to one token
and appends to the history. The later modules never unfold an operation again.
-/
namespace Electronero
open Text FiniteMap

namespace TokenInfo
variable (t : TokenInfo) (acc acc' : Bytes) (amount : UInt64)

theorem balance_debit : (t.debit acc amount).balance acc' =
    if acc' = acc then t.balance acc - amount else t.balance acc' := getD_insert _ _ _ _ _

theorem balance_credit : (t.credit acc amount).balance acc' =
    if acc' = acc then t.balance acc + amount else t.balance acc' := getD_insert _ _ _ _ _

theorem short_eq_false {t : TokenInfo} {acc : Bytes} {amount : UInt64} :
    t.short acc amount = false ↔ t.balances.lookup acc = some (t.balance acc) ∧ amount ≤ t.balance acc := by
  unfold short balance getD
  grind

theorem setAllowance_eq_self_iff {t : TokenInfo} {owner spender : Bytes} {amount : UInt64} :
    t.setAllowance owner spender amount = t ↔
      (t.allowances.lookup owner).any (·.lookup spender = some amount) = true := by
  have hfield : t.setAllowance owner spender amount = t ↔
      t.allowances.insert owner ((getD t.allowances owner ∅).insert spender amount) = t.allowances := by
    cases t
    simp [setAllowance]
  rw [hfield, insert_eq_self_iff]
  unfold getD
  cases t.allowances.lookup owner with
  | none => simp
  | some m => grind [insert_eq_self_iff]

end TokenInfo

namespace TokenStore
variable (s : TokenStore)

def write (n : Bytes) (t : TokenInfo) (recs : List TokenTransferRecord) : TokenStore :=
  { s with tokens := s.tokens.insert n t, transferHistory := s.transferHistory ++ recs }

theorem get_write (n n' : Bytes) (t : TokenInfo) (recs) :
    (s.write n t recs).get n' = if n' = n then some t else s.get n' := lookup_insert_ite _ _ _ _

theorem put_eq_write (n : Bytes) (t : TokenInfo) : s.put n t = s.write n t [] := by
  simp [put, write]

def moveName (n creator newOwner : Bytes) : TokenStore :=
  let ct := s.creatorTokens.insert creator ((s.namesOf creator).filter (· ≠ n))
  { s with creatorTokens := ct.insert newOwner (getD ct newOwner [] ++ [n]) }

variable {n : Bytes} {t : TokenInfo} {f : Bytes → TokenInfo → TokenStore × Bool} {slot : Option Bytes}

theorem put_eq_self_iff {s : TokenStore} : s.put n t = s ↔ s.get n = some t := by
  constructor
  · intro h
    exact insert_eq_self_iff.1 (congrArg TokenStore.tokens h)
  · intro h
    unfold put
    rw [insert_eq_self_iff.2 h]

theorem put_record_ne_self {s : TokenStore} {a f d : Bytes} {amount : UInt64} :
    (s.put n t).recordTransfer a f d amount ≠ s := by
  intro h
  have hlen := congrArg (fun x : TokenStore => x.transferHistory.length) h
  simp [recordTransfer, put] at hlen

section Create
variable (env : Env) (name symbol : Bytes) (supply : UInt64) (creator : Bytes) (fee : UInt64) (address : Bytes)
  (nonce : UInt64)

/-- The token `create` leaves under the name. What an older token of that name had in its other
balances, its allowances and its frozen accounts stays. -/
def createdToken : TokenInfo :=
  let tok := getD s.tokens name TokenInfo.empty
  { tok with
    name := name, symbol := symbol, creator := creator, totalSupply := supply, creatorFee := fee,
    creatorFeeLocked := false, paused := false, balances := tok.balances.insert creator supply,
    address := s.createAddress env name symbol creator address nonce }

theorem get_create (n : Bytes) : (s.create env name symbol supply creator fee address nonce).get n =
    if n = name then some (s.createdToken env name symbol supply creator fee address nonce) else s.get n :=
  lookup_insert_ite _ _ _ _

theorem namesOf_create (c : Bytes) : (s.create env name symbol supply creator fee address nonce).namesOf c =
    if c = creator then s.namesOf creator ++ [name] else s.namesOf c := getD_insert _ _ _ _ _

theorem addressIndex_create (a : Bytes) :
    (s.create env name symbol supply creator fee address nonce).addressIndex.lookup a =
      if a = s.createAddress env name symbol creator address nonce then some name
      else s.addressIndex.lookup a := lookup_insert_ite _ _ _ _

end Create

theorem withToken_cases {s : TokenStore} {r : TokenStore × Bool} (h : s.withToken slot f = r) :
    r = (s, false) ∨ ∃ n tok, slot = some n ∧ s.get n = some tok ∧ f n tok = r := by
  unfold withToken at h
  grind

theorem withToken_success {s : TokenStore} (h : (s.withToken slot f).2 = true) :
    ∃ n tok, slot = some n ∧ s.get n = some tok ∧ s.withToken slot f = f n tok := by
  obtain hr | ⟨n, tok, hslot, hg, hr⟩ := withToken_cases (rfl : s.withToken slot f = _)
  · rw [hr] at h
    cases h
  · exact ⟨n, tok, hslot, hg, hr.symm⟩

end TokenStore

inductive Change where
  /-- approvals, and the zero entry a refused `transfer_from` leaves behind -/
  | allowances (al : UMap Bytes (UMap Bytes UInt64))
  /-- the four transfers -/
  | move (fromAcc toAcc : Bytes) (amount : UInt64) (al : UMap Bytes (UMap Bytes UInt64))
  | burn (owner : Bytes) (amount : UInt64)
  | mint (creator : Bytes) (amount : UInt64)
  /-- fee, fee lock, pause and freeze -/
  | admin (fee : UInt64) (locked paused : Bool) (frozen : Finset Bytes)

namespace Change

def apply (t : TokenInfo) : Change → TokenInfo
  | allowances al => { t with allowances := al }
  | move f d amount al => { (t.debit f amount).credit d amount with allowances := al }
  | burn owner amount => { t.debit owner amount with totalSupply := t.totalSupply - amount }
  | mint creator amount => { t.credit creator amount with totalSupply := t.totalSupply + amount }
  | admin fee locked paused frozen =>
    { t with creatorFee := fee, creatorFeeLocked := locked, paused := paused, frozenAccounts := frozen }

def Fits (t : TokenInfo) : Change → Prop
  | move f _ amount _ => t.short f amount = false
  | burn owner amount => t.short owner amount = false
  | mint creator _ => t.creator = creator
  | _ => True

def touches : Change → List Bytes
  | move f d _ _ => [f, d]
  | burn owner _ => [owner]
  | mint creator _ => [creator]
  | _ => []

def isMint : Change → Bool
  | mint _ _ => true
  | _ => false

variable (t : TokenInfo) (c : Change)

@[simp] theorem apply_name : (c.apply t).name = t.name := by cases c <;> rfl
@[simp] theorem apply_address : (c.apply t).address = t.address := by cases c <;> rfl
@[simp] theorem apply_creator : (c.apply t).creator = t.creator := by cases c <;> rfl

theorem balance_apply {acc : Bytes} (h : acc ∉ c.touches) : (c.apply t).balance acc = t.balance acc := by
  cases c with
  | allowances al => rfl
  | move f d amount al =>
    simp only [touches, List.mem_cons, List.not_mem_nil, or_false, not_or] at h
    have hc := TokenInfo.balance_credit (t.debit f amount) d acc amount
    rw [if_neg h.2, TokenInfo.balance_debit, if_neg h.1] at hc
    exact hc
  | burn owner amount =>
    simp only [touches, List.mem_singleton] at h
    exact (TokenInfo.balance_debit t owner acc amount).trans (if_neg h)
  | mint creator amount =>
    simp only [touches, List.mem_singleton] at h
    exact (TokenInfo.balance_credit t creator acc amount).trans (if_neg h)
  | admin fee locked paused frozen => rfl

end Change

namespace StoreOp

def isIndexing : StoreOp → Bool
  | create .. => true
  | transferOwnership .. => true
  | _ => false

def isMint : StoreOp → Bool
  | mint .. => true
  | _ => false

def isCreate : StoreOp → Bool
  | create .. => true
  | _ => false

def accounts : StoreOp → List Bytes
  | create _ _ _ creator _ _ _ => [creator]
  | transfer _ f t _ => [f, t]
  | transferByAddress _ f t _ => [f, t]
  | approve _ owner spender _ caller => [owner, spender, caller]
  | transferFrom _ spender f t _ => [spender, f, t]
  | transferFromByAddress _ spender f t _ => [spender, f, t]
  | burn _ owner _ => [owner]
  | mint _ creator _ => [creator]
  | setCreatorFee _ creator _ => [creator]
  | lockCreatorFee _ creator => [creator]
  | setPaused _ creator _ => [creator]
  | setFrozen _ creator account _ => [creator, account]
  | transferOwnership _ creator newOwner => [creator, newOwner]

end StoreOp

namespace TokenStore
variable {env : Env} {s s' : TokenStore} {b : Bool}

def Edited (s s' : TokenStore) (accs : List Bytes) (c : Change) : Prop :=
  ∃ n t recs, s.get n = some t ∧ c.Fits t ∧ (∀ a ∈ c.touches, a ∈ accs) ∧ s' = s.write n (c.apply t) recs

variable {f d owner address creator : Bytes} {amount : UInt64} {accs : List Bytes} {slot : Option Bytes}
  {recAddr : TokenInfo → Bytes}

theorem edited_move {n : Bytes} {t t' : TokenInfo}
    (recs : List TokenTransferRecord) (hg : s.get n = some t) (hs : t.short f amount = false) (hf : f ∈ accs)
    (hd : d ∈ accs) (ht : t' = (Change.move f d amount t'.allowances).apply t) :
    ∃ al, Edited s (s.write n t' recs) accs (.move f d amount al) := by
  refine ⟨t'.allowances, n, t, recs, hg, hs, ?_, by rw [← ht]⟩
  grind [Change.touches]

theorem transferAt_cases (h : s.transferAt env slot recAddr f d amount = (s', b)) :
    s' = s ∨ ∃ al, Edited s s' [f, d] (.move f d amount al) := by
  obtain h | ⟨n, tok, -, hg, h⟩ := withToken_cases h
  · exact Or.inl (congrArg Prod.fst h)
  split at h
  · exact Or.inl (congrArg Prod.fst h).symm
  split at h
  · exact Or.inl (congrArg Prod.fst h).symm
  split at h
  · exact Or.inl (congrArg Prod.fst h).symm
  rename_i hs
  obtain rfl := congrArg Prod.fst h
  refine Or.inr (edited_move [⟨recAddr tok, f, d, amount⟩] hg (by simpa using hs) (by simp) (by simp) ?_)
  split <;> rfl

theorem transferFromAt_cases {sp : Bytes} (h : s.transferFromAt slot recAddr sp f d amount = (s', b)) :
    s' = s ∨ (∃ al, Edited s s' [sp, f, d] (.allowances al)) ∨ ∃ al, Edited s s' [sp, f, d] (.move f d amount al) := by
  obtain h | ⟨n, tok, -, hg, h⟩ := withToken_cases h
  · exact Or.inl (congrArg Prod.fst h)
  -- the allowance entry is written back before the two amount checks
  have refused : Edited s (s.put n (tok.setAllowance f sp (tok.allowance f sp))) [sp, f, d]
      (.allowances (tok.setAllowance f sp (tok.allowance f sp)).allowances) :=
    ⟨n, tok, [], hg, trivial, by simp [Change.touches], put_eq_write _ _ _⟩
  split at h
  · exact Or.inl (congrArg Prod.fst h).symm
  split at h
  · exact Or.inl (congrArg Prod.fst h).symm
  simp only at h
  split at h
  · obtain rfl := congrArg Prod.fst h
    exact Or.inr (Or.inl ⟨_, refused⟩)
  split at h
  · obtain rfl := congrArg Prod.fst h
    exact Or.inr (Or.inl ⟨_, refused⟩)
  rename_i hs
  obtain rfl := congrArg Prod.fst h
  have hshort : tok.short f amount = false := (Bool.not_eq_true _).mp hs
  exact Or.inr (Or.inr (edited_move [⟨recAddr (tok.setAllowance f sp (tok.allowance f sp)), f, d, amount⟩]
    hg hshort (by simp) (by simp) rfl))

theorem administer_cases {address : Bytes} {refused : TokenInfo → Bool} {edit : TokenInfo → TokenInfo}
    {accs : List Bytes} (h : s.administer address refused edit = (s', b))
    (he : ∀ t, ∃ fee locked paused frozen, edit t = (Change.admin fee locked paused frozen).apply t) :
    s' = s ∨ ∃ fee locked paused frozen, Edited s s' accs (.admin fee locked paused frozen) := by
  obtain h | ⟨n, tok, -, hg, h⟩ := withToken_cases h
  · exact Or.inl (congrArg Prod.fst h)
  split at h
  · exact Or.inl (congrArg Prod.fst h).symm
  obtain ⟨fee, locked, paused, frozen, hed⟩ := he tok
  refine Or.inr ⟨fee, locked, paused, frozen, n, tok, [], hg, trivial, by simp [Change.touches], ?_⟩
  grind [put_eq_write]

theorem approve_cases {name spender caller : Bytes} (h : s.approve name owner spender amount caller = (s', b)) :
    s' = s ∨ ∃ al, Edited s s' accs (.allowances al) := by
  obtain h | ⟨n, tok, -, hg, h⟩ := withToken_cases h
  · exact Or.inl (congrArg Prod.fst h)
  split at h
  · exact Or.inl (congrArg Prod.fst h).symm
  split at h
  · exact Or.inl (congrArg Prod.fst h).symm
  obtain rfl := congrArg Prod.fst h
  exact Or.inr ⟨(tok.setAllowance owner spender amount).allowances, n, tok, [], hg, trivial, by simp [Change.touches],
    put_eq_write _ _ _⟩

theorem burn_cases (h : s.burn address owner amount = (s', b)) : s' = s ∨ Edited s s' [owner] (.burn owner amount) := by
  obtain h | ⟨n, tok, -, hg, h⟩ := withToken_cases h
  · exact Or.inl (congrArg Prod.fst h)
  split at h
  · exact Or.inl (congrArg Prod.fst h).symm
  split at h
  · exact Or.inl (congrArg Prod.fst h).symm
  rename_i hs
  obtain rfl := congrArg Prod.fst h
  exact Or.inr ⟨n, tok, [⟨address, owner, [], amount⟩], hg, (Bool.not_eq_true _).mp hs, fun _ ha => ha, rfl⟩

theorem mint_cases (h : s.mint address creator amount = (s', b)) :
    s' = s ∨ Edited s s' [creator] (.mint creator amount) := by
  obtain h | ⟨n, tok, -, hg, h⟩ := withToken_cases h
  · exact Or.inl (congrArg Prod.fst h)
  split at h
  · exact Or.inl (congrArg Prod.fst h).symm
  split at h
  · exact Or.inl (congrArg Prod.fst h).symm
  rename_i hcr _
  obtain rfl := congrArg Prod.fst h
  exact Or.inr ⟨n, tok, [⟨address, [], creator, amount⟩], hg, not_not.mp hcr, fun _ ha => ha, rfl⟩

theorem transferOwnership_cases {newOwner : Bytes} (h : s.transferOwnership address creator newOwner = (s', b)) :
    s' = s ∨ ∃ n tok, s.get n = some tok ∧ tok.creator = creator ∧
      s' = (s.write n { tok with creator := newOwner } []).moveName n creator newOwner := by
  obtain h | ⟨n, tok, -, hg, h⟩ := withToken_cases h
  · exact Or.inl (congrArg Prod.fst h)
  split at h
  · exact Or.inl (congrArg Prod.fst h).symm
  rename_i hcr
  obtain rfl := congrArg Prod.fst h
  refine Or.inr ⟨n, tok, hg, not_not.mp hcr, ?_⟩
  rw [← put_eq_write]
  rfl

/-- **What a call that does not maintain the indexes can do.** -/
theorem step_change {op : StoreOp} (h : s.step env op = (s', b)) (hi : op.isIndexing = false) :
    s' = s ∨ ∃ c, Edited s s' op.accounts c ∧ (c.isMint = true → op.isMint = true) := by
  cases op with
  | create => simp [StoreOp.isIndexing] at hi
  | transferOwnership => simp [StoreOp.isIndexing] at hi
  | transfer name f d amount =>
    unfold step transfer at h
    exact (transferAt_cases h).imp id fun ⟨_, he⟩ => ⟨_, he, nofun⟩
  | transferByAddress address f d amount =>
    unfold step transferByAddress at h
    exact (transferAt_cases h).imp id fun ⟨_, he⟩ => ⟨_, he, nofun⟩
  | approve name owner spender amount caller =>
    exact (approve_cases h).imp id fun ⟨_, he⟩ => ⟨_, he, nofun⟩
  | transferFrom name spender f d amount =>
    unfold step transferFrom at h
    obtain h | ⟨al, he⟩ | ⟨al, he⟩ := transferFromAt_cases h
    · exact Or.inl h
    · exact Or.inr ⟨_, he, nofun⟩
    · exact Or.inr ⟨_, he, nofun⟩
  | transferFromByAddress address spender f d amount =>
    unfold step transferFromByAddress at h
    obtain h | ⟨al, he⟩ | ⟨al, he⟩ := transferFromAt_cases h
    · exact Or.inl h
    · exact Or.inr ⟨_, he, nofun⟩
    · exact Or.inr ⟨_, he, nofun⟩
  | burn address owner amount => exact (burn_cases h).imp id fun he => ⟨.burn owner amount, he, nofun⟩
  | mint address creator amount => exact (mint_cases h).imp id fun he => ⟨_, he, fun _ => rfl⟩
  | setCreatorFee address creator fee =>
    exact (administer_cases h fun t => ⟨fee, t.creatorFeeLocked, t.paused, t.frozenAccounts, rfl⟩).imp id
      fun ⟨_, _, _, _, he⟩ => ⟨_, he, nofun⟩
  | lockCreatorFee address creator =>
    exact (administer_cases h fun t => ⟨t.creatorFee, true, t.paused, t.frozenAccounts, rfl⟩).imp id
      fun ⟨_, _, _, _, he⟩ => ⟨_, he, nofun⟩
  | setPaused address creator p =>
    exact (administer_cases h fun t => ⟨t.creatorFee, t.creatorFeeLocked, p, t.frozenAccounts, rfl⟩).imp id
      fun ⟨_, _, _, _, he⟩ => ⟨_, he, nofun⟩
  | setFrozen address creator account f =>
    exact (administer_cases h fun t => ⟨t.creatorFee, t.creatorFeeLocked, t.paused, _, rfl⟩).imp id
      fun ⟨_, _, _, _, he⟩ => ⟨_, he, nofun⟩

end TokenStore

/-! ## Calls that change nothing

A call that succeeds has changed the store, unless it wrote what was there already. -/

namespace TokenStore
variable {env : Env} {s : TokenStore}

variable {name creator address f d owner : Bytes} {slot : Option Bytes} {recAddr : TokenInfo → Bytes}
  {amount : UInt64}

theorem create_ne_self {symbol : Bytes} {supply fee nonce : UInt64} :
    s.create env name symbol supply creator fee address nonce ≠ s := by
  intro he
  have hnames := congrArg (fun x : TokenStore => (x.namesOf creator).length) he
  simp [namesOf_create] at hnames

theorem withToken_ne_self {f : Bytes → TokenInfo → TokenStore × Bool}
    (hf : ∀ n t, (f n t).2 = true → (f n t).1 ≠ s) (h : (s.withToken slot f).2 = true) :
    (s.withToken slot f).1 ≠ s := by
  obtain ⟨n, t, -, -, hr⟩ := withToken_success h
  rw [hr] at h ⊢
  exact hf n t h

theorem transferAt_ne_self :
    (s.transferAt env slot recAddr f d amount).2 = true → (s.transferAt env slot recAddr f d amount).1 ≠ s := by
  refine withToken_ne_self fun n t h => ?_
  split_ifs at h ⊢
  exact put_record_ne_self

theorem transferFromAt_ne_self {sp : Bytes} :
    (s.transferFromAt slot recAddr sp f d amount).2 = true → (s.transferFromAt slot recAddr sp f d amount).1 ≠ s := by
  refine withToken_ne_self fun n t h => ?_
  grind [put_record_ne_self]

theorem burn_ne_self : (s.burn address owner amount).2 = true → (s.burn address owner amount).1 ≠ s := by
  refine withToken_ne_self fun n t h => ?_
  split_ifs at h ⊢
  exact put_record_ne_self

theorem mint_ne_self : (s.mint address creator amount).2 = true → (s.mint address creator amount).1 ≠ s := by
  refine withToken_ne_self fun n t h => ?_
  split_ifs at h ⊢
  exact put_record_ne_self

theorem administer_eq_self_iff {refused : TokenInfo → Bool} {edit : TokenInfo → TokenInfo}
    (h : (s.administer address refused edit).2 = true) :
    (s.administer address refused edit).1 = s ↔ (s.getByAddress address).any (fun t => edit t = t) = true := by
  obtain ⟨n, t, hslot, hg, hr⟩ := withToken_success h
  unfold administer at h ⊢
  grind [put_eq_self_iff, getByAddress]

theorem approve_eq_self_iff {spender caller : Bytes} (h : (s.approve name owner spender amount caller).2 = true) :
    (s.approve name owner spender amount caller).1 = s ↔
      (s.get name).any (fun t => t.setAllowance owner spender amount = t) = true := by
  obtain ⟨n, t, hslot, hg, hr⟩ := withToken_success h
  cases hslot
  unfold approve at h ⊢
  grind [put_eq_self_iff]

def lastOfCreator (s : TokenStore) (address creator : Bytes) : Bool :=
  (s.addressIndex.lookup address).any fun n => (s.namesOf creator).filter (· ≠ n) ++ [n] = s.namesOf creator

theorem transferOwnership_eq_self_iff {newOwner : Bytes} (h : (s.transferOwnership address creator newOwner).2 = true) :
    (s.transferOwnership address creator newOwner).1 = s ↔
      newOwner = creator ∧ s.lastOfCreator address creator = true := by
  obtain ⟨n, t, hslot, hg, hr⟩ := withToken_success h
  unfold transferOwnership at h ⊢
  rw [hr] at h ⊢
  split_ifs at h ⊢ with hc
  have hcreator : t.creator = creator := not_not.1 hc
  unfold lastOfCreator
  simp only [hslot, Option.any_some, decide_eq_true_eq]
  constructor
  · intro he
    have howner : newOwner = creator := by
      have hget := congrArg (fun x : TokenStore => x.tokens.lookup n) he
      have hg' : s.tokens.lookup n = some t := hg
      simp only [put, Finmap.lookup_insert, hg', Option.some.injEq] at hget
      grind
    subst howner
    refine ⟨rfl, ?_⟩
    have hnames := congrArg (fun x : TokenStore => x.namesOf newOwner) he
    simpa [namesOf, getD_insert] using hnames
  · rintro ⟨rfl, hnames⟩
    have htokens : s.put n { t with creator := newOwner } = s := put_eq_self_iff.2 (by rw [hg, ← hcreator])
    rw [htokens, getD_insert, if_pos rfl, hnames, Finmap.insert_insert]
    have hentry : s.creatorTokens.lookup newOwner = some (s.namesOf newOwner) := by
      unfold namesOf getD at hnames ⊢
      cases hl : s.creatorTokens.lookup newOwner with
      | none => simp [hl] at hnames
      | some names => rfl
    rw [insert_eq_self_iff.2 hentry]

end TokenStore

end Electronero
