import Electronero.Protocol.ProcessTokenTx
import Electronero.Token.IndexRuns
/-!
# Creating a token next to others

`token_store::create` (token.cpp:153) writes through `tokens[name]` and `address_index[address]` without looking whether
either is taken, and anyone may sign a `create` payload.
-/
namespace Electronero
open Text FiniteMap Machine

namespace TokenStore
variable {env : Env} {s s' : TokenStore}

/-- Every token of `s` is still there with its creator, supply, balances, flags and address, and
its address still leads to it. -/
def Undisturbed (s s' : TokenStore) : Prop :=
  ∀ n t, s.get n = some t → ∃ t', s'.get n = some t' ∧ t'.creator = t.creator ∧
    t'.totalSupply = t.totalSupply ∧ t'.balances = t.balances ∧ t'.paused = t.paused ∧
    t'.creatorFeeLocked = t.creatorFeeLocked ∧ t'.address = t.address ∧ s'.getByAddress t.address = some t'

def Harmless (s : TokenStore) (name : Bytes) (supply : UInt64) (creator addr : Bytes) : Prop :=
  s.Unused name addr ∨ ∃ t, s.get name = some t ∧ t.creator = creator ∧ t.totalSupply = supply ∧
    t.balances.lookup creator = some supply ∧ t.paused = false ∧ t.creatorFeeLocked = false ∧ t.address = addr

structure Addressed (s : TokenStore) : Prop where
  named : ∀ n t, s.get n = some t → t.name = n
  addressOf : ∀ n t, s.get n = some t → s.addressIndex.lookup t.address = some n

theorem addressed_empty : TokenStore.empty.Addressed :=
  ⟨fun _ _ hg => by simp [get, empty] at hg, fun _ _ hg => by simp [get, empty] at hg⟩

theorem Addressed.uniqueAddresses (h : s.Addressed) : UniqueAddresses s.tokens := by
  intro n n' t t' hg hg' ha
  have h1 := h.addressOf n t hg
  have h2 := h.addressOf n' t' hg'
  rw [ha, h2] at h1
  exact (Option.some.inj h1).symm

variable {n : Bytes} {t : TokenInfo}

theorem Addressed.getByAddress (h : s.Addressed) (hg : s.get n = some t) : s.getByAddress t.address = some t := by
  unfold TokenStore.getByAddress
  rw [h.addressOf n t hg]
  exact hg

theorem addressed_rebuild {order : List Bytes} (hn : ∀ n t, s.get n = some t → t.name = n)
    (hu : UniqueAddresses s.tokens) (ho : Enumerates order s.tokens) : (s.rebuildIndexes order).Addressed :=
  ⟨(live_rebuild hn).named, (indexed_rebuild hu ho).addressOf⟩

theorem addressed_write (h : s.Addressed) (t' : TokenInfo) (hg : s.get n = some t)
    (hn : t'.name = t.name) (ha : t'.address = t.address) (recs : List TokenTransferRecord) :
    (s.write n t' recs).Addressed := by
  constructor
  all_goals
    intro n' u hu
    rw [get_write] at hu
    split at hu
  · rename_i e
    obtain rfl := Option.some.inj hu
    rw [hn, e]
    exact h.named n t hg
  · exact h.named n' u hu
  · rename_i e
    obtain rfl := Option.some.inj hu
    rw [ha, e]
    exact h.addressOf n t hg
  · exact h.addressOf n' u hu

section Create
variable {name symbol creator address : Bytes} {supply fee nonce : UInt64}

theorem Harmless.address_ne (h : s.Addressed) {addr : Bytes} (hh : s.Harmless name supply creator addr) {n : Bytes}
    {t : TokenInfo} (hg : s.get n = some t) (hn : n ≠ name) : t.address ≠ addr := by
  rcases hh with hu | ⟨u, hu, -, -, -, -, -, ha⟩
  · exact hu.2 n t hg
  · rintro rfl
    have h1 := h.addressOf n t hg
    have h2 := h.addressOf name u hu
    rw [ha, h1] at h2
    exact hn (Option.some.inj h2)

theorem addressed_create (h : s.Addressed)
    (hh : s.Harmless name supply creator (s.createAddress env name symbol creator address nonce)) :
    (s.create env name symbol supply creator fee address nonce).Addressed := by
  constructor
  · intro n t hg
    rw [get_create] at hg
    split at hg
    · rename_i e
      obtain rfl := Option.some.inj hg
      exact e.symm
    · exact h.named n t hg
  · intro n t hg
    rw [addressIndex_create]
    rw [get_create] at hg
    split at hg
    · rename_i e
      obtain rfl := Option.some.inj hg
      rw [e]
      exact if_pos rfl
    · rename_i e
      rw [if_neg (hh.address_ne h hg e)]
      exact h.addressOf n t hg

theorem undisturbed_of_harmless (h : s.Addressed)
    (hh : s.Harmless name supply creator (s.createAddress env name symbol creator address nonce)) :
    Undisturbed s (s.create env name symbol supply creator fee address nonce) := by
  have ha : (s.create env name symbol supply creator fee address nonce).Addressed := addressed_create h hh
  intro n t hg
  by_cases hn : n = name
  · subst hn
    rcases hh with hu | ⟨u, hu, hc, hsup, hbal, hp, hl, haddr⟩
    · rw [hu.1] at hg
      cases hg
    obtain rfl := Option.some.inj (hu.symm.trans hg)
    have hget := (get_create s env n symbol supply creator fee address nonce n).trans (if_pos rfl)
    have hold : getD s.tokens n TokenInfo.empty = u := getD_of_lookup hu
    refine ⟨_, hget, ?_, ?_, ?_, ?_, ?_, ?_, ?_⟩
    · exact hc.symm
    · exact hsup.symm
    · grind [createdToken, insert_eq_self_iff]
    · exact hp.symm
    · exact hl.symm
    · exact haddr.symm
    · rw [haddr]
      exact ha.getByAddress hget
  · have hget := (get_create s env name symbol supply creator fee address nonce n).trans ((if_neg hn).trans hg)
    exact ⟨t, hget, rfl, rfl, rfl, rfl, rfl, rfl, ha.getByAddress hget⟩

theorem harmless_of_undisturbed (h : s.Addressed)
    (hu : Undisturbed s (s.create env name symbol supply creator fee address nonce)) :
    s.Harmless name supply creator (s.createAddress env name symbol creator address nonce) := by
  cases hg : s.get name with
  | some t =>
    -- the token of that name has kept all it had, so it was created the same way
    obtain ⟨t', hg', hc, hsup, hbal, hp, hl, haddr, -⟩ := hu name t hg
    obtain rfl := Option.some.inj (((get_create ..).trans (if_pos rfl)).symm.trans hg')
    have hlook : t.balances.lookup creator = some supply := by
      rw [← hbal]
      exact Finmap.lookup_insert _
    exact Or.inr ⟨t, hg, hc.symm, hsup.symm, hlook, hp.symm, hl.symm, haddr.symm⟩
  | none =>
    refine Or.inl ⟨hg, fun n t hn haddr => ?_⟩
    have hne : n ≠ name := by rintro rfl; rw [hg] at hn; cases hn
    -- the address now leads to the new token, which bears another name
    obtain ⟨t', hg', -, -, -, -, -, -, hby⟩ := hu n t hn
    rw [get_create, if_neg hne, hn] at hg'
    obtain rfl := Option.some.inj hg'
    unfold getByAddress at hby
    rw [addressIndex_create, if_pos haddr, Option.bind_some, get_create, if_pos rfl] at hby
    have hname := congrArg TokenInfo.name (Option.some.inj hby)
    rw [h.named n t hn] at hname
    exact hne hname.symm

end Create

theorem addressed_step {op : StoreOp} {b : Bool} (h : s.Addressed) (hs : s.step env op = (s', b))
    (hh : ∀ name symbol supply creator fee address nonce,
      op = .create name symbol supply creator fee address nonce →
      s.Harmless name supply creator (s.createAddress env name symbol creator address nonce)) : s'.Addressed := by
  cases hi : op.isIndexing with
  | false =>
    obtain rfl | ⟨c, ⟨n, t, recs, hg, -, -, rfl⟩, -⟩ := step_change hs hi
    · exact h
    · exact addressed_write h _ hg (Change.apply_name t c) (Change.apply_address t c) recs
  | true =>
    cases op with
    | create name symbol supply creator fee address nonce =>
      obtain rfl := congrArg Prod.fst hs
      exact addressed_create h (hh _ _ _ _ _ _ _ rfl)
    | transferOwnership address creator newOwner =>
      obtain rfl | ⟨n, t, hg, hc, rfl⟩ := transferOwnership_cases hs
      · exact h
      · have ha := addressed_write h { t with creator := newOwner } hg rfl rfl []
        exact ⟨ha.named, ha.addressOf⟩
    | _ => simp [StoreOp.isIndexing] at hi

end TokenStore

structure Handler where
  tokens : TokenStore
  file : Option TokenStoreData

inductive HandlerEvent where
  | processTokenTx (height : UInt64) (tx : Transaction) (nonce : UInt64)
  /-- a restart: `init` loads the file -/
  | init (order : List Bytes)
  | deinit

namespace Handler

def start : Handler := ⟨TokenStore.empty, none⟩

def processed (env : Env) (p : Handler) (height : UInt64) (tx : Transaction) (nonce : UInt64) : Handler :=
  match executes env p.tokens height tx nonce with
  | .ok (some op) =>
    let tokens := (p.tokens.step env op).1
    ⟨tokens, some tokens.save⟩
  | _ => p

/-- A load that finds no file leaves a new, empty store. -/
def step (env : Env) (p : Handler) : HandlerEvent → Handler
  | .processTokenTx height tx nonce => p.processed env height tx nonce
  | .init order => match p.file with
    | none => { p with tokens := TokenStore.empty }
    | some d => { p with tokens := TokenStore.load d order }
  | .deinit => { p with file := some p.tokens.save }

def Visits (p : Handler) : HandlerEvent → Prop
  | .init order => ∀ d, p.file = some d → Enumerates order d.tokens
  | _ => True

def CreatesHarmless (env : Env) (p : Handler) : HandlerEvent → Prop
  | .processTokenTx height tx nonce => ∀ name symbol supply creator fee address r,
      executes env p.tokens height tx nonce = .ok (some (.create name symbol supply creator fee address r)) →
      p.tokens.Harmless name supply creator (p.tokens.createAddress env name symbol creator address r)
  | _ => True

variable {env : Env}

def Sound (p : Handler) : Prop :=
  p.tokens.Addressed ∧ ∀ d, p.file = some d →
    TokenStore.UniqueAddresses d.tokens ∧ ∀ n t, d.tokens.lookup n = some t → t.name = n

theorem sound_step (p : Handler) (e : HandlerEvent) (h : p.Sound) (hok : p.Visits e ∧ p.CreatesHarmless env e) :
    (p.step env e).Sound := by
  obtain ⟨ha, hf⟩ := h
  obtain ⟨hv, hc⟩ := hok
  have hsaved : ∀ s : TokenStore, s.Addressed → ∀ d, some s.save = some d →
      TokenStore.UniqueAddresses d.tokens ∧ ∀ n t, d.tokens.lookup n = some t → t.name = n := by
    rintro s hs d ⟨rfl⟩
    exact ⟨hs.uniqueAddresses, hs.named⟩
  cases e with
  | processTokenTx height tx nonce =>
    show (p.processed env height tx nonce).Sound
    unfold processed
    split
    · rename_i op hx
      have ha' : (p.tokens.step env op).1.Addressed := by
        refine TokenStore.addressed_step ha rfl ?_
        rintro name symbol supply creator fee address r rfl
        exact hc _ _ _ _ _ _ _ hx
      exact ⟨ha', hsaved _ ha'⟩
    · exact ⟨ha, hf⟩
  | init order =>
    cases hfile : p.file with
    | none =>
      have hp : p.step env (.init order) = { p with tokens := TokenStore.empty } := by simp [step, hfile]
      rw [hp]
      exact ⟨TokenStore.addressed_empty, hf⟩
    | some d =>
      have hp : p.step env (.init order) = { p with tokens := TokenStore.load d order } := by simp [step, hfile]
      rw [hp]
      exact ⟨TokenStore.addressed_rebuild (hf d hfile).2 (hf d hfile).1 (hv d hfile), hf⟩
  | deinit => exact ⟨ha, hsaved _ ha⟩

theorem sound_start : start.Sound := ⟨TokenStore.addressed_empty, fun d hd => by simp [start] at hd⟩

/-- **When a `create` leaves the others alone**, in every run of the handler whose creates are harmless. -/
theorem create_undisturbed_iff_harmless (env : Env) (es : List HandlerEvent) (hv : Meets (step env) Visits start es)
    (hc : Meets (step env) (CreatesHarmless env) start es) (height : UInt64) (tx : Transaction) (nonce : UInt64)
    (name symbol : Bytes) (supply : UInt64) (creator : Bytes) (fee : UInt64) (address : Bytes) (r : UInt64)
    (hx : executes env (run (step env) start es).tokens height tx nonce =
      .ok (some (.create name symbol supply creator fee address r))) :
    let p := run (step env) start es
    TokenStore.Undisturbed p.tokens (p.step env (.processTokenTx height tx nonce)).tokens ↔
      p.tokens.Harmless name supply creator (p.tokens.createAddress env name symbol creator address r) := by
  intro p
  have ha : p.tokens.Addressed := (run_invariant sound_step sound_start (hv.and hc)).1
  have hp : (p.step env (.processTokenTx height tx nonce)).tokens =
      p.tokens.create env name symbol supply creator fee address r := by
    simp only [step, processed, p, hx]
    rfl
  rw [hp]
  exact ⟨TokenStore.harmless_of_undisturbed ha, TokenStore.undisturbed_of_harmless ha⟩

section Example

def goldTx : Transaction :=
  signedTx 1 1 .create [ascii "cEVM1", ascii "Gold", ascii "GLD", ascii "10", Env.plainAddress 1]

def silverTx : Transaction :=
  signedTx 2 2 .create [ascii "cEVM2", ascii "Silver", ascii "SLV", ascii "7", Env.plainAddress 2]

def secondGoldTx : Transaction :=
  signedTx 3 2 .create [ascii "cEVM2", ascii "Gold", ascii "GLD", ascii "7", Env.plainAddress 2]

def goldRun : List HandlerEvent := [.processTokenTx tokenSignatureActivationHeight goldTx 0]

theorem goldRun_harmless : Meets (step Env.plain) (CreatesHarmless Env.plain) start goldRun := by
  refine ⟨?_, trivial⟩
  intro name symbol supply creator fee address r _
  exact Or.inl ⟨rfl, fun n t hg => by simp [TokenStore.get, start, TokenStore.empty] at hg⟩

theorem silver_undisturbed :
    let p := run (step Env.plain) start goldRun
    TokenStore.Undisturbed p.tokens
      (p.step Env.plain (.processTokenTx tokenSignatureActivationHeight silverTx 0)).tokens := by
  have hx : executes Env.plain (run (step Env.plain) start goldRun).tokens tokenSignatureActivationHeight silverTx 0 =
      .ok (some (.create (ascii "Silver") (ascii "SLV") 7 (Env.plainAddress 2) 0 (ascii "cEVM2") 0)) := by
    decide +kernel
  refine (create_undisturbed_iff_harmless Env.plain goldRun ⟨trivial, trivial⟩ goldRun_harmless _ silverTx 0 _ _ _ _ _ _
    _ hx).2 (Or.inl ⟨by decide +kernel, ?_⟩)
  intro n t hg
  have hgold : (run (step Env.plain) start goldRun).tokens.tokens =
      Finmap.singleton (ascii "Gold")
        ((TokenStore.empty.createdToken Env.plain (ascii "Gold") (ascii "GLD") 10 (Env.plainAddress 1) 0
          (ascii "cEVM1") 0)) := by decide +kernel
  unfold TokenStore.get at hg
  rw [hgold] at hg
  have hn : n = ascii "Gold" := by
    by_contra hne
    have : n ∈ Finmap.singleton (ascii "Gold") _ := Finmap.lookup_isSome.1 (by rw [hg]; rfl)
    exact hne (Finmap.mem_singleton _ _ _ |>.1 this)
  subst hn
  rw [Finmap.lookup_singleton_eq] at hg
  obtain rfl := Option.some.inj hg
  decide +kernel

theorem secondGold_takes_over :
    let p := run (step Env.plain) start goldRun
    let p' := p.step Env.plain (.processTokenTx tokenSignatureActivationHeight secondGoldTx 0)
    ¬ TokenStore.Undisturbed p.tokens p'.tokens ∧
    (p.tokens.getByAddress (ascii "cEVM1")).map (fun t => (t.creator, t.totalSupply)) = some (Env.plainAddress 1, 10) ∧
    (p'.tokens.getByAddress (ascii "cEVM1")).map (fun t => (t.creator, t.totalSupply)) = some (Env.plainAddress 2, 7) := by
  intro p p'
  refine ⟨fun h => ?_, by decide +kernel, by decide +kernel⟩
  have hbefore : (p.tokens.get (ascii "Gold")).map (·.creator) = some (Env.plainAddress 1) := by decide +kernel
  have hafter : (p'.tokens.get (ascii "Gold")).map (·.creator) = some (Env.plainAddress 2) := by decide +kernel
  obtain ⟨t, hg, hc⟩ := Option.map_eq_some_iff.1 hbefore
  obtain ⟨t', hg', hc', -⟩ := h _ t hg
  rw [hg', Option.map_some, hc', hc] at hafter
  exact absurd (Option.some.inj hafter) (by decide +kernel)

end Example

end Handler

end Electronero
