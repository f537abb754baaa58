import Electronero.Protocol.Creation
/-!
# One token file for wallets and daemon

The daemon loads the file when it starts (cryptonote_protocol_handler.inl:85) and writes it after every operation (:1946)
and when it stops (:96); so does each token command of a wallet (wallet_rpc_server.cpp:3028-3094). A reload lists a
creator's tokens in another order, so stores are compared up to `creator_tokens` (`forget`).
-/
namespace Electronero
open Text FiniteMap Machine

namespace TokenStore
variable {env : Env} {s s' : TokenStore}

def forget (s : TokenStore) : TokenStore := { s with creatorTokens := ∅ }

theorem forget_withToken {slot : Option Bytes} {f g : Bytes → TokenInfo → TokenStore × Bool}
    (h : ∀ n t, (f n t).1.forget = (g n t).1.forget) :
    (s.withToken slot f).1.forget = (s.forget.withToken slot g).1.forget := by
  cases slot with
  | none => rfl
  | some n =>
    have hget : s.forget.get n = s.get n := rfl
    unfold withToken
    simp only [hget]
    cases s.get n with
    | none => rfl
    | some t => exact h n t

theorem forget_step (op : StoreOp) : (s.step env op).1.forget = (s.forget.step env op).1.forget := by
  cases op with
  | create name symbol supply creator fee address nonce => rfl
  | approve name owner spender amount caller =>
    refine forget_withToken fun n tok => ?_
    split_ifs
    · rfl
    · cases tok.balances.lookup owner <;> rfl
  | transferFrom name spender f t amount =>
    refine forget_withToken fun n tok => ?_
    dsimp only
    split_ifs <;> rfl
  | transferFromByAddress address spender f t amount =>
    refine forget_withToken fun n tok => ?_
    dsimp only
    split_ifs <;> rfl
  | _ =>
    refine forget_withToken fun n tok => ?_
    split_ifs <;> rfl

theorem forget_step_congr (h : s.forget = s'.forget) (op : StoreOp) :
    (s.step env op).1.forget = (s'.step env op).1.forget := by
  rw [forget_step, h, ← forget_step]

theorem executes_forget (height : UInt64) (tx : Transaction) (nonce : UInt64) :
    executes env s.forget height tx nonce = executes env s height tx nonce := rfl

def IndexCurrent (s : TokenStore) : Prop :=
  (∀ n t, s.get n = some t → s.addressIndex.lookup t.address = some n) ∧
  ∀ a n, s.addressIndex.lookup a = some n → s.hasAddress a n = true

theorem forget_load_save {order : List Bytes} (h : s.IndexCurrent) (ho : Enumerates order s.tokens) :
    (TokenStore.load s.save order).forget = s.forget := by
  have hu : UniqueAddresses s.tokens := by
    intro n n' t t' hg hg' ha
    have h1 := h.1 n t hg
    have h2 := h.1 n' t' hg'
    rw [ha, h2] at h1
    exact (Option.some.inj h1).symm
  let base : TokenStore := ⟨s.tokens, ∅, ∅, s.transferHistory⟩
  have hbuilt : (base.rebuildIndexes order).Indexed := indexed_rebuild hu ho
  have hindex : (base.rebuildIndexes order).addressIndex = s.addressIndex := by
    refine Finmap.ext_lookup fun a => ?_
    ext n
    constructor
    · intro hl
      obtain ⟨t, hg, rfl⟩ := hasAddress_iff.1 (hbuilt.indexed a n hl)
      rw [rebuildIndexes_get] at hg
      exact h.1 n t hg
    · intro hl
      obtain ⟨t, hg, rfl⟩ := hasAddress_iff.1 (h.2 a n hl)
      refine hbuilt.addressOf n t ?_
      rw [rebuildIndexes_get]
      exact hg
  unfold forget TokenStore.load TokenStore.save
  simp only [TokenStore.mk.injEq, rebuildIndexes_tokens, rebuildIndexes_transferHistory, and_true, true_and]
  exact hindex

end TokenStore

structure Shared where
  daemon : Handler
  wallets : Nat → TokenStore
  broadcast : List Transaction
  processed : List OnChain

inductive SharedEvent where
  | walletLoad (w : Nat) (order : List Bytes)
  | walletApply (w : Nat) (op : StoreOp)
  | walletBroadcast (w : Nat) (tx : Transaction)
  | walletSave (w : Nat)
  | processTokenTx (o : OnChain)
  /-- `deinit`; a daemon that is killed does not get there -/
  | daemonSave
  | restart (order : List Bytes)

namespace Shared

def start : Shared := ⟨Handler.start, fun _ => TokenStore.empty, [], []⟩

/-- A wallet whose `load` finds no file keeps what it has. -/
def step (env : Env) (p : Shared) : SharedEvent → Shared
  | .walletLoad w order => match p.daemon.file with
    | none => p
    | some d => { p with wallets := Function.update p.wallets w (TokenStore.load d order) }
  | .walletApply w op => { p with wallets := Function.update p.wallets w ((p.wallets w).step env op).1 }
  | .walletBroadcast _ tx => { p with broadcast := p.broadcast ++ [tx] }
  | .walletSave w => { p with daemon := { p.daemon with file := some (p.wallets w).save } }
  | .processTokenTx o =>
    { p with daemon := p.daemon.processed env o.height o.tx o.nonce, processed := p.processed ++ [o] }
  | .daemonSave => { p with daemon := p.daemon.step env .deinit }
  | .restart order => { p with daemon := p.daemon.step env (.init order) }

def ledger (env : Env) (p : Shared) : TokenStore := p.processed.foldl (OnChain.effect env) TokenStore.empty

def Settled (p : Shared) : Prop := ∀ tx ∈ p.broadcast, ∃ o ∈ p.processed, o.tx = tx

instance (p : Shared) : Decidable p.Settled := by
  unfold Settled
  infer_instance

def AppliesOnce (env : Env) (p : Shared) : Prop := p.daemon.tokens.forget = (p.ledger env).forget

def Visits (p : Shared) : SharedEvent → Prop
  | .restart order => ∀ d, p.daemon.file = some d → Enumerates order d.tokens
  | _ => True

def RestartsOnOwn (p : Shared) : SharedEvent → Prop
  | .restart _ => (p.daemon.file = none ∧ p.daemon.tokens = TokenStore.empty) ∨
      (p.daemon.file = some p.daemon.tokens.save ∧ p.daemon.tokens.IndexCurrent)
  | _ => True

variable {env : Env} {p : Shared}

theorem tokens_processed (o : OnChain) :
    (p.daemon.processed env o.height o.tx o.nonce).tokens = o.effect env p.daemon.tokens := by
  unfold Handler.processed OnChain.effect
  grind

theorem forget_effect_congr {s s' : TokenStore} (h : s.forget = s'.forget) (o : OnChain) :
    (o.effect env s).forget = (o.effect env s').forget := by
  have hexec : executes env s o.height o.tx o.nonce = executes env s' o.height o.tx o.nonce := by
    rw [← TokenStore.executes_forget, h, TokenStore.executes_forget]
  grind [OnChain.effect, TokenStore.forget_step_congr]

theorem visits_restart {order : List Bytes} (hfile : p.daemon.file = some p.daemon.tokens.save)
    (ho : Enumerates order p.daemon.tokens.tokens) : p.Visits (.restart order) := by
  intro d hd
  rw [hfile] at hd
  cases hd
  exact ho

theorem appliesOnce_step (p : Shared) (e : SharedEvent) (h : p.AppliesOnce env)
    (hok : p.Visits e ∧ p.RestartsOnOwn e) : (p.step env e).AppliesOnce env := by
  obtain ⟨hv, hown⟩ := hok
  cases e with
  | walletLoad w order =>
    cases hfile : p.daemon.file with
    | none =>
      simp only [step, hfile]
      exact h
    | some d =>
      simp only [step, hfile]
      exact h
  | walletApply w op => exact h
  | walletBroadcast w tx => exact h
  | walletSave w => exact h
  | processTokenTx o =>
    have hledger : (p.step env (.processTokenTx o)).ledger env = o.effect env (p.ledger env) := by
      simp [ledger, step]
    have htokens : (p.step env (.processTokenTx o)).daemon.tokens = o.effect env p.daemon.tokens := tokens_processed o
    grind [AppliesOnce, forget_effect_congr]
  | daemonSave => exact h
  | restart order =>
    have hledger : (p.step env (.restart order)).ledger env = p.ledger env := rfl
    have hsame : (p.step env (.restart order)).daemon.tokens.forget = p.daemon.tokens.forget := by
      rcases hown with ⟨hfile, hempty⟩ | ⟨hfile, hcurrent⟩
      · simp [step, Handler.step, hfile, hempty]
      · simp only [step, Handler.step, hfile]
        exact TokenStore.forget_load_save hcurrent (hv _ hfile)
    unfold AppliesOnce
    rw [hledger, hsame]
    exact h

/-- **Every operation of the chain takes effect once** in each interleaving of wallets and daemon in
which a restart finds the file as the daemon left it. -/
theorem daemon_applies_once (env : Env) (es : List SharedEvent) (hv : Meets (step env) Visits start es)
    (hown : Meets (step env) RestartsOnOwn start es) : Always (step env) (AppliesOnce env) start es :=
  always_of_invariant appliesOnce_step (fun _ h => h) rfl (hv.and hown)

section Example

def issue : OnChain :=
  ⟨tokenSignatureActivationHeight,
    signedTx 1 1 .create [ascii "cEVM1", ascii "Gold", ascii "GLD", ascii "10", Env.plainAddress 1], 0⟩

def pay : OnChain :=
  ⟨tokenSignatureActivationHeight + 1,
    signedTx 2 1 .transfer [ascii "cEVM1", Env.plainAddress 1, Env.plainAddress 2, ascii "3"], 0⟩

def payLocally : StoreOp := .transferByAddress (ascii "cEVM1") (Env.plainAddress 1) (Env.plainAddress 2) 3

def minedFirst : List SharedEvent :=
  [.processTokenTx issue, .walletLoad 0 [ascii "Gold"], .walletApply 0 payLocally, .walletBroadcast 0 pay.tx,
    .walletSave 0, .processTokenTx pay, .restart [ascii "Gold"]]

def restartFirst : List SharedEvent :=
  [.processTokenTx issue, .walletLoad 0 [ascii "Gold"], .walletApply 0 payLocally, .walletBroadcast 0 pay.tx,
    .walletSave 0, .restart [ascii "Gold"], .processTokenTx pay]

theorem minedFirst_applies_once : AppliesOnce Env.plain (run (step Env.plain) start minedFirst) := by
  let before := run (step Env.plain) start (minedFirst.take 6)
  have hfile : before.daemon.file = some before.daemon.tokens.save := by decide +kernel
  have hcalls : before.daemon.tokens =
      ((TokenStore.empty.step Env.plain (.create (ascii "Gold") (ascii "GLD") 10 (Env.plainAddress 1) 0
        (ascii "cEVM1") 0)).1.step Env.plain payLocally).1 := by decide +kernel
  have hindexed : before.daemon.tokens.Indexed := by
    have hfresh : TokenStore.empty.Unused (ascii "Gold") (ascii "cEVM1") :=
      ⟨rfl, fun n t hg => by simp [TokenStore.get, TokenStore.empty] at hg⟩
    have hfirst := @TokenStore.indexed_create Env.plain TokenStore.empty (ascii "Gold") (ascii "GLD")
      (Env.plainAddress 1) (ascii "cEVM1") 10 0 0 TokenStore.indexed_empty hfresh
    rw [hcalls]
    exact @TokenStore.indexed_step Env.plain _ _ payLocally _ hfirst rfl fun _ _ _ _ _ _ _ h => by cases h
  have hkeys : before.daemon.tokens.tokens.keys = {ascii "Gold"} := by decide +kernel
  have horder : Enumerates [ascii "Gold"] before.daemon.tokens.tokens := by
    refine ⟨List.nodup_singleton _, fun k => ?_⟩
    rw [← Finmap.mem_keys, hkeys, List.mem_singleton, Finset.mem_singleton]
  have hvisits := visits_restart hfile horder
  have hown : before.RestartsOnOwn (.restart [ascii "Gold"]) := Or.inr ⟨hfile, hindexed.addressOf, hindexed.indexed⟩
  have halways := daemon_applies_once Env.plain minedFirst
    ⟨trivial, trivial, trivial, trivial, trivial, trivial, hvisits, trivial⟩
    ⟨trivial, trivial, trivial, trivial, trivial, trivial, hown, trivial⟩
  exact always_iff_initial.1 halways minedFirst (List.prefix_refl _)

/-- The daemon starts with the wallet's copy, in which the payment is already made, and makes it again
when it is mined: six coins have moved instead of three. -/
theorem restartFirst_pays_twice :
    let p := run (step Env.plain) start restartFirst
    p.Settled ∧
    p.daemon.tokens.balanceOf (ascii "Gold") (Env.plainAddress 2) = 6 ∧
    (p.ledger Env.plain).balanceOf (ascii "Gold") (Env.plainAddress 2) = 3 := by
  decide +kernel

end Example

end Shared

end Electronero
