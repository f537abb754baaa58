import Electronero.Lib.Run
import Electronero.Protocol.Daemon
import Electronero.Protocol.Reorg
/-!
# The live store and the rescanned one

The hook in `add_new_tx` runs when a transaction that came with a block enters the pool, a rescan on the blocks of the
main chain. The hook knows nothing of the mempool, of a block's order, its miner transaction or its fate.
-/
namespace Electronero
open Text FiniteMap List

/-- A `create` without address, which will be generated from a random number. -/
def TokenRequest.drawsAddress (r : TokenRequest) : Bool := r.op = .create && r.parts.headD [] = []

def replayable (env : Env) (tx : Transaction) : Bool :=
  (tokenRequest env tx).all fun r => !badNumber r && !r.drawsAddress

def tokenEffect (env : Env) (s : TokenStore) (height : UInt64) (tx : Transaction) : TokenStore :=
  match processTokenTx env s height tx 0 with
  | .ok s' => s'
  | .error _ => s

def replay (env : Env) (s : TokenStore) (vs : List Visit) : TokenStore :=
  vs.foldl (fun s v => tokenEffect env s v.1 v.2) s

section Effect
variable {env : Env} {s : TokenStore} {height : UInt64} {tx : Transaction} {rand : Transaction → UInt64}

theorem step_withNonce {r : TokenRequest} {op : StoreOp} (hd : dispatch 0 r.op r.parts = .ok (some op))
    (h : r.drawsAddress = false) (nonce : UInt64) : s.step env (op.withNonce nonce) = s.step env op := by
  by_cases hcreate : r.op = .create
  · rw [hcreate] at hd
    obtain ⟨address, name, symbol, digits, creator, rest, supply, fee, hparts, rfl⟩ := dispatch_create hd
    have hne : address ≠ [] := by simpa [TokenRequest.drawsAddress, hcreate, hparts] using h
    simp [StoreOp.withNonce, TokenStore.step, TokenStore.create, TokenStore.createAddress, hne]
  · -- only a `create` call carries a nonce
    cases op with
    | create name symbol supply creator fee address nonce' => exact absurd (op_of_dispatch_create hd) hcreate
    | _ => rfl

theorem processTokenTx_replayable (h : replayable env tx = true) (nonce : UInt64) :
    processTokenTx env s height tx nonce = .ok (tokenEffect env s height tx) := by
  unfold tokenEffect processTokenTx executes
  unfold replayable at h
  cases hr : tokenRequest env tx with
  | none => rfl
  | some r =>
    dsimp only
    cases authorised env s height r with
    | false => rfl
    | true =>
      simp only [if_true]
      rw [dispatch_nonce r.op r.parts 0 nonce]
      simp only [hr, Option.all_some, Bool.and_eq_true, Bool.not_eq_true'] at h
      cases hd : dispatch 0 r.op r.parts with
      | error e =>
        have hbad := (dispatch_error_iff r 0).1 ⟨e, hd⟩
        rw [h.1] at hbad
        cases hbad
      | ok o =>
        cases o with
        | none => rfl
        | some op => simp only [Except.map, Option.map_some, step_withNonce hd h.2]

theorem tokenEffect_of_not_token (h : isTokenTx env tx = false) : tokenEffect env s height tx = s := by
  unfold tokenEffect
  rw [processTokenTx_of_not_token h]

theorem replayable_of_not_token (h : isTokenTx env tx = false) : replayable env tx = true := by
  unfold isTokenTx at h
  unfold replayable
  simp_all

theorem replay_filter (s : TokenStore) (vs : List Visit) :
    replay env s (vs.filter (isTokenTx env ·.2)) = replay env s vs := by
  induction vs generalizing s with
  | nil => rfl
  | cons v vs ih =>
    unfold replay at ih ⊢
    grind [isTokenTx, tokenEffect_of_not_token]

theorem processAll_eq_replay {vs : List Visit} (h : ∀ v ∈ vs, replayable env v.2 = true) (s : TokenStore) :
    processAll env rand s vs = (replay env s vs, none) := by
  induction vs generalizing s with
  | nil => rfl
  | cons v vs ih =>
    obtain ⟨height, tx⟩ := v
    rw [processAll_cons, processTokenTx_replayable (h _ mem_cons_self)]
    exact ih (fun v hv => h v (mem_cons_of_mem _ hv)) _

variable {chain : Chain}

theorem scanBlocks_eq_replay {height : Nat} (h : ∀ v ∈ visits height chain, replayable env v.2 = true)
    (s : TokenStore) :
    scanBlocks env rand s height chain = ⟨replay env s (visits height chain), chain.length, none⟩ := by
  induction chain generalizing s height with
  | nil => rfl
  | cons b rest ih =>
    unfold visits at h
    unfold scanBlocks
    rw [processAll_eq_replay fun v hv => h v (mem_append_left _ hv)]
    dsimp only
    rw [ih fun v hv => h v (mem_append_right _ hv)]
    simp only [visits, replay, foldl_append, length_cons]

theorem rescan_eq_replay (h : ∀ v ∈ markedVisits (isTokenTx env) chain, replayable env v.2 = true) :
    rescanTokenOperations env rand chain 0 =
      ⟨replay env TokenStore.empty (markedVisits (isTokenTx env) chain), chain.length, none⟩ := by
  have hall : ∀ v ∈ visits 0 chain, replayable env v.2 = true := by
    intro v hv
    cases ht : isTokenTx env v.2 with
    | false => exact replayable_of_not_token ht
    | true => exact h v (mem_filter.2 ⟨hv, ht⟩)
  have hfrom : rescanFrom 0 = 0 := rfl
  unfold rescanTokenOperations markedVisits
  rw [replay_filter, hfrom]
  dsimp only
  split
  · rename_i hle
    rw [eq_nil_of_length_eq_zero (Nat.le_zero.1 hle)]
    rfl
  · rw [drop_zero]
    exact scanBlocks_eq_replay hall _

end Effect

/-! ## Conditions on a step, on its input and the base layer before it -/

def Base.grownBy (b b' : Base) : Option StoredBlock :=
  if b'.chain.dropLast = b.chain then b'.chain.getLast? else none

def connects (depth : Nat) (b : Base) (ev : DaemonEvent) : Bool :=
  match ev with
  | .rollback _ _ => false
  | _ => ev.block.all fun x => x.2.prevId = b.tailId && (b.grownBy (b.step depth ev)).isSome

def blockTokenTxs (env : Env) (e : StoredBlock) : List Transaction :=
  ((e.block.minerTx :: (e.txs.filter isCreateTx ++ e.txs.filter (!isCreateTx ·)))).filter (isTokenTx env)

/-- Token transactions come with their block only, in the order of the rescan, and have a fixed effect. -/
def inOrder (env : Env) (depth : Nat) (b : Base) (ev : DaemonEvent) : Bool :=
  match ev.block with
  | none => ev.txs.all (!isTokenTx env ·)
  | some (_, bl) => !isTokenTx env bl.minerTx && ev.txs.all (replayable env) &&
      (b.grownBy (b.step depth ev)).all fun e => ev.txs.filter (isTokenTx env) = blockTokenTxs env e

def StoredBlock.tokenFree (env : Env) (e : StoredBlock) : Bool :=
  !isTokenTx env e.block.minerTx && e.txs.all (!isTokenTx env ·)

def noneMoved (env : Env) (depth : Nat) (b : Base) (ev : DaemonEvent) : Bool :=
  ev.txs.all (!isTokenTx env ·) && ev.block.all (!isTokenTx env ·.2.minerTx) &&
    ((b.step depth ev).popped.drop b.popped.length).all (·.tokenFree env)

def settles (env : Env) (depth : Nat) (b : Base) (ev : DaemonEvent) : Bool :=
  noneMoved env depth b ev || (ev.block.isSome && connects depth b ev && inOrder env depth b ev)

structure Agrees (env : Env) (d : Daemon) : Prop where
  clean : d.base.Clean (isTokenTx env)
  popped : ∀ e ∈ d.base.popped, e.Free (isTokenTx env)
  replayable : ∀ v ∈ markedVisits (isTokenTx env) d.base.chain, replayable env v.2 = true
  tokens : d.tokens = replay env TokenStore.empty (markedVisits (isTokenTx env) d.base.chain)

section Invariant
variable {env : Env} {rand : Transaction → UInt64} {depth : Nat} {d : Daemon} {ev : DaemonEvent}

theorem agrees_start (env : Env) : Agrees env Daemon.start := by
  refine ⟨⟨?_, ?_, ?_⟩, ?_, ?_, rfl⟩
  · intro id tx h
    cases h
  · intro id tx h
    cases h
  · intro id e h
    cases h
  · intro e h
    cases h
  · intro v h
    cases h

theorem Agrees.rescan (h : Agrees env d) (rand : Transaction → UInt64) :
    rescanTokenOperations env rand d.base.chain 0 = ⟨d.tokens, d.base.chain.length, none⟩ := by
  rw [rescan_eq_replay h.replayable, h.tokens]

variable {e : StoredBlock} {b b' : Base} {txs added : List Transaction}

theorem StoredBlock.tokenFree_iff : e.tokenFree env = true ↔ e.Free (isTokenTx env) := by
  simp [StoredBlock.tokenFree, StoredBlock.Free]

theorem Base.grownBy_eq_some (h : b.grownBy b' = some e) : b'.chain = b.chain ++ [e] := by
  unfold Base.grownBy at h
  split at h
  · rename_i hdrop
    rw [← hdrop]
    exact (dropLast_append_getLast? e h).symm
  · cases h

theorem returns_replayable (h : ∀ tx ∈ txs, replayable env tx = true) :
    Returns (processHook env rand) (tokenEffect env) txs :=
  fun tx htx _ _ => processTokenTx_replayable (h tx htx) (rand tx)

theorem Base.Offered.keyed (h : b.Offered b' added) (hkeyed : ∀ id tx, b.pool.lookup id = some tx → tx.id = id) :
    ∀ id tx, b'.pool.lookup id = some tx → tx.id = id := by
  intro id tx hl
  rcases h.pool id tx hl with hl | ⟨hid, -⟩
  · exact hkeyed id tx hl
  · exact hid

theorem Base.Offered.keeps {p : Transaction → Bool} (h : b.Offered b' added) :
    Base.Keeps p (∀ tx ∈ added, p tx = false) b b' := by
  refine ⟨h.popped ▸ prefix_refl _, fun hfree _ hc => ⟨⟨h.keyed hc.keyed, ?_, ?_⟩, by rw [h.chain]⟩⟩
  · intro id tx hl
    rcases h.pool id tx hl with hl | ⟨-, hmem⟩
    · exact hc.pool id tx hl
    · exact hfree tx hmem
  · rw [h.alternatives]
    exact hc.alternatives

theorem foldl_tokenEffect_filter (height : UInt64) (txs : List Transaction) (s : TokenStore) :
    txs.foldl (fun s tx => tokenEffect env s height tx) s =
      replay env s ((txs.filter (isTokenTx env)).map fun tx => (height, tx)) := by
  induction txs generalizing s with
  | nil => rfl
  | cons tx txs ih =>
    cases htx : isTokenTx env tx with
    | true => simp only [foldl_cons, ih, filter_cons, htx, if_true, map_cons, replay]
    | false =>
      simp only [foldl_cons, ih, filter_cons, htx, Bool.false_eq_true, if_false, tokenEffect_of_not_token htx]

theorem step_unmarked (hfree : ∀ tx ∈ ev.txs, isTokenTx env tx = false)
    (hminer : ∀ x, ev.block = some x → isTokenTx env x.2.minerTx = false) (d : Daemon) :
    Base.Keeps (isTokenTx env) True d.base (d.step (processHook env rand) depth ev).base ∧
      (d.step (processHook env rand) depth ev).tokens = d.tokens ∧
      (d.step (processHook env rand) depth ev).base = d.base.step depth ev := by
  have hok : Returns (processHook env rand) (tokenEffect env) ev.txs :=
    returns_replayable fun tx htx => replayable_of_not_token (hfree tx htx)
  have hadded : ∀ {added : List Transaction}, added.Sublist ev.txs → ∀ tx ∈ added, isTokenTx env tx = false :=
    fun hsub tx htx => hfree tx (hsub.subset htx)
  cases hev : ev.block with
  | some x =>
    obtain ⟨rules, bl⟩ := x
    obtain ⟨d₁, go, ⟨added, hsub, hoff, htok⟩, hstep, hbase⟩ := step_of_block hev hok d
    have htok₁ : d₁.tokens = d.tokens := by
      have hnone : added.filter (isTokenTx env) = [] :=
        filter_eq_nil_iff.2 fun tx htx => by simp [hadded hsub tx htx]
      rw [htok, if_pos rfl, foldl_tokenEffect_filter, hnone]
      rfl
    have hkeep₁ : Base.Keeps (isTokenTx env) True d.base d₁.base := hoff.keeps.weaken fun _ => hadded hsub
    refine ⟨?_, ?_, hbase⟩
    · rw [hstep]
      cases go with
      | false => exact hkeep₁
      | true => exact hkeep₁.trans (Base.keeps_addNewBlock depth d₁.base bl) fun _ _ _ => hminer _ hev
    · rw [hstep]
      cases go <;> exact htok₁
  | none =>
    cases ev with
    | newTransactions rules blobs =>
      obtain ⟨hbase, -, ⟨added, hsub, hoff, htok⟩⟩ :=
        @offerEach_took (tokenEffect env) false (processHook env rand) rules blobs d TokenStore.empty hok
      exact ⟨hoff.keeps.weaken fun _ => hadded hsub, htok, hbase⟩
    | rollback rules height =>
      refine ⟨(Base.keeps_rollback d.base [] height).weaken fun _ => ?_, rfl, rfl⟩
      intro bl hbl
      cases hbl
    | removeFromPool id =>
      refine ⟨⟨prefix_refl _, fun _ _ hc => ⟨⟨?_, ?_, hc.alternatives⟩, rfl⟩⟩, rfl, rfl⟩
      · intro id' tx h
        exact hc.keyed id' tx (lookup_of_lookup_erase h).2
      · intro id' tx h
        exact hc.pool id' tx (lookup_of_lookup_erase h).2
    | newBlock rules bl blobs => cases hev
    | newFluffyBlock rules bl blobs => cases hev
    | syncBlock rules bl blobs => cases hev

theorem agrees_of_noneMoved (h : Agrees env d) (hev : noneMoved env depth d.base ev = true) :
    Agrees env (d.step (processHook env rand) depth ev) := by
  unfold noneMoved at hev
  simp only [Bool.and_eq_true, List.all_eq_true, Bool.not_eq_true'] at hev
  obtain ⟨⟨hfree, hminer⟩, hpops⟩ := hev
  have hminer' : ∀ x, ev.block = some x → isTokenTx env x.2.minerTx = false := by
    intro x hx
    simpa [hx] using hminer
  obtain ⟨hkeeps, htok, hbase⟩ := @step_unmarked env rand depth ev hfree hminer' d
  have hpopped : ∀ e ∈ (d.step (processHook env rand) depth ev).base.popped, e.Free (isTokenTx env) := by
    intro e he
    obtain ⟨new, hnew⟩ := hkeeps.popped
    rw [← hnew] at he
    rcases mem_append.1 he with he | he
    · exact h.popped e he
    · grind [StoredBlock.tokenFree_iff]
  obtain ⟨hclean, hmarked⟩ := hkeeps.kept trivial hpopped h.clean
  refine ⟨hclean, hpopped, ?_, ?_⟩
  · rw [hmarked]
    exact h.replayable
  · rw [hmarked, htok]
    exact h.tokens

theorem step_of_connects {rules : BaseRules} {bl : Block} {e : StoredBlock} (hev : ev.block = some (rules, bl))
    (hok : Returns (processHook env rand) (tokenEffect env) ev.txs) (htail : bl.prevId = d.base.tailId)
    (hgrown : (d.base.step depth ev).chain = d.base.chain ++ [e]) :
    ∃ d₁ : Daemon, d.Took (tokenEffect env) true d₁ ev.txs ∧
      (d₁.base.handleBlockToMainChain rules bl).1.chain = d₁.base.chain ++ [e] ∧
      d.step (processHook env rand) depth ev = ⟨(d₁.base.handleBlockToMainChain rules bl).1, d₁.tokens⟩ := by
  obtain ⟨d₁, go, htook, hstep, hbase⟩ := @step_of_block _ _ _ depth ev bl hev hok d
  have hchain : d₁.base.chain = d.base.chain := by
    obtain ⟨_, _, hoff, _⟩ := htook
    exact hoff.chain
  rw [← hbase, hstep, ← hchain] at hgrown
  have hstay : d₁.base.chain ≠ d₁.base.chain ++ [e] := by simp
  cases go with
  | false => exact absurd hgrown hstay
  | true =>
    have hadd : (d₁.base.addNewBlock rules depth bl).1.chain = d₁.base.chain ++ [e] := hgrown
    have hmain : d₁.base.addNewBlock rules depth bl = d₁.base.handleBlockToMainChain rules bl := by
      grind [Base.addNewBlock, Base.tailId]
    refine ⟨d₁, htook, ?_, ?_⟩
    · rw [← hmain]
      exact hadd
    · rw [hstep, if_pos rfl, ← hmain]
      rfl

theorem connects_block {rules : BaseRules} {bl : Block} (hev : ev.block = some (rules, bl))
    (h : connects depth b ev = true) : bl.prevId = b.tailId ∧ ∃ e, b.grownBy (b.step depth ev) = some e := by
  unfold connects at h
  split at h
  · cases h
  · rw [← Option.isSome_iff_exists]
    simpa [hev] using h

theorem blockTokenTxs_perm (hminer : isTokenTx env e.block.minerTx = false) :
    (blockTokenTxs env e).Perm (e.txs.filter (isTokenTx env)) := by
  unfold blockTokenTxs
  rw [filter_cons, hminer]
  exact (filter_append_perm isCreateTx e.txs).filter _

theorem markedVisits_token (chain : Chain) (e : StoredBlock) :
    markedVisits (isTokenTx env) (chain ++ [e]) = markedVisits (isTokenTx env) chain ++
      (blockTokenTxs env e).map fun tx => (UInt64.ofNat chain.length, tx) := by
  have hvisits : (blockVisits (UInt64.ofNat chain.length) e).filter (isTokenTx env ·.2) =
      (blockTokenTxs env e).map fun tx => (UInt64.ofNat chain.length, tx) := by
    unfold blockVisits blockTokenTxs
    rw [List.filter_map]
    rfl
  rw [markedVisits_snoc, hvisits]

theorem added_eq_blockTokenTxs {b₁ : Base}
    (hclean : b.Clean (isTokenTx env)) (hoff : b.Offered b₁ added) (hsub : added.Sublist txs)
    (hminer : isTokenTx env e.block.minerTx = false) (hnodup : (e.txs.map (·.id)).Nodup)
    (hpool : ∀ tx ∈ e.txs, b₁.pool.lookup tx.id = some tx) (horder : txs.filter (isTokenTx env) = blockTokenTxs env e) :
    added.filter (isTokenTx env) = blockTokenTxs env e := by
  have hperm := blockTokenTxs_perm hminer
  have hdistinct : (blockTokenTxs env e).Nodup :=
    hperm.nodup_iff.2 ((Nodup.of_map _ hnodup).filter _)
  have hfrom : blockTokenTxs env e ⊆ added.filter (isTokenTx env) := by
    intro tx htx
    obtain ⟨hmem, htoken⟩ := mem_filter.1 (hperm.subset htx)
    rcases hoff.pool _ _ (hpool tx hmem) with hold | ⟨-, hadded⟩
    · -- before the message the pool had no token transaction
      rw [hclean.pool _ _ hold] at htoken
      cases htoken
    · exact mem_filter.2 ⟨hadded, htoken⟩
  have hshort := horder ▸ hsub.filter _
  exact hshort.eq_of_length_le (hdistinct.subperm hfrom).length_le

theorem agrees_of_inOrder (h : Agrees env d) (hblock : ev.block.isSome = true)
    (hconnects : connects depth d.base ev = true) (horder : inOrder env depth d.base ev = true) :
    Agrees env (d.step (processHook env rand) depth ev) := by
  obtain ⟨⟨rules, bl⟩, hev⟩ := Option.isSome_iff_exists.1 hblock
  obtain ⟨htail, e, he⟩ := connects_block hev hconnects
  unfold inOrder at horder
  simp only [hev, he, Option.all_some, Bool.and_eq_true, Bool.not_eq_true', List.all_eq_true, decide_eq_true_eq]
    at horder
  obtain ⟨⟨hminer, hreplay⟩, htxs⟩ := horder
  obtain ⟨d₁, ⟨added, hsub, hoff, htok⟩, hgrown, hstep⟩ :=
    @step_of_connects env rand depth d ev rules bl e hev (returns_replayable hreplay) htail (Base.grownBy_eq_some he)
  have hkeyed := hoff.keyed h.clean.keyed
  obtain ⟨rfl, hnodup, hpool, halt, hpopped, hrest⟩ := Base.handleBlockToMainChain_grown hkeyed hgrown
  have hadded := added_eq_blockTokenTxs h.clean hoff hsub hminer hnodup hpool htxs
  rw [hstep]
  rw [hoff.chain] at hgrown
  refine ⟨⟨fun id tx hl => hkeyed id tx (hrest id tx hl).1, fun id tx hl => ?_, ?_⟩, ?_, ?_, ?_⟩
  · -- a token transaction of the message is in the block and has left the pool with it
    obtain ⟨hl, hnot⟩ := hrest id tx hl
    rcases hoff.pool id tx hl with hold | ⟨-, hmem⟩
    · exact h.clean.pool id tx hold
    · cases htoken : isTokenTx env tx with
      | false => rfl
      | true =>
        have hin : tx ∈ blockTokenTxs env e := hadded ▸ mem_filter.2 ⟨hmem, htoken⟩
        exact absurd (mem_of_mem_filter ((blockTokenTxs_perm hminer).subset hin)) hnot
  · dsimp only
    rw [halt, hoff.alternatives]
    exact h.clean.alternatives
  · dsimp only
    rw [hpopped, hoff.popped]
    exact h.popped
  · dsimp only
    rw [hgrown, markedVisits_token]
    intro v hv
    rcases mem_append.1 hv with hv | hv
    · exact h.replayable v hv
    · grind
  · dsimp only
    rw [hgrown, markedVisits_token, htok, if_pos rfl, foldl_tokenEffect_filter, hadded, h.tokens]
    exact foldl_append.symm

theorem agrees_of_settles (h : Agrees env d) (hev : settles env depth d.base ev = true) :
    Agrees env (d.step (processHook env rand) depth ev) := by
  unfold settles at hev
  grind [agrees_of_noneMoved, agrees_of_inOrder]

theorem settles_of_inOrder (hconnects : connects depth b ev = true)
    (horder : inOrder env depth b ev = true) : settles env depth b ev = true := by
  unfold settles
  cases hev : ev.block with
  | some x => simp [hconnects, horder]
  | none =>
    have htxs : ev.txs.all (!isTokenTx env ·) = true := by simpa [inOrder, hev] using horder
    have hpopped : (b.step depth ev).popped = b.popped := by
      cases ev with
      | newTransactions rules blobs =>
        obtain ⟨-, -, ⟨_, _, hoff, _⟩⟩ := @offerEach_took (fun s _ _ => s) false noHook rules blobs
          ⟨b, TokenStore.empty⟩ TokenStore.empty fun _ _ _ _ => rfl
        exact hoff.popped
      | removeFromPool id => rfl
      | rollback rules height => cases hconnects
      | newBlock rules bl blobs => cases hev
      | newFluffyBlock rules bl blobs => cases hev
      | syncBlock rules bl blobs => cases hev
    simp [noneMoved, htxs, hev, hpopped]

end Invariant

def Daemon.MatchesRescan (env : Env) (d : Daemon) : Prop :=
  ∀ rand, rescanTokenOperations env rand d.base.chain 0 = ⟨d.tokens, d.base.chain.length, none⟩

abbrev Daemon.runFrom (env : Env) (rand : Transaction → UInt64) (depth : Nat) (evs : List DaemonEvent) : Daemon :=
  Machine.run (Daemon.step (processHook env rand) depth) Daemon.start evs

abbrev Daemon.RunMeets (env : Env) (rand : Transaction → UInt64) (depth : Nat) (ok : Base → DaemonEvent → Bool)
    (evs : List DaemonEvent) : Prop :=
  Machine.Meets (Daemon.step (processHook env rand) depth) (fun d ev => ok d.base ev = true) Daemon.start evs

section Runs
variable (env : Env) (rand : Transaction → UInt64) (depth : Nat) (evs : List DaemonEvent)

theorem agrees_run (h : Daemon.RunMeets env rand depth (settles env depth) evs) :
    Agrees env (Daemon.runFrom env rand depth evs) :=
  Machine.run_invariant (fun _ _ hd hev => agrees_of_settles hd hev) (agrees_start env) h

theorem runMeets_settles (hconnects : Daemon.RunMeets env rand depth (connects depth) evs)
    (horder : Daemon.RunMeets env rand depth (inOrder env depth) evs) :
    Daemon.RunMeets env rand depth (settles env depth) evs := by
  exact (hconnects.and horder).mono fun _ _ h => settles_of_inOrder h.1 h.2

/-- **Live processing and rescan** agree if token transactions come with blocks that are put on top of the chain, in the
order of a rescan and with a fixed effect. -/
theorem live_matches_rescan (hconnects : Daemon.RunMeets env rand depth (connects depth) evs)
    (horder : Daemon.RunMeets env rand depth (inOrder env depth) evs) :
    Machine.Always (Daemon.step (processHook env rand) depth) (Daemon.MatchesRescan env) Daemon.start evs ∧
    ∀ (rand₂ : Transaction → UInt64) (depth₂ : Nat) (evs₂ : List DaemonEvent),
      Daemon.RunMeets env rand₂ depth₂ (connects depth₂) evs₂ →
      Daemon.RunMeets env rand₂ depth₂ (inOrder env depth₂) evs₂ →
      (Daemon.runFrom env rand₂ depth₂ evs₂).base.chain = (Daemon.runFrom env rand depth evs).base.chain →
      (Daemon.runFrom env rand₂ depth₂ evs₂).tokens = (Daemon.runFrom env rand depth evs).tokens := by
  have hsettles := runMeets_settles env rand depth evs hconnects horder
  refine ⟨?_, fun rand₂ depth₂ evs₂ hconnects₂ horder₂ hchain => ?_⟩
  · exact Machine.always_of_invariant (fun _ _ hd hev => agrees_of_settles hd hev) (fun _ hd => hd.rescan)
      (agrees_start env) hsettles
  · have h := agrees_run env rand depth evs hsettles
    have h₂ := agrees_run env rand₂ depth₂ evs₂ (runMeets_settles env rand₂ depth₂ evs₂ hconnects₂ horder₂)
    rw [h₂.tokens, h.tokens, hchain]

end Runs

section Example

def issueTx : Transaction :=
  signedTx 1 1 .create [ascii "cEVM1", ascii "Gold", ascii "GLD", ascii "10", Env.plainAddress 1]

def plainTx : Transaction := ⟨Env.plainKey 2, 2, some []⟩

def firstBlock : Block :=
  ⟨Env.plainKey 11, 1, 0, 0, default, 0, ⟨Env.plainKey 10, 2, some []⟩, [issueTx.id, plainTx.id]⟩

def openRules : BaseRules := .lenient [(ascii "issue", issueTx), (ascii "plain", plainTx)]

def quietRun : List DaemonEvent :=
  [.newTransactions openRules [ascii "plain"], .newBlock openRules firstBlock [ascii "issue", ascii "plain"]]

theorem quietRun_matches : Daemon.RunMeets Env.plain (fun _ => 0) 2 (connects 2) quietRun ∧
    Daemon.RunMeets Env.plain (fun _ => 0) 2 (inOrder Env.plain 2) quietRun ∧
    Daemon.MatchesRescan Env.plain (Daemon.runFrom Env.plain (fun _ => 0) 2 quietRun) := by
  have hconnects : Daemon.RunMeets Env.plain (fun _ => 0) 2 (connects 2) quietRun := by decide +kernel
  have horder : Daemon.RunMeets Env.plain (fun _ => 0) 2 (inOrder Env.plain 2) quietRun := by decide +kernel
  have halways := (live_matches_rescan Env.plain (fun _ => 0) 2 quietRun hconnects horder).1
  exact ⟨hconnects, horder, Machine.always_iff_initial.1 halways quietRun (prefix_refl _)⟩

/-- The creation is in the mempool when its block arrives: this node never executes it, a rescan and
a node that has not seen it before do. Both nodes have the same chain. -/
theorem mempoolFirst_differs :
    let late := Daemon.runFrom Env.plain (fun _ => 0) 2
      [.newTransactions openRules [ascii "issue"], .newBlock openRules firstBlock [ascii "issue", ascii "plain"]]
    let direct := Daemon.runFrom Env.plain (fun _ => 0) 2
      [.newBlock openRules firstBlock [ascii "issue", ascii "plain"]]
    late.base.chain.length = 1 ∧ late.base.chain = direct.base.chain ∧
    late.tokens.get (ascii "Gold") = none ∧ (direct.tokens.get (ascii "Gold")).isSome = true ∧
    ((rescanTokenOperations Env.plain (fun _ => 0) late.base.chain 0).tokens.get (ascii "Gold")).isSome = true := by
  decide +kernel

end Example

/-- **The store follows the main chain** if blocks with token transactions connect at once and are not popped. -/
theorem store_follows_mainChain (env : Env) (rand : Transaction → UInt64) (depth : Nat) (evs : List DaemonEvent)
    (h : Daemon.RunMeets env rand depth (settles env depth) evs) :
    Machine.Always (Daemon.step (processHook env rand) depth) (Daemon.MatchesRescan env) Daemon.start evs :=
  Machine.always_of_invariant (fun _ _ hd hev => agrees_of_settles hd hev) (fun _ hd => hd.rescan) (agrees_start env) h

section Example

def emptyBlock (id prevId : Hash) (height : Nat) (minerId : UInt8) : Block :=
  ⟨id, 1, 0, 0, prevId, height, ⟨Env.plainKey minerId, 2, some []⟩, []⟩

def strictRules : BaseRules := { openRules with validateMinerTransaction := fun _ _ _ => false }

def switchRun : List DaemonEvent :=
  [.newBlock openRules firstBlock [ascii "issue", ascii "plain"],
    .newBlock strictRules (emptyBlock (Env.plainKey 21) firstBlock.id 1 31) [],
    .newBlock openRules (emptyBlock (Env.plainKey 22) firstBlock.id 1 32) [],
    .newBlock openRules (emptyBlock (Env.plainKey 23) firstBlock.id 1 33) [],
    .newBlock openRules (emptyBlock (Env.plainKey 24) (Env.plainKey 23) 2 34) []]

theorem switchRun_follows : Daemon.RunMeets Env.plain (fun _ => 0) 2 (settles Env.plain 2) switchRun ∧
    (Daemon.runFrom Env.plain (fun _ => 0) 2 switchRun).base.chain.map (·.block.id) =
      [Env.plainKey 11, Env.plainKey 23, Env.plainKey 24] ∧
    Daemon.MatchesRescan Env.plain (Daemon.runFrom Env.plain (fun _ => 0) 2 switchRun) := by
  have hsettles : Daemon.RunMeets Env.plain (fun _ => 0) 2 (settles Env.plain 2) switchRun := by decide +kernel
  have halways := store_follows_mainChain Env.plain (fun _ => 0) 2 switchRun hsettles
  refine ⟨hsettles, by decide +kernel, ?_⟩
  exact Machine.always_iff_initial.1 halways switchRun (prefix_refl _)

/-- The block is refused and the chain stays empty, or the block is connected and popped again: the
token it creates is in the store all the same, and in no rescan. -/
theorem refusedBlock_leaves_token :
    let refused := Daemon.runFrom Env.plain (fun _ => 0) 2
      [.newBlock strictRules firstBlock [ascii "issue", ascii "plain"]]
    let popped := Daemon.runFrom Env.plain (fun _ => 0) 2
      [.newBlock openRules firstBlock [ascii "issue", ascii "plain"], .rollback openRules 0]
    refused.base.chain = [] ∧ popped.base.chain = [] ∧
    (refused.tokens.get (ascii "Gold")).isSome = true ∧ (popped.tokens.get (ascii "Gold")).isSome = true ∧
    (rescanTokenOperations Env.plain (fun _ => 0) [] 0).tokens.get (ascii "Gold") = none := by
  decide +kernel

end Example

end Electronero
