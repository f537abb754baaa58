import Electronero.Core.Blockchain
import Electronero.Protocol.BaseLayer
/-!
# Messages of the network (`cryptonote_protocol_handler.inl`)

Each event brings its own rules. A message about a block first offers its transactions to the pool, where the token hook
runs. With `noHook` the same step function is the base layer alone.
-/
namespace Electronero
open Text FiniteMap List

def Incoming.failed (q : Incoming) : Bool := q.tvcs.any (·.verificationFailed)

inductive DaemonEvent where
  | newTransactions (rules : BaseRules) (blobs : List Bytes)
  | newBlock (rules : BaseRules) (bl : Block) (blobs : List Bytes)
  | newFluffyBlock (rules : BaseRules) (bl : Block) (blobs : List Bytes)
  | syncBlock (rules : BaseRules) (bl : Block) (blobs : List Bytes)
  | rollback (rules : BaseRules) (height : Nat)
  | removeFromPool (id : Hash)

namespace Daemon

def offerEach (rules : BaseRules) (hook : TokenHook) (keptByBlock : Bool) : Daemon → List Bytes → Daemon × Bool
  | d, [] => (d, true)
  | d, blob :: rest =>
    let q := handleIncomingTxs rules hook d [blob] keptByBlock
    if q.failed then (q.daemon, false) else offerEach rules hook keptByBlock q.daemon rest

def offerMissing (rules : BaseRules) (hook : TokenHook) : Daemon → List Bytes → Daemon × Bool
  | d, [] => (d, true)
  | d, blob :: rest =>
    match rules.parseTx blob with
    | none => (d, false)
    | some tx =>
      if (d.base.pool.lookup tx.id).isSome then offerMissing rules hook d rest
      else
        let q := handleIncomingTxs rules hook d [blob] true
        if !q.ok || q.failed then (q.daemon, false) else offerMissing rules hook q.daemon rest

def handleIncomingBlock (rules : BaseRules) (depth : Nat) (d : Daemon) (bl : Block) : Daemon :=
  { d with base := (d.base.addNewBlock rules depth bl).1 }

def step (hook : TokenHook) (depth : Nat) (d : Daemon) : DaemonEvent → Daemon
  | .newTransactions rules blobs => (offerEach rules hook false d blobs).1
  | .newBlock rules bl blobs =>
    let r := offerEach rules hook true d blobs
    if r.2 then handleIncomingBlock rules depth r.1 bl else r.1
  | .newFluffyBlock rules bl blobs =>
    let r := offerMissing rules hook d blobs
    -- a transaction that is still missing is asked for, and the block waits for the next message
    if r.2 && bl.txHashes.all (fun id => (r.1.base.pool.lookup id).isSome || r.1.base.haveTx id) then
      handleIncomingBlock rules depth r.1 bl
    else r.1
  | .syncBlock rules bl blobs =>
    let q := handleIncomingTxs rules hook d blobs true
    if q.failed then q.daemon else handleIncomingBlock rules depth q.daemon bl
  | .rollback rules height => { d with base := (d.base.rollback rules [] height).1 }
  | .removeFromPool id => { d with base := { d.base with pool := d.base.pool.erase id } }

def start : Daemon := ⟨Base.ofChain [], TokenStore.empty⟩

end Daemon

def Base.step (depth : Nat) (b : Base) (ev : DaemonEvent) : Base :=
  (Daemon.step noHook depth ⟨b, TokenStore.empty⟩ ev).base

def DaemonEvent.txs : DaemonEvent → List Transaction
  | .newTransactions rules blobs => blobs.filterMap rules.parseTx
  | .newBlock rules _ blobs => blobs.filterMap rules.parseTx
  | .newFluffyBlock rules _ blobs => blobs.filterMap rules.parseTx
  | .syncBlock rules _ blobs => blobs.filterMap rules.parseTx
  | .rollback _ _ => []
  | .removeFromPool _ => []

structure Base.Offered (b b' : Base) (added : List Transaction) : Prop where
  chain : b'.chain = b.chain
  alternatives : b'.alternatives = b.alternatives
  popped : b'.popped = b.popped
  pool : ∀ id tx, b'.pool.lookup id = some tx → b.pool.lookup id = some tx ∨ (tx.id = id ∧ tx ∈ added)

theorem Base.Offered.refl (b : Base) : b.Offered b [] := ⟨rfl, rfl, rfl, fun _ _ h => Or.inl h⟩

theorem Base.Offered.trans {b b₁ b₂ : Base} {xs ys : List Transaction} (h : b.Offered b₁ xs) (h' : b₁.Offered b₂ ys) :
    b.Offered b₂ (xs ++ ys) := by
  refine ⟨h'.chain.trans h.chain, h'.alternatives.trans h.alternatives, h'.popped.trans h.popped, ?_⟩
  intro id tx hl
  rcases h'.pool id tx hl with hl | ⟨hid, hmem⟩
  · rcases h.pool id tx hl with hl | ⟨hid, hmem⟩
    · exact Or.inl hl
    · exact Or.inr ⟨hid, mem_append_left _ hmem⟩
  · exact Or.inr ⟨hid, mem_append_right _ hmem⟩

theorem Base.offered_poolAdd (rules : BaseRules) (b : Base) (tx : Transaction) (kept : Bool) :
    b.Offered (b.poolAdd rules tx kept).1 [tx] := by
  unfold poolAdd
  dsimp only
  split
  · refine ⟨rfl, rfl, rfl, fun id tx' h => ?_⟩
    grind [lookup_insert_ite]
  · exact ⟨rfl, rfl, rfl, fun _ _ h => Or.inl h⟩

def Daemon.Took (effect : TokenStore → UInt64 → Transaction → TokenStore) (kept : Bool) (d d' : Daemon)
    (txs : List Transaction) : Prop :=
  ∃ added, added.Sublist txs ∧ d.base.Offered d'.base added ∧
    d'.tokens = if kept then added.foldl (fun s tx => effect s (UInt64.ofNat d.base.height) tx) d.tokens else d.tokens

section Took
variable {effect : TokenStore → UInt64 → Transaction → TokenStore} {kept : Bool} {hook : TokenHook}
  {rules : BaseRules} {d d₁ d₂ : Daemon} {xs ys : List Transaction}

theorem Daemon.Took.refl (d : Daemon) : d.Took effect kept d [] :=
  ⟨[], Sublist.refl _, Base.Offered.refl _, by cases kept <;> rfl⟩

theorem Daemon.Took.mono (h : d.Took effect kept d₁ xs) (hsub : xs.Sublist ys) : d.Took effect kept d₁ ys := by
  obtain ⟨added, hadded, hbase, htok⟩ := h
  exact ⟨added, hadded.trans hsub, hbase, htok⟩

theorem Daemon.Took.trans (h : d.Took effect kept d₁ xs) (h' : d₁.Took effect kept d₂ ys) :
    d.Took effect kept d₂ (xs ++ ys) := by
  obtain ⟨added, hadded, hbase, htok⟩ := h
  obtain ⟨added', hadded', hbase', htok'⟩ := h'
  have hheight : d₁.base.height = d.base.height := congrArg List.length hbase.chain
  refine ⟨added ++ added', hadded.append hadded', hbase.trans hbase', ?_⟩
  grind

def Returns (hook : TokenHook) (effect : TokenStore → UInt64 → Transaction → TokenStore) (txs : List Transaction) : Prop :=
  ∀ tx ∈ txs, ∀ s height, hook s height tx = .ok (effect s height tx)

theorem addNewTx_spec {base : Base} {tx : Transaction} {tvc : TxVerificationContext}
    (hok : Returns hook effect [tx]) (tokens tokens₀ : TokenStore) :
    ∃ d' tvc' r, addNewTx rules hook ⟨base, tokens⟩ tx tvc kept = (d', tvc', .ok r) ∧
      addNewTx rules noHook ⟨base, tokens₀⟩ tx tvc kept = (⟨d'.base, tokens₀⟩, tvc', .ok r) ∧
      Daemon.Took effect kept ⟨base, tokens⟩ d' [tx] := by
  have hnone : Daemon.Took effect kept ⟨base, tokens⟩ ⟨base, tokens⟩ [tx] :=
    (Daemon.Took.refl _).mono (nil_sublist _)
  have hbase := Base.offered_poolAdd rules base tx kept
  unfold addNewTx
  dsimp only
  split
  · exact ⟨⟨base, tokens⟩, tvc, true, rfl, rfl, hnone⟩
  split
  · exact ⟨⟨base, tokens⟩, tvc, true, rfl, rfl, hnone⟩
  rw [hok tx (mem_singleton.2 rfl)]
  cases kept with
  | false =>
    refine ⟨⟨(base.poolAdd rules tx false).1, tokens⟩, (base.poolAdd rules tx false).2.2,
      (base.poolAdd rules tx false).2.1, ?_, ?_, [tx], Sublist.refl _, hbase, rfl⟩
    · simp
    · simp
  | true =>
    cases hr : (base.poolAdd rules tx true).2.1 with
    | true => exact ⟨⟨_, _⟩, _, true, rfl, rfl, [tx], Sublist.refl _, hbase, rfl⟩
    | false =>
      -- a refused transaction leaves the pool as it was
      have hsame : (base.poolAdd rules tx true).1 = base := by
        unfold Base.poolAdd at hr ⊢
        simp only at hr
        simp [hr]
      refine ⟨⟨base, tokens⟩, (base.poolAdd rules tx true).2.2, false, ?_, ?_, hnone⟩
      · simp [hsame]
      · simp [hsame]

theorem offerAll_took (rs : List (Option Transaction × TxVerificationContext)) (base : Base)
    (tokens tokens₀ : TokenStore) (hok : Returns hook effect (rs.filterMap (·.1))) :
    let q := offerAll rules hook kept ⟨base, tokens⟩ rs
    q.SameBase (offerAll rules noHook kept ⟨base, tokens₀⟩ rs) ∧
      Daemon.Took effect kept ⟨base, tokens⟩ q.daemon (rs.filterMap (·.1)) := by
  induction rs generalizing base tokens with
  | nil => exact ⟨⟨rfl, rfl, rfl⟩, Daemon.Took.refl _⟩
  | cons r rest ih =>
    obtain ⟨_ | tx, tvc⟩ := r
    · obtain ⟨⟨hbase, htvcs, -⟩, htook⟩ := ih base tokens hok
      exact ⟨⟨hbase, congrArg (tvc :: ·) htvcs, rfl⟩, htook⟩
    · have hhead : Returns hook effect [tx] := fun t ht => by
        obtain rfl := mem_singleton.1 ht
        exact hok t mem_cons_self
      obtain ⟨d', tvc', r, hadd, hadd₀, htook⟩ := @addNewTx_spec effect kept hook rules base tx tvc hhead tokens tokens₀
      obtain ⟨⟨hbase, htvcs, hres⟩, hrest⟩ := ih d'.base d'.tokens fun t ht => hok t (mem_cons_of_mem _ ht)
      unfold offerAll
      rw [hadd, hadd₀]
      exact ⟨⟨hbase, congrArg (tvc' :: ·) htvcs, congrArg (r && ·) hres⟩, htook.trans hrest⟩

theorem postAll_offered (rs : List (Option Transaction × TxVerificationContext)) (base : Base) :
    base.Offered (postAll rules kept base rs).1 [] ∧
      ((postAll rules kept base rs).2.filterMap (·.1)).Sublist (rs.filterMap (·.1)) := by
  induction rs generalizing base with
  | nil => exact ⟨Base.Offered.refl _, Sublist.refl _⟩
  | cons r rest ih =>
    obtain ⟨_ | tx, tvc⟩ := r
    · exact ih base
    unfold postAll
    split
    · exact ⟨(ih base).1, (ih base).2.cons_cons tx⟩
    dsimp only
    -- either the transaction stays, or it goes and its hash may be remembered
    have hpost : base.Offered (handleIncomingTxPost rules base tx tvc kept).1 [] ∧
        ((handleIncomingTxPost rules base tx tvc kept).2.1 = some tx ∨
          (handleIncomingTxPost rules base tx tvc kept).2.1 = none) := by
      unfold handleIncomingTxPost
      split
      · exact ⟨Base.Offered.refl _, Or.inr rfl⟩
      split
      · exact ⟨Base.Offered.refl _, Or.inl rfl⟩
      split
      · exact ⟨⟨rfl, rfl, rfl, fun _ _ h => Or.inl h⟩, Or.inr rfl⟩
      · exact ⟨Base.Offered.refl _, Or.inl rfl⟩
    obtain ⟨hbase, hsub⟩ := ih (handleIncomingTxPost rules base tx tvc kept).1
    refine ⟨hpost.1.trans hbase, ?_⟩
    rcases hpost.2 with h | h
    · simp only [filterMap_cons, h]
      exact hsub.cons_cons tx
    · simp only [filterMap_cons, h]
      exact hsub.cons tx

theorem handleIncomingTxPre_parse {base : Base} {blob : Bytes} {tx : Transaction}
    (h : (handleIncomingTxPre rules base blob).1 = some tx) : rules.parseTx blob = some tx := by
  unfold handleIncomingTxPre at h
  split at h
  · cases h
  split at h
  · cases h
  grind

theorem pre_sublist (base : Base) (blobs : List Bytes) :
    ((blobs.map (handleIncomingTxPre rules base)).filterMap (·.1)).Sublist (blobs.filterMap rules.parseTx) := by
  induction blobs with
  | nil => exact Sublist.refl _
  | cons blob rest ih =>
    simp only [map_cons, filterMap_cons]
    grind [handleIncomingTxPre, handleIncomingTxPre_parse]

theorem handleIncomingTxs_took (d : Daemon) (blobs : List Bytes) (tokens₀ : TokenStore)
    (hok : Returns hook effect (blobs.filterMap rules.parseTx)) :
    let q := handleIncomingTxs rules hook d blobs kept
    q.SameBase (handleIncomingTxs rules noHook ⟨d.base, tokens₀⟩ blobs kept) ∧
      d.Took effect kept q.daemon (blobs.filterMap rules.parseTx) := by
  have hpre := @pre_sublist rules d.base blobs
  obtain ⟨hbase, hpost⟩ := @postAll_offered kept rules (blobs.map (handleIncomingTxPre rules d.base)) d.base
  have hsub := hpost.trans hpre
  obtain ⟨hsame, htook⟩ := @offerAll_took effect kept hook rules
    (postAll rules kept d.base (blobs.map (handleIncomingTxPre rules d.base))).2
    (postAll rules kept d.base (blobs.map (handleIncomingTxPre rules d.base))).1 d.tokens tokens₀
    fun tx htx => hok tx (hsub.subset htx)
  refine ⟨hsame, ?_⟩
  have hfirst : d.Took effect kept
      ⟨(postAll rules kept d.base (blobs.map (handleIncomingTxPre rules d.base))).1, d.tokens⟩ [] :=
    ⟨[], Sublist.refl _, hbase, by cases kept <;> rfl⟩
  exact (hfirst.trans htook).mono hsub

theorem filterMap_singleton_append (blob : Bytes) (rest : List Bytes) :
    [blob].filterMap rules.parseTx ++ rest.filterMap rules.parseTx = (blob :: rest).filterMap rules.parseTx := by
  rw [← filterMap_append, singleton_append]

theorem offerEach_took (blobs : List Bytes) (d : Daemon) (tokens₀ : TokenStore)
    (hok : Returns hook effect (blobs.filterMap rules.parseTx)) :
    let r := d.offerEach rules hook kept blobs
    let r₀ := Daemon.offerEach rules noHook kept ⟨d.base, tokens₀⟩ blobs
    r.1.base = r₀.1.base ∧ r.2 = r₀.2 ∧ d.Took effect kept r.1 (blobs.filterMap rules.parseTx) := by
  induction blobs generalizing d tokens₀ with
  | nil => exact ⟨rfl, rfl, Daemon.Took.refl _⟩
  | cons blob rest ih =>
    rw [← filterMap_singleton_append] at hok ⊢
    obtain ⟨⟨hbase, htvcs, -⟩, htook⟩ := @handleIncomingTxs_took effect kept hook rules d [blob] tokens₀
      fun tx htx => hok tx (mem_append_left _ htx)
    have hfailed := congrArg (List.any · (·.verificationFailed)) htvcs
    unfold Daemon.offerEach Incoming.failed
    dsimp only at hfailed ⊢
    rw [hfailed]
    split
    · exact ⟨hbase, rfl, htook.mono (sublist_append_left _ _)⟩
    · obtain ⟨hbase', hend, htook'⟩ := ih (handleIncomingTxs rules hook d [blob] kept).daemon
        (handleIncomingTxs rules noHook ⟨d.base, tokens₀⟩ [blob] kept).daemon.tokens
        fun tx htx => hok tx (mem_append_right _ htx)
      rw [hbase] at hbase' hend
      exact ⟨hbase', hend, htook.trans htook'⟩

theorem offerMissing_took (blobs : List Bytes) (d : Daemon) (tokens₀ : TokenStore)
    (hok : Returns hook effect (blobs.filterMap rules.parseTx)) :
    let r := d.offerMissing rules hook blobs
    let r₀ := Daemon.offerMissing rules noHook ⟨d.base, tokens₀⟩ blobs
    r.1.base = r₀.1.base ∧ r.2 = r₀.2 ∧ d.Took effect true r.1 (blobs.filterMap rules.parseTx) := by
  induction blobs generalizing d tokens₀ with
  | nil => exact ⟨rfl, rfl, Daemon.Took.refl _⟩
  | cons blob rest ih =>
    rw [← filterMap_singleton_append] at hok ⊢
    have hrest : Returns hook effect (rest.filterMap rules.parseTx) :=
      fun tx htx => hok tx (mem_append_right _ htx)
    unfold Daemon.offerMissing
    cases hparse : rules.parseTx blob with
    | none => exact ⟨rfl, rfl, (Daemon.Took.refl d).mono (nil_sublist _)⟩
    | some tx =>
      dsimp only
      split
      · obtain ⟨hbase, hend, htook⟩ := ih d tokens₀ hrest
        exact ⟨hbase, hend, htook.mono (sublist_append_right _ _)⟩
      obtain ⟨⟨hbase, htvcs, hres⟩, htook⟩ := @handleIncomingTxs_took effect true hook rules d [blob] tokens₀
        fun tx htx => hok tx (mem_append_left _ htx)
      have hfailed := congrArg (List.any · (·.verificationFailed)) htvcs
      unfold Incoming.failed
      rw [hfailed, hres]
      split
      · exact ⟨hbase, rfl, htook.mono (sublist_append_left _ _)⟩
      · obtain ⟨hbase', hend, htook'⟩ := ih (handleIncomingTxs rules hook d [blob] true).daemon
          (handleIncomingTxs rules noHook ⟨d.base, tokens₀⟩ [blob] true).daemon.tokens hrest
        rw [hbase] at hbase' hend
        exact ⟨hbase', hend, htook.trans htook'⟩

def DaemonEvent.block : DaemonEvent → Option (BaseRules × Block)
  | .newBlock rules bl _ => some (rules, bl)
  | .newFluffyBlock rules bl _ => some (rules, bl)
  | .syncBlock rules bl _ => some (rules, bl)
  | _ => none

theorem step_of_block {depth : Nat} {ev : DaemonEvent} {bl : Block} (hev : ev.block = some (rules, bl))
    (hok : Returns hook effect ev.txs) (d : Daemon) : ∃ (d₁ : Daemon) (go : Bool), d.Took effect true d₁ ev.txs ∧
      d.step hook depth ev = (if go then d₁.handleIncomingBlock rules depth bl else d₁) ∧
      (d.step hook depth ev).base = d.base.step depth ev := by
  cases ev with
  | newBlock rules' bl' blobs =>
    cases hev
    obtain ⟨hbase, hend, htook⟩ := @offerEach_took effect true hook rules blobs d TokenStore.empty hok
    refine ⟨(d.offerEach rules hook true blobs).1, (d.offerEach rules hook true blobs).2, htook, rfl, ?_⟩
    grind [Base.step, Daemon.step, Daemon.handleIncomingBlock]
  | newFluffyBlock rules' bl' blobs =>
    cases hev
    obtain ⟨hbase, hend, htook⟩ := @offerMissing_took effect hook rules blobs d TokenStore.empty hok
    refine ⟨(d.offerMissing rules hook blobs).1, _, htook, rfl, ?_⟩
    grind [Base.step, Daemon.step, Daemon.handleIncomingBlock]
  | syncBlock rules' bl' blobs =>
    cases hev
    obtain ⟨⟨hbase, htvcs, -⟩, htook⟩ := @handleIncomingTxs_took effect true hook rules d blobs TokenStore.empty hok
    have hfailed := congrArg (List.any · (·.verificationFailed)) htvcs
    refine ⟨(handleIncomingTxs rules hook d blobs true).daemon,
      !(handleIncomingTxs rules hook d blobs true).failed, htook, ?_, ?_⟩
    · grind [Daemon.step, handleIncomingTxs]
    · grind [Base.step, Daemon.step, Daemon.handleIncomingBlock, Incoming.failed]
  | newTransactions rules' blobs => cases hev
  | rollback rules' height => cases hev
  | removeFromPool id => cases hev

end Took

end Electronero
