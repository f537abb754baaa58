import Electronero.Core.ScanTable
/-!
# Prepare and cleanup around a batch of blocks

The preparation takes two locks and starts a batch, and it can throw: it goes through the inputs a peer has sent with
`boost::get<txin_to_key>`, before anything has looked at them.

The verdicts of the core are parameters; the exceptions of `handle_incoming_txs` and `handle_incoming_block` end inside.
-/
namespace Electronero.Wire
open Text FiniteMap List

section
variable (prefixHash : TransactionPrefix → Hash)

def Ordinary (txBlob : Bytes) : Prop :=
  ∃ tx inputs, parseTx txBlob = .ok (some tx) ∧ tx.vin.mapM TxIn.getToKey = some inputs

def prefixHashOf (txBlob : Bytes) : Option Hash :=
  match parseTx txBlob with
  | .ok (some tx) => some (prefixHash tx.toTransactionPrefix)
  | _ => none

/-- Behind ordinary transactions with different prefix hashes stands one with an output to something else than a key, or a
new one with an input that is not `txin_to_key`. -/
def Trips (txBlobs : List Bytes) : Prop :=
  ∃ before txBlob after, txBlobs = before ++ txBlob :: after ∧ (∀ b ∈ before, Ordinary b) ∧
    (before.filterMap (prefixHashOf prefixHash)).Nodup ∧
    (parseTx txBlob = .error .badGet ∨ ∃ tx, parseTx txBlob = .ok (some tx) ∧
      prefixHash tx.toTransactionPrefix ∉ before.filterMap (prefixHashOf prefixHash) ∧
      tx.vin.mapM TxIn.getToKey = none)

variable {txBlob : Bytes} {c c' : Collected} {txBlobs : List Bytes}

theorem prefixHashOf_eq {tx : Transaction} (h : parseTx txBlob = .ok (some tx)) :
    prefixHashOf prefixHash txBlob = some (prefixHash tx.toTransactionPrefix) := by
  unfold prefixHashOf
  rw [h]

theorem collectTx_ok_iff : (∃ c', collectTx prefixHash c txBlob = .ok c') ↔
      Ordinary txBlob ∧ ∀ h, prefixHashOf prefixHash txBlob = some h → c.scanTable.lookup h = none := by
  constructor
  · rintro ⟨c', h⟩
    obtain ⟨tx, inputs, htx, hinputs, -⟩ := of_collectTx prefixHash h
    refine ⟨⟨tx, inputs, htx, hinputs⟩, fun hash hhash => ?_⟩
    rw [prefixHashOf_eq prefixHash htx] at hhash
    cases hhash
    by_contra hsome
    unfold collectTx at h
    simp [htx, Option.isSome_iff_ne_none.2 hsome] at h
  · rintro ⟨⟨tx, inputs, htx, hinputs⟩, hnew⟩
    have := hnew _ (prefixHashOf_eq prefixHash htx)
    unfold collectTx
    simp [htx, this, hinputs]

theorem lookup_of_collectTx (h : collectTx prefixHash c txBlob = .ok c') :
    ∃ hash, prefixHashOf prefixHash txBlob = some hash ∧
      ∀ h, c'.scanTable.lookup h = none ↔ c.scanTable.lookup h = none ∧ h ≠ hash := by
  obtain ⟨tx, inputs, htx, -, rfl⟩ := of_collectTx prefixHash h
  refine ⟨_, prefixHashOf_eq prefixHash htx, fun h => ?_⟩
  grind [lookup_insert_ite]

theorem lookup_of_foldlM_collectTx (h : txBlobs.foldlM (collectTx prefixHash) c = .ok c') (hash : Hash) :
    c'.scanTable.lookup hash = none ↔
      c.scanTable.lookup hash = none ∧ hash ∉ txBlobs.filterMap (prefixHashOf prefixHash) := by
  induction txBlobs generalizing c with
  | nil =>
    cases h
    simp
  | cons txBlob txBlobs ih => grind [ExceptLoop.foldlM_cons_ok, lookup_of_collectTx]

theorem foldlM_collectTx_ok_iff : (∃ c', txBlobs.foldlM (collectTx prefixHash) c = .ok c') ↔
      (∀ b ∈ txBlobs, Ordinary b) ∧ (txBlobs.filterMap (prefixHashOf prefixHash)).Nodup ∧
        ∀ h ∈ txBlobs.filterMap (prefixHashOf prefixHash), c.scanTable.lookup h = none := by
  induction txBlobs generalizing c with
  | nil => simp [pure, Except.pure]
  | cons txBlob txBlobs ih =>
    constructor
    · rintro ⟨c', h⟩
      obtain ⟨c₁, hfirst, hrest⟩ := ExceptLoop.foldlM_cons_ok.1 h
      obtain ⟨hordinary, hnodup, hnew⟩ := ih.1 ⟨c', hrest⟩
      obtain ⟨hash, hhash, hlookup⟩ := lookup_of_collectTx prefixHash hfirst
      obtain ⟨hordinary₁, hnew₁⟩ := (collectTx_ok_iff prefixHash).1 ⟨c₁, hfirst⟩
      grind
    · rintro ⟨hordinary, hnodup, hnew⟩
      obtain ⟨hordinary₁, hordinary⟩ := forall_mem_cons.1 hordinary
      obtain ⟨tx, inputs, htx, hinputs⟩ := id hordinary₁
      have hhash := prefixHashOf_eq prefixHash htx
      rw [filterMap_cons_some hhash] at hnodup hnew
      obtain ⟨hnew₁, hnew⟩ := forall_mem_cons.1 hnew
      obtain ⟨c₁, hfirst⟩ := (collectTx_ok_iff prefixHash).2 ⟨hordinary₁, fun h hh => by
        rw [hhash] at hh
        cases hh
        exact hnew₁⟩
      obtain ⟨hash, hhash', hlookup⟩ := lookup_of_collectTx prefixHash hfirst
      obtain rfl : hash = prefixHash tx.toTransactionPrefix := Option.some.inj (hhash'.symm.trans hhash)
      obtain ⟨hnotMem, hnodup⟩ := nodup_cons.1 hnodup
      obtain ⟨c', hrest⟩ := ih.2 ⟨hordinary, hnodup, fun h hmem =>
        (hlookup h).2 ⟨hnew h hmem, fun heq => hnotMem (heq ▸ hmem)⟩⟩
      exact ⟨c', ExceptLoop.foldlM_cons_ok.2 ⟨c₁, hfirst, hrest⟩⟩

theorem collectTx_badGet_iff : (∃ t, collectTx prefixHash c txBlob = .error (.badGet, t)) ↔
      parseTx txBlob = .error .badGet ∨ ∃ tx, parseTx txBlob = .ok (some tx) ∧
        c.scanTable.lookup (prefixHash tx.toTransactionPrefix) = none ∧ tx.vin.mapM TxIn.getToKey = none := by
  unfold collectTx
  cases parseTx txBlob with
  | error e => simp
  | ok parsed =>
    cases parsed with
    | none => simp
    | some tx =>
      cases hlookup : c.scanTable.lookup (prefixHash tx.toTransactionPrefix) with
      | some images => simp [hlookup]
      | none => cases hinputs : tx.vin.mapM TxIn.getToKey <;> simp [hlookup, hinputs]

theorem collect_badGet_iff (mCancel : Nat → Bool) (entries : List (List Bytes)) :
    (∃ t, collect prefixHash mCancel entries = .error (.badGet, t)) ↔ Trips prefixHash (reached mCancel 0 entries) := by
  have hempty : ∀ h : Hash, Finmap.lookup h (∅ : ScanTable) = none := fun h => Finmap.lookup_empty h
  constructor
  · rintro ⟨t, h⟩
    rcases overEntries_error h with ⟨c', -, heq⟩ | hfold
    · cases heq
    · obtain ⟨before, txBlob, after, c', heq, hbefore, hstop⟩ := ExceptLoop.foldlM_error_iff.1 hfold
      obtain ⟨hordinary, hnodup, -⟩ := (foldlM_collectTx_ok_iff prefixHash).1 ⟨c', hbefore⟩
      refine ⟨before, txBlob, after, heq, hordinary, hnodup, ?_⟩
      refine ((collectTx_badGet_iff prefixHash).1 ⟨t, hstop⟩).imp_right ?_
      rintro ⟨tx, htx, hnew, hinputs⟩
      exact ⟨tx, htx, ((lookup_of_foldlM_collectTx prefixHash hbefore _).1 hnew).2, hinputs⟩
  · rintro ⟨before, txBlob, after, heq, hordinary, hnodup, hstop⟩
    obtain ⟨c', hbefore⟩ := (foldlM_collectTx_ok_iff prefixHash (c := ⟨∅, [], fun _ => []⟩)).2
      ⟨hordinary, hnodup, fun h _ => hempty h⟩
    have hlookup := lookup_of_foldlM_collectTx prefixHash hbefore
    have hthrows : ∃ t, collectTx prefixHash c' txBlob = .error (.badGet, t) := by
      refine (collectTx_badGet_iff prefixHash).2 (hstop.imp_right ?_)
      grind
    obtain ⟨t, ht⟩ := hthrows
    exact ⟨t, overEntries_of_error (ExceptLoop.foldlM_error_iff.2 ⟨before, txBlob, after, c', heq, hbefore, ht⟩)⟩

theorem fill_not_badGet {db : OutputDb} {mCancel mCancel' : Nat → Bool} {entries : List (List Bytes)}
    (hc : collect prefixHash mCancel entries = .ok c) {e : PrepareEnd × ScanTable}
    (h : fill prefixHash db mCancel' entries c = .error e) : e.1 ≠ .badGet := by
  have hordinary := ((foldlM_collectTx_ok_iff prefixHash).1 ⟨c, (overEntries_ok hc).2⟩).1
  refine (overEntries_invariant (P := fun _ => True) (Q := fun e : PrepareEnd × ScanTable => e.1 ≠ .badGet)
    (fun _ _ _ _ _ _ => trivial) (fun blob hblob t e _ he => ?_) (fun _ _ => by simp) trivial).2 e h
  obtain ⟨tx, inputs, htx, hinputs⟩ := hordinary blob hblob
  grind [fillTx]

theorem prepare_badGet_iff (db : OutputDb) (early : Option Bool) (mCancel mCancel' : Nat → Bool)
    (entries : List (List Bytes)) :
    (prepareHandleIncomingBlocks prefixHash db early mCancel mCancel' entries).1 = .badGet ↔
      early = none ∧ Trips prefixHash (reached mCancel 0 entries) := by
  cases early with
  | some r => simp [prepareHandleIncomingBlocks]
  | none =>
    rw [← collect_badGet_iff prefixHash mCancel entries]
    simp only [prepareHandleIncomingBlocks, prepareScanTable, true_and]
    cases hc : collect prefixHash mCancel entries with
    | error e => grind
    | ok c => grind [fill_not_badGet]

end

/-- The locks can be taken more than once. -/
structure Held where
  incomingTxLock : Nat
  txPoolLock : Nat
  batchActive : Bool
deriving DecidableEq

structure Surroundings where
  db : OutputDb
  early : Option Bool
  mCancel : Nat → Bool
  mCancel' : Nat → Bool
  /-- `batch_stop` throws -/
  stopFails : Bool
  /-- `store_blockchain` is called and throws -/
  syncFails : Bool

inductive Left where
  | returned
  | threw
deriving DecidableEq

section
variable (prefixHash : TransactionPrefix → Hash)

def corePrepareHandleIncomingBlocks (around : Surroundings) (entries : List (List Bytes)) (held : Held) : Left × Held :=
  let held := { held with
    incomingTxLock := held.incomingTxLock + 1
    txPoolLock := held.txPoolLock + 1
    batchActive := if entries = [] then held.batchActive else true }
  match (prepareHandleIncomingBlocks prefixHash around.db around.early around.mCancel around.mCancel' entries).1 with
  | .badGet => (.threw, held)
  | .returned _ => (.returned, held)

/-- An exception of `batch_stop` is caught at once. One of `store_blockchain` is caught in the core, behind the pool's
`unlock`. -/
def coreCleanupHandleIncomingBlocks (around : Surroundings) (held : Held) : Bool × Held :=
  let stopped := held.batchActive && !around.stopFails
  (stopped && !around.syncFails,
    { incomingTxLock := held.incomingTxLock - 1
      txPoolLock := if stopped && around.syncFails then held.txPoolLock else held.txPoolLock - 1
      batchActive := false })

inductive Call where
  | prepare
  | cleanup
deriving DecidableEq

/-- How a handler is left, with what is held then and which of the two were called. -/
structure Handled where
  left : Left
  held : Held
  calls : List Call
deriving DecidableEq

/-- `NOTIFY_NEW_BLOCK`, the state of the connection, and `tvc.m_verifivation_failed` of each transaction. -/
structure NewBlock where
  stateNormal : Bool
  synchronized : Bool
  txs : List Bytes
  verificationFailed : Bytes → Bool

def handleNotifyNewBlock (around : Surroundings) (arg : NewBlock) (held : Held) : Handled :=
  if !arg.stateNormal || !arg.synchronized then ⟨.returned, held, []⟩
  else match corePrepareHandleIncomingBlocks prefixHash around [arg.txs] held with
    | (.threw, held) => ⟨.threw, held, [.prepare]⟩
    | (.returned, held) =>
      if arg.txs.any arg.verificationFailed then
        ⟨.returned, (coreCleanupHandleIncomingBlocks around held).2, [.prepare, .cleanup]⟩
      else
        -- `handle_incoming_block`; a cleanup that fails is not repeated
        ⟨.returned, (coreCleanupHandleIncomingBlocks around held).2, [.prepare, .cleanup]⟩

/-- `haveTx` is `none` where the handler returns before it has all transactions. They come from the pool and from the
chain. -/
def handleNotifyNewFluffyBlock (around : Surroundings) (haveTx : Option (List Bytes)) (held : Held) : Handled :=
  match haveTx with
  | none => ⟨.returned, held, []⟩
  | some txs =>
    match corePrepareHandleIncomingBlocks prefixHash around [txs] held with
    | (.threw, held) => ⟨.threw, held, [.prepare]⟩
    | (.returned, held) => ⟨.returned, (coreCleanupHandleIncomingBlocks around held).2, [.prepare, .cleanup]⟩

inductive BlockOutcome where
  | verificationFailed
  | markedAsOrphaned
  | handled
deriving DecidableEq

structure EntryWork where
  txs : List Bytes
  stopping : Bool
  /-- `handle_incoming_txs` runs out of memory before `tvc.resize` -/
  resizeFails : Bool
  verificationFailed : Bytes → Bool
  outcome : BlockOutcome

def EntryWork.tvc (e : EntryWork) : List Bool := if e.resizeFails then [] else e.txs.map e.verificationFailed

def handleEntries (around : Surroundings) (held : Held) : List EntryWork → Bool × Held × List Call
  | [] => (true, held, [])
  | e :: blocks =>
    if e.stopping then (false, (coreCleanupHandleIncomingBlocks around held).2, [.cleanup])
    else if e.tvc.length ≠ e.txs.length then
      -- "Internal error": the one return without a cleanup
      (false, held, [])
    else if e.tvc.any id then (false, (coreCleanupHandleIncomingBlocks around held).2, [.cleanup])
    else match e.outcome with
      | .verificationFailed | .markedAsOrphaned =>
        (false, (coreCleanupHandleIncomingBlocks around held).2, [.cleanup])
      | .handled => handleEntries around held blocks

structure Span where
  blocks : List EntryWork
  /-- the first block parses -/
  parsed : Bool
  parentKnown : Bool
  around : Surroundings

def tryAddNextBlocks : List Span → Held → Handled
  | [], held => ⟨.returned, held, []⟩
  | span :: spans, held =>
    if span.blocks = [] ∨ span.parsed = false ∨ span.parentKnown = false then ⟨.returned, held, []⟩
    else match corePrepareHandleIncomingBlocks prefixHash span.around (span.blocks.map EntryWork.txs) held with
      | (.threw, held) => ⟨.threw, held, [.prepare]⟩
      | (.returned, held) =>
        match handleEntries span.around held span.blocks with
        | (false, held, calls) => ⟨.returned, held, .prepare :: calls⟩
        | (true, held, _) =>
          match coreCleanupHandleIncomingBlocks span.around held with
          | (false, held) => ⟨.returned, held, [.prepare, .cleanup]⟩
          | (true, held) =>
            let rest := tryAddNextBlocks spans held
            { rest with calls := [.prepare, .cleanup] ++ rest.calls }

end

def balancedCalls : List Call → Bool
  | [] => true
  | .prepare :: .cleanup :: calls => balancedCalls calls
  | _ => false

/-- Each prepare is followed by exactly one cleanup, and nothing is held that was not held before. -/
structure Handled.Balanced (h : Handled) (held : Held) : Prop where
  calls : balancedCalls h.calls = true
  held : h.held = held

def Surroundings.Leaks (around : Surroundings) : Prop := around.stopFails = false ∧ around.syncFails = true

section
variable (prefixHash : TransactionPrefix → Hash)

def Surroundings.Trips (around : Surroundings) (entries : List (List Bytes)) : Prop :=
  around.early = none ∧ Wire.Trips prefixHash (reached around.mCancel 0 entries)

def Held.inBatch (held : Held) : Held := ⟨held.incomingTxLock + 1, held.txPoolLock + 1, true⟩

variable {around : Surroundings} {entries : List (List Bytes)} {held : Held}

theorem corePrepare_trips (hne : entries ≠ []) (h : around.Trips prefixHash entries) :
    corePrepareHandleIncomingBlocks prefixHash around entries held = (.threw, held.inBatch) := by
  have hbad := (prepare_badGet_iff prefixHash around.db around.early around.mCancel around.mCancel' entries).2 h
  simp [corePrepareHandleIncomingBlocks, hbad, hne, Held.inBatch]

theorem corePrepare_returns (hne : entries ≠ []) (h : ¬ around.Trips prefixHash entries) :
    corePrepareHandleIncomingBlocks prefixHash around entries held = (.returned, held.inBatch) := by
  have hgood := mt (prepare_badGet_iff prefixHash around.db around.early around.mCancel around.mCancel' entries).1 h
  grind [prepareHandleIncomingBlocks, corePrepareHandleIncomingBlocks, Held.inBatch]

theorem held_coreCleanup_eq_iff (hbatch : held.batchActive = false) :
    (coreCleanupHandleIncomingBlocks around held.inBatch).2 = held ↔ ¬ around.Leaks := by
  obtain ⟨i, p, b⟩ := held
  grind [coreCleanupHandleIncomingBlocks, Held.inBatch, Surroundings.Leaks]

theorem coreCleanup_ok_iff : (coreCleanupHandleIncomingBlocks around held.inBatch).1 = true ↔
      around.stopFails = false ∧ around.syncFails = false := by
  simp [coreCleanupHandleIncomingBlocks, Held.inBatch]

theorem balanced_one_batch (hbatch : held.batchActive = false) :
    (Handled.mk .returned (coreCleanupHandleIncomingBlocks around held.inBatch).2 [.prepare, .cleanup]).Balanced held ↔
      ¬ around.Leaks := by
  rw [← held_coreCleanup_eq_iff hbatch]
  exact ⟨fun h => h.held, fun h => ⟨rfl, h⟩⟩

theorem not_balanced_of_threw {held' : Held} : ¬ (Handled.mk .threw held' [.prepare]).Balanced held :=
  fun h => by simpa [balancedCalls] using h.calls

theorem handleNotifyNewBlock_balanced_iff (arg : NewBlock) (hbatch : held.batchActive = false) :
    (handleNotifyNewBlock prefixHash around arg held).Balanced held ↔
      (arg.stateNormal = true → arg.synchronized = true → ¬ around.Trips prefixHash [arg.txs] ∧ ¬ around.Leaks) := by
  by_cases hready : arg.stateNormal = true ∧ arg.synchronized = true
  · obtain ⟨hnormal, hsync⟩ := hready
    simp only [handleNotifyNewBlock, hnormal, hsync, Bool.not_true, Bool.or_self, Bool.false_eq_true, if_false, true_imp_iff]
    by_cases htrips : around.Trips prefixHash [arg.txs]
    · rw [corePrepare_trips prefixHash (by simp) htrips]
      exact ⟨fun h => absurd h not_balanced_of_threw, fun h => absurd htrips h.1⟩
    · grind [corePrepare_returns, balanced_one_batch]
  · have hback : handleNotifyNewBlock prefixHash around arg held = ⟨.returned, held, []⟩ := by
      rw [handleNotifyNewBlock, if_pos (by simpa [or_iff_not_imp_left] using hready)]
    rw [hback]
    exact ⟨fun _ h h' => absurd ⟨h, h'⟩ hready, fun _ => ⟨rfl, rfl⟩⟩

theorem handleNotifyNewFluffyBlock_balanced_iff (haveTx : Option (List Bytes)) (hbatch : held.batchActive = false) :
    (handleNotifyNewFluffyBlock prefixHash around haveTx held).Balanced held ↔
      ∀ txs, haveTx = some txs → ¬ around.Trips prefixHash [txs] ∧ ¬ around.Leaks := by
  cases haveTx with
  | none => exact ⟨fun _ txs h => by (cases h), fun _ => ⟨rfl, rfl⟩⟩
  | some txs =>
    simp only [Option.some.injEq, forall_eq', handleNotifyNewFluffyBlock]
    by_cases htrips : around.Trips prefixHash [txs]
    · rw [corePrepare_trips prefixHash (by simp) htrips]
      exact ⟨fun h => absurd h not_balanced_of_threw, fun h => absurd htrips h.1⟩
    · grind [corePrepare_returns, balanced_one_batch]

def EntryWork.Passes (e : EntryWork) : Prop :=
  e.stopping = false ∧ (e.resizeFails = true → e.txs = []) ∧ (∀ tx ∈ e.txs, e.verificationFailed tx = false) ∧
    e.outcome = .handled

def Span.Exhausted (blocks : List EntryWork) : Prop :=
  ∃ before e after, blocks = before ++ e :: after ∧ (∀ b ∈ before, b.Passes) ∧ e.stopping = false ∧
    e.resizeFails = true ∧ e.txs ≠ []

theorem Span.exhausted_cons {e : EntryWork} {blocks : List EntryWork} : Span.Exhausted (e :: blocks) ↔
      e.stopping = false ∧ e.resizeFails = true ∧ e.txs ≠ [] ∨ e.Passes ∧ Span.Exhausted blocks := by
  constructor
  · rintro ⟨_ | ⟨b, before⟩, e', after, heq, hbefore, he⟩
    · cases heq
      exact .inl he
    · cases heq
      obtain ⟨hb, hbefore⟩ := forall_mem_cons.1 hbefore
      exact .inr ⟨hb, before, e', after, rfl, hbefore, he⟩
  · rintro (he | ⟨hpasses, before, e', after, rfl, hbefore, he⟩)
    · exact ⟨[], e, blocks, rfl, by simp, he⟩
    · exact ⟨e :: before, e', after, rfl, forall_mem_cons.2 ⟨hpasses, hbefore⟩, he⟩

theorem handleEntries_cons (e : EntryWork) (blocks : List EntryWork) :
    e.Passes ∧ handleEntries around held (e :: blocks) = handleEntries around held blocks ∨
    (e.stopping = false ∧ e.resizeFails = true ∧ e.txs ≠ []) ∧ ¬ e.Passes ∧
      handleEntries around held (e :: blocks) = (false, held, []) ∨
    ¬ (e.stopping = false ∧ e.resizeFails = true ∧ e.txs ≠ []) ∧ ¬ e.Passes ∧
      handleEntries around held (e :: blocks) =
        (false, (coreCleanupHandleIncomingBlocks around held).2, [.cleanup]) := by
  rw [handleEntries]
  cases hstop : e.stopping with
  | true => exact .inr (.inr ⟨by simp, by simp [EntryWork.Passes, hstop], by simp⟩)
  | false =>
    simp only [Bool.false_eq_true, if_false]
    cases hresize : e.resizeFails with
    | true => grind [EntryWork.Passes, EntryWork.tvc]
    | false =>
      cases hany : e.txs.any e.verificationFailed with
      | true =>
        have hfailed : ¬ ∀ tx ∈ e.txs, e.verificationFailed tx = false := by
          simpa using hany
        exact .inr (.inr ⟨by simp, fun h => hfailed h.2.2.1, by simp [EntryWork.tvc, hresize, hany]⟩)
      | false =>
        have hpassed : ∀ tx ∈ e.txs, e.verificationFailed tx = false := by
          simpa using hany
        have hpasses : e.Passes ↔ e.outcome = .handled :=
          ⟨fun h => h.2.2.2, fun h => ⟨hstop, by simp [hresize], hpassed, h⟩⟩
        cases houtcome : e.outcome <;> simp [EntryWork.tvc, hresize, hany, hpasses, houtcome]

theorem handleEntries_cases (blocks : List EntryWork) :
    (∀ e ∈ blocks, e.Passes) ∧ ¬ Span.Exhausted blocks ∧ handleEntries around held blocks = (true, held, []) ∨
    Span.Exhausted blocks ∧ handleEntries around held blocks = (false, held, []) ∨
    ¬ (∀ e ∈ blocks, e.Passes) ∧ ¬ Span.Exhausted blocks ∧ handleEntries around held blocks =
      (false, (coreCleanupHandleIncomingBlocks around held).2, [.cleanup]) := by
  induction blocks with
  | nil => exact .inl ⟨by simp, by rintro ⟨before, e, after, h, -⟩; simp at h, rfl⟩
  | cons e blocks ih =>
    rw [Span.exhausted_cons, forall_mem_cons]
    rcases @handleEntries_cons around held e blocks with ⟨hpasses, heq⟩ | ⟨hexhausted, hnot, heq⟩ | ⟨hnotExhausted, hnot, heq⟩
    · rw [heq]
      have hnot : ¬ (e.stopping = false ∧ e.resizeFails = true ∧ e.txs ≠ []) := fun h => h.2.2 (hpasses.2.1 h.2.1)
      simpa [hpasses, hnot] using ih
    · exact .inr (.inl ⟨.inl hexhausted, heq⟩)
    · grind

def Span.Starts (span : Span) : Prop := span.blocks ≠ [] ∧ span.parsed = true ∧ span.parentKnown = true

variable {span : Span}

theorem Span.starts_iff : span.Starts ↔ ¬ (span.blocks = [] ∨ span.parsed = false ∨ span.parentKnown = false) := by
  simp [Span.Starts]

def Span.Completes (span : Span) : Prop :=
  span.Starts ∧ (∀ e ∈ span.blocks, e.Passes) ∧ span.around.stopFails = false

def Span.Sound (span : Span) : Prop :=
  span.Starts → ¬ span.around.Trips prefixHash (span.blocks.map EntryWork.txs) ∧ ¬ Span.Exhausted span.blocks ∧
    ¬ span.around.Leaks

def SpansSound (spans : List Span) : Prop :=
  ∀ before span after, spans = before ++ span :: after → (∀ b ∈ before, b.Completes) → span.Sound prefixHash

theorem spansSound_cons {spans : List Span} :
    SpansSound prefixHash (span :: spans) ↔ span.Sound prefixHash ∧ (span.Completes → SpansSound prefixHash spans) := by
  constructor
  · intro h
    refine ⟨h [] span spans rfl (by simp), fun hc before span' after heq hbefore => ?_⟩
    exact h (span :: before) span' after (by rw [heq]; rfl) (forall_mem_cons.2 ⟨hc, hbefore⟩)
  · rintro ⟨hfirst, hrest⟩ before span' after heq hbefore
    rcases before with _ | ⟨b, before⟩
    · cases heq
      exact hfirst
    · cases heq
      obtain ⟨hb, hbefore⟩ := forall_mem_cons.1 hbefore
      exact hrest hb before span' after rfl hbefore

theorem tryAddNextBlocks_balanced_iff (spans : List Span) (hbatch : held.batchActive = false) :
    (tryAddNextBlocks prefixHash spans held).Balanced held ↔ SpansSound prefixHash spans := by
  induction spans with
  | nil => exact ⟨fun _ before span after h => by simp at h, fun _ => ⟨rfl, rfl⟩⟩
  | cons span spans ih =>
    rw [spansSound_cons, tryAddNextBlocks]
    by_cases hstarts : span.Starts
    · have hne : span.blocks.map EntryWork.txs ≠ [] := by simpa using hstarts.1
      rw [if_neg (Span.starts_iff.1 hstarts)]
      by_cases htrips : span.around.Trips prefixHash (span.blocks.map EntryWork.txs)
      · rw [corePrepare_trips prefixHash hne htrips]
        exact ⟨fun h => absurd h not_balanced_of_threw, fun h => absurd htrips (h.1 hstarts).1⟩
      · rw [corePrepare_returns prefixHash hne htrips]
        dsimp only
        have hheld := @held_coreCleanup_eq_iff span.around held hbatch
        rcases @handleEntries_cases span.around held.inBatch span.blocks with
          ⟨hpasses, hmemory, heq⟩ | ⟨hmemory, heq⟩ | ⟨hpasses, hmemory, heq⟩
        · rw [heq]
          dsimp only
          rcases hcleanup : coreCleanupHandleIncomingBlocks span.around held.inBatch with ⟨ok, held'⟩
          have hok : ok = true ↔ span.around.stopFails = false ∧ span.around.syncFails = false := by
            rw [← coreCleanup_ok_iff, hcleanup]
          rw [hcleanup] at hheld
          cases ok with
          | false =>
            have hlast : ¬ span.Completes ∨ span.around.Leaks := by
              cases hstop : span.around.stopFails with
              | true => exact .inl fun h => Bool.noConfusion (hstop.symm.trans h.2.2)
              | false => exact .inr ⟨hstop, by simpa [hstop] using hok⟩
            refine ⟨fun h => ⟨fun _ => ⟨htrips, hmemory, hheld.1 h.held⟩, fun hc => ?_⟩, fun h => ⟨rfl, hheld.2 (h.1 hstarts).2.2⟩⟩
            exact absurd hc (hlast.resolve_right (hheld.1 h.held))
          | true =>
            obtain ⟨hstop, hsync⟩ := hok.1 rfl
            have hleaks : ¬ span.around.Leaks := fun h => Bool.noConfusion (hsync.symm.trans h.2)
            obtain rfl : held' = held := hheld.2 hleaks
            have hbalanced : ∀ r : Handled, Handled.Balanced { r with calls := [.prepare, .cleanup] ++ r.calls } held' ↔
                r.Balanced held' := fun r => ⟨fun h => ⟨h.calls, h.held⟩, fun h => ⟨h.calls, h.held⟩⟩
            rw [hbalanced, ih]
            exact ⟨fun h => ⟨fun _ => ⟨htrips, hmemory, hleaks⟩, fun _ => h⟩, fun h => h.2 ⟨hstarts, hpasses, hstop⟩⟩
        · rw [heq]
          refine ⟨fun h => ?_, fun h => absurd hmemory (h.1 hstarts).2.1⟩
          simpa [balancedCalls] using h.calls
        · rw [heq, balanced_one_batch hbatch]
          refine ⟨fun h => ⟨fun _ => ⟨htrips, hmemory, h⟩, fun hc => absurd hc.2.1 hpasses⟩, fun h => (h.1 hstarts).2.2⟩
    · rw [if_pos (not_not.1 (mt Span.starts_iff.2 hstarts))]
      exact ⟨fun _ => ⟨fun h => absurd h hstarts, fun h => absurd h.1 hstarts⟩, fun _ => ⟨rfl, rfl⟩⟩

/-- **Which calls of the handlers leave something behind**: the batch trips the preparation, memory runs out in
`handle_incoming_txs`, or the database cannot be synced in the cleanup. -/
theorem prepare_cleanup_balanced_iff (held : Held) (hbatch : held.batchActive = false) :
    (∀ around arg, (handleNotifyNewBlock prefixHash around arg held).Balanced held ↔
      (arg.stateNormal = true → arg.synchronized = true → ¬ around.Trips prefixHash [arg.txs] ∧ ¬ around.Leaks)) ∧
    (∀ around haveTx, (handleNotifyNewFluffyBlock prefixHash around haveTx held).Balanced held ↔
      ∀ txs, haveTx = some txs → ¬ around.Trips prefixHash [txs] ∧ ¬ around.Leaks) ∧
    ∀ spans, (tryAddNextBlocks prefixHash spans held).Balanced held ↔ SpansSound prefixHash spans :=
  ⟨fun _ arg => handleNotifyNewBlock_balanced_iff prefixHash arg hbatch,
    fun _ haveTx => handleNotifyNewFluffyBlock_balanced_iff prefixHash haveTx hbatch,
    fun spans => tryAddNextBlocks_balanced_iff prefixHash spans hbatch⟩

end

def calmSurroundings : Surroundings := ⟨fun _ => [], none, fun _ => false, fun _ => false, false, false⟩

def newBlockWith (txs : List Bytes) : NewBlock := ⟨true, true, txs, fun _ => true⟩

theorem ordinary_block_balanced :
    (handleNotifyNewBlock (fun _ => default) calmSurroundings (newBlockWith [(txToBlob lateTx).getD []])
      ⟨0, 0, false⟩).Balanced ⟨0, 0, false⟩ := by
  refine ((prepare_cleanup_balanced_iff _ ⟨0, 0, false⟩ rfl).1 _ _).2 fun _ _ => ⟨fun h => ?_, fun h => Bool.noConfusion h.2⟩
  have hbad := (prepare_badGet_iff (fun _ => default) (fun _ => []) none (fun _ => false) (fun _ => false)
    [[(txToBlob lateTx).getD []]]).2 h
  revert hbad
  decide +kernel

/-- A peer sends a block with a transaction of seven bytes, whose one input is `txin_gen`: the handler is left by an
exception with both locks and the batch. -/
theorem gen_input_keeps_locks :
    let r := handleNotifyNewBlock (fun _ => default) calmSurroundings (newBlockWith [[1, 0, 1, 0xff, 0, 0, 0]]) ⟨0, 0, false⟩
    r = ⟨.threw, ⟨1, 1, true⟩, [.prepare]⟩ ∧ ¬ r.Balanced ⟨0, 0, false⟩ := by
  have heq : handleNotifyNewBlock (fun _ => default) calmSurroundings (newBlockWith [[1, 0, 1, 0xff, 0, 0, 0]])
      ⟨0, 0, false⟩ = ⟨.threw, ⟨1, 1, true⟩, [.prepare]⟩ := by decide +kernel
  exact ⟨heq, heq ▸ not_balanced_of_threw⟩

end Electronero.Wire
