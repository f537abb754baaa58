import Electronero.Core.BlockHash
import Electronero.Lib.ExceptLoop
import Electronero.Lib.PartialMap
import Electronero.Protocol.BlockQueue
import Mathlib.Data.Finset.Card
/-!
# Fluffy blocks (`handle_notify_new_fluffy_block`, cryptonote_protocol_handler.inl:420)

`m_requested_objects` is to hold what the peer was asked for ("a possible DOS vector", :504). But nothing puts the missing
transactions there: it holds block ids while the node synchronises (:1445, :1487, :1520), and nothing otherwise.
-/
namespace Electronero.Wire.Fluffy
open Text FastSync ExceptLoop

inductive PeerState where
  | beforeHandshake
  | synchronizing
  | standby
  | idle
  | normal
deriving DecidableEq

/-- `block_verification_context`, and whether `cleanup_handle_incoming_blocks` succeeded. -/
inductive BlockVerification where
  | cleanupFailed
  | verificationFailed
  | addedToMainChain
  | markedAsOrphaned
  | other
deriving DecidableEq

structure CoreCalls (κ : Type) where
  cnFastHash : Bytes → Hash
  poolHasTx : κ → Hash → Bool
  /-- whether `handle_incoming_tx` returns true without `m_verifivation_failed` -/
  handleIncomingTx : κ → Bytes → Bool × κ
  getPoolTransaction : κ → Hash → Option Bytes
  /-- the result, the transactions that were found and the ids that were not -/
  getTransactions : κ → List Hash → Bool × List Transaction × List Hash
  /-- from `prepare_handle_incoming_blocks` to `cleanup_handle_incoming_blocks` -/
  handleIncomingBlock : κ → BlockCompleteEntry → BlockVerification × κ
  getBlockByHash : κ → Hash → Option Block

structure Node (κ : Type) where
  core : κ
  synchronized : Bool
  state : PeerState
  requestedObjects : Finset Hash

structure NewFluffyBlock where
  b : BlockCompleteEntry
  currentBlockchainHeight : UInt64

structure MissingTxRequest where
  blockHash : Hash
  currentBlockchainHeight : UInt64
  missingTxIndices : List Nat
deriving DecidableEq

inductive Reaction where
  | ignored
  /-- with `add_fail` -/
  | dropped (addFail : Bool)
  /-- "1 tx requested, none not found, but ... returned" -/
  | inconsistent
  | requested (request : MissingTxRequest)
  | handled (verification : BlockVerification)
deriving DecidableEq

def Reaction.drops : Reaction → Bool
  | .dropped _ => true
  | _ => false

inductive Lookup where
  | found (blob : Bytes)
  | missing
  | inconsistent

section
variable {κ : Type} (calls : CoreCalls κ)

def txId (blob : Bytes) : Option Hash :=
  (parseAndValidateTxFromBlob blob).bind (calculateTransactionHash calls.cnFastHash)

def blockId (b : Block) : Hash :=
  getBlockHash calls.cnFastHash (fun tx => (calculateTransactionHash calls.cnFastHash tx).getD nullHash) none b

def receiveTx (n : Node κ) (txBlob : Bytes) : Except (Node κ) (Node κ) :=
  match txId calls txBlob with
  | none => .error n
  | some txHash =>
    if n.requestedObjects ≠ ∅ ∧ txHash ∉ n.requestedObjects then .error n
    else
      let n := { n with requestedObjects := n.requestedObjects.erase txHash }
      if calls.poolHasTx n.core txHash then .ok n
      else
        match calls.handleIncomingTx n.core txBlob with
        | (true, core) => .ok { n with core }
        | (false, core) => .error { n with core }

def findTx (core : κ) (txHash : Hash) : Lookup :=
  match calls.getPoolTransaction core txHash with
  | some blob => .found blob
  | none =>
    match calls.getTransactions core [txHash] with
    | (true, [tx], []) => .found ((txToBlob tx).getD [])
    | (true, _, []) => .inconsistent
    | _ => .missing

def gather (core : κ) : List Hash → Nat → Option (List Bytes × List Nat)
  | [], _ => some ([], [])
  | txHash :: rest, txIdx =>
    match findTx calls core txHash with
    | .inconsistent => none
    | .found blob => (gather core rest (txIdx + 1)).map fun r => (blob :: r.1, r.2)
    | .missing => (gather core rest (txIdx + 1)).map fun r => (r.1, txIdx :: r.2)

def completeBlock (n : Node κ) (newBlock : Block) (arg : NewFluffyBlock) : Reaction × Node κ :=
  match gather calls n.core newBlock.txHashes 0 with
  | none => (.inconsistent, n)
  | some (haveTx, []) =>
    match calls.handleIncomingBlock n.core ⟨arg.b.block, haveTx⟩ with
    | (.verificationFailed, core) => (.dropped true, { n with core })
    | (.markedAsOrphaned, core) => (.handled .markedAsOrphaned, { n with core, state := .synchronizing })
    | (verification, core) => (.handled verification, { n with core })
  | some (_, needTxIndices) => (.requested ⟨blockId calls newBlock, arg.currentBlockchainHeight, needTxIndices⟩, n)

def handleNotifyNewFluffyBlock (n : Node κ) (arg : NewFluffyBlock) : Reaction × Node κ :=
  if n.state ≠ .normal then (.ignored, n)
  else if n.synchronized = false then (.ignored, n)
  else
    match parseAndValidateBlockFromBlob arg.b.block with
    | none => (.dropped false, n)
    | some newBlock =>
      if n.requestedObjects ≠ ∅ ∧ n.requestedObjects.card ≠ arg.b.txs.length then (.dropped false, n)
      else
        match arg.b.txs.foldlM (receiveTx calls) n with
        | .error n => (.dropped false, n)
        | .ok n => if n.requestedObjects ≠ ∅ then (.dropped false, n) else completeBlock calls n newBlock arg

/-- The answer of a peer that is asked; `none` drops the connection. -/
def handleRequestFluffyMissingTx (core : κ) (arg : MissingTxRequest) : Option NewFluffyBlock :=
  match calls.getBlockByHash core arg.blockHash with
  | none => none
  | some b =>
    match arg.missingTxIndices.mapM (b.txHashes[·]?) with
    | none => none
    | some txids =>
      match calls.getTransactions core txids with
      | (true, txs, []) =>
        if txs.length ≠ txids.length then none
        else some ⟨⟨(blockToBlob b).getD [], txs.map fun tx => (txToBlob tx).getD []⟩, arg.currentBlockchainHeight⟩
      | _ => none

def Ids (txs : List Bytes) (ids : List Hash) : Prop := List.Forall₂ (fun blob id => txId calls blob = some id) txs ids

def Exactly (txs : List Bytes) (asked : List Hash) : Prop := ∃ ids, Ids calls txs ids ∧ ids.Perm asked

def acceptTx (core : κ) (txBlob : Bytes) : Option κ :=
  match txId calls txBlob with
  | none => none
  | some txHash =>
    if calls.poolHasTx core txHash then some core
    else
      match calls.handleIncomingTx core txBlob with
      | (true, core) => some core
      | (false, _) => none

def acceptAll (core : κ) (txs : List Bytes) : Option κ := txs.foldlM (acceptTx calls) core

def Mismatched (n : Node κ) (txs : List Bytes) : Prop :=
  n.requestedObjects ≠ ∅ ∧ ¬∃ ids, Ids calls txs ids ∧ ids.Nodup ∧ n.requestedObjects = ids.toFinset

def Refused (core : κ) (newBlock : Block) (arg : NewFluffyBlock) : Prop :=
  ∃ haveTx, gather calls core newBlock.txHashes 0 = some (haveTx, []) ∧
    (calls.handleIncomingBlock core ⟨arg.b.block, haveTx⟩).1 = .verificationFailed

def Lacks (core : κ) (newBlock : Block) : Prop :=
  ∃ haveTx idx more, gather calls core newBlock.txHashes 0 = some (haveTx, idx :: more)

def Stops (n : Node κ) (newBlock : Block) (arg : NewFluffyBlock) : Prop :=
  Mismatched calls n arg.b.txs ∨ acceptAll calls n.core arg.b.txs = none ∨
    ∃ core, acceptAll calls n.core arg.b.txs = some core ∧ Refused calls core newBlock arg

variable {calls} {n n' : Node κ} {core core' : κ} {txBlob : Bytes} {txs : List Bytes} {ids : List Hash}

theorem exists_id_of_acceptTx (h : acceptTx calls core txBlob = some core') : ∃ id, txId calls txBlob = some id := by
  unfold acceptTx at h
  grind

theorem receiveTx_ok_iff : receiveTx calls n txBlob = .ok n' ↔
      ∃ id core, txId calls txBlob = some id ∧ (n.requestedObjects = ∅ ∨ id ∈ n.requestedObjects) ∧
        acceptTx calls n.core txBlob = some core ∧
        n' = { n with core, requestedObjects := n.requestedObjects.erase id } := by
  unfold receiveTx acceptTx
  cases hid : txId calls txBlob with
  | none => simp
  | some id => grind

theorem acceptAll_cons {blob : Bytes} : acceptAll calls core (blob :: txs) = some core' ↔
      ∃ core₁, acceptTx calls core blob = some core₁ ∧ acceptAll calls core₁ txs = some core' := by
  unfold acceptAll
  rw [List.foldlM_cons]
  exact Option.bind_eq_some_iff

theorem exists_ids_of_acceptAll (h : acceptAll calls core txs = some core') : ∃ ids, Ids calls txs ids := by
  induction txs generalizing core with
  | nil => exact ⟨[], .nil⟩
  | cons blob txs ih =>
    obtain ⟨core₁, hblob, hrest⟩ := acceptAll_cons.1 h
    obtain ⟨id, hid⟩ := exists_id_of_acceptTx hblob
    obtain ⟨ids, hids⟩ := ih hrest
    exact ⟨id :: ids, .cons hid hids⟩

theorem receive_ok (h : txs.foldlM (receiveTx calls) n = .ok n') :
    ∃ ids core, Ids calls txs ids ∧ acceptAll calls n.core txs = some core ∧
      n' = { n with core, requestedObjects := n.requestedObjects \ ids.toFinset } := by
  induction txs generalizing n with
  | nil =>
    cases h
    exact ⟨[], n'.core, .nil, rfl, by simp⟩
  | cons blob txs ih =>
    obtain ⟨n₁, hblob, hrest⟩ := foldlM_cons_ok.1 h
    obtain ⟨id, core, hid, -, haccept, rfl⟩ := receiveTx_ok_iff.1 hblob
    obtain ⟨ids, core', hids, haccepts, rfl⟩ := ih hrest
    refine ⟨id :: ids, core', .cons hid hids, acceptAll_cons.2 ⟨core, haccept, haccepts⟩, ?_⟩
    rw [List.toFinset_cons, Finset.sdiff_insert, Finset.erase_sdiff_comm]

theorem receive_of_expected (hids : Ids calls txs ids) (haccept : acceptAll calls n.core txs = some core)
    (hset : n.requestedObjects = ∅ ∨ ids.Nodup ∧ n.requestedObjects = ids.toFinset) :
    txs.foldlM (receiveTx calls) n = .ok { n with core, requestedObjects := ∅ } := by
  induction hids generalizing n with
  | nil =>
    have hempty : n.requestedObjects = ∅ := by simpa using hset
    cases haccept
    cases n
    cases hempty
    rfl
  | @cons blob id txs ids hid hids ih =>
    obtain ⟨core₁, hblob, hrest⟩ := acceptAll_cons.1 haccept
    have hpass : n.requestedObjects = ∅ ∨ id ∈ n.requestedObjects := by
      rcases hset with hempty | ⟨-, heq⟩
      · exact .inl hempty
      · exact .inr (by simp [heq])
    have hleft : n.requestedObjects.erase id = ∅ ∨ ids.Nodup ∧ n.requestedObjects.erase id = ids.toFinset := by
      rcases hset with hempty | ⟨hnodup, heq⟩
      · exact .inl (by simp [hempty])
      · simp_all
    refine foldlM_cons_ok.2 ⟨_, receiveTx_ok_iff.2 ⟨id, core₁, hid, hpass, hblob, rfl⟩, ?_⟩
    exact ih hrest hleft

theorem passes_iff : (¬(n.requestedObjects ≠ ∅ ∧ n.requestedObjects.card ≠ txs.length) ∧
      ∃ n', txs.foldlM (receiveTx calls) n = .ok n' ∧ n'.requestedObjects = ∅) ↔
    ¬Mismatched calls n txs ∧ ∃ core, acceptAll calls n.core txs = some core := by
  constructor
  · rintro ⟨hsize, n', hloop, hempty⟩
    obtain ⟨ids, core, hids, haccept, rfl⟩ := receive_ok hloop
    refine ⟨?_, core, haccept⟩
    rintro ⟨hne, hwrong⟩
    have hcard : n.requestedObjects.card = ids.length := by
      rw [← hids.length_eq]
      by_contra hcard
      exact hsize ⟨hne, hcard⟩
    have hsubset : n.requestedObjects ⊆ ids.toFinset := Finset.sdiff_eq_empty_iff_subset.1 hempty
    have hle : ids.length ≤ ids.toFinset.card := hcard ▸ Finset.card_le_card hsubset
    have hnodup : ids.Nodup := by
      rw [← Multiset.coe_nodup, ← Multiset.dedup_card_eq_card_iff_nodup]
      exact le_antisymm (Multiset.card_le_card (Multiset.dedup_le _)) hle
    refine hwrong ⟨ids, hids, hnodup, Finset.eq_of_subset_of_card_le hsubset ?_⟩
    rw [hcard, List.toFinset_card_of_nodup hnodup]
  · rintro ⟨hright, core, haccept⟩
    obtain ⟨ids, hids, hset⟩ : ∃ ids, Ids calls txs ids ∧
        (n.requestedObjects = ∅ ∨ ids.Nodup ∧ n.requestedObjects = ids.toFinset) := by
      by_cases hempty : n.requestedObjects = ∅
      · obtain ⟨ids, hids⟩ := exists_ids_of_acceptAll haccept
        exact ⟨ids, hids, .inl hempty⟩
      · obtain ⟨ids, hids, hset⟩ := not_not.1 fun hnone => hright ⟨hempty, hnone⟩
        exact ⟨ids, hids, .inr hset⟩
    refine ⟨?_, _, receive_of_expected hids haccept hset, rfl⟩
    rintro ⟨hne, hcard⟩
    obtain ⟨hnodup, heq⟩ := hset.resolve_left hne
    rw [heq, List.toFinset_card_of_nodup hnodup, ← hids.length_eq] at hcard
    exact hcard rfl

structure Takes (n : Node κ) (arg : NewFluffyBlock) (newBlock : Block) : Prop where
  state : n.state = .normal
  synchronized : n.synchronized = true
  parses : parseAndValidateBlockFromBlob arg.b.block = some newBlock

variable {arg : NewFluffyBlock} {newBlock : Block}

theorem Takes.handle_eq (h : Takes n arg newBlock) : handleNotifyNewFluffyBlock calls n arg =
      if n.requestedObjects ≠ ∅ ∧ n.requestedObjects.card ≠ arg.b.txs.length then (.dropped false, n)
      else
        match arg.b.txs.foldlM (receiveTx calls) n with
        | .error n => (.dropped false, n)
        | .ok n => if n.requestedObjects ≠ ∅ then (.dropped false, n) else completeBlock calls n newBlock arg := by
  unfold handleNotifyNewFluffyBlock
  rw [if_neg (not_not.2 h.state), if_neg (by simp [h.synchronized]), h.parses]

theorem Takes.dropped (h : Takes n arg newBlock)
    (hstop : Mismatched calls n arg.b.txs ∨ acceptAll calls n.core arg.b.txs = none) :
    ∃ m, handleNotifyNewFluffyBlock calls n arg = (.dropped false, m) := by
  rw [h.handle_eq]
  split_ifs with hsize
  · exact ⟨n, rfl⟩
  · cases hloop : arg.b.txs.foldlM (receiveTx calls) n with
    | error m => exact ⟨m, rfl⟩
    | ok m =>
      by_cases hempty : m.requestedObjects = ∅
      · grind [passes_iff]
      · exact ⟨m, if_pos hempty⟩

theorem Takes.completed (h : Takes n arg newBlock) (hright : ¬Mismatched calls n arg.b.txs)
    (haccept : acceptAll calls n.core arg.b.txs = some core) :
    handleNotifyNewFluffyBlock calls n arg = completeBlock calls { n with core, requestedObjects := ∅ } newBlock arg := by
  obtain ⟨hsize, m, hloop, hempty⟩ := passes_iff.2 ⟨hright, core, haccept⟩
  obtain ⟨ids, core', -, haccept', rfl⟩ := receive_ok hloop
  obtain rfl : core' = core := Option.some.inj (haccept'.symm.trans haccept)
  rw [h.handle_eq, if_neg hsize, hloop]
  grind

theorem completeBlock_drops_iff :
    (completeBlock calls n newBlock arg).1.drops = true ↔ Refused calls n.core newBlock arg := by
  unfold completeBlock Refused
  rcases hgather : gather calls n.core newBlock.txHashes 0 with _ | ⟨haveTx, _ | ⟨idx, more⟩⟩
  · simp [Reaction.drops]
  · rcases hblock : calls.handleIncomingBlock n.core ⟨arg.b.block, haveTx⟩ with ⟨verification, core⟩
    cases verification <;> simp [hblock, Reaction.drops]
  · simp [Reaction.drops]

theorem completeBlock_requests_iff :
    (∃ request, (completeBlock calls n newBlock arg).1 = .requested request) ↔ Lacks calls n.core newBlock := by
  unfold completeBlock Lacks
  rcases hgather : gather calls n.core newBlock.txHashes 0 with _ | ⟨haveTx, _ | ⟨idx, more⟩⟩
  · simp
  · grind
  · simp

theorem Takes.drops_iff (h : Takes n arg newBlock) :
    (handleNotifyNewFluffyBlock calls n arg).1.drops = true ↔ Stops calls n newBlock arg := by
  by_cases hearly : Mismatched calls n arg.b.txs ∨ acceptAll calls n.core arg.b.txs = none
  · obtain ⟨m, hm⟩ := h.dropped hearly
    rw [hm, Stops, ← or_assoc]
    exact iff_of_true rfl (.inl hearly)
  · obtain ⟨hright, hsome⟩ := not_or.1 hearly
    obtain ⟨core, haccept⟩ := Option.ne_none_iff_exists'.1 hsome
    rw [h.completed hright haccept, completeBlock_drops_iff, Stops, haccept]
    simp [hright]

theorem Takes.requests_iff (h : Takes n arg newBlock) :
    (∃ request, (handleNotifyNewFluffyBlock calls n arg).1 = .requested request) ↔
      ¬Stops calls n newBlock arg ∧
        ∃ core, acceptAll calls n.core arg.b.txs = some core ∧ Lacks calls core newBlock := by
  by_cases hearly : Mismatched calls n arg.b.txs ∨ acceptAll calls n.core arg.b.txs = none
  · obtain ⟨m, hm⟩ := h.dropped hearly
    grind [Stops]
  · obtain ⟨hright, hsome⟩ := not_or.1 hearly
    obtain ⟨core, haccept⟩ := Option.ne_none_iff_exists'.1 hsome
    rw [h.completed hright haccept, completeBlock_requests_iff]
    constructor
    · rintro ⟨haveTx, idx, more, hgather⟩
      refine ⟨?_, core, haccept, haveTx, idx, more, hgather⟩
      rintro (hwrong | hnone | ⟨core', haccept', haveTx', hall, -⟩)
      · exact hright hwrong
      · exact hsome hnone
      · grind
    · grind

end

section
variable {κ : Type} {calls : CoreCalls κ} {core : κ} {request : MissingTxRequest} {answer : NewFluffyBlock} {b : Block}

/-- A peer that has the block and finds transactions under their ids sends exactly what it is asked for. -/
theorem answer_exactly (hb : calls.getBlockByHash core request.blockHash = some b)
    (hstored : ∀ ids txs, calls.getTransactions core ids = (true, txs, []) →
      Ids calls (txs.map fun tx => (txToBlob tx).getD []) ids)
    (h : handleRequestFluffyMissingTx calls core request = some answer) :
    Exactly calls answer.b.txs (request.missingTxIndices.filterMap (b.txHashes[·]?)) := by
  unfold handleRequestFluffyMissingTx at h
  rw [hb] at h
  cases hids : request.missingTxIndices.mapM (b.txHashes[·]?) with
  | none => simp [hids] at h
  | some txids =>
    simp only [hids] at h
    split at h
    · next txs htxs =>
      split_ifs at h
      cases h
      exact ⟨txids, hstored txids txs htxs, by rw [PartialMap.filterMap_of_mapM hids]⟩
    · cases h

end

section
variable {κ : Type} (calls : CoreCalls κ)

inductive Event (κ : Type) where
  | message (arg : NewFluffyBlock)
  /-- anything else that changes the connection or the core -/
  | other (next : Node κ)

/-- `log` is for the statements: the blocks of the notifications that were taken, newest first, with the transactions
that were asked for, if any were. -/
structure Connection (κ : Type) where
  node : Node κ
  dropped : Bool
  log : List (Hash × Option (List Hash))

namespace Connection

def start (n : Node κ) : Connection κ := ⟨n, false, []⟩

def asked (newBlock : Block) : Reaction → Option (List Hash)
  | .requested request => some (request.missingTxIndices.filterMap (newBlock.txHashes[·]?))
  | _ => none

def entry (n : Node κ) (arg : NewFluffyBlock) : List (Hash × Option (List Hash)) :=
  if n.state = .normal ∧ n.synchronized = true then
    match parseAndValidateBlockFromBlob arg.b.block with
    | none => []
    | some newBlock => [(blockId calls newBlock, asked newBlock (handleNotifyNewFluffyBlock calls n arg).1)]
  else []

def step (c : Connection κ) (e : Event κ) : Connection κ :=
  if c.dropped then c
  else
    match e with
    | .other next => { c with node := next }
    | .message arg =>
      let r := handleNotifyNewFluffyBlock calls c.node arg
      ⟨r.2, r.1.drops, entry calls c.node arg ++ c.log⟩

def pending (c : Connection κ) (id : Hash) : Option (List Hash) := (c.log.find? (·.1 = id)).bind (·.2)

def requests (c : Connection κ) (id : Hash) : Nat := c.log.countP fun entry => entry.1 = id ∧ entry.2.isSome

/-- The notification after a request brings what was asked for, or the connection is dropped; and no block's
transactions are asked for twice. -/
def Guarded (c : Connection κ) (e : Event κ) : Prop :=
  (∀ arg newBlock asked, e = .message arg → c.dropped = false → Takes c.node arg newBlock →
    c.pending (blockId calls newBlock) = some asked → ¬Exactly calls arg.b.txs asked → (c.step calls e).dropped = true) ∧
  ∀ id, (c.step calls e).requests id ≤ 1

/-- Something else than the guard stops the notification, or it brings all that is missing. -/
def Stopped (c : Connection κ) (e : Event κ) : Prop :=
  ∀ arg newBlock, e = .message arg → c.dropped = false → Takes c.node arg newBlock →
    (∀ asked, c.pending (blockId calls newBlock) = some asked → ¬Exactly calls arg.b.txs asked →
      Stops calls c.node newBlock arg) ∧
    (0 < c.requests (blockId calls newBlock) → Stops calls c.node newBlock arg ∨
      ¬∃ core, acceptAll calls c.node.core arg.b.txs = some core ∧ Lacks calls core newBlock)

variable {calls} {c : Connection κ} {arg : NewFluffyBlock} {newBlock : Block} {id : Hash}

theorem step_of_dropped (h : c.dropped = true) (e : Event κ) : c.step calls e = c := by
  unfold step
  rw [if_pos h]

theorem step_of_takes (hopen : c.dropped = false) (h : Takes c.node arg newBlock) : c.step calls (.message arg) =
      ⟨(handleNotifyNewFluffyBlock calls c.node arg).2, (handleNotifyNewFluffyBlock calls c.node arg).1.drops,
        (blockId calls newBlock, asked newBlock (handleNotifyNewFluffyBlock calls c.node arg).1) :: c.log⟩ := by
  simp only [step, hopen, entry, if_pos (And.intro h.state h.synchronized), h.parses]
  rfl

theorem log_step_of_not_takes (h : ∀ newBlock, ¬Takes c.node arg newBlock) :
    (c.step calls (.message arg)).log = c.log := by
  have hentry : entry calls c.node arg = [] := by
    unfold entry
    split_ifs with hnormal
    · cases hparse : parseAndValidateBlockFromBlob arg.b.block with
      | none => rfl
      | some newBlock => exact absurd ⟨hnormal.1, hnormal.2, hparse⟩ (h newBlock)
    · rfl
  unfold step
  split_ifs
  · rfl
  · simp [hentry]

theorem asked_isSome_iff {r : Reaction} : (asked newBlock r).isSome = true ↔ ∃ request, r = .requested request := by
  cases r <;> simp [asked]

theorem requests_step_of_takes (hopen : c.dropped = false) (h : Takes c.node arg newBlock) :
    (c.step calls (.message arg)).requests id =
      c.requests id + if blockId calls newBlock = id ∧
        (asked newBlock (handleNotifyNewFluffyBlock calls c.node arg).1).isSome = true then 1 else 0 := by
  rw [step_of_takes hopen h, requests, requests, List.countP_cons]
  simp

theorem requests_step_le {e : Event κ} (hinv : ∀ id, c.requests id ≤ 1) (hstopped : Stopped calls c e) (id : Hash) :
    (c.step calls e).requests id ≤ 1 := by
  cases hopen : c.dropped with
  | true =>
    rw [step_of_dropped hopen]
    exact hinv id
  | false =>
    cases e with
    | other next =>
      have hlog : (c.step calls (.other next)).log = c.log := by simp [step, hopen]
      rw [requests, hlog]
      exact hinv id
    | message arg =>
      by_cases htaken : ∃ newBlock, Takes c.node arg newBlock
      · obtain ⟨newBlock, htakes⟩ := htaken
        rw [requests_step_of_takes hopen htakes]
        split_ifs with hagain
        · obtain ⟨rfl, hsome⟩ := hagain
          obtain ⟨hstops, hlacks⟩ := htakes.requests_iff.1 (asked_isSome_iff.1 hsome)
          have hfirst : ¬0 < c.requests (blockId calls newBlock) := by
            intro hpos
            rcases (hstopped arg newBlock rfl hopen htakes).2 hpos with h | h
            · exact hstops h
            · exact h hlacks
          omega
        · exact hinv id
      · rw [requests, log_step_of_not_takes (not_exists.1 htaken)]
        exact hinv id

theorem guarded_iff (hinv : ∀ id, c.requests id ≤ 1) (e : Event κ) : Guarded calls c e ↔ Stopped calls c e := by
  constructor
  · rintro ⟨hdrop, hcount⟩ arg newBlock rfl hopen htakes
    refine ⟨fun asked hpending hwrong => ?_, fun hasked => ?_⟩
    · have hdropped := hdrop arg newBlock asked rfl hopen htakes hpending hwrong
      rw [step_of_takes hopen htakes] at hdropped
      exact htakes.drops_iff.1 hdropped
    · by_contra hneither
      obtain ⟨hstops, hlacks⟩ := not_or.1 hneither
      have hrequests := htakes.requests_iff.2 ⟨hstops, not_not.1 hlacks⟩
      have hsecond := hcount (blockId calls newBlock)
      grind [requests_step_of_takes, asked_isSome_iff]
  · intro hstopped
    refine ⟨?_, requests_step_le hinv hstopped⟩
    rintro arg newBlock asked rfl hopen htakes hpending hwrong
    rw [step_of_takes hopen htakes]
    exact htakes.drops_iff.2 ((hstopped arg newBlock rfl hopen htakes).1 asked hpending hwrong)

end Connection

/-- **A peer cannot feed a block bit by bit exactly if every further notification of the block is stopped.** -/
theorem drip_feeding_stopped_iff (n : Node κ) (events : List (Event κ)) :
    Machine.Meets (Connection.step calls) (Connection.Guarded calls) (.start n) events ↔
      Machine.Meets (Connection.step calls) (Connection.Stopped calls) (.start n) events := by
  refine Machine.meets_congr (I := fun c : Connection κ => ∀ id, c.requests id ≤ 1) ?_ ?_ ?_
  · intro c e hinv
    exact Connection.guarded_iff hinv e
  · intro c e _ hguarded
    exact hguarded.2
  · intro id
    simp [Connection.start, Connection.requests]

end

/-! A block with one transaction that the node does not have. -/

def emptyCore : CoreCalls Unit where
  cnFastHash _ := default
  poolHasTx _ _ := false
  handleIncomingTx _ _ := (true, ())
  getPoolTransaction _ _ := none
  getTransactions _ ids := (true, [], ids)
  handleIncomingBlock _ _ := (.addedToMainChain, ())
  getBlockByHash _ _ := none

def lackedTx : Hash := ⟨List.replicate 32 7, rfl⟩

def blockBlob : Bytes :=
  [1, 0, 0] ++ List.replicate 32 0 ++ List.replicate 4 0 ++ [1, 0, 1, 0xff, 5, 0, 0] ++ 1 :: lackedTx.bytes

def bareNotification : NewFluffyBlock := ⟨⟨blockBlob, []⟩, 6⟩

def readyNode : Node Unit := ⟨(), true, .normal, ∅⟩

/-- The same notification twice: nothing is dropped, and the transaction is asked for a second time. -/
theorem bare_notification_answered_twice :
    (parseAndValidateBlockFromBlob blockBlob).map (·.txHashes) = some [lackedTx] ∧
    (Machine.run (Connection.step emptyCore) (.start readyNode)
      [.message bareNotification, .message bareNotification]).dropped = false ∧
    ¬Machine.Meets (Connection.step emptyCore) (Connection.Guarded emptyCore) (.start readyNode)
      [.message bareNotification, .message bareNotification] := by
  refine ⟨by decide +kernel, by decide +kernel, ?_⟩
  rintro ⟨-, ⟨-, hcount⟩, -⟩
  have htwice : (Machine.run (Connection.step emptyCore) (.start readyNode)
      [.message bareNotification, .message bareNotification]).requests default = 2 := by decide +kernel
  have honce := hcount default
  rw [Machine.run_cons, Machine.run_cons] at htwice
  exact absurd (htwice ▸ honce) (by decide)

end Electronero.Wire.Fluffy
