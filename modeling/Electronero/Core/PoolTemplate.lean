import Electronero.Core.BlockTemplate
import Electronero.Core.PoolInvariant
import Electronero.Lib.WhileLoop
/-!
# Filling a block template (`fill_block_template`, src/cryptonote_core/tx_pool.cpp:1096)

A listed id without a record is skipped by `continue`, without the step to the next entry (:1127-1134): the loop stays
there. `init` (:1292) lists also the entries it then removes because they do not parse.
-/
namespace Electronero.Wire
open Text FiniteMap List

structure ChainView where
  currentHeight : UInt64
  getBlockIdByHeight : UInt64 → Hash
  /-- `check_tx_inputs` with what it leaves in `max_used_block_height` and `max_used_block_id` -/
  checkTxInputs : Transaction → UInt64 → Hash → Bool × UInt64 × Hash
  haveTxKeyimgesAsSpent : Transaction → Bool

def checkAgain (chain : ChainView) (txd : TxpoolTxMeta) (tx : Transaction) : Bool × TxpoolTxMeta :=
  let (valid, maxUsedBlockHeight, maxUsedBlockId) := chain.checkTxInputs tx txd.maxUsedBlockHeight txd.maxUsedBlockId
  let txd := { txd with maxUsedBlockHeight, maxUsedBlockId }
  if !valid then
    let failed := chain.currentHeight - 1
    (false, { txd with lastFailedHeight := failed, lastFailedId := chain.getBlockIdByHeight failed })
  else if chain.haveTxKeyimgesAsSpent tx then (false, { txd with doubleSpendSeen := true })
  else (true, txd)

def isTransactionReadyToGo (chain : ChainView) (txd : TxpoolTxMeta) (tx : Transaction) : Bool × TxpoolTxMeta :=
  if txd.maxUsedBlockId = nullHash then
    if txd.lastFailedId ≠ nullHash ∧ txd.lastFailedHeight < chain.currentHeight ∧
        txd.lastFailedId = chain.getBlockIdByHeight txd.lastFailedHeight then
      (false, txd)
    else checkAgain chain txd tx
  else if chain.currentHeight ≤ txd.maxUsedBlockHeight then (false, txd)
  else if txd.lastFailedId = chain.getBlockIdByHeight txd.lastFailedHeight then (false, txd)
  else checkAgain chain txd tx

def haveKeyImages (kImages : Finset KeyImage) : List TxIn → Bool
  | [] => false
  | txin :: vin =>
    match txin.getToKey with
    | none => false
    | some tokey => if tokey.kImage ∈ kImages then true else haveKeyImages kImages vin

def appendKeyImages (kImages : Finset KeyImage) : List TxIn → Finset KeyImage
  | [] => kImages
  | txin :: vin =>
    match txin.getToKey with
    | none => kImages
    | some tokey =>
      if tokey.kImage ∈ kImages then kImages else appendKeyImages (insert tokey.kImage kImages) vin

def TxpoolDb.update (db : TxpoolDb) (txid : Hash) (details : TxpoolTxMeta) : TxpoolDb :=
  db.modify fun e => if e.txid = txid then details else e.details

structure FillCall where
  medianSize : UInt64
  alreadyGeneratedCoins : UInt64
  version : UInt8
  chain : ChainView
  /-- `update_txpool_tx` throws -/
  updateFails : Hash → Bool

structure FillState where
  /-- from `sorted_it` on -/
  remaining : List SortedEntry
  db : TxpoolDb
  txHashes : List Hash
  totalSize : UInt64
  fee : UInt64
  bestCoinbase : UInt64
  coinbase : UInt64
  kImages : Finset KeyImage

namespace FillCall
variable (c : FillCall)

def maxTotalSize : UInt64 := if 5 ≤ c.version then 2 * c.medianSize - 600 else 130 * c.medianSize / 100 - 600

def blockReward (size : UInt64) : Option UInt64 :=
  Reward.getBlockReward c.medianSize size c.alreadyGeneratedCoins c.version c.chain.currentHeight.toNat

def store (s : FillState) (e : TxpoolEntry) (details : TxpoolTxMeta) : FillState :=
  if details ≠ e.details ∧ c.updateFails e.txid = false then { s with db := s.db.update e.txid details } else s

def consider (s : FillState) (e : TxpoolEntry) : FillState :=
  match parseAndValidateTxFromBlob e.blob with
  | none => s
  | some tx =>
    let (ready, details) := isTransactionReadyToGo c.chain e.details tx
    let s := c.store s e details
    if !ready then s
    else if haveKeyImages s.kImages tx.vin then s
    else { s with
      txHashes := s.txHashes ++ [e.txid]
      totalSize := s.totalSize + details.blobSize
      fee := s.fee + details.fee
      bestCoinbase := s.coinbase
      kImages := appendKeyImages s.kImages tx.vin }

def body (s : FillState) : FillState ⊕ FillState :=
  match s.remaining with
  | [] => .inr s
  | it :: rest =>
    match s.db.find it.txid with
    -- `continue` without `sorted_it++`
    | none => .inl s
    | some e =>
      let next := { s with remaining := rest }
      if c.maxTotalSize < s.totalSize + e.details.blobSize then .inl next
      else if 5 ≤ c.version then
        match c.blockReward (s.totalSize + e.details.blobSize) with
        | none => .inl next
        | some blockReward =>
          let coinbase := blockReward + s.fee + e.details.fee
          if coinbase < Reward.templateAcceptThreshold s.bestCoinbase then .inl { next with coinbase }
          else .inl (c.consider { next with coinbase } e)
      else if c.medianSize < s.totalSize then .inr s
      else .inl (c.consider next e)

def start (p : TxMemoryPool) : FillState where
  remaining := p.txsByFeeAndReceiveTime
  db := p.db
  txHashes := []
  totalSize := 0
  fee := 0
  bestCoinbase := (c.blockReward 0).getD 0
  coinbase := 0
  kImages := ∅

end FillCall

def TxpoolEntry.record (e : TxpoolEntry) : Hash × UInt64 × UInt64 × Bytes := (e.txid, e.details.blobSize, e.details.fee, e.blob)

theorem checkAgain_keeps (chain : ChainView) (txd : TxpoolTxMeta) (tx : Transaction) :
    (checkAgain chain txd tx).2.blobSize = txd.blobSize ∧ (checkAgain chain txd tx).2.fee = txd.fee := by
  unfold checkAgain
  grind

theorem isTransactionReadyToGo_keeps (chain : ChainView) (txd : TxpoolTxMeta) (tx : Transaction) :
    (isTransactionReadyToGo chain txd tx).2.blobSize = txd.blobSize ∧
      (isTransactionReadyToGo chain txd tx).2.fee = txd.fee := by
  have hagain := checkAgain_keeps chain txd tx
  unfold isTransactionReadyToGo
  grind

def TxpoolDb.SameRecords (db db' : TxpoolDb) : Prop := db'.entries.map TxpoolEntry.record = db.entries.map TxpoolEntry.record

namespace TxpoolDb
variable {db db' : TxpoolDb}

variable {e : TxpoolEntry} {txid : Hash}

theorem SameRecords.update (h : SameRecords db db') (he : e ∈ db'.entries) {details : TxpoolTxMeta}
    (hsize : details.blobSize = e.details.blobSize) (hfee : details.fee = e.details.fee) :
    SameRecords db (db'.update e.txid details) := by
  refine Eq.trans ?_ h
  simp only [TxpoolDb.update, modify, List.map_map]
  refine map_congr_left fun e' he' => ?_
  simp only [Function.comp_apply, TxpoolEntry.record]
  split
  · rename_i hid
    rw [inj_on_of_nodup_map db'.nodup he' he hid, hsize, hfee]
  · rfl

theorem SameRecords.find (h : SameRecords db db') (hfind : db'.find txid = some e) :
    ∃ e₀ ∈ db.entries, e₀.txid = txid ∧ e₀.record = e.record := by
  obtain ⟨hmem, hid⟩ := find_eq_some hfind
  have hrecord : e.record ∈ db.entries.map TxpoolEntry.record := by
    rw [← h]
    exact List.mem_map_of_mem hmem
  obtain ⟨e₀, he₀, heq⟩ := List.mem_map.1 hrecord
  exact ⟨e₀, he₀, (congrArg Prod.fst heq).trans hid, heq⟩

theorem SameRecords.ids (h : SameRecords db db') : db'.entries.map TxpoolEntry.txid = db.entries.map TxpoolEntry.txid := by
  have hids := congrArg (List.map Prod.fst) h
  rwa [List.map_map, List.map_map] at hids

theorem find_eq_none : db.find txid = none ↔ txid ∉ db.entries.map TxpoolEntry.txid := by
  simp [TxpoolDb.find]

end TxpoolDb

def TxpoolEntry.Clean (e : TxpoolEntry) : Prop :=
  ∀ tx, parseAndValidateTxFromBlob e.blob = some tx → tx.OnlyToKeys ∧ (tx.toKeys.map TxinToKey.kImage).Nodup

variable {vin : List TxIn} {kImages : Finset KeyImage} {inputs : List TxinToKey} {e : TxpoolEntry} {db : TxpoolDb}
  {es : List TxpoolEntry} {c : FillCall} {s : FillState} {p : TxMemoryPool}

theorem insertKeyImages_eq_true {id : Hash} {kept : Bool} {spent spent' : UMap KeyImage (Finset Hash)}
    (h : insertKeyImages id kept spent vin = (true, spent')) :
    ∃ inputs, vin.mapM TxIn.getToKey = some inputs ∧ (inputs.map TxinToKey.kImage).Nodup ∧
      ∀ t ∈ inputs, id ∉ spenders spent t.kImage := by
  induction vin generalizing spent with
  | nil => exact ⟨[], rfl, by simp, by simp⟩
  | cons txin vin ih =>
    rw [insertKeyImages] at h
    cases hget : txin.getToKey with
    | none =>
      rw [hget] at h
      cases h
    | some tokey =>
      rw [hget] at h
      dsimp only at h
      rcases ite_eq_iff.1 h with ⟨-, h⟩ | ⟨-, h⟩
      · cases h
      rcases ite_eq_iff.1 h with ⟨-, h⟩ | ⟨hlisted, h⟩
      · cases h
      obtain ⟨inputs, hinputs, hnodup, hnew⟩ := ih h
      -- its own image is taken now, so it does not come again
      have hother : ∀ t ∈ inputs, t.kImage ≠ tokey.kImage := by
        intro t ht heq
        have hnot := hnew t ht
        rw [spenders_insert, if_pos heq] at hnot
        exact hnot (Finset.mem_insert_self _ _)
      refine ⟨tokey :: inputs, ?_, ?_, ?_⟩
      · rw [mapM_cons, hget, hinputs]
        rfl
      · rw [map_cons, nodup_cons]
        refine ⟨?_, hnodup⟩
        intro hmem
        obtain ⟨t, ht, heq⟩ := List.mem_map.1 hmem
        exact hother t ht heq
      · intro t ht
        rcases mem_cons.1 ht with rfl | ht
        · exact hlisted
        · have hnot := hnew t ht
          rwa [spenders_insert, if_neg (hother t ht)] at hnot

theorem haveKeyImages_eq_false (hvin : vin.mapM TxIn.getToKey = some inputs) :
    haveKeyImages kImages vin = false ↔ ∀ t ∈ inputs, t.kImage ∉ kImages := by
  induction vin generalizing inputs with
  | nil =>
    cases hvin
    simp [haveKeyImages]
  | cons txin vin ih => grind [mapM_getToKey_cons, haveKeyImages]

theorem appendKeyImages_eq (hvin : vin.mapM TxIn.getToKey = some inputs) (hnodup : (inputs.map TxinToKey.kImage).Nodup)
    (hnew : ∀ t ∈ inputs, t.kImage ∉ kImages) (k : KeyImage) :
    k ∈ appendKeyImages kImages vin ↔ k ∈ kImages ∨ k ∈ inputs.map TxinToKey.kImage := by
  induction vin generalizing kImages inputs with
  | nil =>
    cases hvin
    simp [appendKeyImages]
  | cons txin vin ih =>
    obtain ⟨tokey, rest, hget, hrest, rfl⟩ := mapM_getToKey_cons hvin
    rw [map_cons, nodup_cons] at hnodup
    obtain ⟨hfirst, hnew⟩ := forall_mem_cons.1 hnew
    grind [appendKeyImages]

theorem TxpoolEntry.Clean.append_images (h : e.Clean) {tx : Transaction}
    (hparse : parseAndValidateTxFromBlob e.blob = some tx) (hnew : haveKeyImages kImages tx.vin = false) :
    (∀ k ∈ e.images, k ∉ kImages) ∧ ∀ k, k ∈ appendKeyImages kImages tx.vin ↔ k ∈ kImages ∨ k ∈ e.images := by
  obtain ⟨honly, hnodup⟩ := h tx hparse
  have hfree := (haveKeyImages_eq_false honly).1 hnew
  rw [TxpoolEntry.images_eq hparse]
  refine ⟨?_, appendKeyImages_eq honly hnodup hfree⟩
  grind

namespace FillCall
variable {c : FillCall}

/-- **One round**: it leaves the loop, stays at an id without a record, passes over an entry, or considers one that is small
enough. -/
theorem body_cases (c : FillCall) (s : FillState) :
    (s.remaining = [] ∧ c.body s = .inr s) ∨
    ∃ it rest, s.remaining = it :: rest ∧
      ((s.db.find it.txid = none ∧ c.body s = .inl s) ∨
      ∃ e, s.db.find it.txid = some e ∧
        ((c.version < 5 ∧ c.body s = .inr s) ∨
        (∃ coinbase, c.body s = .inl { s with remaining := rest, coinbase }) ∨
        ∃ coinbase, s.totalSize + e.details.blobSize ≤ c.maxTotalSize ∧
          c.body s = .inl (c.consider { s with remaining := rest, coinbase } e))) := by
  cases hremaining : s.remaining with
  | nil =>
    left
    exact ⟨rfl, by simp [body, hremaining]⟩
  | cons it rest =>
    right
    refine ⟨it, rest, rfl, ?_⟩
    cases hfind : s.db.find it.txid with
    | none =>
      left
      exact ⟨rfl, by simp [body, hremaining, hfind]⟩
    | some e =>
      right
      refine ⟨e, rfl, ?_⟩
      simp only [body, hremaining, hfind]
      by_cases hsize : c.maxTotalSize < s.totalSize + e.details.blobSize
      · grind
      rw [if_neg hsize]
      have hle := UInt64.not_lt.1 hsize
      by_cases hversion : 5 ≤ c.version
      · grind
      · grind

theorem store_eq (c : FillCall) (s : FillState) (e : TxpoolEntry) (details : TxpoolTxMeta) :
    ∃ db, c.store s e details = { s with db } ∧ (db = s.db ∨ db = s.db.update e.txid details) := by
  unfold store
  split
  · exact ⟨_, rfl, .inr rfl⟩
  · exact ⟨s.db, rfl, .inl rfl⟩

theorem consider_cases (c : FillCall) (s : FillState) {e : TxpoolEntry} (he : e ∈ s.db.entries) {db : TxpoolDb}
    (hsame : db.SameRecords s.db) :
    ∃ db', db.SameRecords db' ∧
      (c.consider s e = { s with db := db' } ∨
      ∃ tx, parseAndValidateTxFromBlob e.blob = some tx ∧ haveKeyImages s.kImages tx.vin = false ∧
        c.consider s e = { s with
          db := db'
          txHashes := s.txHashes ++ [e.txid]
          totalSize := s.totalSize + e.details.blobSize
          fee := s.fee + e.details.fee
          bestCoinbase := s.coinbase
          kImages := appendKeyImages s.kImages tx.vin }) := by
  unfold consider
  cases hparse : parseAndValidateTxFromBlob e.blob with
  | none => exact ⟨s.db, hsame, .inl rfl⟩
  | some tx =>
    obtain ⟨hsize, hfee⟩ := isTransactionReadyToGo_keeps c.chain e.details tx
    dsimp only
    generalize isTransactionReadyToGo c.chain e.details tx = checked at hsize hfee ⊢
    obtain ⟨ready, details⟩ := checked
    obtain ⟨db', hstore, hdb'⟩ := c.store_eq s e details
    have hsame' : db.SameRecords db' := by
      rcases hdb' with rfl | rfl
      · exact hsame
      · exact hsame.update he hsize hfee
    grind

end FillCall

structure Selection (c : FillCall) (db : TxpoolDb) (es : List TxpoolEntry) (s : FillState) : Prop where
  txHashes : s.txHashes = es.map TxpoolEntry.txid
  stored : ∀ e ∈ es, e ∈ db.entries
  nodup : (es.map TxpoolEntry.txid).Nodup
  images : es.Pairwise fun e e' => ∀ k ∈ e.images, k ∉ e'.images
  totalSize : s.totalSize = Wrapping.sum (es.map (·.details.blobSize))
  bounded : s.totalSize ≤ c.maxTotalSize
  fee : s.fee = Wrapping.sum (es.map (·.details.fee))

theorem total_le_of_stored (hstored : ∀ e ∈ es, e ∈ db.entries)
    (hnodup : (es.map TxpoolEntry.txid).Nodup) (f : TxpoolEntry → UInt64) :
    Wrapping.total (es.map f) ≤ Wrapping.total (db.entries.map f) := by
  have hsub : es.Subperm db.entries := subperm_of_subset (Nodup.of_map _ hnodup) hstored
  obtain ⟨l, hperm, hsublist⟩ := hsub
  have htotal : Wrapping.total (es.map f) = Wrapping.total (l.map f) := ((hperm.symm.map f).map UInt64.toNat).sum_eq
  rw [htotal]
  exact ((hsublist.map f).map UInt64.toNat).sum_le_sum (by simp)

theorem Selection.exact (h : Selection c db es s) : (Wrapping.total (db.entries.map (·.details.blobSize)) < 2 ^ 64 →
      s.totalSize.toNat = Wrapping.total (es.map (·.details.blobSize))) ∧
    (Wrapping.total (db.entries.map (·.details.fee)) < 2 ^ 64 →
      s.fee.toNat = Wrapping.total (es.map (·.details.fee))) := by
  have hsize := total_le_of_stored h.stored h.nodup (·.details.blobSize)
  have hfee := total_le_of_stored h.stored h.nodup (·.details.fee)
  rw [h.totalSize, h.fee]
  exact ⟨fun hfits => Wrapping.toNat_sum (by omega), fun hfits => Wrapping.toNat_sum (by omega)⟩

theorem Selection.append {s' : FillState} (h : Selection c db es s)
    (he : e ∈ db.entries) (hid : e.txid ∉ es.map TxpoolEntry.txid)
    (himages : ∀ e' ∈ es, ∀ k ∈ e'.images, k ∉ e.images) (htxHashes : s'.txHashes = s.txHashes ++ [e.txid])
    (hsize : s'.totalSize = s.totalSize + e.details.blobSize) (hbounded : s'.totalSize ≤ c.maxTotalSize)
    (hfee : s'.fee = s.fee + e.details.fee) : Selection c db (es ++ [e]) s' where
  txHashes := by rw [htxHashes, h.txHashes, map_append, map_singleton]
  stored := by
    intro e' he'
    rcases mem_append.1 he' with he' | he'
    · exact h.stored e' he'
    · rw [mem_singleton.1 he']
      exact he
  nodup := by
    rw [map_append, map_singleton, nodup_append]
    refine ⟨h.nodup, by simp, ?_⟩
    intro id hmem id' hlast heq
    rw [heq, mem_singleton.1 hlast] at hmem
    exact hid hmem
  images := by
    rw [pairwise_append]
    refine ⟨h.images, by simp, ?_⟩
    intro e' he' e'' he''
    rw [mem_singleton.1 he'']
    exact himages e' he'
  totalSize := by
    rw [hsize, map_append, map_singleton, Wrapping.sum_append, ← h.totalSize]
    simp
  bounded := hbounded
  fee := by
    rw [hfee, map_append, map_singleton, Wrapping.sum_append, ← h.fee]
    simp

structure Filling (c : FillCall) (db : TxpoolDb) (es : List TxpoolEntry) (s : FillState) : Prop extends Selection c db es s where
  records : db.SameRecords s.db
  kImages : ∀ k, k ∈ s.kImages ↔ ∃ e ∈ es, k ∈ e.images
  listed : ∀ it ∈ s.remaining, it.txid ∈ db.entries.map TxpoolEntry.txid
  remaining : (s.remaining.map SortedEntry.txid).Nodup
  ahead : ∀ it ∈ s.remaining, it.txid ∉ es.map TxpoolEntry.txid

section Loop
variable {c : FillCall} {db : TxpoolDb} {es : List TxpoolEntry} {s : FillState}

variable {rest : List SortedEntry} {db' : TxpoolDb}

theorem Filling.pass (h : Filling c db es s) {it : SortedEntry} (hremaining : s.remaining = it :: rest)
    (hdb' : db.SameRecords db') (coinbase : UInt64) :
    Filling c db es { s with remaining := rest, coinbase, db := db' } where
  toSelection := ⟨h.txHashes, h.stored, h.nodup, h.images, h.totalSize, h.bounded, h.fee⟩
  records := hdb'
  kImages := h.kImages
  listed := fun it' hit' => h.listed it' (by rw [hremaining]; exact mem_cons_of_mem _ hit')
  remaining := by
    have hnodup := h.remaining
    rw [hremaining, map_cons] at hnodup
    exact hnodup.of_cons
  ahead := fun it' hit' => h.ahead it' (by rw [hremaining]; exact mem_cons_of_mem _ hit')

theorem Filling.select (h : Filling c db es s) (hclean : ∀ e ∈ db.entries, e.Clean) {it : SortedEntry}
    (hremaining : s.remaining = it :: rest) {e : TxpoolEntry} (hfind : s.db.find it.txid = some e)
    (hfits : s.totalSize + e.details.blobSize ≤ c.maxTotalSize) {tx : Transaction}
    (hparse : parseAndValidateTxFromBlob e.blob = some tx) (hnew : haveKeyImages s.kImages tx.vin = false)
    (hdb' : db.SameRecords db') (coinbase : UInt64) :
    ∃ e₀, Filling c db (es ++ [e₀]) { s with
      remaining := rest
      coinbase
      db := db'
      txHashes := s.txHashes ++ [e.txid]
      totalSize := s.totalSize + e.details.blobSize
      fee := s.fee + e.details.fee
      bestCoinbase := coinbase
      kImages := appendKeyImages s.kImages tx.vin } := by
  obtain ⟨e₀, he₀, hid, hrecord⟩ := h.records.find hfind
  have hrecords : e₀.txid = e.txid ∧ e₀.details.blobSize = e.details.blobSize ∧ e₀.details.fee = e.details.fee ∧
      e₀.blob = e.blob := by
    simpa [TxpoolEntry.record] using hrecord
  obtain ⟨hid', hsize, hfee, hblob⟩ := hrecords
  obtain ⟨hdisjoint, happend⟩ := (hclean e₀ he₀).append_images (by rw [hblob, hparse]) hnew
  have hfirst : e₀.txid ∉ es.map TxpoolEntry.txid := by
    rw [hid]
    exact h.ahead it (by rw [hremaining]; exact mem_cons_self)
  have hlater := h.pass hremaining hdb' coinbase
  have hrest := h.remaining
  rw [hremaining, map_cons, nodup_cons] at hrest
  refine ⟨e₀, h.append he₀ hfirst ?_ ?_ ?_ hfits ?_, hdb', ?_, hlater.listed, hlater.remaining, ?_⟩
  · intro e' he' k hk hk'
    exact hdisjoint k hk' ((h.kImages k).2 ⟨e', he', hk⟩)
  · rw [hid']
  · rw [hsize]
  · rw [hfee]
  · intro k
    rw [happend, h.kImages]
    grind
  · intro it' hit' hmem
    rw [map_append, map_singleton, mem_append, mem_singleton] at hmem
    rcases hmem with hmem | hmem
    · exact hlater.ahead it' hit' hmem
    · grind

theorem Filling.step (h : Filling c db es s) (hclean : ∀ e ∈ db.entries, e.Clean) {s' : FillState} (hbody : c.body s = .inl s') :
    (∃ es', Filling c db es' s') ∧ s'.remaining.length < s.remaining.length := by
  rcases c.body_cases s with ⟨-, hend⟩ | ⟨it, rest, hremaining, ⟨hnone, -⟩ | ⟨e, hfind, hcases⟩⟩
  · rw [hend] at hbody
    cases hbody
  · -- every listed id has its record
    have hmem := h.listed it (by rw [hremaining]; exact mem_cons_self)
    rw [TxpoolDb.find_eq_none, h.records.ids] at hnone
    exact absurd hmem hnone
  have hlength : rest.length < s.remaining.length := by simp [hremaining]
  rcases hcases with ⟨-, hbreak⟩ | ⟨coinbase, hpass⟩ | ⟨coinbase, hfits, hconsider⟩
  · rw [hbreak] at hbody
    cases hbody
  · rw [hpass] at hbody
    cases hbody
    exact ⟨⟨es, h.pass hremaining h.records coinbase⟩, hlength⟩
  · rw [hconsider] at hbody
    obtain ⟨db', hdb', hsame | ⟨tx, hparse, hnew, hselect⟩⟩ :=
      c.consider_cases { s with remaining := rest, coinbase } (TxpoolDb.find_eq_some hfind).1 h.records
    · rw [hsame] at hbody
      cases hbody
      exact ⟨⟨es, h.pass hremaining hdb' coinbase⟩, hlength⟩
    · rw [hselect] at hbody
      cases hbody
      obtain ⟨e₀, hfilling⟩ := h.select hclean hremaining hfind hfits hparse hnew hdb' coinbase
      exact ⟨⟨_, hfilling⟩, hlength⟩

theorem Filling.returns (h : Filling c db es s) (hclean : ∀ e ∈ db.entries, e.Clean) :
    ∃ s', WhileLoop.Returns c.body s s' ∧ ∃ es', Selection c db es' s' := by
  refine WhileLoop.returns_of_measure (I := fun s => ∃ es, Filling c db es s) (fun s => s.remaining.length) ?_ ?_ ⟨es, h⟩
  · rintro s s' ⟨es, h⟩ hbody
    exact h.step hclean hbody
  · rintro s s' ⟨es, h⟩ hbody
    have hsame : s' = s := by
      rcases c.body_cases s with ⟨-, hend⟩ | ⟨it, rest, -, ⟨-, hstay⟩ | ⟨e, -, ⟨-, hbreak⟩ | ⟨_, hpass⟩ | ⟨_, -, hconsider⟩⟩⟩
      · grind
      · rw [hstay] at hbody
        cases hbody
      · grind
      · rw [hpass] at hbody
        cases hbody
      · rw [hconsider] at hbody
        cases hbody
    exact ⟨es, hsame ▸ h.toSelection⟩

theorem diverges_of_unrecorded (hversion : 5 ≤ c.version) {it : SortedEntry} (hit : it ∈ s.remaining)
    (hnone : it.txid ∉ s.db.entries.map TxpoolEntry.txid) : WhileLoop.Diverges c.body s := by
  refine WhileLoop.diverges_of_stays
    (I := fun s => ∃ it ∈ s.remaining, it.txid ∉ s.db.entries.map TxpoolEntry.txid) ?_ ⟨it, hit, hnone⟩
  rintro s ⟨it, hit, hnone⟩
  rcases c.body_cases s with ⟨hempty, -⟩ | ⟨first, rest, hremaining, ⟨-, hstay⟩ | ⟨e, hfind, hcases⟩⟩
  · rw [hempty] at hit
    cases hit
  · exact ⟨s, hstay, it, hit, hnone⟩
  -- the first one has a record, so the one without is further on
  have hlater : it ∈ rest := by
    rw [hremaining] at hit
    rcases mem_cons.1 hit with rfl | hit
    · rw [← TxpoolDb.find_eq_none, hfind] at hnone
      cases hnone
    · exact hit
  rcases hcases with ⟨hlow, -⟩ | ⟨coinbase, hpass⟩ | ⟨coinbase, -, hconsider⟩
  · exact absurd hversion (UInt8.not_le.2 hlow)
  · exact ⟨_, hpass, it, hlater, hnone⟩
  · obtain ⟨db', hdb', hsame | ⟨tx, -, -, hselect⟩⟩ :=
      @FillCall.consider_cases c { s with remaining := rest, coinbase } e (TxpoolDb.find_eq_some hfind).1 s.db rfl
    · rw [hsame] at hconsider
      exact ⟨_, hconsider, it, hlater, by rw [hdb'.ids]; exact hnone⟩
    · rw [hselect] at hconsider
      exact ⟨_, hconsider, it, hlater, by rw [hdb'.ids]; exact hnone⟩

end Loop

def TxpoolEntry.Parses (e : TxpoolEntry) : Prop := (parseAndValidateTxFromBlob e.blob).isSome = true

instance (e : TxpoolEntry) : Decidable e.Parses := inferInstanceAs (Decidable (_ = _))

def TxpoolEntry.Stays (m : PoolMoment) (e : TxpoolEntry) : Prop := e.Parses ∨ m.faults.remove e.txid = true

instance (m : PoolMoment) (e : TxpoolEntry) : Decidable (e.Stays m) := inferInstanceAs (Decidable (_ ∨ _))

section Init
variable {rules : PoolRules} {m : PoolMoment}

variable {q q' : TxMemoryPool} {noted noted' : List Hash}

theorem initEntry_eq_ok {e : TxpoolEntry} (h : TxMemoryPool.initEntry rules (q, noted) e = .ok (q', noted')) :
    e.Clean ∧ q'.db = q.db ∧ noted' = noted ++ (if e.Parses then [] else [e.txid]) ∧
      ∃ rate, q'.txsByFeeAndReceiveTime = emplace ⟨rate, e.details.receiveTime, e.txid⟩ q.txsByFeeAndReceiveTime := by
  unfold TxMemoryPool.initEntry at h
  generalize hinit : TxMemoryPool.initTx rules e = read at h
  obtain ⟨tx, notes⟩ := read
  dsimp only at h
  generalize hinsert : insertKeyImages (rules.getTransactionHash tx) e.details.keptByBlock q.spentKeyImages tx.vin = inserted at h
  obtain ⟨inserted, spentKeyImages⟩ := inserted
  cases inserted with
  | false => cases h
  | true =>
    cases h
    obtain ⟨inputs, hinputs, hnodup, -⟩ := insertKeyImages_eq_true hinsert
    unfold TxMemoryPool.initTx at hinit
    refine ⟨?_, rfl, ?_, _, rfl⟩
    · intro tx' htx'
      rw [htx'] at hinit
      cases hinit
      have hkeys : tx.toKeys = inputs := PartialMap.filterMap_of_mapM hinputs
      grind [Transaction.OnlyToKeys]
    · cases hparse : parseAndValidateTxFromBlob e.blob with
      | none => grind [TxpoolEntry.Parses]
      | some tx' => grind [TxpoolEntry.Parses]

theorem initEntries_eq_ok {rest : List TxpoolEntry}
    (h : rest.foldlM (TxMemoryPool.initEntry rules) (q, noted) = .ok (q', noted'))
    (hnodup : (q.ids ++ rest.map TxpoolEntry.txid).Nodup) :
    (∀ e ∈ rest, e.Clean) ∧ q'.db = q.db ∧ noted' = noted ++ (rest.filter fun e => !e.Parses).map TxpoolEntry.txid ∧
      q'.ids.Perm (q.ids ++ rest.map TxpoolEntry.txid) := by
  induction rest generalizing q noted with
  | nil =>
    cases h
    simp
  | cons e rest ih =>
    obtain ⟨⟨q₁, noted₁⟩, hstep, hrest⟩ := ExceptLoop.foldlM_cons_ok.1 h
    obtain ⟨hclean, hdb, hnoted, rate, hsorted⟩ := initEntry_eq_ok hstep
    rw [map_cons, nodup_middle, nodup_cons] at hnodup
    have hnew : e.txid ∉ q.ids := fun hmem => hnodup.1 (mem_append_left _ hmem)
    have hids : q₁.ids.Perm (e.txid :: q.ids) := by
      rw [TxMemoryPool.ids, hsorted]
      exact emplace_perm hnew
    have hnodup₁ : (q₁.ids ++ rest.map TxpoolEntry.txid).Nodup := by
      refine (hids.append_right _).nodup_iff.2 ?_
      rw [cons_append, nodup_cons]
      exact hnodup
    obtain ⟨hclean', hdb', hnoted', hids'⟩ := ih hrest hnodup₁
    refine ⟨?_, hdb'.trans hdb, ?_, ?_⟩
    · exact forall_mem_cons.2 ⟨hclean, hclean'⟩
    · rw [hnoted', hnoted, append_assoc]
      by_cases hparses : e.Parses <;> simp [hparses]
    · refine hids'.trans ((hids.append_right _).trans ?_)
      rw [map_cons]
      exact perm_middle.symm

theorem entries_foldl_remove (txids : List Hash) (db : TxpoolDb) :
    (txids.foldl TxpoolDb.remove db).entries = db.entries.filter fun e => e.txid ∉ txids := by
  induction txids generalizing db with
  | nil => simp
  | cons txid txids ih =>
    rw [foldl_cons, ih]
    simp only [TxpoolDb.remove, List.filter_filter]
    grind

theorem init_eq_true {p p' : TxMemoryPool} {maxTxpoolSize : UInt64} (h : p.init rules m maxTxpoolSize = (true, p')) :
    (∀ e ∈ p.db.entries, e.Clean) ∧ p'.ids.Perm (p.db.entries.map TxpoolEntry.txid) ∧
      p'.db.entries = p.db.entries.filter fun e => e.Stays m := by
  have hperm : (p.db.entries.filter (fun e => !e.details.keptByBlock) ++ p.db.entries.filter (·.details.keptByBlock)).Perm
      p.db.entries := by
    have hparts := filter_append_perm (fun e : TxpoolEntry => !e.details.keptByBlock) p.db.entries
    simpa using hparts
  unfold TxMemoryPool.init at h
  dsimp only at h
  generalize hloop : List.foldlM (TxMemoryPool.initEntry rules) _ _ = result at h
  cases result with
  | error _ => cases h
  | ok state =>
    obtain ⟨q, noted⟩ := state
    obtain ⟨hclean, hdb, hnoted, hids⟩ := initEntries_eq_ok hloop (by
      refine (hperm.map _).nodup_iff.2 ?_
      exact p.db.nodup)
    cases h
    refine ⟨fun e he => hclean e (hperm.mem_iff.2 he), ?_, ?_⟩
    · exact hids.trans (hperm.map _)
    · dsimp only
      rw [entries_foldl_remove, hdb]
      refine filter_congr fun e he => ?_
      have hremoved : e.txid ∈ noted ↔ ¬e.Parses := by
        rw [hnoted, nil_append, List.mem_map]
        constructor
        · rintro ⟨e', he', hid⟩
          obtain ⟨hmem, hnot⟩ := mem_filter.1 he'
          obtain rfl := inj_on_of_nodup_map p.db.nodup (hperm.mem_iff.1 hmem) he hid
          simpa using hnot
        · grind
      rw [decide_eq_decide, mem_filter, hremoved, TxpoolEntry.Stays]
      simp
      tauto

end Init

namespace FillCall

def Sane (c : FillCall) : Prop :=
  5 ≤ c.version → (max c.medianSize (Reward.getMinBlockSize c.version)).toUInt32 ≠ 0

def Fills (c : FillCall) (p : TxMemoryPool) : Prop :=
  ∃ s, WhileLoop.Returns c.body (c.start p) s ∧ ∃ es, Selection c p.db es s ∧
    (Wrapping.total (p.db.entries.map (·.details.blobSize)) < 2 ^ 64 →
      s.totalSize.toNat = Wrapping.total (es.map (·.details.blobSize))) ∧
    (Wrapping.total (p.db.entries.map (·.details.fee)) < 2 ^ 64 →
      s.fee.toNat = Wrapping.total (es.map (·.details.fee)))

def plain : FillCall where
  medianSize := 300000
  alreadyGeneratedCoins := 0
  version := 5
  chain := ⟨1, fun _ => nullHash, fun _ _ _ => (true, 0, nullHash), fun _ => false⟩
  updateFails _ := false

theorem plain_sane : plain.Sane := by
  intro _
  decide

end FillCall

theorem filling_start (c : FillCall) (hlisted : p.ids.Perm (p.db.entries.map TxpoolEntry.txid)) :
    Filling c p.db [] (c.start p) where
  txHashes := rfl
  stored := by simp
  nodup := by simp
  images := by simp
  totalSize := rfl
  bounded := UInt64.le_iff_toNat_le.2 (by simp [FillCall.start])
  fee := rfl
  records := rfl
  kImages := by simp [FillCall.start]
  listed := fun it hit => hlisted.mem_iff.1 (List.mem_map_of_mem hit)
  remaining := hlisted.nodup_iff.2 p.db.nodup
  ahead := by simp

theorem diverges_of_removed {rules : PoolRules} {m : PoolMoment} {p' : TxMemoryPool} {maxTxpoolSize : UInt64}
    (hinit : p.init rules m maxTxpoolSize = (true, p')) (he : e ∈ p.db.entries) (hremoved : ¬e.Stays m)
    (hversion : 5 ≤ c.version) : WhileLoop.Diverges c.body (c.start p') := by
  obtain ⟨-, hids, hentries⟩ := init_eq_true hinit
  have hlisted : e.txid ∈ p'.ids := hids.mem_iff.2 (List.mem_map_of_mem he)
  obtain ⟨it, hit, hid⟩ := List.mem_map.1 hlisted
  refine diverges_of_unrecorded hversion hit ?_
  intro hmem
  obtain ⟨e', he', hid'⟩ := List.mem_map.1 hmem
  have hdb : (c.start p').db.entries = p'.db.entries := rfl
  rw [hdb, hentries, mem_filter, decide_eq_true_eq] at he'
  obtain rfl := inj_on_of_nodup_map p.db.nodup he'.1 he (hid'.trans hid)
  exact hremoved he'.2

/-- **Filling a template after start-up** always ends, exactly if every stored blob parses or could not be removed. -/
theorem template_filling_iff {rules : PoolRules} {m : PoolMoment} {p p' : TxMemoryPool} {maxTxpoolSize : UInt64}
    (hinit : p.init rules m maxTxpoolSize = (true, p')) :
    (∀ c : FillCall, c.Sane → c.Fills p') ↔ ∀ e ∈ p.db.entries, e.Parses ∨ m.faults.remove e.txid = true := by
  obtain ⟨hclean, hids, hentries⟩ := init_eq_true hinit
  constructor
  · intro hfills e he
    by_contra hremoved
    obtain ⟨s, hreturns, -⟩ := hfills .plain FillCall.plain_sane
    exact (diverges_of_removed hinit he hremoved (by decide)).not_returns s hreturns
  · intro hstays c _
    have hall : p'.db.entries = p.db.entries := by
      rw [hentries, filter_eq_self]
      intro e he
      exact decide_eq_true (hstays e he)
    obtain ⟨s, hreturns, es, hselection⟩ :=
      (filling_start c (by rw [hall]; exact hids)).returns (by rw [hall]; exact hclean)
    exact ⟨s, hreturns, es, hselection, hselection.exact⟩

def ringDb : TxpoolDb :=
  ⟨[⟨plainRules.getTransactionHash ringTx, ⟨nullHash, nullHash, UInt64.ofNat ringBlob.length, 0, 0, 0, 0, 0, false, false,
    false, false⟩, ringBlob⟩], by simp⟩

theorem template_filling_iff_ring :
    FillCall.plain.Fills ({ TxMemoryPool.new with db := ringDb }.init plainRules calmMoment 0).2 := by
  have hinit : ({ TxMemoryPool.new with db := ringDb }.init plainRules calmMoment 0).1 = true := by decide +kernel
  have hparses : ∀ e ∈ ringDb.entries, e.Parses ∨ calmMoment.faults.remove e.txid = true := by decide +kernel
  generalize hrun : { TxMemoryPool.new with db := ringDb }.init plainRules calmMoment 0 = result at hinit
  obtain ⟨_, p'⟩ := result
  subst hinit
  exact (template_filling_iff hrun).2 hparses .plain FillCall.plain_sane

theorem garbled_entry_never_fills :
    ({ TxMemoryPool.new with db := garbledDb }.init plainRules calmMoment 0).1 = true ∧
    WhileLoop.Diverges FillCall.plain.body
      (FillCall.plain.start ({ TxMemoryPool.new with db := garbledDb }.init plainRules calmMoment 0).2) := by
  have hinit : ({ TxMemoryPool.new with db := garbledDb }.init plainRules calmMoment 0).1 = true := by decide +kernel
  have hremoved : ∃ e ∈ garbledDb.entries, ¬e.Stays calmMoment := by decide +kernel
  obtain ⟨e, he, hgone⟩ := hremoved
  refine ⟨hinit, ?_⟩
  generalize hrun : { TxMemoryPool.new with db := garbledDb }.init plainRules calmMoment 0 = result at hinit
  obtain ⟨_, p'⟩ := result
  subst hinit
  exact diverges_of_removed hrun he hgone (by decide)

end Electronero.Wire
