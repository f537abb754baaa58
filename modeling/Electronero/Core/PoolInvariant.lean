import Electronero.Core.PoolMirrors
import Electronero.Core.TxRoundTrip
import Electronero.Lib.ExceptLoop
import Electronero.Lib.PartialMap
import Electronero.Lib.Run
/-!
# The four places of a pool transaction agree

`Represents` says what the containers are for; it follows from `Mirrored`, which every operation keeps if it is `Fine`.
-/
namespace Electronero.Wire
open Text FiniteMap

theorem emplace_perm {e : SortedEntry} {sorted : List SortedEntry} (h : e.txid ∉ sorted.map SortedEntry.txid) :
    ((emplace e sorted).map SortedEntry.txid).Perm (e.txid :: sorted.map SortedEntry.txid) := by
  rw [emplace, if_neg fun hmem => h (List.mem_map_of_mem hmem)]
  exact (List.perm_orderedInsert _ _ _).map _

theorem map_txid_eraseSorted (sorted : List SortedEntry) (txid : Hash) :
    (TxMemoryPool.eraseSorted sorted txid).map SortedEntry.txid = (sorted.map SortedEntry.txid).erase txid := by
  induction sorted with
  | nil => rfl
  | cons e sorted ih => grind [TxMemoryPool.eraseSorted]

theorem map_txid_foldl_eraseSorted (txids : List Hash) (sorted : List SortedEntry) :
    (txids.foldl TxMemoryPool.eraseSorted sorted).map SortedEntry.txid = (sorted.map SortedEntry.txid).diff txids := by
  induction txids generalizing sorted with
  | nil => rfl
  | cons txid txids ih => rw [List.foldl_cons, ih, map_txid_eraseSorted, List.diff_cons]

namespace TxMemoryPool
variable {rules : PoolRules} {m : PoolMoment} {p : TxMemoryPool}

def ids (p : TxMemoryPool) : List Hash := p.txsByFeeAndReceiveTime.map SortedEntry.txid

def MirroredWith (rules : PoolRules) (pending : List Hash) (p : TxMemoryPool) : Prop :=
  Mirrors rules p.db.entries (pending ++ p.ids) p.spentKeyImages p.txpoolSize

def Mirrored (rules : PoolRules) (p : TxMemoryPool) : Prop := p.MirroredWith rules []

section
variable {id : Hash} {e : TxpoolEntry} {tx : Transaction} {ids : List Hash}

theorem Mirrors.dropTx (h : Mirrors rules p.db.entries (id :: ids) p.spentKeyImages p.txpoolSize)
    (hstored : p.parseStored m id = some (e, tx)) {size : UInt64} (hsize : size = UInt64.ofNat e.blob.length) :
    Mirrors rules (p.dropTx rules id tx size).db.entries ids (p.dropTx rules id tx size).spentKeyImages
      (p.dropTx rules id tx size).txpoolSize := by
  obtain ⟨hmem, rfl, htx⟩ := parseStored_eq_some hstored
  subst hsize
  exact (h.perm (TxpoolDb.perm_remove hmem) (.refl _)).remove htx

theorem Mirrored.front (h : p.Mirrored rules) (hstored : p.parseStored m id = some (e, tx)) :
    Mirrors rules p.db.entries (id :: (p.txsByFeeAndReceiveTime.map SortedEntry.txid).erase id) p.spentKeyImages
      p.txpoolSize := by
  obtain ⟨hmem, rfl, -⟩ := parseStored_eq_some hstored
  have hid : e.txid ∈ p.ids := (Mirrors.listed h).mem_iff.2 (List.mem_map_of_mem hmem)
  exact Mirrors.perm h (.refl _) (List.perm_cons_erase hid)

theorem Mirrored.takeTx (h : p.Mirrored rules) (id : Hash) : (p.takeTx rules m id).2.Mirrored rules := by
  unfold TxMemoryPool.takeTx
  rcases hstored : p.parseStored m id with _ | ⟨e, tx⟩
  · split_ifs <;> exact h
  · dsimp only
    split_ifs
    · exact h
    · exact h
    · exact h
    · have hsize := (Mirrors.sound h e (parseStored_eq_some hstored).1).size
      have hdrop := Mirrors.dropTx (h.front hstored) hstored hsize
      rw [← map_txid_eraseSorted] at hdrop
      exact hdrop

theorem Mirrored.removeInvalid (h : p.Mirrored rules) (id : Hash) : (p.removeInvalid rules m id).Mirrored rules := by
  unfold TxMemoryPool.removeInvalid
  rcases hstored : p.parseStored m id with _ | ⟨e, tx⟩
  · exact h
  · dsimp only
    split_ifs
    · exact h
    · have hdrop := Mirrors.dropTx (h.front hstored) hstored rfl
      rw [← map_txid_eraseSorted] at hdrop
      exact hdrop

theorem Mirrored.removeInvalids (h : p.Mirrored rules) (txids : List Hash) :
    (txids.foldl (TxMemoryPool.removeInvalid rules m) p).Mirrored rules := by
  induction txids generalizing p with
  | nil => exact h
  | cons id txids ih => exact ih (h.removeInvalid id)

theorem Mirrored.totalSize_eq (h : p.Mirrored rules) :
    Wrapping.sum (p.db.entries.map fun e => e.details.blobSize) = p.txpoolSize := by
  rw [Mirrors.size_eq h, totalSize]
  congr 1
  exact List.map_congr_left fun e he => (Mirrors.sound h e he).size

theorem Mirrored.validate (h : p.Mirrored rules) : (p.validate rules m).Mirrored rules := by
  unfold TxMemoryPool.validate
  refine Mirrored.removeInvalids ?_ _
  rw [h.totalSize_eq]
  exact h

theorem Mirrored.eraseIdx (h : p.Mirrored rules) {k : Nat} {it : SortedEntry}
    (hit : p.txsByFeeAndReceiveTime[k]? = some it) :
    Mirrors rules p.db.entries (it.txid :: (p.txsByFeeAndReceiveTime.eraseIdx k).map SortedEntry.txid) p.spentKeyImages
      p.txpoolSize := by
  obtain ⟨hk, hget⟩ := List.getElem?_eq_some_iff.1 hit
  have hperm := (List.getElem_cons_eraseIdx_perm hk).map SortedEntry.txid
  rw [List.map_cons, hget] at hperm
  exact Mirrors.perm h (.refl _) hperm.symm

theorem Mirrored.prune (h : p.Mirrored rules) (bytes : UInt64) : (p.prune rules m bytes).Mirrored rules :=
  pruneFrom_rule rules m (fun _ _ _ _ _ h hit hstored => Mirrors.dropTx (h.eraseIdx hit) hstored rfl) h _ _

end

def Removable (m : PoolMoment) (txid : Hash) : Prop := m.faults.getBlob txid = false ∧ m.faults.remove txid = false

variable {pending : List Hash} {tx : Transaction} {es : List TxpoolEntry} {db : TxpoolDb}

theorem MirroredWith.removeStuck {txid : Hash} (h : p.MirroredWith rules (txid :: pending))
    (hremovable : Removable m txid) : (p.removeStuck rules m txid).MirroredWith rules pending := by
  obtain ⟨e, he, rfl⟩ := List.mem_map.1 ((Mirrors.listed h).mem_iff.1 List.mem_cons_self)
  obtain ⟨tx, htx, -⟩ := (Mirrors.sound h e he).tx
  have hstored : p.parseStored m e.txid = some (e, tx) := by
    simp [parseStored, hremovable.1, TxpoolDb.find_of_mem he, htx]
  unfold TxMemoryPool.removeStuck
  rw [hstored]
  dsimp only
  rw [hremovable.2, if_neg Bool.false_ne_true]
  exact Mirrors.dropTx h hstored rfl

theorem MirroredWith.removeStucks (h : p.MirroredWith rules pending) (hremovable : ∀ txid ∈ pending, Removable m txid) :
    (pending.foldl (TxMemoryPool.removeStuck rules m) p).Mirrored rules := by
  induction pending generalizing p with
  | nil => exact h
  | cons txid pending ih =>
    obtain ⟨hfirst, hrest⟩ := List.forall_mem_cons.1 hremovable
    exact ih (h.removeStuck hfirst) hrest

theorem Mirrored.removeStuckTransactions (h : p.Mirrored rules)
    (hremovable : ∀ e ∈ p.db.entries, isStuck m.now e = true → Removable m e.txid) :
    (p.removeStuckTransactions rules m).Mirrored rules := by
  unfold TxMemoryPool.removeStuckTransactions
  refine MirroredWith.removeStucks ?_ ?_
  · have hnodup : ((p.db.entries.filter (isStuck m.now)).map TxpoolEntry.txid).Nodup :=
      p.db.nodup.sublist (List.filter_sublist.map _)
    have hsub : ((p.db.entries.filter (isStuck m.now)).map TxpoolEntry.txid).Subperm p.ids :=
      List.subperm_of_subset hnodup fun txid htxid =>
        (Mirrors.listed h).mem_iff.2 ((List.filter_sublist.map _).subset htxid)
    have hperm := (List.subperm_append_diff_self_of_count_le fun x _ => hsub.count_le x).symm
    rw [ids, ← map_txid_foldl_eraseSorted] at hperm
    exact Mirrors.perm h (.refl _) hperm
  · grind

structure Storable (tx : Transaction) (blob : Bytes) : Prop where
  toBlob : txToBlob tx = some blob
  parses : parseAndValidateTxFromBlob blob = some tx
  images : (tx.toKeys.map TxinToKey.kImage).Nodup

theorem onlyToKeys_of_supported (h : checkInputsTypesSupported tx = true) : tx.OnlyToKeys := by
  have hmap : ∀ vin : List TxIn, (vin.all fun txin => txin.getToKey.isSome) = true →
      vin.mapM TxIn.getToKey = some (vin.filterMap TxIn.getToKey) := by
    intro vin hall
    induction vin with
    | nil => rfl
    | cons txin vin ih => grind
  exact hmap tx.vin h

theorem spenders_of_unspent (h : p.haveTxKeyimgesAsSpent tx.vin = false) :
    ∀ t ∈ tx.toKeys, spenders p.spentKeyImages t.kImage = ∅ := by
  have hvin : ∀ vin : List TxIn, p.haveTxKeyimgesAsSpent vin = false → ∀ t ∈ vin.filterMap TxIn.getToKey,
      spenders p.spentKeyImages t.kImage = ∅ := by
    intro vin
    induction vin with
    | nil => simp
    | cons txin vin ih =>
      intro hspent t ht
      unfold haveTxKeyimgesAsSpent at hspent
      cases htokey : txin.getToKey with
      | none => simp [htokey] at hspent
      | some tokey =>
        simp only [htokey, Bool.if_true_left, Bool.or_eq_false_iff, decide_eq_false_iff_not, Bool.not_eq_true,
          Option.isSome_eq_false_iff, Option.isNone_iff_eq_none] at hspent
        rw [List.filterMap_cons_some htokey] at ht
        rcases List.mem_cons.1 ht with rfl | ht
        · simp [spenders, getD, hspent.1]
        · exact ih hspent.2 t ht
  exact hvin tx.vin h

section
variable {tx : Transaction} {blob : Bytes} {details : TxpoolTxMeta}

theorem Mirrored.insertTx (h : p.Mirrored rules) {removeFirst : Bool} {r : Bool × TxMemoryPool}
    (hr : p.insertTx rules m tx (rules.getTransactionHash tx) details removeFirst = r) (hstorable : Storable tx blob)
    (honly : tx.OnlyToKeys) (hnew : p.db.has (rules.getTransactionHash tx) = false)
    (hsize : details.blobSize = UInt64.ofNat blob.length)
    (hfree : details.keptByBlock = true ∨ ∀ t ∈ tx.toKeys, spenders p.spentKeyImages t.kImage = ∅) : r = (false, p) ∨
      ∃ p', r = (true, p') ∧ { p' with txpoolSize := p'.txpoolSize + details.blobSize }.Mirrored rules := by
  subst hr
  have hdb : (if removeFirst = true then p.db.remove (rules.getTransactionHash tx) else p.db) = p.db := by
    rw [TxpoolDb.remove_of_absent hnew, ite_self]
  let e : TxpoolEntry := ⟨rules.getTransactionHash tx, details, blob⟩
  have himages : e.images = tx.toKeys.map TxinToKey.kImage := TxpoolEntry.images_eq hstorable.parses
  have hsound : e.Sound rules := ⟨hsize, ⟨tx, hstorable.parses, rfl, honly⟩, himages ▸ hstorable.images⟩
  have hfree' : e.details.keptByBlock = true ∨ ∀ k ∈ e.images, spenders p.spentKeyImages k = ∅ := by grind
  have habsent : e.txid ∉ p.db.entries.map TxpoolEntry.txid := TxpoolDb.has_eq_false.1 hnew
  obtain ⟨db', hadd, hperm⟩ := TxpoolDb.add_of_absent (e := e) hnew
  obtain ⟨spent', hinsert, hmirrors⟩ := Mirrors.insert h hsound habsent hstorable.parses hfree'
  unfold TxMemoryPool.insertTx
  simp only [hdb, hstorable.toBlob, Option.getD_some]
  split_ifs
  · exact .inl rfl
  · exact .inl rfl
  · refine .inr ⟨{ p with
      db := db', spentKeyImages := spent'
      txsByFeeAndReceiveTime := emplace ⟨rules.feePerByte details.fee details.blobSize, details.receiveTime, e.txid⟩
        p.txsByFeeAndReceiveTime }, ?_, ?_⟩
    · rw [hadd]
      dsimp only
      rw [hinsert]
    · have hunlisted : e.txid ∉ p.ids := fun hmem => habsent ((Mirrors.listed h).mem_iff.1 hmem)
      have hlisted := emplace_perm (e := ⟨rules.feePerByte details.fee details.blobSize, details.receiveTime, e.txid⟩) hunlisted
      exact hmirrors.perm hperm.symm hlisted.symm

theorem Mirrored.addChecked (h : p.Mirrored rules) (hstorable : Storable tx blob) (honly : tx.OnlyToKeys)
    (hnew : p.db.has (rules.getTransactionHash tx) = false) {keptByBlock : Bool}
    (hfree : keptByBlock = true ∨ ∀ t ∈ tx.toKeys, spenders p.spentKeyImages t.kImage = ∅)
    (fee : UInt64) (tvc : TxVerificationContext) (relayed doNotRelay : Bool) :
    (p.addChecked rules m tx (rules.getTransactionHash tx) (UInt64.ofNat blob.length) fee tvc keptByBlock relayed
      doNotRelay).2.2.Mirrored rules := by
  rcases addChecked_cases rules m p tx (rules.getTransactionHash tx) (UInt64.ofNat blob.length) fee tvc keptByBlock relayed
    doNotRelay with ⟨tvc', heq⟩ | ⟨details, removeFirst, p', tvc', hsize, rfl, -, hinserted⟩
  · rw [heq]
    exact h
  · rcases hinserted with ⟨hr, heq⟩ | ⟨hr, heq⟩
    · rw [heq]
      rcases h.insertTx hr hstorable honly hnew hsize hfree with hp | ⟨_, hp, -⟩ <;> cases hp
      exact h
    · rw [heq]
      rcases h.insertTx hr hstorable honly hnew hsize hfree with hp | ⟨_, hp, hmirrored⟩ <;> cases hp
      rw [hsize] at hmirrored
      exact Mirrored.prune hmirrored _

theorem Mirrored.modify (h : p.Mirrored rules) {f : TxpoolEntry → TxpoolTxMeta}
    (hf : ∀ e, (f e).blobSize = e.details.blobSize ∧ (f e).keptByBlock = e.details.keptByBlock) :
    { p with db := p.db.modify f }.Mirrored rules where
  listed := (Mirrors.listed h).trans (by rw [← TxpoolDb.map_txid_modify p.db.entries f]; rfl)
  nodup := (p.db.modify f).nodup
  mem_spenders := fun k id => by
    rw [Mirrors.mem_spenders h, TxpoolDb.modify]
    simp [TxpoolEntry.images]
  tight := Mirrors.tight h
  size_eq := (Mirrors.size_eq h).trans (by simp [totalSize, TxpoolDb.modify, Function.comp_def])
  compatible := by
    intro a ha b hb hab k hka hkb
    obtain ⟨a', ha', rfl⟩ := List.mem_map.1 ha
    obtain ⟨b', hb', rfl⟩ := List.mem_map.1 hb
    have := Mirrors.compatible h a' ha' b' hb' hab k hka hkb
    rwa [← (hf a').2, ← (hf b').2] at this
  sound := by
    intro a ha
    obtain ⟨a', ha', rfl⟩ := List.mem_map.1 ha
    have hsound := Mirrors.sound h a' ha'
    exact ⟨(hf a').1.trans hsound.size, hsound.tx, hsound.images⟩

theorem Mirrored.markDoubleSpend (h : p.Mirrored rules) (vin : List TxIn) : (p.markDoubleSpend m vin).Mirrored rules := by
  induction vin generalizing p with
  | nil => exact h
  | cons txin vin ih =>
    unfold TxMemoryPool.markDoubleSpend
    rcases txin.getToKey with _ | tokey
    · exact h
    · refine ih (h.modify fun e => ?_)
      split_ifs <;> exact ⟨rfl, rfl⟩

theorem Mirrored.addTx (h : p.Mirrored rules) (hstorable : Storable tx blob)
    (hnew : p.db.has (rules.getTransactionHash tx) = false) (tvc : TxVerificationContext)
    (keptByBlock relayed doNotRelay : Bool) :
    (p.addTx rules m tx (rules.getTransactionHash tx) (UInt64.ofNat blob.length) tvc keptByBlock relayed
      doNotRelay).2.2.Mirrored rules := by
  rcases addTx_cases rules m p tx (rules.getTransactionHash tx) (UInt64.ofNat blob.length) tvc keptByBlock relayed doNotRelay
    with ⟨tvc', heq⟩ | ⟨tvc', heq⟩ | ⟨hsupported, -, hspent, fee, tvc', heq⟩
  · rw [heq]
    exact h
  · rw [heq]
    exact h.markDoubleSpend _
  · rw [heq]
    exact h.addChecked hstorable (onlyToKeys_of_supported hsupported) hnew (hspent.imp_right spenders_of_unspent) fee tvc'
      relayed doNotRelay

theorem Mirrored.addTxOf (h : p.Mirrored rules) (hstorable : Storable tx blob)
    (hnew : p.db.has (rules.getTransactionHash tx) = false) (tvc : TxVerificationContext)
    (keptByBlock relayed doNotRelay : Bool) :
    (p.addTxOf rules m tx tvc keptByBlock relayed doNotRelay).2.2.Mirrored rules := by
  unfold TxMemoryPool.addTxOf
  rw [hstorable.toBlob]
  dsimp only
  split_ifs
  · exact h
  · exact h.addTx hstorable hnew tvc keptByBlock relayed doNotRelay

end

theorem initEntry_ok {e : TxpoolEntry} (hes : Mirrors rules es p.ids p.spentKeyImages p.txpoolSize)
    (he : e.Sound rules) (hnew : e.txid ∉ es.map TxpoolEntry.txid)
    (hbefore : ∀ e' ∈ es, e.details.keptByBlock = true ∨ ∀ k ∈ e.images, k ∉ e'.images) :
    ∃ p', initEntry rules (p, []) e = .ok (p', []) ∧ p'.db = p.db ∧
      Mirrors rules (e :: es) p'.ids p'.spentKeyImages p'.txpoolSize := by
  obtain ⟨tx, htx, hhash, -⟩ := he.tx
  have hfree : e.details.keptByBlock = true ∨ ∀ k ∈ e.images, spenders p.spentKeyImages k = ∅ := by
    by_cases hkept : e.details.keptByBlock = true
    · exact .inl hkept
    · refine .inr fun k hk => Finset.eq_empty_of_forall_notMem fun id hid => ?_
      obtain ⟨e', he', -, hk'⟩ := (hes.mem_spenders k id).1 hid
      exact ((hbefore e' he').resolve_left hkept) k hk hk'
  obtain ⟨spent', hinsert, hmirrors⟩ := hes.insert he hnew htx hfree
  have hunlisted : e.txid ∉ p.ids := fun hmem => hnew (hes.listed.mem_iff.1 hmem)
  have hlisted := emplace_perm
    (e := ⟨rules.feePerByte e.details.fee e.details.blobSize, e.details.receiveTime, e.txid⟩) hunlisted
  refine ⟨{ p with
    spentKeyImages := spent'
    txsByFeeAndReceiveTime := emplace ⟨rules.feePerByte e.details.fee e.details.blobSize, e.details.receiveTime, e.txid⟩
      p.txsByFeeAndReceiveTime
    txpoolSize := p.txpoolSize + e.details.blobSize }, ?_, rfl, hmirrors.perm (.refl _) hlisted.symm⟩
  grind [initEntry, initTx]

theorem initEntries_ok {rest : List TxpoolEntry} (hes : Mirrors rules es p.ids p.spentKeyImages p.txpoolSize)
    (hsound : ∀ e ∈ rest, e.Sound rules) (hnodup : ((es ++ rest).map TxpoolEntry.txid).Nodup)
    (hbefore : ∀ e ∈ es, ∀ e' ∈ rest, e'.details.keptByBlock = true ∨ ∀ k ∈ e'.images, k ∉ e.images)
    (hrest : rest.Pairwise fun e e' => e'.details.keptByBlock = true ∨ ∀ k ∈ e'.images, k ∉ e.images) :
    ∃ p', rest.foldlM (initEntry rules) (p, []) = .ok (p', []) ∧ p'.db = p.db ∧
      Mirrors rules (rest.reverse ++ es) p'.ids p'.spentKeyImages p'.txpoolSize := by
  induction rest generalizing p es with
  | nil => exact ⟨p, rfl, rfl, hes⟩
  | cons e rest ih =>
    obtain ⟨he, hsound⟩ := List.forall_mem_cons.1 hsound
    obtain ⟨hfirst, hrest⟩ := List.pairwise_cons.1 hrest
    rw [List.map_append, List.map_cons, List.nodup_middle, List.nodup_cons, ← List.map_append] at hnodup
    have hnew : e.txid ∉ es.map TxpoolEntry.txid := fun hmem =>
      hnodup.1 (by rw [List.map_append]; exact List.mem_append_left _ hmem)
    obtain ⟨p₁, hstep, hdb₁, hes₁⟩ := initEntry_ok hes he hnew fun e' he' => hbefore e' he' e List.mem_cons_self
    obtain ⟨p', hloop, hdb, hp'⟩ := ih hes₁ hsound
      (by rw [List.cons_append, List.map_cons]; exact List.nodup_cons.2 hnodup)
      (List.forall_mem_cons.2 ⟨hfirst, fun a ha b hb => hbefore a ha b (List.mem_cons_of_mem _ hb)⟩) hrest
    refine ⟨p', ExceptLoop.foldlM_cons_ok.2 ⟨_, hstep, hloop⟩, hdb.trans hdb₁, ?_⟩
    rw [List.reverse_cons, List.append_assoc]
    exact hp'

theorem pairwise_passes (hcompatible : Compatible db.entries) :
    (db.entries.filter (fun e => !e.details.keptByBlock) ++ db.entries.filter (·.details.keptByBlock)).Pairwise
      fun e e' => e'.details.keptByBlock = true ∨ ∀ k ∈ e'.images, k ∉ e.images := by
  rw [List.pairwise_append]
  refine ⟨?_, ?_, ?_⟩
  · have hne : (db.entries.filter (fun e => !e.details.keptByBlock)).Pairwise fun e e' => e.txid ≠ e'.txid :=
      List.pairwise_map.1 (db.nodup.sublist (List.filter_sublist.map _))
    refine hne.imp_of_mem fun {e e'} he he' hid => .inr fun k hk' hk => ?_
    obtain ⟨hmem, hfree⟩ := List.mem_filter.1 he
    obtain ⟨hmem', hfree'⟩ := List.mem_filter.1 he'
    rcases hcompatible e hmem e' hmem' hid k hk hk' with hkept | hkept
    · simp [hkept] at hfree
    · simp [hkept] at hfree'
  · exact List.pairwise_of_forall_mem_list fun e _ e' he' => .inl (List.mem_filter.1 he').2
  · exact fun e _ e' he' => .inl (List.mem_filter.1 he').2

theorem mirrored_init (hsound : ∀ e ∈ db.entries, e.Sound rules) (hcompatible : Compatible db.entries)
    (p : TxMemoryPool) (maxTxpoolSize : UInt64) : ({ p with db }.init rules m maxTxpoolSize).2.Mirrored rules := by
  have hperm : (db.entries.filter (fun e => !e.details.keptByBlock) ++ db.entries.filter (·.details.keptByBlock)).Perm
      db.entries := by
    have := List.filter_append_perm (fun e : TxpoolEntry => !e.details.keptByBlock) db.entries
    simpa using this
  unfold TxMemoryPool.init
  obtain ⟨p', hloop, hdb, hp'⟩ := initEntries_ok (p := { p with
      db, txpoolMaxSize := if maxTxpoolSize = 0 then defaultTxpoolMaxSize else maxTxpoolSize
      txsByFeeAndReceiveTime := [], spentKeyImages := ∅, txpoolSize := 0 }) (mirrors_nil rules)
    (fun e he => hsound e (hperm.mem_iff.1 he)) ((hperm.map _).nodup_iff.2 db.nodup) (by simp) (pairwise_passes hcompatible)
  dsimp only
  rw [hloop]
  have hback : p'.db.entries = db.entries := by rw [hdb]
  rw [List.append_nil] at hp'
  have hresult := hp'.perm ((List.reverse_perm _).trans hperm) (.refl _)
  rw [← hback] at hresult
  exact hresult

end TxMemoryPool

def checkTxInputsKeyimagesDiff (tx : Transaction) : Bool :=
  match tx.vin.mapM TxIn.getToKey with
  | none => false
  | some inputs => (inputs.map TxinToKey.kImage).Nodup

structure CoreChecks where
  /-- `handle_incoming_tx_pre` behind the parser, and `check_tx_syntax` -/
  accepts : Bytes → Transaction → Bool
  /-- the rest of `check_tx_semantic` -/
  semantic : Transaction → Bool
  isWithinCompiledBlockHashArea : Bool

/-- `handle_incoming_tx` (cryptonote_core.cpp:597-760) for a blob. The semantics are not checked for a transaction that is
kept by a block of the area with built-in hashes. -/
def TxMemoryPool.addBlob (rules : PoolRules) (m : PoolMoment) (core : CoreChecks) (p : TxMemoryPool) (blob : Bytes)
    (keptByBlock relayed doNotRelay : Bool) : TxMemoryPool :=
  match parseAndValidateTxFromBlob blob with
  | none => p
  | some tx =>
    let id := rules.getTransactionHash tx
    if !core.accepts blob tx then p
    else if p.db.has id || m.haveTx id then p
    else if !(keptByBlock && core.isWithinCompiledBlockHashArea) && !(checkTxInputsKeyimagesDiff tx && core.semantic tx) then p
    else (p.addTx rules m tx id (UInt64.ofNat blob.length) .init keptByBlock relayed doNotRelay).2.2

inductive PoolOp where
  | init (m : PoolMoment) (db : TxpoolDb) (maxTxpoolSize : UInt64)
  | addBlob (m : PoolMoment) (core : CoreChecks) (blob : Bytes) (keptByBlock relayed doNotRelay : Bool)
  | addTx (m : PoolMoment) (tx : Transaction) (tvc : TxVerificationContext) (keptByBlock relayed doNotRelay : Bool)
  | takeTx (m : PoolMoment) (id : Hash)
  | prune (m : PoolMoment) (bytes : UInt64)
  | removeStuckTransactions (m : PoolMoment)
  | validate (m : PoolMoment)

def PoolOp.apply (rules : PoolRules) (p : TxMemoryPool) : PoolOp → TxMemoryPool
  | .init m db maxTxpoolSize => ({ p with db }.init rules m maxTxpoolSize).2
  | .addBlob m core blob keptByBlock relayed doNotRelay => p.addBlob rules m core blob keptByBlock relayed doNotRelay
  | .addTx m tx tvc keptByBlock relayed doNotRelay => (p.addTxOf rules m tx tvc keptByBlock relayed doNotRelay).2.2
  | .takeTx m id => (p.takeTx rules m id).2
  | .prune m bytes => p.prune rules m bytes
  | .removeStuckTransactions m => p.removeStuckTransactions rules m
  | .validate m => p.validate rules m

/-- What the operation has to be given: at the start, entries that are sound and compatible; from core, a blob with sound
integers and, where the semantics are not checked, different key images; from the blockchain, a transaction that comes back
from its blob, with different key images, and that the pool does not have; for the removal of what is too old, a
database that removes it. -/
def PoolOp.Fine (rules : PoolRules) (p : TxMemoryPool) : PoolOp → Prop
  | .init _ db _ => (∀ e ∈ db.entries, e.Sound rules) ∧ Compatible db.entries
  | .addBlob _ core blob keptByBlock _ _ => ∀ tx, parseAndValidateTxFromBlob blob = some tx → VarintsSound transaction blob ∧
      (keptByBlock = true → core.isWithinCompiledBlockHashArea = true → (tx.toKeys.map TxinToKey.kImage).Nodup)
  | .addTx _ tx _ _ _ _ => (∃ blob, TxMemoryPool.Storable tx blob) ∧ p.db.has (rules.getTransactionHash tx) = false
  | .removeStuckTransactions m =>
    ∀ e ∈ p.db.entries, TxMemoryPool.isStuck m.now e = true → TxMemoryPool.Removable m e.txid
  | .takeTx _ _ | .prune _ _ | .validate _ => True

def TxMemoryPool.spending (p : TxMemoryPool) (kImage : KeyImage) : Finset Hash :=
  ((p.db.entries.filter fun e => kImage ∈ e.images).map TxpoolEntry.txid).toFinset

/-- **The containers are those of the transactions in the database.** -/
structure TxMemoryPool.Represents (p : TxMemoryPool) : Prop where
  listed : p.ids.Perm (p.db.entries.map TxpoolEntry.txid)
  once : p.ids.Nodup
  spent : ∀ kImage set, p.spentKeyImages.lookup kImage = some set ↔ set = p.spending kImage ∧ set ≠ ∅
  size : p.txpoolSize = totalSize p.db.entries
  compatible : Compatible p.db.entries

namespace TxMemoryPool
variable {rules : PoolRules} {m : PoolMoment} {p : TxMemoryPool}

theorem Mirrored.represents (h : p.Mirrored rules) : p.Represents := by
  have hspending : ∀ k, spenders p.spentKeyImages k = p.spending k := by
    intro k
    ext id
    rw [Mirrors.mem_spenders h, spending]
    simp only [List.mem_toFinset, List.mem_map, List.mem_filter, decide_eq_true_eq]
    grind
  refine ⟨Mirrors.listed h, (Mirrors.listed h).nodup_iff.2 (Mirrors.nodup h), fun k set => ?_, Mirrors.size_eq h,
    Mirrors.compatible h⟩
  constructor
  · intro hl
    refine ⟨?_, Mirrors.tight h k set hl⟩
    rw [← hspending, spenders, getD_of_lookup hl]
  · rintro ⟨rfl, hne⟩
    obtain ⟨id, hid⟩ := Finset.nonempty_iff_ne_empty.2 hne
    rw [← hspending] at hid ⊢
    exact ((Mirrors.tight h).lookup hid).1

theorem Mirrored.addBlob (h : p.Mirrored rules) (core : CoreChecks) (blob : Bytes) (keptByBlock relayed doNotRelay : Bool)
    (hfine : (PoolOp.addBlob m core blob keptByBlock relayed doNotRelay).Fine rules p) :
    (p.addBlob rules m core blob keptByBlock relayed doNotRelay).Mirrored rules := by
  unfold TxMemoryPool.addBlob
  rcases hparse : parseAndValidateTxFromBlob blob with _ | tx
  · exact h
  obtain ⟨hvarints, himages⟩ := hfine tx hparse
  dsimp only
  split_ifs with _ hhas hsemantic
  · exact h
  · exact h
  · exact h
  · have hstorable : Storable tx blob := by
      refine ⟨?_, hparse, ?_⟩
      · exact (write_eq_iff_varintsSound lawful_transaction le_transaction (of_parseAndValidateTxFromBlob hparse)).2 hvarints
      · by_cases hskip : (keptByBlock && core.isWithinCompiledBlockHashArea) = true
        · grind
        · grind [checkTxInputsKeyimagesDiff, TxIn.getToKey, Transaction.toKeys, PartialMap.filterMap_of_mapM]
    refine h.addTx hstorable ?_ _ keptByBlock relayed doNotRelay
    grind

theorem Mirrored.apply (h : p.Mirrored rules) (op : PoolOp) (hfine : op.Fine rules p) :
    (op.apply rules p).Mirrored rules := by
  cases op with
  | init m db maxTxpoolSize => exact mirrored_init hfine.1 hfine.2 p maxTxpoolSize
  | addBlob m core blob keptByBlock relayed doNotRelay => exact h.addBlob core blob keptByBlock relayed doNotRelay hfine
  | addTx m tx tvc keptByBlock relayed doNotRelay =>
    obtain ⟨⟨blob, hstorable⟩, hnew⟩ := hfine
    exact h.addTxOf hstorable hnew tvc keptByBlock relayed doNotRelay
  | takeTx m id => exact h.takeTx id
  | prune m bytes => exact h.prune bytes
  | removeStuckTransactions m => exact h.removeStuckTransactions hfine
  | validate m => exact h.validate

end TxMemoryPool

/-- **The pool over runs**: the containers are those of the transactions in the database after each operation. -/
theorem represents_over_runs (rules : PoolRules) (ops : List PoolOp)
    (hfine : Machine.Meets (PoolOp.apply rules) (PoolOp.Fine rules) .new ops) :
    Machine.Always (PoolOp.apply rules) TxMemoryPool.Represents .new ops :=
  Machine.always_of_invariant (fun _ op h hop => TxMemoryPool.Mirrored.apply h op hop)
    (fun _ h => TxMemoryPool.Mirrored.represents h) (mirrors_nil rules) hfine

def ringBlob : Bytes := (txToBlob ringTx).getD []

def addRing : PoolOp := .addBlob calmMoment ⟨fun _ _ => true, fun _ => true, false⟩ ringBlob false true false

theorem ring_goes_in_and_out :
    (Machine.run (PoolOp.apply plainRules) .new [addRing]).ids = [plainRules.getTransactionHash ringTx] ∧
    Machine.Always (PoolOp.apply plainRules) TxMemoryPool.Represents .new
      [addRing, .validate calmMoment, .takeTx calmMoment (plainRules.getTransactionHash ringTx)] := by
  refine ⟨by decide +kernel, represents_over_runs _ _ ⟨?_, trivial, trivial, trivial⟩⟩
  exact fun tx _ => ⟨by decide +kernel, fun hkept => by (cases hkept)⟩

def garbledDb : TxpoolDb :=
  ⟨[⟨Env.plainHash [7], ⟨nullHash, nullHash, 6, 0, 0, 0, 0, 0, false, false, false, false⟩, [1, 0, 0, 0, 0, 0xaa]⟩], by decide⟩

theorem unparsable_entry_stays_listed :
    parseAndValidateTxFromBlob [1, 0, 0, 0, 0, 0xaa] = none ∧
    ({ TxMemoryPool.new with db := garbledDb }.init plainRules calmMoment 0).1 = true ∧
    ({ TxMemoryPool.new with db := garbledDb }.init plainRules calmMoment 0).2.db.entries = [] ∧
    ({ TxMemoryPool.new with db := garbledDb }.init plainRules calmMoment 0).2.ids = [Env.plainHash [7]] ∧
    ({ TxMemoryPool.new with db := garbledDb }.init plainRules calmMoment 0).2.txpoolSize = 6 ∧
    ¬ (PoolOp.apply plainRules .new (.init calmMoment garbledDb 0)).Represents := by
  have hids : ({ TxMemoryPool.new with db := garbledDb }.init plainRules calmMoment 0).2.ids = [Env.plainHash [7]] := by
    decide +kernel
  have hentries : ({ TxMemoryPool.new with db := garbledDb }.init plainRules calmMoment 0).2.db.entries = [] := by
    decide +kernel
  refine ⟨by decide +kernel, by decide +kernel, hentries, hids, by decide +kernel, fun h => ?_⟩
  have hlength := h.listed.length_eq
  simp only [PoolOp.apply] at hlength
  rw [hids, hentries] at hlength
  cases hlength

/-- A transaction whose blob has a padded integer counts with the length it came with, and is stored with another. -/
example :
    (Machine.run (PoolOp.apply plainRules) .new [.addBlob calmMoment ⟨fun _ _ => true, fun _ => true, false⟩
      (ringBlob.set 1 0x80 |>.insertIdx 2 0) false true false]).txpoolSize = UInt64.ofNat ringBlob.length + 1 := by
  decide +kernel

end Electronero.Wire
