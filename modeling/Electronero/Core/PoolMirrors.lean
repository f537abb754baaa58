import Electronero.Core.TxPool
/-!
# The containers of the pool and a list of entries

About any list of entries, so that `Mirrors` can be followed through the middle of an operation.
-/
namespace Electronero.Wire
open Text FiniteMap

section
variable {spent : UMap KeyImage (Finset Hash)} {id : Hash} {kept : Bool}

def Tight (spent : UMap KeyImage (Finset Hash)) : Prop := ∀ k set, spent.lookup k = some set → set ≠ ∅

def Transaction.OnlyToKeys (tx : Transaction) : Prop := tx.vin.mapM TxIn.getToKey = some tx.toKeys

theorem spenders_insert (k k' : KeyImage) (set : Finset Hash) :
    spenders (spent.insert k set) k' = if k' = k then set else spenders spent k' := by
  rw [spenders, getD_insert, spenders]

theorem spenders_erase (k k' : KeyImage) : spenders (spent.erase k) k' = if k' = k then ∅ else spenders spent k' := by
  by_cases h : k' = k
  · subst h
    simp [spenders, getD, Finmap.lookup_erase]
  · simp [h, spenders, getD, Finmap.lookup_erase_ne h]

variable {k : KeyImage} {vin : List TxIn} {inputs : List TxinToKey}

theorem Tight.insert (h : Tight spent) {set : Finset Hash} (hne : set ≠ ∅) : Tight (spent.insert k set) := by
  intro k' set' hl
  rw [lookup_insert_ite] at hl
  split at hl
  · cases hl
    exact hne
  · exact h k' set' hl

theorem Tight.erase (h : Tight spent) (k : KeyImage) : Tight (spent.erase k) :=
  fun k' set' hl => h k' set' (lookup_of_lookup_erase hl).2

theorem Tight.lookup (h : Tight spent) (hmem : id ∈ spenders spent k) :
    spent.lookup k = some (spenders spent k) ∧ spenders spent k ≠ ∅ := by
  cases hl : spent.lookup k with
  | none => simp [spenders, getD, hl] at hmem
  | some set =>
    have : spenders spent k = set := getD_of_lookup hl
    rw [this]
    exact ⟨rfl, h k set hl⟩

theorem mapM_getToKey_cons {txin : TxIn} (h : (txin :: vin).mapM TxIn.getToKey = some inputs) :
    ∃ tokey rest, txin.getToKey = some tokey ∧ vin.mapM TxIn.getToKey = some rest ∧ inputs = tokey :: rest := by
  rw [List.mapM_cons] at h
  cases hget : txin.getToKey with
  | none =>
    rw [hget] at h
    cases h
  | some tokey =>
    cases hrest : vin.mapM TxIn.getToKey with
    | none =>
      rw [hget, hrest] at h
      cases h
    | some rest => grind

theorem insertKeyImages_ok (hvin : vin.mapM TxIn.getToKey = some inputs)
    (hnodup : (inputs.map TxinToKey.kImage).Nodup) (hnew : ∀ t ∈ inputs, id ∉ spenders spent t.kImage)
    (hfree : kept = true ∨ ∀ t ∈ inputs, spenders spent t.kImage = ∅) (htight : Tight spent) :
    ∃ spent', insertKeyImages id kept spent vin = (true, spent') ∧ Tight spent' ∧
      ∀ k, spenders spent' k = if k ∈ inputs.map TxinToKey.kImage then insert id (spenders spent k) else spenders spent k := by
  induction vin generalizing spent inputs with
  | nil =>
    cases hvin
    exact ⟨spent, rfl, htight, by simp⟩
  | cons txin vin ih =>
    obtain ⟨tokey, rest, hget, hrest, rfl⟩ := mapM_getToKey_cons hvin
    rw [List.map_cons, List.nodup_cons] at hnodup
    obtain ⟨hnew₁, hnew⟩ := List.forall_mem_cons.1 hnew
    have hother : ∀ t ∈ rest, t.kImage ≠ tokey.kImage := fun t ht heq =>
      hnodup.1 (heq ▸ List.mem_map_of_mem ht)
    have hsame : ∀ t ∈ rest, spenders (spent.insert tokey.kImage (insert id (spenders spent tokey.kImage))) t.kImage =
        spenders spent t.kImage := fun t ht => by rw [spenders_insert, if_neg (hother t ht)]
    obtain ⟨spent', heq, htight', hspenders⟩ := ih hrest hnodup.2 (fun t ht => by rw [hsame t ht]; exact hnew t ht)
      (hfree.imp_right fun h t ht => by rw [hsame t ht]; exact h t (List.mem_cons_of_mem _ ht))
      (htight.insert (Finset.insert_ne_empty _ _))
    have hallowed := hfree.imp_right fun h => h tokey List.mem_cons_self
    refine ⟨spent', ?_, htight', fun k => ?_⟩
    · grind [insertKeyImages]
    · rw [hspenders, List.map_cons, spenders_insert]
      by_cases hk : k = tokey.kImage
      · subst hk
        simp [hnodup.1]
      · simp [hk]

theorem spenders_takeOut (htight : Tight spent) (image : KeyImage) (id : Hash) :
    Tight (if (spenders spent image).erase id = ∅ then spent.erase image
      else spent.insert image ((spenders spent image).erase id)) ∧
    ∀ k, spenders (if (spenders spent image).erase id = ∅ then spent.erase image
      else spent.insert image ((spenders spent image).erase id)) k =
        if k = image then (spenders spent k).erase id else spenders spent k := by
  by_cases hempty : (spenders spent image).erase id = ∅
  · rw [if_pos hempty]
    refine ⟨htight.erase _, fun k => ?_⟩
    grind [spenders_erase]
  · rw [if_neg hempty]
    refine ⟨htight.insert hempty, fun k => ?_⟩
    grind [spenders_insert]

theorem removeTransactionKeyimages_ok
    (hvin : vin.mapM TxIn.getToKey = some inputs) (hnodup : (inputs.map TxinToKey.kImage).Nodup)
    (hmem : ∀ t ∈ inputs, id ∈ spenders spent t.kImage) (htight : Tight spent) :
    ∃ spent', removeTransactionKeyimages id spent vin = (true, spent') ∧ Tight spent' ∧
      ∀ k, spenders spent' k = if k ∈ inputs.map TxinToKey.kImage then (spenders spent k).erase id else spenders spent k := by
  induction vin generalizing spent inputs with
  | nil =>
    cases hvin
    exact ⟨spent, rfl, htight, by simp⟩
  | cons txin vin ih =>
    obtain ⟨tokey, rest, hget, hrest, rfl⟩ := mapM_getToKey_cons hvin
    rw [List.map_cons, List.nodup_cons] at hnodup
    obtain ⟨hmem₁, hmem⟩ := List.forall_mem_cons.1 hmem
    obtain ⟨hlookup, hne⟩ := htight.lookup hmem₁
    obtain ⟨htight₁, hspenders₁⟩ := spenders_takeOut htight tokey.kImage id
    have hother : ∀ t ∈ rest, t.kImage ≠ tokey.kImage := fun t ht heq =>
      hnodup.1 (heq ▸ List.mem_map_of_mem ht)
    obtain ⟨spent', heq, htight', hspenders⟩ := ih hrest hnodup.2
      (fun t ht => by rw [hspenders₁, if_neg (hother t ht)]; exact hmem t ht) htight₁
    refine ⟨spent', ?_, htight', fun k => ?_⟩
    · grind [removeTransactionKeyimages]
    · rw [hspenders, hspenders₁, List.map_cons]
      by_cases hk : k = tokey.kImage
      · subst hk
        simp [hnodup.1]
      · simp [hk]

end

/-! ## The containers and a list of entries -/

def TxpoolEntry.images (e : TxpoolEntry) : List KeyImage :=
  match parseAndValidateTxFromBlob e.blob with
  | some tx => tx.toKeys.map TxinToKey.kImage
  | none => []

/-- The entry has the size of its blob, and its blob is that of a transaction with this id, whose inputs spend outputs by
different key images. -/
structure TxpoolEntry.Sound (rules : PoolRules) (e : TxpoolEntry) : Prop where
  size : e.details.blobSize = UInt64.ofNat e.blob.length
  tx : ∃ tx, parseAndValidateTxFromBlob e.blob = some tx ∧ rules.getTransactionHash tx = e.txid ∧ tx.OnlyToKeys
  images : e.images.Nodup

def totalSize (es : List TxpoolEntry) : UInt64 := Wrapping.sum (es.map fun e => UInt64.ofNat e.blob.length)

def Compatible (es : List TxpoolEntry) : Prop :=
  ∀ e ∈ es, ∀ e' ∈ es, e.txid ≠ e'.txid → ∀ k ∈ e.images, k ∈ e'.images →
    e.details.keptByBlock = true ∨ e'.details.keptByBlock = true

structure Mirrors (rules : PoolRules) (es : List TxpoolEntry) (ids : List Hash) (spent : UMap KeyImage (Finset Hash))
    (size : UInt64) : Prop where
  listed : ids.Perm (es.map TxpoolEntry.txid)
  nodup : (es.map TxpoolEntry.txid).Nodup
  mem_spenders : ∀ k id, id ∈ spenders spent k ↔ ∃ e ∈ es, e.txid = id ∧ k ∈ e.images
  tight : Tight spent
  size_eq : size = totalSize es
  compatible : Compatible es
  sound : ∀ e ∈ es, e.Sound rules

section
variable {rules : PoolRules} {es es' : List TxpoolEntry} {ids ids' : List Hash} {spent : UMap KeyImage (Finset Hash)}
  {size : UInt64} {e : TxpoolEntry} {tx : Transaction}

theorem totalSize_perm (h : es.Perm es') : totalSize es = totalSize es' := by
  have hadd : ∀ (l l' : List UInt64), l.Perm l' → Wrapping.sum l = Wrapping.sum l' := by
    intro l l' hl
    induction hl with
    | nil => rfl
    | cons x _ ih => rw [Wrapping.sum_cons, Wrapping.sum_cons, ih]
    | swap x y l => grind [Wrapping.sum_cons]
    | trans _ _ ih ih' => exact ih.trans ih'
  exact hadd _ _ (h.map _)

theorem Mirrors.perm (h : Mirrors rules es ids spent size) (hes : es.Perm es') (hids : ids.Perm ids') :
    Mirrors rules es' ids' spent size where
  listed := hids.symm.trans (h.listed.trans (hes.map _))
  nodup := (hes.map _).nodup_iff.1 h.nodup
  mem_spenders := fun k id => by rw [h.mem_spenders]; simp only [hes.mem_iff]
  tight := h.tight
  size_eq := h.size_eq.trans (totalSize_perm hes)
  compatible := fun e he e' he' => h.compatible e (hes.mem_iff.2 he) e' (hes.mem_iff.2 he')
  sound := fun e he => h.sound e (hes.mem_iff.2 he)

theorem mirrors_nil (rules : PoolRules) : Mirrors rules [] [] ∅ 0 where
  listed := .nil
  nodup := List.nodup_nil
  mem_spenders := by simp [spenders, getD]
  tight := by simp [Tight]
  size_eq := rfl
  compatible := by simp [Compatible]
  sound := by simp

theorem TxpoolEntry.images_eq (h : parseAndValidateTxFromBlob e.blob = some tx) :
    e.images = tx.toKeys.map TxinToKey.kImage := by
  unfold TxpoolEntry.images
  rw [h]

theorem TxpoolEntry.Sound.of_parse (h : e.Sound rules) (htx : parseAndValidateTxFromBlob e.blob = some tx) :
    rules.getTransactionHash tx = e.txid ∧ tx.OnlyToKeys ∧ (tx.toKeys.map TxinToKey.kImage).Nodup := by
  obtain ⟨tx', htx', hhash, honly⟩ := h.tx
  obtain rfl : tx = tx' := Option.some.inj (htx.symm.trans htx')
  exact ⟨hhash, honly, TxpoolEntry.images_eq htx ▸ h.images⟩

theorem Mirrors.insert (h : Mirrors rules es ids spent size) (he : e.Sound rules) (hnew : e.txid ∉ es.map TxpoolEntry.txid)
    (htx : parseAndValidateTxFromBlob e.blob = some tx)
    (hfree : e.details.keptByBlock = true ∨ ∀ k ∈ e.images, spenders spent k = ∅) :
    ∃ spent', insertKeyImages e.txid e.details.keptByBlock spent tx.vin = (true, spent') ∧
      Mirrors rules (e :: es) (e.txid :: ids) spent' (size + e.details.blobSize) := by
  obtain ⟨-, honly, hnodup⟩ := he.of_parse htx
  have himages := TxpoolEntry.images_eq htx
  have hid : ∀ k, e.txid ∉ spenders spent k := fun k hmem => by
    obtain ⟨e', he', heq, -⟩ := (h.mem_spenders k e.txid).1 hmem
    exact hnew (heq ▸ List.mem_map_of_mem he')
  obtain ⟨spent', hspent', htight, hspenders⟩ := insertKeyImages_ok honly hnodup (fun t _ => hid t.kImage)
    (hfree.imp_right fun hk t ht => hk t.kImage (himages ▸ List.mem_map_of_mem ht)) h.tight
  rw [← himages] at hspenders
  refine ⟨spent', hspent', ?_⟩
  exact {
    listed := h.listed.cons _
    nodup := List.nodup_cons.2 ⟨hnew, h.nodup⟩
    mem_spenders := fun k id => by
      rw [hspenders, List.exists_mem_cons_iff]
      by_cases hk : k ∈ e.images
      · simp [hk, h.mem_spenders, eq_comm]
      · simp [hk, h.mem_spenders]
    tight := htight
    size_eq := by
      rw [h.size_eq, he.size, totalSize, totalSize, List.map_cons, Wrapping.sum_cons, UInt64.add_comm]
    compatible := by
      -- the new one is kept, or nobody else spends what it spends
      have hother : ∀ e' ∈ es, ∀ k ∈ e.images, k ∈ e'.images → e.details.keptByBlock = true := by
        intro e' he' k hk hk'
        refine hfree.resolve_right fun hnone => ?_
        have hmem := (h.mem_spenders k e'.txid).2 ⟨e', he', rfl, hk'⟩
        rw [hnone k hk] at hmem
        simp at hmem
      intro a ha b hb hab k hka hkb
      rcases List.mem_cons.1 ha with rfl | ha' <;> rcases List.mem_cons.1 hb with rfl | hb'
      · exact absurd rfl hab
      · exact .inl (hother b hb' k hka hkb)
      · exact .inr (hother a ha' k hkb hka)
      · exact h.compatible a ha' b hb' hab k hka hkb
    sound := List.forall_mem_cons.2 ⟨he, h.sound⟩ }

theorem Mirrors.remove (h : Mirrors rules (e :: es) (e.txid :: ids) spent size)
    (htx : parseAndValidateTxFromBlob e.blob = some tx) :
    Mirrors rules es ids (removeTransactionKeyimages (rules.getTransactionHash tx) spent tx.vin).2
      (size - UInt64.ofNat e.blob.length) := by
  obtain ⟨hhash, honly, hnodup⟩ := (h.sound e List.mem_cons_self).of_parse htx
  have himages := TxpoolEntry.images_eq htx
  have hmem : ∀ t ∈ tx.toKeys, e.txid ∈ spenders spent t.kImage := fun t ht =>
    (h.mem_spenders t.kImage e.txid).2 ⟨e, List.mem_cons_self, rfl, himages ▸ List.mem_map_of_mem ht⟩
  obtain ⟨hnotMem, hnodup'⟩ := List.nodup_cons.1 h.nodup
  obtain ⟨spent', hspent', htight, hspenders⟩ := removeTransactionKeyimages_ok honly hnodup hmem h.tight
  rw [← himages] at hspenders
  rw [hhash, hspent']
  exact {
    listed := h.listed.cons_inv
    nodup := hnodup'
    mem_spenders := fun k id => by
      have hold := h.mem_spenders k id
      rw [List.exists_mem_cons_iff] at hold
      have hself : ∀ e' ∈ es, e'.txid ≠ e.txid := fun e' he' heq => hnotMem (heq ▸ List.mem_map_of_mem he')
      rw [hspenders]
      by_cases hk : k ∈ e.images
      · rw [if_pos hk, Finset.mem_erase, hold]
        constructor
        · rintro ⟨hne, ⟨heq, -⟩ | hrest⟩
          · exact absurd heq.symm hne
          · exact hrest
        · rintro ⟨e', he', rfl, hk'⟩
          exact ⟨hself e' he', .inr ⟨e', he', rfl, hk'⟩⟩
      · rw [if_neg hk, hold]
        simp [hk]
    tight := htight
    size_eq := by
      rw [h.size_eq, totalSize, totalSize, List.map_cons, Wrapping.sum_cons, UInt64.add_comm, UInt64.add_sub_cancel]
    compatible := fun a ha b hb => h.compatible a (List.mem_cons_of_mem _ ha) b (List.mem_cons_of_mem _ hb)
    sound := fun a ha => h.sound a (List.mem_cons_of_mem _ ha) }

end

namespace TxpoolDb
variable {db : TxpoolDb} {e : TxpoolEntry} {txid : Hash}

theorem has_eq_false : db.has txid = false ↔ txid ∉ db.entries.map TxpoolEntry.txid := by
  simp [has]

theorem find_of_mem (h : e ∈ db.entries) : db.find e.txid = some e := by
  cases hf : db.find e.txid with
  | none =>
    have := List.find?_eq_none.1 hf e h
    simp at this
  | some e' =>
    obtain ⟨hmem, heq⟩ := find_eq_some hf
    rw [List.inj_on_of_nodup_map db.nodup hmem h heq]

theorem add_of_absent (h : db.has e.txid = false) : ∃ db', db.add e = some db' ∧ db'.entries.Perm (e :: db.entries) :=
  ⟨_, dif_pos h, List.perm_orderedInsert _ _ _⟩

theorem remove_of_absent (h : db.has txid = false) : db.remove txid = db := by
  have hfilter : db.entries.filter (·.txid ≠ txid) = db.entries := by
    rw [List.filter_eq_self]
    grind [has_eq_false]
  cases db
  simp only [remove, TxpoolDb.mk.injEq]
  exact hfilter

theorem perm_remove (h : e ∈ db.entries) : db.entries.Perm (e :: (db.remove e.txid).entries) := by
  obtain ⟨before, after, hsplit⟩ := List.append_of_mem h
  have hnodup := db.nodup
  rw [hsplit, List.map_append, List.map_cons, List.nodup_middle, List.nodup_cons, ← List.map_append] at hnodup
  have hrest : (before ++ after).filter (·.txid ≠ e.txid) = before ++ after := by
    rw [List.filter_eq_self]
    grind
  have hremove : (db.remove e.txid).entries = before ++ after := by
    have hfilter : (db.remove e.txid).entries = db.entries.filter (·.txid ≠ e.txid) := rfl
    grind
  rw [hremove, hsplit]
  exact List.perm_middle

end TxpoolDb

end Electronero.Wire
