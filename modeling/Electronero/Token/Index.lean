import Electronero.Token.Effects
/-!
# The two indexes

`Consistent`: the indexes answer what `rebuild_indexes` (token.cpp:392) would, in whatever order it visits the tokens.
-/
namespace Electronero
open Text FiniteMap List

namespace TokenStore

section Rebuild
variable (s : TokenStore)

def createdBy (creator n : Bytes) : Bool := (s.get n).any (·.creator = creator)

def hasAddress (address n : Bytes) : Bool := (s.get n).any (·.address = address)

theorem rebuildIndexes_append (order : List Bytes) (n : Bytes) :
    s.rebuildIndexes (order ++ [n]) = (s.rebuildIndexes order).indexOne n := by
  simp [rebuildIndexes]

theorem indexOne_tokens (n : Bytes) : (s.indexOne n).tokens = s.tokens := by
  unfold indexOne
  split <;> rfl

theorem indexOne_transferHistory (n : Bytes) : (s.indexOne n).transferHistory = s.transferHistory := by
  unfold indexOne
  split <;> rfl

@[simp] theorem rebuildIndexes_tokens (order : List Bytes) : (s.rebuildIndexes order).tokens = s.tokens := by
  induction order using List.reverseRecOn with
  | nil => rfl
  | append_singleton order n ih => rw [rebuildIndexes_append, indexOne_tokens, ih]

@[simp] theorem rebuildIndexes_transferHistory (order : List Bytes) :
    (s.rebuildIndexes order).transferHistory = s.transferHistory := by
  induction order using List.reverseRecOn with
  | nil => rfl
  | append_singleton order n ih => rw [rebuildIndexes_append, indexOne_transferHistory, ih]

@[simp] theorem rebuildIndexes_get (order : List Bytes) : (s.rebuildIndexes order).get = s.get := by
  unfold get
  rw [rebuildIndexes_tokens]

theorem rebuildIndexes_namesOf (order : List Bytes) (creator : Bytes) :
    (s.rebuildIndexes order).namesOf creator = order.filter (s.createdBy creator) := by
  induction order using List.reverseRecOn with
  | nil => rfl
  | append_singleton order n ih =>
    rw [rebuildIndexes_append, filter_append, ← ih]
    unfold indexOne
    rw [rebuildIndexes_get]
    grind [createdBy, namesOf, getD_insert]

theorem rebuildIndexes_addressIndex (order : List Bytes) (address : Bytes) :
    (s.rebuildIndexes order).addressIndex.lookup address = order.reverse.find? (s.hasAddress address) := by
  induction order using List.reverseRecOn with
  | nil => rfl
  | append_singleton order n ih =>
    rw [rebuildIndexes_append, reverse_append, reverse_singleton, singleton_append,
      find?_cons, ← ih]
    unfold indexOne
    rw [rebuildIndexes_get]
    cases hg : s.get n with
    | none => simp [hasAddress, hg]
    | some t =>
      by_cases ha : t.address = address
      · simp [hasAddress, hg, ha]
      · have ha' : address ≠ t.address := fun h => ha h.symm
        simp [hasAddress, hg, ha, ha']

end Rebuild

variable {env : Env} {s s' : TokenStore}

def Consistent (s : TokenStore) : Prop :=
  ∀ order, Enumerates order s.tokens →
    s.addressIndex = (s.rebuildIndexes order).addressIndex ∧
    ∀ creator, (s.namesOf creator).Perm ((s.rebuildIndexes order).namesOf creator)

structure Indexed (s : TokenStore) : Prop where
  addressOf : ∀ n t, s.get n = some t → s.addressIndex.lookup t.address = some n
  indexed : ∀ a n, s.addressIndex.lookup a = some n → s.hasAddress a n = true
  listed : ∀ creator n, (s.namesOf creator).count n = if s.createdBy creator n then 1 else 0

variable {a n n' : Bytes} {order : List Bytes} {t t' : TokenInfo}

theorem hasAddress_iff : s.hasAddress a n = true ↔ ∃ t, s.get n = some t ∧ t.address = a := by
  unfold hasAddress
  cases s.get n <;> simp

theorem find?_hasAddress (ho : Enumerates order s.tokens)
    (hg : s.get n = some t) (huniq : ∀ n', s.hasAddress t.address n' = true → n' = n) :
    order.reverse.find? (s.hasAddress t.address) = some n := by
  have hmem : n ∈ order.reverse := by
    rw [mem_reverse, ho.2]
    exact Finmap.lookup_isSome.1 (by rw [show s.tokens.lookup n = some t from hg]; rfl)
  cases hf : order.reverse.find? (s.hasAddress t.address) with
  | none => grind [hasAddress_iff]
  | some n' => rw [huniq n' (find?_some hf)]

theorem count_filter_createdBy (ho : Enumerates order s.tokens) (creator n : Bytes) :
    (order.filter (s.createdBy creator)).count n = if s.createdBy creator n then 1 else 0 := by
  by_cases hc : s.createdBy creator n = true
  · have hmem : n ∈ order := by
      rw [ho.2]
      refine Finmap.lookup_isSome.1 ?_
      unfold createdBy get at hc
      cases hl : s.tokens.lookup n with
      | none => simp [hl] at hc
      | some t => rfl
    rw [if_pos hc, count_filter hc]
    exact count_eq_one_of_mem ho.1 hmem
  · rw [if_neg hc]
    refine count_eq_zero_of_not_mem fun hmem => hc ?_
    exact (mem_filter.1 hmem).2

theorem Indexed.address_unique (h : s.Indexed) (hn : s.hasAddress a n = true)
    (hn' : s.hasAddress a n' = true) : n = n' := by
  obtain ⟨t, hg, rfl⟩ := hasAddress_iff.1 hn
  obtain ⟨t', hg', ha⟩ := hasAddress_iff.1 hn'
  have h1 := h.addressOf n t hg
  have h2 := h.addressOf n' t' hg'
  rw [ha, h1] at h2
  exact Option.some.inj h2

theorem consistent_iff : s.Consistent ↔ s.Indexed := by
  constructor
  · intro h
    obtain ⟨order, ho⟩ := Enumerates.exists_order s.tokens
    obtain ⟨haddr, hnames⟩ := h order ho
    refine ⟨fun n t hg => ?_, fun a n hl => ?_, fun creator n => ?_⟩
    · -- a rebuild that visits `n` last leads its address to it
      have hmem : n ∈ s.tokens := Finmap.lookup_isSome.1 (by rw [show s.tokens.lookup n = some t from hg]; rfl)
      obtain ⟨order', ho'⟩ := Enumerates.exists_last hmem
      rw [(h _ ho').1, rebuildIndexes_addressIndex, reverse_append, reverse_singleton,
        singleton_append, find?_cons_of_pos (hasAddress_iff.2 ⟨t, hg, rfl⟩)]
    · grind [rebuildIndexes_addressIndex]
    · rw [(hnames creator).count_eq, rebuildIndexes_namesOf, count_filter_createdBy ho]
  · intro h order ho
    constructor
    · refine Finmap.ext_lookup fun a => ?_
      rw [rebuildIndexes_addressIndex]
      cases hl : s.addressIndex.lookup a with
      | some n =>
        obtain ⟨t, hg, rfl⟩ := hasAddress_iff.1 (h.indexed a n hl)
        exact (find?_hasAddress ho hg fun n' hn' => h.address_unique hn' (h.indexed _ n hl)).symm
      | none =>
        refine (find?_eq_none.2 fun n _ hn => ?_).symm
        obtain ⟨t, hg, rfl⟩ := hasAddress_iff.1 hn
        rw [h.addressOf n t hg] at hl
        cases hl
    · intro creator
      rw [perm_iff_count]
      intro n
      rw [h.listed, rebuildIndexes_namesOf, count_filter_createdBy ho]

def UniqueAddresses (m : UMap Bytes TokenInfo) : Prop :=
  ∀ n n' t t', m.lookup n = some t → m.lookup n' = some t' → t.address = t'.address → n = n'

theorem Indexed.uniqueAddresses (h : s.Indexed) : UniqueAddresses s.tokens := by
  intro n n' t t' hg hg' ha
  exact h.address_unique (hasAddress_iff.2 ⟨t, hg, ha⟩) (hasAddress_iff.2 ⟨t', hg', rfl⟩)

theorem indexed_empty : TokenStore.empty.Indexed :=
  ⟨fun _ _ hg => by simp [get, empty] at hg, fun _ _ hl => by simp [empty] at hl, fun _ _ => rfl⟩

theorem indexed_rebuild (hu : UniqueAddresses s.tokens) (ho : Enumerates order s.tokens) :
    (s.rebuildIndexes order).Indexed := by
  refine ⟨fun n t hg => ?_, fun a n hl => ?_, fun creator n => ?_⟩
  · rw [rebuildIndexes_get] at hg
    rw [rebuildIndexes_addressIndex]
    refine find?_hasAddress ho hg fun n' hn' => ?_
    obtain ⟨t', hg', ha⟩ := hasAddress_iff.1 hn'
    exact hu n' n t' t hg' hg ha
  · rw [rebuildIndexes_addressIndex] at hl
    have ha : s.hasAddress a n = true := find?_some hl
    unfold hasAddress at ha ⊢
    rwa [rebuildIndexes_get]
  · unfold createdBy
    rw [rebuildIndexes_get, rebuildIndexes_namesOf, count_filter_createdBy ho]
    rfl

theorem createdBy_write (hg : s.get n = some t) (hc : t'.creator = t.creator)
    (recs : List TokenTransferRecord) (creator n' : Bytes) :
    (s.write n t' recs).createdBy creator n' = s.createdBy creator n' := by
  unfold createdBy
  grind [get_write]

theorem hasAddress_write (t' : TokenInfo) (hg : s.get n = some t) (ha : t'.address = t.address)
    (recs : List TokenTransferRecord) (a n' : Bytes) : (s.write n t' recs).hasAddress a n' = s.hasAddress a n' := by
  unfold hasAddress
  grind [get_write]

theorem addressOf_write (h : s.Indexed) (t' : TokenInfo) (hg : s.get n = some t)
    (ha : t'.address = t.address) (recs : List TokenTransferRecord) {u : TokenInfo}
    (hg' : (s.write n t' recs).get n' = some u) : s.addressIndex.lookup u.address = some n' := by
  rw [get_write] at hg'
  split at hg'
  · rename_i hn
    obtain rfl := Option.some.inj hg'
    rw [ha, hn]
    exact h.addressOf n t hg
  · exact h.addressOf n' u hg'

theorem indexed_write (h : s.Indexed) (hg : s.get n = some t)
    (ha : t'.address = t.address) (hc : t'.creator = t.creator) (recs : List TokenTransferRecord) :
    (s.write n t' recs).Indexed := by
  refine ⟨fun n' u hg' => addressOf_write h t' hg ha recs hg', fun a n' hl => ?_, fun creator n' => ?_⟩
  · rw [hasAddress_write t' hg ha]
    exact h.indexed a n' hl
  · rw [createdBy_write hg hc]
    exact h.listed creator n'

theorem namesOf_moveName (n creator newOwner c : Bytes) : (s.moveName n creator newOwner).namesOf c =
      (if c = creator then (s.namesOf creator).filter (· ≠ n) else s.namesOf c) ++
        if c = newOwner then [n] else [] := by
  unfold moveName namesOf
  simp only [getD_insert]
  grind

theorem indexed_transferOwnership (h : s.Indexed) {creator newOwner : Bytes}
    (hg : s.get n = some t) (hc : t.creator = creator) :
    ((s.write n { t with creator := newOwner } []).moveName n creator newOwner).Indexed := by
  refine ⟨fun n' u hg' => addressOf_write h { t with creator := newOwner } hg rfl [] hg', fun a n' hl => ?_,
    fun c n' => ?_⟩
  · exact (hasAddress_write { t with creator := newOwner } hg rfl [] a n').trans (h.indexed a n' hl)
  · have hget : ((s.write n { t with creator := newOwner } []).moveName n creator newOwner).get n' =
        if n' = n then some { t with creator := newOwner } else s.get n' := get_write _ _ _ _ []
    have hold := h.listed c n'
    have hnames : (s.write n { t with creator := newOwner } []).namesOf = s.namesOf := rfl
    rw [namesOf_moveName, hnames, count_append]
    unfold createdBy at hold ⊢
    rw [hget]
    by_cases hn : n' = n
    · subst hn
      -- `n` leaves its old list and joins the new one
      have hcount : ((s.namesOf creator).filter (· ≠ n')).count n' = 0 :=
        count_eq_zero_of_not_mem fun hm => by simp at hm
      rw [hg] at hold
      by_cases h1 : c = creator
      · subst h1
        rw [if_pos rfl, hcount]
        by_cases h2 : c = newOwner
        · simp [h2]
        · simp [h2, Ne.symm h2]
      · have hne : t.creator ≠ c := fun e => h1 (e.symm.trans hc)
        rw [if_neg h1, hold]
        by_cases h2 : c = newOwner
        · simp [h2, h2 ▸ hne]
        · simp [h2, Ne.symm h2, hne]
    · have hcount : ((s.namesOf creator).filter (· ≠ n)).count n' = (s.namesOf creator).count n' :=
        count_filter (by simpa using hn)
      grind

/-- What `create` would have to check: neither the name nor the address is in use. -/
def Unused (s : TokenStore) (name addr : Bytes) : Prop :=
  s.get name = none ∧ ∀ n t, s.get n = some t → t.address ≠ addr

section Create
variable {name symbol creator address : Bytes} {supply fee nonce : UInt64}

theorem indexed_create (h : s.Indexed)
    (hfresh : s.Unused name (s.createAddress env name symbol creator address nonce)) :
    (s.create env name symbol supply creator fee address nonce).Indexed := by
  obtain ⟨hname, haddr⟩ := hfresh
  refine ⟨fun n t hg => ?_, fun a n hl => ?_, fun c n => ?_⟩
  · rw [addressIndex_create]
    rw [get_create] at hg
    split at hg
    · rename_i hn
      obtain rfl := Option.some.inj hg
      rw [hn]
      exact if_pos rfl
    · rw [if_neg (haddr n t hg)]
      exact h.addressOf n t hg
  · rw [hasAddress_iff]
    rw [addressIndex_create] at hl
    split at hl
    · rename_i ha
      obtain rfl := Option.some.inj hl
      exact ⟨_, (get_create ..).trans (if_pos rfl), ha.symm⟩
    · obtain ⟨t, hg, ha⟩ := hasAddress_iff.1 (h.indexed a n hl)
      grind [get_create]
  · have hold := h.listed c n
    rw [namesOf_create]
    unfold createdBy at hold ⊢
    rw [get_create]
    by_cases hn : n = name
    · grind [createdToken]
    · grind

theorem unused_of_indexed_create (h : s.Indexed)
    (h' : (s.create env name symbol supply creator fee address nonce).Indexed) :
    s.Unused name (s.createAddress env name symbol creator address nonce) := by
  have hname : s.get name = none := by
    cases hg : s.get name with
    | none => rfl
    | some t =>
      exfalso
      have hnew := h'.listed creator name
      have hold := h.listed t.creator name
      have hstays := h'.listed t.creator name
      grind [createdBy, namesOf_create, get_create, createdToken]
  refine ⟨hname, fun n t hg ha => ?_⟩
  have hn : n ≠ name := by rintro rfl; rw [hg] at hname; cases hname
  have hl := h'.addressOf n t ((get_create ..).trans ((if_neg hn).trans hg))
  grind [addressIndex_create]

end Create

theorem indexed_step {op : StoreOp} {b : Bool} (h : s.Indexed) (hs : s.step env op = (s', b))
    (hfresh : ∀ name symbol supply creator fee address nonce,
      op = .create name symbol supply creator fee address nonce →
      s.Unused name (s.createAddress env name symbol creator address nonce)) : s'.Indexed := by
  cases hi : op.isIndexing with
  | false =>
    obtain rfl | ⟨c, ⟨n, t, recs, hg, -, -, rfl⟩, -⟩ := step_change hs hi
    · exact h
    · exact indexed_write h hg (Change.apply_address t c) (Change.apply_creator t c) recs
  | true =>
    cases op with
    | create name symbol supply creator fee address nonce =>
      obtain rfl := congrArg Prod.fst hs
      exact indexed_create h (hfresh _ _ _ _ _ _ _ rfl)
    | transferOwnership address creator newOwner =>
      obtain rfl | ⟨n, t, hg, hc, rfl⟩ := transferOwnership_cases hs
      · exact h
      · exact indexed_transferOwnership h hg hc
    | _ => simp [StoreOp.isIndexing] at hi

end TokenStore

end Electronero
