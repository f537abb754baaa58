import Electronero.Core.Blockchain
/-!
# One block on, one block off

`accepted` is the verdict on a block, `Returnable` that the pool takes back every transaction that was in a block.
-/
namespace Electronero
open Text FiniteMap List

namespace Base

def takeAll (rules : BaseRules) (bl : Block) : Base → List Hash → Option (List Transaction)
  | _, [] => some []
  | b, id :: rest =>
    if b.haveTx id then none
    else match b.pool.lookup id with
      | none => none
      | some tx =>
        if rules.checkTxInputs b.chain bl tx then
          (takeAll rules bl { b with pool := b.pool.erase id } rest).map (tx :: ·)
        else none

def accepted (rules : BaseRules) (b : Base) (bl : Block) : Option (List Transaction) :=
  if bl.prevId = b.tailId ∧ rules.checkBlockTimestamp b.chain bl ∧ rules.difficultyForNextBlock b.chain ≠ 0 ∧
      rules.checkHeader b.chain bl then
    (takeAll rules bl b bl.txHashes).filter fun txs =>
      rules.validateMinerTransaction b.chain bl txs && rules.dbAddBlock b.chain bl txs
  else none

def entry (rules : BaseRules) (b : Base) (bl : Block) (txs : List Transaction) : StoredBlock :=
  ⟨bl, txs, (rules.difficultyForNextBlock b.chain + b.topDifficulty) % UInt64.size⟩

def without (pool : Pool) (ids : List Hash) : Pool := ids.foldl (fun pool id => pool.erase id) pool

variable {rules : BaseRules} {b b' : Base} {bl : Block}

theorem lookup_without (pool : Pool) (ids : List Hash) (id : Hash) :
    (without pool ids).lookup id = if id ∈ ids then none else pool.lookup id := by
  induction ids generalizing pool with
  | nil => rfl
  | cons i ids ih =>
    show (without (pool.erase i) ids).lookup id = _
    rw [ih]
    by_cases hi : id = i
    · subst hi
      simp
    · simp [hi, Finmap.lookup_erase_ne hi]

variable {ids : List Hash} {pool pool' : Pool} {txs new : List Transaction}

theorem takeAll_congr (hchain : b.chain = b'.chain) (hpool : ∀ id ∈ ids, b.pool.lookup id = b'.pool.lookup id) :
    takeAll rules bl b ids = takeAll rules bl b' ids := by
  induction ids generalizing b b' with
  | nil => rfl
  | cons id rest ih =>
    have hrest : takeAll rules bl { b with pool := b.pool.erase id } rest =
        takeAll rules bl { b' with pool := b'.pool.erase id } rest := by
      refine ih hchain fun i hi => ?_
      by_cases hid : i = id
      · subst hid
        simp
      · simp_all
    grind [haveTx, takeAll]

theorem accepted_congr (hchain : b.chain = b'.chain)
    (hpool : ∀ id ∈ bl.txHashes, b.pool.lookup id = b'.pool.lookup id) :
    accepted rules b bl = accepted rules b' bl := by
  unfold accepted tailId
  rw [takeAll_congr hchain hpool, hchain]

def Keyed (pool : Pool) : Prop := ∀ id tx, pool.lookup id = some tx → tx.id = id

theorem Keyed.erase (h : Keyed pool) (id : Hash) : Keyed (pool.erase id) :=
  fun i tx hi => h i tx (lookup_of_lookup_erase hi).2

theorem Keyed.without (h : Keyed pool) (ids : List Hash) : Keyed (without pool ids) := by
  intro i tx hi
  rw [lookup_without] at hi
  split at hi
  · cases hi
  · exact h i tx hi

theorem takeAll_ids (hkeyed : Keyed b.pool) (h : takeAll rules bl b ids = some txs) :
    txs.map (·.id) = ids ∧ ∀ tx ∈ txs, b.pool.lookup tx.id = some tx := by
  induction ids generalizing b txs with
  | nil =>
    cases h
    exact ⟨rfl, by simp⟩
  | cons id rest ih =>
    unfold takeAll at h
    split at h
    · cases h
    split at h
    · cases h
    rename_i tx htx
    split at h
    · obtain ⟨later, hlater, rfl⟩ := Option.map_eq_some_iff.1 h
      obtain ⟨hids, hmem⟩ := ih (b := { b with pool := b.pool.erase id }) (hkeyed.erase id) hlater
      have hid := hkeyed id tx htx
      grind [lookup_of_lookup_erase]
    · cases h

theorem takeAll_nodup (h : takeAll rules bl b ids = some txs) :
    ids.Nodup ∧ ∀ id ∈ ids, (b.pool.lookup id).isSome = true ∧ b.haveTx id = false := by
  induction ids generalizing b txs with
  | nil => exact ⟨.nil, by simp⟩
  | cons id rest ih =>
    unfold takeAll at h
    split at h
    · cases h
    rename_i hhave
    split at h
    · cases h
    rename_i tx htx
    split at h
    · obtain ⟨later, hlater, rfl⟩ := Option.map_eq_some_iff.1 h
      obtain ⟨hnodup, hrest⟩ := ih hlater
      refine ⟨nodup_cons.2 ⟨fun hid => ?_, hnodup⟩, fun id' hid' => ?_⟩
      · have hsome := (hrest id hid).1
        simp at hsome
      · rcases mem_cons.1 hid' with rfl | hid'
        · exact ⟨by rw [htx]; rfl, by simpa using hhave⟩
        · obtain ⟨hsome, hnew⟩ := hrest id' hid'
          obtain ⟨tx', htx'⟩ := Option.isSome_iff_exists.1 hsome
          exact ⟨by rw [(lookup_of_lookup_erase htx').2]; rfl, hnew⟩
    · cases h

theorem accepted_nodup (h : accepted rules b bl = some txs) :
    bl.txHashes.Nodup ∧ ∀ id ∈ bl.txHashes, b.haveTx id = false := by
  unfold accepted at h
  split at h
  · obtain ⟨hnodup, hnew⟩ := takeAll_nodup (Option.filter_eq_some_iff.1 h).1
    exact ⟨hnodup, fun id hid => (hnew id hid).2⟩
  · cases h

theorem accepted_ids (hkeyed : Keyed b.pool) (h : accepted rules b bl = some txs) :
    txs.map (·.id) = bl.txHashes ∧ ∀ tx ∈ txs, b.pool.lookup tx.id = some tx := by
  unfold accepted at h
  split at h
  · exact takeAll_ids hkeyed (Option.filter_eq_some_iff.1 h).1
  · cases h

theorem accepted_prevId (h : accepted rules b bl = some txs) : bl.prevId = b.tailId := by
  unfold accepted at h
  grind

theorem accepted_difficulty (h : accepted rules b bl = some txs) : rules.difficultyForNextBlock b.chain ≠ 0 := by
  unfold accepted at h
  grind

theorem accepted_checkHeader (h : accepted rules b bl = some txs) : rules.checkHeader b.chain bl = true := by
  unfold accepted at h
  grind

def Returnable (rules : BaseRules) : Prop := ∀ chain pool tx, (rules.poolCheck chain pool tx true).1 = true

def withTxs (pool : Pool) (txs : List Transaction) : Pool := txs.foldl (fun pool tx => pool.insert tx.id tx) pool

theorem returnTxToPool_eq (rules : BaseRules) (txs : List Transaction) (b : Base) :
    ∃ pool, returnTxToPool rules b txs = { b with pool := pool } ∧ (Returnable rules → pool = withTxs b.pool txs) := by
  induction txs generalizing b with
  | nil => exact ⟨b.pool, rfl, fun _ => rfl⟩
  | cons tx txs ih =>
    obtain ⟨pool, hadd, hret⟩ : ∃ pool, (b.poolAdd rules tx true).1 = { b with pool := pool } ∧
        (Returnable rules → pool = b.pool.insert tx.id tx) := by
      unfold poolAdd
      dsimp only
      split
      · exact ⟨_, rfl, fun _ => rfl⟩
      · rename_i hno
        exact ⟨_, rfl, fun h => absurd (h _ _ _) hno⟩
    obtain ⟨pool', hrest, hret'⟩ := ih { b with pool := pool }
    refine ⟨pool', ?_, fun h => ?_⟩
    · grind [returnTxToPool]
    · rw [hret' h, hret h]
      rfl

theorem withTxs_eq {rest : Pool} (hin : ∀ tx ∈ txs, pool.lookup tx.id = some tx)
    (hrest : ∀ id, id ∉ txs.map (·.id) → rest.lookup id = pool.lookup id) : withTxs rest txs = pool := by
  induction txs generalizing rest with
  | nil => exact Finmap.ext_lookup fun id => hrest id (by simp)
  | cons tx txs ih =>
    refine ih (fun t ht => hin t (mem_cons_of_mem _ ht)) fun id hid => ?_
    grind [lookup_insert_ite]

theorem Keyed.withTxs (h : Keyed pool) (txs : List Transaction) : Keyed (withTxs pool txs) := by
  induction txs generalizing pool with
  | nil => exact h
  | cons tx txs ih =>
    refine @ih (pool.insert tx.id tx) fun id tx' hid => ?_
    rw [lookup_insert_ite] at hid
    split at hid
    · cases hid
      exact Eq.symm ‹_›
    · exact h id tx' hid

def Missing (pool pool' : Pool) (new : List Transaction) : Prop :=
  (∀ tx ∈ new, pool.lookup tx.id = some tx) ∧ ∀ id, id ∉ new.map (·.id) → pool'.lookup id = pool.lookup id

theorem Missing.withTxs_eq (h : Missing pool pool' new) : withTxs pool' new = pool :=
  Base.withTxs_eq h.1 h.2

theorem Missing.reverse (h : Missing pool pool' new) : Missing pool pool' new.reverse := by
  refine ⟨fun tx htx => h.1 tx (mem_reverse.1 htx), fun id hid => h.2 id ?_⟩
  simpa using hid

theorem Missing.without (hin : ∀ tx ∈ new, pool.lookup tx.id = some tx) :
    Missing pool (without pool (new.map (·.id))) new := by
  refine ⟨hin, fun id hid => ?_⟩
  rw [lookup_without, if_neg hid]

theorem takeTxs_of_some (txs : List Transaction) (h : takeAll rules bl b ids = some new) :
    takeTxs rules bl b txs ids = ({ b with pool := without b.pool ids }, txs ++ new, true) := by
  induction ids generalizing b txs new with
  | nil =>
    cases h
    simp [takeTxs, Base.without]
  | cons id rest ih =>
    unfold takeAll at h
    unfold takeTxs
    split at h
    · cases h
    rename_i hhave
    rw [if_neg hhave]
    cases htx : b.pool.lookup id with
    | none => simp [htx] at h
    | some tx =>
      rw [htx] at h
      dsimp only at h ⊢
      split at h
      · rename_i hcheck
        obtain ⟨later, hlater, rfl⟩ := Option.map_eq_some_iff.1 h
        rw [if_pos hcheck, ih (txs ++ [tx]) hlater, append_assoc]
        rfl
      · cases h

theorem takeTxs_of_none (txs : List Transaction) (h : takeAll rules bl b ids = none) :
    ∃ new pool invalid, takeTxs rules bl b txs ids =
      ({ b with pool := pool, invalidBlocks := invalid }, txs ++ new, false) ∧ b.invalidBlocks ⊆ invalid ∧
      (Keyed b.pool → Missing b.pool pool new) := by
  induction ids generalizing b txs with
  | nil => cases h
  | cons id rest ih =>
    have hstop : ∃ new pool invalid, (b, txs, false) =
        (({ b with pool := pool, invalidBlocks := invalid } : Base), txs ++ new, false) ∧ b.invalidBlocks ⊆ invalid ∧
        (Keyed b.pool → Missing b.pool pool new) :=
      ⟨[], b.pool, b.invalidBlocks, by simp, Finset.Subset.refl _, fun _ => ⟨by simp, by simp⟩⟩
    unfold takeAll at h
    unfold takeTxs
    split at h
    · grind
    rename_i hhave
    rw [if_neg hhave]
    cases htx : b.pool.lookup id with
    | none => exact hstop
    | some tx =>
      rw [htx] at h
      dsimp only at h ⊢
      have hself : Keyed b.pool → Missing b.pool (b.pool.erase id) [tx] := by
        intro hkeyed
        have hid := hkeyed id tx htx
        refine ⟨fun t ht => ?_, fun i hi => Finmap.lookup_erase_ne ?_⟩
        · rw [mem_singleton.1 ht, hid]
          exact htx
        · simpa [hid] using hi
      split at h
      · rename_i hcheck
        rw [if_pos hcheck]
        obtain ⟨new, pool, invalid, htake, hsub, hmissing⟩ :=
          ih (b := { b with pool := b.pool.erase id }) (txs ++ [tx]) (Option.map_eq_none_iff.1 h)
        refine ⟨tx :: new, pool, invalid, by simp [htake], hsub, fun hkeyed => ⟨fun t ht => ?_, fun i hi => ?_⟩⟩
        · rcases mem_cons.1 ht with rfl | ht
          · exact (hself hkeyed).1 _ mem_cons_self
          · exact (lookup_of_lookup_erase ((hmissing (hkeyed.erase id)).1 t ht)).2
        · simp only [map_cons, mem_cons, not_or] at hi
          exact ((hmissing (hkeyed.erase id)).2 i hi.2).trans ((hself hkeyed).2 i (by simpa using hi.1))
      · simp_all

theorem handleBlockToMainChain_of_accepted (h : accepted rules b bl = some txs) : handleBlockToMainChain rules b bl =
      ({ b with chain := b.chain ++ [entry rules b bl txs], pool := without b.pool bl.txHashes }, true) := by
  unfold accepted at h
  split at h
  · rename_i hchecks
    obtain ⟨hprev, htime, hdiff, hheader⟩ := hchecks
    obtain ⟨htake, hlast⟩ := Option.filter_eq_some_iff.1 h
    obtain ⟨hminer, hdb⟩ := (Bool.and_eq_true _ _).mp hlast
    have htxs := takeTxs_of_some [] htake
    unfold handleBlockToMainChain
    simp [hprev, htime, hdiff, hheader, htxs, hminer, hdb, entry]
  · cases h

theorem handleBlockToMainChain_of_refused (h : accepted rules b bl = none) :
    ∃ pool invalid, handleBlockToMainChain rules b bl = ({ b with pool := pool, invalidBlocks := invalid }, false) ∧
      b.invalidBlocks ⊆ invalid ∧ (Keyed b.pool → Returnable rules → pool = b.pool) := by
  have hsame : ∃ pool invalid, (b, false) = (({ b with pool := pool, invalidBlocks := invalid } : Base), false) ∧
      b.invalidBlocks ⊆ invalid ∧ (Keyed b.pool → Returnable rules → pool = b.pool) :=
    ⟨_, _, rfl, Finset.Subset.refl _, fun _ _ => rfl⟩
  -- what was taken goes back to the pool
  have hback : ∀ (b' : Base) (txs : List Transaction) pool invalid,
      b' = { b with pool := pool, invalidBlocks := invalid } → b.invalidBlocks ⊆ invalid →
      (Keyed b.pool → Missing b.pool pool txs) →
      ∃ pool invalid, (returnTxToPool rules b' txs, false) =
        (({ b with pool := pool, invalidBlocks := invalid } : Base), false) ∧
        b.invalidBlocks ⊆ invalid ∧ (Keyed b.pool → Returnable rules → pool = b.pool) := by
    rintro b' txs pool invalid rfl hsub hmissing
    obtain ⟨pool', hret, hpool'⟩ := returnTxToPool_eq rules txs { b with pool := pool, invalidBlocks := invalid }
    refine ⟨pool', invalid, by rw [hret], hsub, fun hkeyed hr => ?_⟩
    rw [hpool' hr]
    exact (hmissing hkeyed).withTxs_eq
  unfold handleBlockToMainChain
  split
  · exact hsame
  rename_i hprev
  split
  · exact hsame
  rename_i htime
  split
  · exact hsame
  rename_i hdiff
  split
  · exact hsame
  rename_i hheader
  unfold accepted at h
  have hchecks : bl.prevId = b.tailId ∧ rules.checkBlockTimestamp b.chain bl = true ∧
      rules.difficultyForNextBlock b.chain ≠ 0 ∧ rules.checkHeader b.chain bl = true :=
    ⟨by simpa using hprev, by simpa using htime, hdiff, by simpa using hheader⟩
  rw [if_pos hchecks] at h
  cases htake : takeAll rules bl b bl.txHashes with
  | none =>
    obtain ⟨new, pool, invalid, heq, hsub, hmissing⟩ := takeTxs_of_none [] htake
    grind
  | some txs =>
    have heq := takeTxs_of_some [] htake
    have hmissing : Keyed b.pool → Missing b.pool (without b.pool bl.txHashes) txs := by
      intro hkeyed
      obtain ⟨hids, hin⟩ := takeAll_ids hkeyed htake
      rw [← hids]
      exact Missing.without hin
    simp only [heq, Bool.not_true, nil_append]
    rw [htake] at h
    split
    · rename_i hfalse
      exact absurd hfalse (by simp)
    grind

theorem popBlock_snoc (rules : BaseRules) {chain : Chain} {e : StoredBlock} (h : b.chain = chain ++ [e]) :
    ∃ pool, b.popBlock rules = ({ b with chain := chain, popped := b.popped ++ [e], pool := pool }, some e) ∧
      (Returnable rules → pool = withTxs b.pool e.txs.reverse) := by
  obtain ⟨pool, hret, hpool⟩ :=
    returnTxToPool_eq rules e.txs.reverse { b with chain := chain, popped := b.popped ++ [e] }
  grind [popBlock]

end Base

end Electronero
