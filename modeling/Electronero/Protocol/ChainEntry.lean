import Electronero.Core.Prevalidate
/-!
# Block ids from a peer (`handle_response_chain_entry`, cryptonote_protocol_handler.inl:1619)

The loop appends an id before it compares the count, so a count of zero is never met, and all ids are appended.
-/
namespace Electronero.FastSync
open Text Wire List

structure ChainEntry where
  startHeight : UInt64
  totalHeight : UInt64
  blockIds : HashList

structure ConnectionContext where
  neededObjects : List Hash
  remoteBlockchainHeight : UInt64
  lastResponseHeight : UInt64

structure SyncCore where
  /-- the hashes of the blocks of the main chain -/
  chain : List Hash
  tables : HashTables
  targetBlockchainHeight : UInt64

inductive Answer where
  /-- `drop_connection`, with whether the host is counted as failed -/
  | dropped (addFail : Bool) (core : SyncCore) (context : ConnectionContext)
  /-- `handed` is what `request_missing_objects` gets. -/
  | requested (handed : ConnectionContext) (core : SyncCore) (context : ConnectionContext)

def appendNeeded (nUseBlocks : UInt64) : UInt64 → List Hash → List Hash → List Hash
  | _, needed, [] => needed
  | added, needed, blId :: rest =>
    if added + 1 = nUseBlocks then needed ++ [blId] else appendNeeded nUseBlocks (added + 1) (needed ++ [blId]) rest

section
variable (cnFastHash : Bytes → Hash) (requestMissingObjects : ConnectionContext → Bool × ConnectionContext)

def appendUsable (core : SyncCore) (arg : ChainEntry) (context : ConnectionContext) : Option Answer :=
  match prevalidateBlockHashes cnFastHash core.chain core.tables arg.startHeight arg.blockIds with
  | none => none
  | some (nUseBlocks, tables) =>
    let core := { core with tables }
    if nUseBlocks + 256 ≤ arg.blockIds.size then some (.dropped true core context)
    else
      let handed := { context with
        neededObjects := appendNeeded nUseBlocks 0 context.neededObjects arg.blockIds.hashes
        lastResponseHeight := context.lastResponseHeight - (arg.blockIds.size - nUseBlocks) }
      let (requested, context) := requestMissingObjects handed
      if !requested then some (.dropped false core context)
      else if core.targetBlockchainHeight < arg.totalHeight then
        some (.requested handed { core with targetBlockchainHeight := arg.totalHeight } context)
      else some (.requested handed core context)

def handleResponseChainEntry (core : SyncCore) (arg : ChainEntry) (context : ConnectionContext) : Option Answer :=
  if arg.blockIds.size = 0 then some (.dropped true core context)
  else if arg.totalHeight < arg.blockIds.size ∨ arg.totalHeight - arg.blockIds.size < arg.startHeight then
    some (.dropped true core context)
  else
    let context := { context with
      remoteBlockchainHeight := arg.totalHeight
      lastResponseHeight := arg.startHeight + arg.blockIds.size - 1 }
    if context.remoteBlockchainHeight < context.lastResponseHeight then some (.dropped false core context)
    else appendUsable cnFastHash requestMissingObjects core arg context

end

theorem appendNeeded_eq {nUseBlocks added : UInt64} {needed ids : List Hash} (hfits : added.toNat + ids.length < 2 ^ 64) :
    appendNeeded nUseBlocks added needed ids =
      needed ++ ids.take (if added < nUseBlocks then nUseBlocks.toNat - added.toNat else ids.length) := by
  induction ids generalizing added needed with
  | nil => simp [appendNeeded]
  | cons blId rest ih =>
    have hadd : (added + 1).toNat = added.toNat + 1 := by
      rw [length_cons] at hfits
      rw [UInt64.toNat_add]
      simp only [UInt64.reduceToNat]
      omega
    rw [appendNeeded]
    by_cases hmet : added + 1 = nUseBlocks
    · subst hmet
      have hlt : added < added + 1 := UInt64.lt_iff_toNat_lt.2 (by omega)
      rw [if_pos rfl, if_pos hlt, hadd, Nat.add_sub_cancel_left]
      rfl
    · have hne : added.toNat + 1 ≠ nUseBlocks.toNat := fun heq => hmet (UInt64.toNat_inj.1 (hadd.trans heq))
      rw [length_cons] at hfits
      rw [if_neg hmet, ih (by omega), append_assoc, singleton_append]
      congr 1
      simp only [UInt64.lt_iff_toNat_lt, hadd]
      by_cases hlt : added.toNat + 1 < nUseBlocks.toNat
      · have hcount : nUseBlocks.toNat - added.toNat = nUseBlocks.toNat - (added.toNat + 1) + 1 := by omega
        grind
      · grind

section
variable {cnFastHash : Bytes → Hash} {requestMissingObjects : ConnectionContext → Bool × ConnectionContext}
  {core core' : SyncCore} {arg : ChainEntry} {context context' handed : ConnectionContext}

theorem handed_eq (h : handleResponseChainEntry cnFastHash requestMissingObjects core arg context =
      some (.requested handed core' context')) :
    arg.blockIds.hashes ≠ [] ∧ ∃ nUseBlocks tables,
      prevalidateBlockHashes cnFastHash core.chain core.tables arg.startHeight arg.blockIds = some (nUseBlocks, tables) ∧
      ¬nUseBlocks + 256 ≤ arg.blockIds.size ∧
      handed.neededObjects = appendNeeded nUseBlocks 0 context.neededObjects arg.blockIds.hashes ∧
      handed.lastResponseHeight =
        arg.startHeight + arg.blockIds.size - 1 - (arg.blockIds.size - nUseBlocks) := by
  rw [handleResponseChainEntry] at h
  rcases ite_eq_iff.1 h with ⟨-, h⟩ | ⟨hsize, h⟩
  · cases h
  rcases ite_eq_iff.1 h with ⟨-, h⟩ | ⟨-, h⟩
  · cases h
  dsimp only at h
  rcases ite_eq_iff.1 h with ⟨-, h⟩ | ⟨-, h⟩
  · cases h
  have hne : arg.blockIds.hashes ≠ [] := by
    intro hnil
    refine hsize (UInt64.toNat_inj.1 ?_)
    rw [HashList.toNat_size, hnil]
    rfl
  refine ⟨hne, ?_⟩
  rw [appendUsable] at h
  cases hresult : prevalidateBlockHashes cnFastHash core.chain core.tables arg.startHeight arg.blockIds with
  | none =>
    rw [hresult] at h
    cases h
  | some result =>
    obtain ⟨nUseBlocks, tables⟩ := result
    rw [hresult] at h
    dsimp only at h
    rcases ite_eq_iff.1 h with ⟨-, h⟩ | ⟨hmost, h⟩
    · cases h
    grind

theorem requested_of_few (hne : arg.blockIds.hashes ≠ []) (hfew : arg.blockIds.hashes.length < 256)
    (htotal : arg.startHeight.toNat + arg.blockIds.hashes.length ≤ arg.totalHeight.toNat)
    (hsent : ∀ context, (requestMissingObjects context).1 = true) :
    ∃ handed core' context', handleResponseChainEntry cnFastHash requestMissingObjects core arg context =
      some (.requested handed core' context') := by
  obtain ⟨nUseBlocks, tables, hresult, -⟩ :=
    prevalidateBlockHashes_cases cnFastHash core.chain core.tables arg.startHeight hne
  have hle := usable_le hne hresult
  have hpos := length_pos_of_ne_nil hne
  have hlength := arg.blockIds.toNat_size
  have hlt := arg.totalHeight.toNat_lt
  have hsize : ¬arg.blockIds.size = 0 := by
    intro hzero
    rw [hzero, UInt64.toNat_zero] at hlength
    omega
  have hsum : ¬(arg.totalHeight < arg.blockIds.size ∨ arg.totalHeight - arg.blockIds.size < arg.startHeight) := by
    rw [UInt64.lt_iff_toNat_lt, UInt64.lt_iff_toNat_lt, UInt64.toNat_sub, hlength]
    omega
  have hlast : ¬arg.totalHeight < arg.startHeight + arg.blockIds.size - 1 := by grind
  have hmost : ¬nUseBlocks + 256 ≤ arg.blockIds.size := by
    rw [UInt64.le_iff_toNat_le, UInt64.toNat_add, hlength]
    simp only [UInt64.reduceToNat]
    omega
  rw [handleResponseChainEntry, if_neg hsize, if_neg hsum]
  dsimp only
  rw [if_neg hlast, appendUsable, hresult]
  dsimp only
  rw [if_neg hmost, hsent]
  simp only [Bool.not_true, Bool.false_eq_true, if_false]
  by_cases htarget : core.targetBlockchainHeight < arg.totalHeight
  · rw [if_pos htarget]
    exact ⟨_, _, _, rfl⟩
  · rw [if_neg htarget]
    exact ⟨_, _, _, rfl⟩

end

def AppendsUsable (cnFastHash : Bytes → Hash) (core : SyncCore) (arg : ChainEntry) (context handed : ConnectionContext) :
    Prop :=
  ∃ nUseBlocks tables,
    prevalidateBlockHashes cnFastHash core.chain core.tables arg.startHeight arg.blockIds = some (nUseBlocks, tables) ∧
    handed.neededObjects = context.neededObjects ++ arg.blockIds.hashes.take nUseBlocks.toNat ∧
    handed.lastResponseHeight = arg.startHeight +
      UInt64.ofNat (handed.neededObjects.length - context.neededObjects.length) - 1

/-- **Only usable ids are requested**, unless there are fewer than 256 and the chunk in which they start is known up to
there, ends among them and does not pass. -/
theorem appends_usable_iff {cnFastHash : Bytes → Hash} {requestMissingObjects : ConnectionContext → Bool × ConnectionContext}
    {core core' : SyncCore} {arg : ChainEntry} {context context' handed : ConnectionContext}
    (h : handleResponseChainEntry cnFastHash requestMissingObjects core arg context =
      some (.requested handed core' context')) :
    AppendsUsable cnFastHash core arg context handed ↔
      256 ≤ arg.blockIds.hashes.length ∨
        ¬FirstChunkFails cnFastHash core.chain core.tables arg.startHeight arg.blockIds := by
  obtain ⟨hne, nUseBlocks, tables, hresult, hmost, hneeded, hheight⟩ := handed_eq h
  have hbounded := arg.blockIds.bounded
  have hpos := length_pos_of_ne_nil hne
  have hle := usable_le hne hresult
  rw [appendNeeded_eq (by rw [UInt64.toNat_zero]; omega), UInt64.toNat_zero, Nat.sub_zero] at hneeded
  constructor
  · rintro ⟨nUseBlocks', tables', hresult', hneeded', -⟩
    rw [hresult] at hresult'
    cases hresult'
    by_contra hcond
    rw [not_or, not_not] at hcond
    -- none can be used, and yet they are all there
    have hzero := (usable_eq_zero_iff hne (Nat.lt_of_not_le hcond.1) hresult).2 hcond.2
    subst hzero
    rw [hneeded, if_neg (UInt64.lt_irrefl 0), take_length, UInt64.toNat_zero, take_zero] at hneeded'
    exact hne (append_cancel_left hneeded')
  · intro hcond
    have hsome : 0 < nUseBlocks := by
      rw [UInt64.lt_iff_toNat_lt, UInt64.toNat_zero, Nat.pos_iff_ne_zero]
      intro hnat
      have hzero : nUseBlocks = 0 := UInt64.toNat_inj.1 hnat
      have hfew : arg.blockIds.hashes.length < 256 := by
        rw [hzero, UInt64.le_iff_toNat_le, HashList.toNat_size] at hmost
        exact Nat.lt_of_not_le hmost
      grind [usable_eq_zero_iff]
    rw [if_pos hsome] at hneeded
    refine ⟨nUseBlocks, tables, hresult, hneeded, ?_⟩
    have hcount : handed.neededObjects.length - context.neededObjects.length = nUseBlocks.toNat := by grind
    rw [hheight, hcount, UInt64.ofNat_toNat]
    grind

def freshCore (entry : Hash) : SyncCore := ⟨[nullHash], oneChunk entry, 0⟩

def freshContext : ConnectionContext := ⟨[], 0, 0⟩

def entryOf (count : UInt8) : ChainEntry := ⟨1, 256, nullHashes count⟩

def sendAll (context : ConnectionContext) : Bool × ConnectionContext := (true, context)

theorem length_entryOf (count : UInt8) : (entryOf count).blockIds.hashes.length = count.toNat := length_replicate

theorem requested_entryOf {cnFastHash : Bytes → Hash} {entry : Hash} {count : UInt8} (hcount : 0 < count.toNat) :
    ∃ handed core' context', handleResponseChainEntry cnFastHash sendAll (freshCore entry) (entryOf count) freshContext =
      some (.requested handed core' context') := by
  have hlt := count.toNat_lt
  have hlength := length_entryOf count
  refine requested_of_few (ne_nil_of_length_pos (by rwa [hlength])) (by rwa [hlength]) ?_ fun _ => rfl
  rw [hlength]
  simp only [entryOf, UInt64.reduceToNat]
  omega

theorem appends_usable_iff_one :
    ∃ handed core' context', handleResponseChainEntry Env.plainHash sendAll (freshCore nullHash) (entryOf 1) freshContext =
        some (.requested handed core' context') ∧
      AppendsUsable Env.plainHash (freshCore nullHash) (entryOf 1) freshContext handed := by
  obtain ⟨handed, core', context', hanswer⟩ :=
    @requested_entryOf Env.plainHash nullHash 1 (by decide)
  refine ⟨handed, core', context', hanswer, (appends_usable_iff hanswer).2 (.inr ?_)⟩
  intro hfails
  exact absurd hfails.ends (by decide)

theorem unusable_ids_requested :
    (prevalidateBlockHashes Env.plainHash [nullHash] (oneChunk (Env.plainHash [1])) 1 (nullHashes 255)).map Prod.fst =
        some 0 ∧
    ∃ handed core' context',
      handleResponseChainEntry Env.plainHash sendAll (freshCore (Env.plainHash [1])) (entryOf 255) freshContext =
        some (.requested handed core' context') ∧
      handed.neededObjects = (entryOf 255).blockIds.hashes ∧ handed.lastResponseHeight = 0 := by
  have hvalue : (prevalidateBlockHashes Env.plainHash [nullHash] (oneChunk (Env.plainHash [1])) 1 (nullHashes 255)).map
      Prod.fst = some 0 := by decide +kernel
  refine ⟨hvalue, ?_⟩
  obtain ⟨handed, core', context', hanswer⟩ := @requested_entryOf Env.plainHash (Env.plainHash [1]) 255 (by decide)
  obtain ⟨-, nUseBlocks, tables, hresult, -, hneeded, hheight⟩ := handed_eq hanswer
  have hzero : nUseBlocks = 0 := by
    obtain ⟨⟨u, tables'⟩, hresult', hu⟩ := Option.map_eq_some_iff.1 hvalue
    cases hresult.symm.trans hresult'
    exact hu
  subst hzero
  refine ⟨handed, core', context', hanswer, ?_, ?_⟩
  · rw [hneeded, appendNeeded_eq (by rw [length_entryOf]; decide), if_neg (UInt64.lt_irrefl 0), take_length]
    rfl
  · rw [hheight, HashList.size, length_entryOf]
    rfl

end Electronero.FastSync
