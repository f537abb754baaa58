import Electronero.Core.Weights
/-!
# The caches of the difficulty (src/cryptonote_core/blockchain.cpp:897)

The last result is kept with the hash of the top block, the last window with its height. The window is dropped wherever
blocks may be popped, the result never. The functions of `CachedNode` are those of `Node` with the caches handed along.
-/
namespace Electronero
open Text FiniteMap Machine Difficulty List

structure DifficultyCache where
  topHash : Hash
  difficulty : UInt64
  /-- the height of the chain the samples were taken for; 0 for none -/
  height : Nat
  samples : List Sample

def Difficulty.trim (count : Nat) (samples : List Sample) : List Sample := samples.drop (samples.length - count)

namespace DifficultyCache

def empty : DifficultyCache := ⟨default, 1, 0, []⟩

def nextWindow (c : DifficultyCache) (count : Nat) (path : List Sample) : List Sample :=
  if c.height ≠ 0 ∧ path.length = c.height + 1 then Difficulty.trim count (c.samples ++ path.drop (path.length - 1))
  else window count path

def query (c : DifficultyCache) (chain : Chain) : DifficultyCache × UInt64 :=
  let topHash := (Base.ofChain chain).tailId
  if topHash = c.topHash then (c, c.difficulty)
  else
    match fixedDifficulty chain.length with
    | some difficulty => (c, difficulty)
    | none =>
      let e := era chain.length
      let samples := c.nextWindow e.blocksCount (chain.map (·.sample))
      (⟨topHash, e.next samples, chain.length, samples⟩, e.next samples)

/-- What the caches promise: the result is that of the only chain with this top block, and the window is
the one below `height` on the chain of the moment. -/
structure Valid (ids : BlockIds) (chain : Chain) (c : DifficultyCache) : Prop where
  result : ∀ blocks, ids.Path blocks → ids.tip blocks = c.topHash → c.difficulty = forNextBlock (weights blocks)
  window : c.height ≠ 0 → c.height ≤ chain.length ∧ fixedDifficulty c.height = none ∧
    c.samples = window (era c.height).blocksCount ((chain.take c.height).map (·.sample))

end DifficultyCache

namespace Difficulty

theorem blocksCount_succ {height : Nat} (h : fixedDifficulty height = none) :
    (era (height + 1)).blocksCount = (era height).blocksCount := by
  have hv7 : height ≠ hardforkV7Height - 1 := by
    rintro rfl
    exact absurd h (by decide)
  have hv10 : height ≠ hardforkV10Height := by
    rintro rfl
    exact absurd h (by decide)
  simp only [era, ite_self]
  grind

theorem trim_window (count : Nat) {path : List Sample} (hpath : path ≠ []) (sample : Sample) :
    trim count (window count path ++ [sample]) = window count (path ++ [sample]) := by
  have hpos := length_pos_iff.2 hpath
  unfold trim window
  generalize hoffset : skipGenesis (path.length - min path.length count) = offset
  have hle : offset ≤ path.length := by
    rw [← hoffset, skipGenesis]
    split <;> omega
  rw [← drop_append_of_le_length hle, drop_drop]
  grind [skipGenesis]

end Difficulty

namespace DifficultyCache
variable {ids : BlockIds} {c : DifficultyCache} {chain : Chain}

theorem empty_valid (ids : BlockIds) (chain : Chain) : empty.Valid ids chain := by
  refine ⟨fun blocks hpath htip => ?_, fun h => absurd rfl h⟩
  have hnil : blocks = [] := hpath.unique HashTree.Naming.path_nil htip
  rw [hnil]
  rfl

theorem Valid.nextWindow_eq (h : c.Valid ids chain) (hfixed : fixedDifficulty chain.length = none) :
    c.nextWindow (era chain.length).blocksCount (chain.map (·.sample)) =
      Difficulty.window (era chain.length).blocksCount (chain.map (·.sample)) := by
  unfold nextWindow
  split
  · rename_i hheight
    obtain ⟨hne, hlength⟩ := hheight
    rw [length_map] at hlength
    obtain ⟨-, hbelow, hsamples⟩ := h.window hne
    obtain ⟨pre, e, rfl⟩ := (eq_nil_or_concat' chain).resolve_left (by rintro rfl; simp at hlength)
    have hpre : pre.length = c.height := by simpa using hlength
    grind [blocksCount_succ, trim_window]
  · rfl

theorem Valid.query (h : c.Valid ids chain) (hpath : ids.Path (chain.map (·.block))) (hweighs : Weighs chain) :
    (c.query chain).2 = forNextBlock (chain.map (·.sample)) ∧ (c.query chain).1.Valid ids chain := by
  have htail : (Base.ofChain chain).tailId = ids.tip (chain.map (·.block)) := Base.tailId_eq ids _
  unfold DifficultyCache.query
  dsimp only
  split
  · rename_i htop
    refine ⟨?_, h⟩
    rw [hweighs.samples]
    exact h.result _ hpath (htail.symm.trans htop)
  · cases hfixed : fixedDifficulty chain.length with
    | some difficulty =>
      refine ⟨?_, h⟩
      rw [forNextBlock, length_map, hfixed]
    | none =>
      have hnext : forNextBlock (chain.map (·.sample)) =
          (era chain.length).next (c.nextWindow (era chain.length).blocksCount (chain.map (·.sample))) := by
        rw [h.nextWindow_eq hfixed, forNextBlock, length_map, hfixed]
      refine ⟨hnext.symm, fun blocks hblocks htip => ?_, fun _ => ⟨Nat.le_refl _, hfixed, ?_⟩⟩
      · -- the same top block, so the same chain
        have hsame : blocks = chain.map (·.block) := hblocks.unique hpath (htip.trans htail)
        rw [hsame, ← hweighs.samples, hnext]
      · rw [take_length]
        exact h.nextWindow_eq hfixed

theorem Valid.forget (h : c.Valid ids chain) (chain' : Chain) : Valid ids chain' { c with height := 0 } :=
  ⟨h.result, fun hne => absurd rfl hne⟩

theorem Valid.grow (h : c.Valid ids chain) (e : StoredBlock) : c.Valid ids (chain ++ [e]) := by
  refine ⟨h.result, fun hne => ?_⟩
  obtain ⟨hle, hrest⟩ := h.window hne
  grind

end DifficultyCache

/-! ## Rules that leave the difficulty open -/

/-- The checks of a node, with the proof of work as a check of its own: it is made against the difficulty. -/
structure ChainRules extends NodeRules where
  /-- `check_hash(proof_of_work, current_diffic)`, or the precomputed hash of the block -/
  checkHash : Chain → Block → UInt64 → Bool

def ChainRules.answering (rules : ChainRules) (difficulty : Chain → UInt64) : NodeRules where
  base v := { rules.base v with
    difficultyForNextBlock := fun chain => (difficulty chain).toNat
    checkHeader := fun chain bl => rules.checkHash chain bl (difficulty chain) && (rules.base v).checkHeader chain bl }
  growBuckets := rules.growBuckets

def ChainRules.fresh (rules : ChainRules) : NodeRules := rules.answering fun chain => forNextBlock (chain.map (·.sample))

structure CachedNode (t : ForkTable) where
  node : Node t
  cache : DifficultyCache
  /-- the calls of `get_difficulty_for_next_block` so far: the chain and the answer; nothing reads it -/
  calls : List (Chain × UInt64)

namespace CachedNode
variable {t : ForkTable} (rules : ChainRules)

def init (t : ForkTable) : CachedNode t := ⟨.init t, .empty, []⟩

section
variable (s : CachedNode t)

def forget : CachedNode t := { s with cache := { s.cache with height := 0 } }

def onNode {α : Type} (f : Node t → Node t × α) : CachedNode t × α := ({ s with node := (f s.node).1 }, (f s.node).2)

def getDifficultyForNextBlock : CachedNode t × UInt64 :=
  let r := s.cache.query s.node.base.chain
  (⟨s.node, r.1, s.calls ++ [(s.node.base.chain, r.2)]⟩, r.2)

def popBlock : CachedNode t × Option StoredBlock := s.forget.onNode (·.popBlock rules.toNodeRules)

def Asks (bl : Block) : Prop :=
  bl.prevId = s.node.base.tailId ∧ (rules.base s.node.version).checkBlockTimestamp s.node.base.chain bl = true

instance (bl : Block) : Decidable (s.Asks rules bl) := inferInstanceAs (Decidable (_ ∧ _))

def handleBlockToMainChain (bl : Block) : CachedNode t × Bool :=
  if s.Asks rules bl then
    let r := s.getDifficultyForNextBlock
    r.1.onNode (·.handleBlockToMainChain (rules.answering fun _ => r.2) bl)
  else s.onNode (·.handleBlockToMainChain rules.toNodeRules bl)

def reorganize (height : Nat) : CachedNode t × Except DbError Bool := s.onNode (·.reorganize height)

end

def popN : Nat → CachedNode t → CachedNode t
  | 0, s => s
  | k + 1, s => popN k (s.popBlock rules).1

def popUntil (id : Hash) : Nat → CachedNode t → CachedNode t × List Block
  | 0, s => (s, [])
  | k + 1, s =>
    if s.node.base.tailId = id then (s, [])
    else match s.popBlock rules with
      | (s, none) => (s, [])
      | (s, some e) =>
        let r := popUntil id k s
        (r.1, r.2 ++ [e.block])

def connectAll {α : Type} (block : α → Block) : CachedNode t → List α → CachedNode t × List α
  | s, [] => (s, [])
  | s, x :: rest =>
    match s.handleBlockToMainChain rules (block x) with
    | (s, true) => connectAll block s rest
    | (s, false) => (s, x :: rest)

def reconnect (s : CachedNode t) (originalChain : List Block) (rollbackHeight : Nat) : CachedNode t × Except DbError Bool :=
  match connectAll rules id s originalChain with
  | (s, []) =>
    match s.reorganize rollbackHeight with
    | (s, .error e) => (s, .error e)
    | (s, .ok _) => (s, .ok true)
  | (s, _ :: _) => (s, .ok false)

def rollback (s : CachedNode t) (originalChain : List Block) (rollbackHeight : Nat) : CachedNode t × Except DbError Bool :=
  if s.node.base.chain.length < rollbackHeight then (s, .ok true)
  else
    match (popN rules (s.node.base.chain.length - rollbackHeight) s.forget).reorganize rollbackHeight with
    | (s, .error e) => (s, .error e)
    | (s, .ok _) => reconnect rules s originalChain rollbackHeight

def pushAll (push : CachedNode t → Block → CachedNode t × Except DbError Bool) :
    CachedNode t → List Block → CachedNode t × Except DbError Unit
  | s, [] => (s, .ok ())
  | s, bl :: rest =>
    match push s bl with
    | (s, .error e) => (s, .error e)
    | (s, .ok _) => pushAll push s rest

def finishSwitch (altChain : List AltIterator) (splitHeight : Nat) :
    CachedNode t × Except DbError Unit → CachedNode t × Except DbError Bool
  | (s, .error e) => (s, .error e)
  | (s, .ok _) =>
    match { s with node := altChain.foldl Node.eraseAlternative s.node }.reorganize splitHeight with
    | (s, .error e) => (s, .error e)
    | (s, .ok _) => (s, .ok true)

def abandonSwitch (failed : List AltIterator) :
    CachedNode t × Except DbError Bool → CachedNode t × Except DbError Bool
  | (s, .error e) => (s, .error e)
  | (s, .ok _) => ({ s with node := failed.foldl Node.invalidate s.node }, .ok false)

def connectAlternative (push : CachedNode t → Block → CachedNode t × Except DbError Bool) (s : CachedNode t)
    (disconnectedChain : List Block) (altChain : List AltIterator) (discardDisconnectedChain : Bool) :
    CachedNode t × Except DbError Bool :=
  let splitHeight := s.node.base.chain.length
  match connectAll rules (·.info.block) s altChain with
  | (s, []) =>
    finishSwitch altChain splitHeight (if discardDisconnectedChain then (s, .ok ()) else pushAll push s disconnectedChain)
  | (s, it :: failed) => abandonSwitch (it :: failed) (rollback rules s disconnectedChain splitHeight)

def switchToAlternative (push : CachedNode t → Block → CachedNode t × Except DbError Bool) (s : CachedNode t)
    (altChain : List AltIterator) (discardDisconnectedChain : Bool) : CachedNode t × Except DbError Bool :=
  let s := { s.forget with node := s.node.logSwitch discardDisconnectedChain }
  match altChain with
  | [] => (s, .ok false)
  | front :: _ =>
    if !s.node.base.blockExists front.info.block.prevId then (s, .ok false)
    else
      let r := popUntil rules front.info.block.prevId s.node.base.chain.length s
      connectAlternative rules push r.1 r.2 altChain discardDisconnectedChain

def handleAlternativeBlock : Nat → CachedNode t → Block → CachedNode t × Except DbError Bool
  | 0, s, _ => (s, .ok false)
  | depth + 1, s, bl =>
    let s := s.forget
    match s.node.judgeAlternative rules.toNodeRules bl with
    | .refused => (s, .ok false)
    | .orphaned => (s, .ok true)
    | .accepted bei isCheckpoint =>
      let kept := { s with node := s.node.insertAlternative rules.toNodeRules bei }
      let altChain := (s.node.altChain bl).map (⟨·, s.node.epoch⟩) ++ [⟨bei, kept.node.epoch⟩]
      if isCheckpoint then switchToAlternative rules (handleAlternativeBlock depth) kept altChain true
      else if s.node.base.topDifficulty < bei.cumulativeDifficulty then
        switchToAlternative rules (handleAlternativeBlock depth) kept altChain false
      else (kept, .ok true)

def addNewBlock (depth : Nat) (s : CachedNode t) (bl : Block) : CachedNode t × Except DbError Bool :=
  if s.node.base.haveBlock bl.id then (s, .ok false)
  else if bl.prevId ≠ s.node.base.tailId then handleAlternativeBlock rules depth s bl
  else
    let r := s.handleBlockToMainChain rules bl
    (r.1, .ok r.2)

end CachedNode

def Node.clear {t : ForkTable} (n : Node t) : Node t :=
  { n with base := { n.base with chain := [], alternatives := ∅, popped := n.base.popped ++ n.base.chain.reverse }
           forks := .init t }

def CachedNode.resetAndSetGenesisBlock {t : ForkTable} (rules : ChainRules) (depth : Nat) (s : CachedNode t) (bl : Block) :
    CachedNode t × Except DbError Bool :=
  addNewBlock rules depth { s.forget with node := s.node.clear } bl

inductive ChainAction
  /-- somebody asks for the difficulty: a miner, the RPC -/
  | ask
  | arrive (bl : Block) (rules : ChainRules) (depth : Nat) (pool : Pool)
  | pop (rules : ChainRules)
  | reset (genesis : Block) (rules : ChainRules) (depth : Nat)

def ChainAction.Known (ids : BlockIds) : ChainAction → Prop
  | .ask => True
  | .arrive bl _ _ _ => ids.Known bl
  | .pop _ => True
  | .reset genesis _ _ => ids.Known genesis

def CachedNode.act {t : ForkTable} (s : CachedNode t) : ChainAction → CachedNode t
  | .ask => s.getDifficultyForNextBlock.1
  | .arrive bl rules depth pool => (addNewBlock rules depth { s with node := s.node.withPool pool } bl).1
  | .pop rules => (s.popBlock rules).1
  | .reset genesis rules depth => (s.resetAndSetGenesisBlock rules depth genesis).1

def Node.act {t : ForkTable} (n : Node t) : ChainAction → Node t
  | .ask => n
  | .arrive bl rules depth pool => ((n.withPool pool).addNewBlock rules.fresh depth bl).1
  | .pop rules => (n.popBlock rules.fresh).1
  | .reset genesis rules depth => (n.clear.addNewBlock rules.fresh depth genesis).1

variable {t : ForkTable}

theorem ChainRules.popBlock_answering (rules : ChainRules) (difficulty : Chain → UInt64) (n : Node t) :
    n.popBlock (rules.answering difficulty) = n.popBlock rules.toNodeRules := rfl

theorem ChainRules.judgeAlternative_answering (rules : ChainRules) (difficulty : Chain → UInt64) (n : Node t)
    (bl : Block) : n.judgeAlternative (rules.answering difficulty) bl = n.judgeAlternative rules.toNodeRules bl := rfl

theorem Base.takeTxs_congr (r r' : BaseRules) (h : r.checkTxInputs = r'.checkTxInputs) (bl : Block) (ids : List Hash)
    (b : Base) (txs : List Transaction) : takeTxs r bl b txs ids = takeTxs r' bl b txs ids := by
  induction ids generalizing b txs with
  | nil => rfl
  | cons id ids ih =>
    unfold takeTxs
    simp only [h, ih]

theorem ChainRules.handleBlockToMainChain_answering (rules : ChainRules) {f g : Chain → UInt64} {n : Node t}
    (h : f n.base.chain = g n.base.chain) (bl : Block) :
    n.handleBlockToMainChain (rules.answering f) bl = n.handleBlockToMainChain (rules.answering g) bl := by
  have hbase : n.base.handleBlockToMainChain ((rules.answering f).base n.version) bl =
      n.base.handleBlockToMainChain ((rules.answering g).base n.version) bl := by
    generalize hf : (rules.answering f).base n.version = r
    generalize hg : (rules.answering g).base n.version = r'
    have hdifficulty : r.difficultyForNextBlock n.base.chain = r'.difficultyForNextBlock n.base.chain := by
      rw [← hf, ← hg]
      exact congrArg UInt64.toNat h
    have hheader : r.checkHeader n.base.chain bl = r'.checkHeader n.base.chain bl := by
      rw [← hf, ← hg]
      simp only [answering, h]
    have htake := Base.takeTxs_congr r r' (by rw [← hf, ← hg]; rfl) bl bl.txHashes n.base []
    have hreturn : Base.returnTxToPool r = Base.returnTxToPool r' := by
      rw [← hf, ← hg]
      rfl
    have hrest : r.checkBlockTimestamp = r'.checkBlockTimestamp ∧
        r.validateMinerTransaction = r'.validateMinerTransaction ∧ r.dbAddBlock = r'.dbAddBlock := by
      rw [← hf, ← hg]
      exact ⟨rfl, rfl, rfl⟩
    unfold Base.handleBlockToMainChain
    simp only [hdifficulty, hheader, htake, hreturn, hrest]
  unfold Node.handleBlockToMainChain
  rw [hbase]

theorem ChainRules.handleBlockToMainChain_unasked (rules : ChainRules) {n : Node t} {bl : Block}
    (h : ¬ (bl.prevId = n.base.tailId ∧ (rules.base n.version).checkBlockTimestamp n.base.chain bl = true))
    {r : NodeRules} (hr : ∀ v, (r.base v).checkBlockTimestamp = (rules.base v).checkBlockTimestamp) :
    n.handleBlockToMainChain r bl = (n, false) := by
  have hbase : n.base.handleBlockToMainChain (r.base n.version) bl = (n.base, false) := by
    grind [Base.handleBlockToMainChain]
  unfold Node.handleBlockToMainChain
  rw [hbase]
  rfl

namespace CachedNode
variable {t : ForkTable} {ids : BlockIds} {s : CachedNode t} {bl : Block}

structure Good (ids : BlockIds) (s : CachedNode t) : Prop where
  tree : s.node.Tree ids
  weighs : Weighs s.node.base.chain
  cache : s.cache.Valid ids s.node.base.chain
  calls : ∀ call ∈ s.calls, call.2 = forNextBlock (call.1.map (·.sample)) ∧ call.2 = (DifficultyCache.empty.query call.1).2

structure Refines (ids : BlockIds) {α : Type} (r : CachedNode t × α) (r' : Node t × α) : Prop where
  same : r' = (r.1.node, r.2)
  good : r.1.Good ids

theorem Refines.elim {α : Type} {r : CachedNode t × α} {r' : Node t × α} (h : Refines ids r r') :
    ∃ s v, r = (s, v) ∧ r' = (s.node, v) ∧ s.Good ids :=
  ⟨r.1, r.2, rfl, h.same, h.good⟩

theorem good_init (ids : BlockIds) (t : ForkTable) : (init t).Good ids :=
  ⟨Node.tree_init ids t, fun _ _ h => by simp [init, Node.init, Base.ofChain] at h, DifficultyCache.empty_valid ids _,
    fun _ h => by cases h⟩

theorem Good.forget (h : s.Good ids) : s.forget.Good ids := ⟨h.tree, h.weighs, h.cache.forget _, h.calls⟩

variable {n : Node t} {originalChain : List Block} {altChain : List AltIterator}

theorem Good.of_node (h : s.Good ids) (htree : n.Tree ids) (hchain : n.base.chain = s.node.base.chain) :
    Good ids { s with node := n } :=
  ⟨htree, by rw [hchain]; exact h.weighs, by rw [hchain]; exact h.cache, h.calls⟩

theorem Good.of_chain (h : s.Good ids) (htree : n.Tree ids) (hweighs : Weighs n.base.chain) :
    Good ids { s.forget with node := n } :=
  ⟨htree, hweighs, h.cache.forget _, h.calls⟩

theorem Good.query (h : s.Good ids) : Refines ids s.getDifficultyForNextBlock
    (s.node, forNextBlock (s.node.base.chain.map (·.sample))) := by
  obtain ⟨hanswer, hcache⟩ := h.cache.query h.tree.path h.weighs
  obtain ⟨hempty, -⟩ := (DifficultyCache.empty_valid ids s.node.base.chain).query h.tree.path h.weighs
  refine ⟨by rw [← hanswer]; rfl, h.tree, h.weighs, hcache, fun call hcall => ?_⟩
  rcases mem_append.1 hcall with hcall | hcall
  · exact h.calls call hcall
  · grind

theorem Good.popBlock (h : s.Good ids) (rules : ChainRules) :
    Refines ids (s.popBlock rules) (s.node.popBlock rules.fresh) ∧
    ∀ e, (s.popBlock rules).2 = some e → ids.Known e.block := by
  rcases eq_nil_or_concat' s.node.base.chain with hnil | ⟨chain, e, hsnoc⟩
  · have hpop : s.node.popBlock rules.toNodeRules = (s.node, none) := by
      unfold Node.popBlock Base.popBlock
      simp [hnil]
    have hcached : s.popBlock rules = (s.forget, none) := by
      show s.forget.onNode _ = _
      simp [onNode, CachedNode.forget, hpop]
    rw [hcached]
    exact ⟨⟨by rw [ChainRules.fresh, rules.popBlock_answering, hpop]; rfl, h.forget⟩, by simp⟩
  · obtain ⟨pool, hpop, -⟩ := Node.popBlock_snoc rules.toNodeRules hsnoc
    have hcached : s.popBlock rules =
        ({ s.forget with
            node := s.node.set chain (s.node.base.popped ++ [e]) pool s.node.base.invalidBlocks s.node.forks }, some e) := by
      show s.forget.onNode _ = _
      simp [onNode, CachedNode.forget, hpop]
    rw [hcached]
    refine ⟨⟨by rw [ChainRules.fresh, rules.popBlock_answering, hpop], ?_⟩, fun e' he' => ?_⟩
    · refine h.of_chain (h.tree.of_chain (h.tree.path_pre hsnoc)) ?_
      have hweighs := h.weighs
      rw [hsnoc] at hweighs
      exact hweighs.of_append
    · cases he'
      exact h.tree.path.known (List.mem_map_of_mem (by simp [hsnoc]))

theorem Good.handleFresh (h : s.Good ids) (rules : ChainRules) (hbl : ids.Known bl) :
    Good ids { s with node := (s.node.handleBlockToMainChain rules.fresh bl).1 } := by
  cases hverdict : s.node.base.accepted (rules.fresh.base s.node.version) bl with
  | none =>
    obtain ⟨pool, invalid, heq, -⟩ := Node.handleBlockToMainChain_of_refused hverdict
    rw [heq]
    exact h.of_node (h.tree.of_chain h.tree.path) rfl
  | some txs =>
    rw [Node.handleBlockToMainChain_of_accepted hverdict]
    exact ⟨h.tree.of_chain (h.tree.path_accepted hbl hverdict), h.weighs.entry rfl bl txs, h.cache.grow _, h.calls⟩

theorem Good.handleBlockToMainChain (h : s.Good ids) (rules : ChainRules) (hbl : ids.Known bl) :
    Refines ids (s.handleBlockToMainChain rules bl) (s.node.handleBlockToMainChain rules.fresh bl) := by
  unfold CachedNode.handleBlockToMainChain
  split
  · obtain ⟨s', d, heq, hfresh, hgood⟩ := h.query.elim
    obtain ⟨hnode, hd⟩ := Prod.mk.inj hfresh
    have hsame : s'.node.handleBlockToMainChain (rules.answering fun _ => d) bl =
        s'.node.handleBlockToMainChain rules.fresh bl :=
      rules.handleBlockToMainChain_answering (by rw [← hnode, ← hd]) bl
    rw [heq, hnode]
    unfold onNode
    dsimp only
    rw [hsame]
    exact ⟨rfl, hgood.handleFresh rules hbl⟩
  · rename_i hasks
    have hcached := rules.handleBlockToMainChain_unasked hasks (r := rules.toNodeRules) fun _ => rfl
    have hfresh := rules.handleBlockToMainChain_unasked hasks (r := rules.fresh) fun _ => rfl
    unfold onNode
    dsimp only
    rw [hcached, hfresh]
    exact ⟨rfl, h⟩

theorem Good.popN (h : s.Good ids) (rules : ChainRules) (k : Nat) :
    Node.popN rules.fresh k s.node = (popN rules k s).node ∧ (popN rules k s).Good ids := by
  induction k generalizing s with
  | zero => exact ⟨rfl, h⟩
  | succ k ih =>
    obtain ⟨s', v, heq, hnode, hgood⟩ := (h.popBlock rules).1.elim
    grind [CachedNode.popN, Node.popN]

theorem Good.popUntil (h : s.Good ids) (rules : ChainRules) (id : Hash) (k : Nat) :
    Refines ids (popUntil rules id k s) (Node.popUntil rules.fresh id k s.node) ∧
      ∀ b ∈ (popUntil rules id k s).2, ids.Known b := by
  induction k generalizing s with
  | zero => exact ⟨⟨rfl, h⟩, fun _ hb => by cases hb⟩
  | succ k ih =>
    obtain ⟨hpop, hknown⟩ := h.popBlock rules
    obtain ⟨s', v, heq, hnode, hgood⟩ := hpop.elim
    unfold CachedNode.popUntil Node.popUntil
    split
    · exact ⟨⟨rfl, h⟩, fun _ hb => by cases hb⟩
    · rw [heq, hnode]
      cases v with
      | none => exact ⟨⟨rfl, hgood⟩, fun _ hb => by cases hb⟩
      | some e =>
        obtain ⟨hrest, hrestKnown⟩ := ih hgood
        refine ⟨⟨by simp only [hrest.same], hrest.good⟩, fun b hb => ?_⟩
        grind

theorem Good.connectAll {α : Type} {xs : List α} (h : s.Good ids) (rules : ChainRules) (block : α → Block)
    (hxs : ∀ x ∈ xs, ids.Known (block x)) :
    Refines ids (connectAll rules block s xs) (Node.connectAll rules.fresh block s.node xs) := by
  induction xs generalizing s with
  | nil => exact ⟨rfl, h⟩
  | cons x xs ih =>
    obtain ⟨s', v, heq, hnode, hgood⟩ := (h.handleBlockToMainChain rules (hxs x mem_cons_self)).elim
    unfold CachedNode.connectAll Node.connectAll
    rw [heq, hnode]
    cases v with
    | true => exact ih hgood fun y hy => hxs y (mem_cons_of_mem _ hy)
    | false => exact ⟨rfl, hgood⟩

theorem Good.reorganize (h : s.Good ids) (height : Nat) : Refines ids (s.reorganize height) (s.node.reorganize height) :=
  ⟨rfl, h.of_node ⟨h.tree.path, h.tree.alternatives⟩ rfl⟩

theorem Good.reconnect (h : s.Good ids) (rules : ChainRules)
    (hchain : ∀ b ∈ originalChain, ids.Known b) (height : Nat) : Refines ids (reconnect rules s originalChain height)
      (Node.reconnect rules.fresh s.node originalChain height) := by
  obtain ⟨s', left, heq, hnode, hgood⟩ := (h.connectAll rules id hchain).elim
  unfold CachedNode.reconnect Node.reconnect
  rw [heq, hnode]
  cases left with
  | cons x left => exact ⟨rfl, hgood⟩
  | nil =>
    obtain ⟨s'', v, heq', hnode', hgood'⟩ := (hgood.reorganize height).elim
    dsimp only
    rw [heq', hnode']
    cases v <;> exact ⟨rfl, hgood'⟩

theorem Good.rollback (h : s.Good ids) (rules : ChainRules)
    (hchain : ∀ b ∈ originalChain, ids.Known b) (height : Nat) : Refines ids (rollback rules s originalChain height)
      (Node.rollback rules.fresh s.node originalChain height) := by
  unfold CachedNode.rollback Node.rollback
  split
  · exact ⟨rfl, h⟩
  · obtain ⟨hpopped, hgood⟩ := h.forget.popN rules (s.node.base.chain.length - height)
    obtain ⟨s', v, heq, hnode, hgood'⟩ := (hgood.reorganize height).elim
    rw [show s.forget.node = s.node from rfl] at hpopped
    rw [hpopped, heq, hnode]
    cases v with
    | error e => exact ⟨rfl, hgood'⟩
    | ok _ => exact hgood'.reconnect rules hchain height

def PushRefines (ids : BlockIds) (push : CachedNode t → Block → CachedNode t × Except DbError Bool)
    (push' : Node t → Block → Node t × Except DbError Bool) : Prop :=
  ∀ s bl, s.Good ids → ids.Known bl → Refines ids (push s bl) (push' s.node bl)

variable {push : CachedNode t → Block → CachedNode t × Except DbError Bool}
  {push' : Node t → Block → Node t × Except DbError Bool}

theorem Good.pushAll (hpush : PushRefines ids push push') {blocks : List Block} (h : s.Good ids)
    (hblocks : ∀ b ∈ blocks, ids.Known b) : Refines ids (pushAll push s blocks) (Node.pushAll push' s.node blocks) := by
  induction blocks generalizing s with
  | nil => exact ⟨rfl, h⟩
  | cons bl blocks ih =>
    obtain ⟨s', v, heq, hnode, hgood⟩ := (hpush s bl h (hblocks bl mem_cons_self)).elim
    unfold CachedNode.pushAll Node.pushAll
    rw [heq, hnode]
    cases v with
    | error e => exact ⟨rfl, hgood⟩
    | ok _ => exact ih hgood fun b hb => hblocks b (mem_cons_of_mem _ hb)

theorem Good.foldl_erase {f : Node t → AltIterator → Node t} (h : s.Good ids)
    (hchain : ∀ n it, (f n it).base.chain = n.base.chain)
    (halts : ∀ n it, (f n it).base.alternatives = n.base.alternatives.erase it.info.block.id) (its : List AltIterator) :
    Good ids { s with node := its.foldl f s.node } := by
  have hsame : (its.foldl f s.node).base.chain = s.node.base.chain :=
    @Node.foldl_erase_eq t f _ (fun n => n.base.chain) hchain its s.node
  refine h.of_node ⟨?_, fun id e he => ?_⟩ hsame
  · unfold Node.blocks
    rw [hsame]
    exact h.tree.path
  · rw [Node.lookup_foldl_erase halts] at he
    split at he
    · cases he
    · exact h.tree.alternatives id e he

theorem Refines.finishSwitch {r : CachedNode t × Except DbError Unit} {r' : Node t × Except DbError Unit}
    (h : Refines ids r r') (altChain : List AltIterator) (splitHeight : Nat) :
    Refines ids (finishSwitch altChain splitHeight r) (Node.finishSwitch altChain splitHeight r') := by
  obtain ⟨s, v, rfl, rfl, hgood⟩ := h.elim
  cases v with
  | error e => exact ⟨rfl, hgood⟩
  | ok _ =>
    have herased := hgood.foldl_erase (f := Node.eraseAlternative) (fun _ _ => rfl) (fun _ _ => rfl) altChain
    obtain ⟨s', v, heq, hnode, hgood'⟩ := (herased.reorganize splitHeight).elim
    unfold CachedNode.finishSwitch Node.finishSwitch
    dsimp only at heq hnode ⊢
    rw [heq, hnode]
    cases v <;> exact ⟨rfl, hgood'⟩

theorem Refines.abandonSwitch {r : CachedNode t × Except DbError Bool} {r' : Node t × Except DbError Bool}
    (h : Refines ids r r') (failed : List AltIterator) :
    Refines ids (abandonSwitch failed r) (Node.abandonSwitch failed r') := by
  obtain ⟨s, v, rfl, rfl, hgood⟩ := h.elim
  cases v with
  | error e => exact ⟨rfl, hgood⟩
  | ok _ => exact ⟨rfl, hgood.foldl_erase (f := Node.invalidate) (fun _ _ => rfl) (fun _ _ => rfl) failed⟩

theorem Good.connectAlternative (hpush : PushRefines ids push push') (h : s.Good ids) (rules : ChainRules)
    {disconnected : List Block} (hdisconnected : ∀ b ∈ disconnected, ids.Known b)
    (hknown : ∀ it ∈ altChain, ids.Known it.info.block) (discard : Bool) :
    Refines ids (connectAlternative rules push s disconnected altChain discard)
      (Node.connectAlternative rules.fresh push' s.node disconnected altChain discard) := by
  obtain ⟨s', left, heq, hnode, hgood⟩ :=
    (h.connectAll rules (fun it : AltIterator => it.info.block) hknown).elim
  unfold CachedNode.connectAlternative Node.connectAlternative
  dsimp only
  rw [heq, hnode]
  cases left with
  | nil =>
    dsimp only
    refine Refines.finishSwitch ?_ altChain _
    cases discard with
    | true => exact ⟨rfl, hgood⟩
    | false => exact hgood.pushAll hpush hdisconnected
  | cons it left => exact (hgood.rollback rules hdisconnected _).abandonSwitch _

theorem Good.switchToAlternative (hpush : PushRefines ids push push') (h : s.Good ids) (rules : ChainRules)
    (hknown : ∀ it ∈ altChain, ids.Known it.info.block) (discard : Bool) :
    Refines ids (switchToAlternative rules push s altChain discard)
      (Node.switchToAlternative rules.fresh push' s.node altChain discard) := by
  have hlogged : Good ids { s.forget with node := s.node.logSwitch discard } :=
    h.of_chain ⟨h.tree.path, h.tree.alternatives⟩ h.weighs
  unfold CachedNode.switchToAlternative Node.switchToAlternative
  dsimp only
  cases altChain with
  | nil => exact ⟨rfl, hlogged⟩
  | cons front altChain =>
    dsimp only
    split
    · exact ⟨rfl, hlogged⟩
    · obtain ⟨hpopped, hdisconnected⟩ := hlogged.popUntil rules front.info.block.prevId
        (s.node.logSwitch discard).base.chain.length
      rw [hpopped.same]
      exact hpopped.good.connectAlternative hpush rules hdisconnected hknown discard

theorem Good.known_altChain (h : s.Good ids) (bl : Block) {it : AltIterator}
    (hit : it ∈ (s.node.altChain bl).map (⟨·, s.node.epoch⟩)) : ids.Known it.info.block := by
  obtain ⟨e, he, rfl⟩ := List.mem_map.1 hit
  exact (h.tree.alternatives _ e (altChainTo_mem h.tree.alternatives _ _ he)).2.1

theorem Good.insertAlternative (h : s.Good ids) (rules : NodeRules) {bei : BlockExtendedInfo} {pre post : Chain}
    (hbl : ids.Known bl) (hangs : Node.Hangs ids rules s.node bl bei pre post) :
    Good ids { s with node := s.node.insertAlternative rules bei } := by
  refine h.of_node (h.tree.insertAlternative ?_ ?_) (by rw [Node.insertAlternative_base])
  · rw [hangs.block]
    exact hbl
  · rw [hangs.block]
    exact hangs.height

theorem handleAlternativeBlock_refines (ids : BlockIds) (t : ForkTable) (rules : ChainRules) (depth : Nat) :
    PushRefines ids (handleAlternativeBlock (t := t) rules depth) (Node.handleAlternativeBlock rules.fresh depth) := by
  induction depth with
  | zero => exact fun s bl h _ => ⟨rfl, h⟩
  | succ depth ih =>
    intro s bl h hbl
    have hsame : s.node.judgeAlternative rules.fresh bl = s.node.judgeAlternative rules.toNodeRules bl :=
      rules.judgeAlternative_answering _ _ _
    unfold CachedNode.handleAlternativeBlock Node.handleAlternativeBlock
    rw [hsame]
    dsimp only
    rw [show s.forget.node = s.node from rfl]
    cases hjudge : s.node.judgeAlternative rules.toNodeRules bl with
    | refused => exact ⟨rfl, h.forget⟩
    | orphaned => exact ⟨rfl, h.forget⟩
    | accepted bei isCheckpoint =>
      obtain ⟨⟨pre, post, hangs⟩, -⟩ := Node.judgeAlternative_accepted h.tree hbl hjudge
      have hkept := h.forget.insertAlternative rules.toNodeRules hbl hangs
      have hknown : ∀ it ∈ (s.node.altChain bl).map (AltIterator.mk · s.node.epoch) ++
          [⟨bei, (s.node.insertAlternative rules.toNodeRules bei).epoch⟩], ids.Known it.info.block := by
        intro it hit
        rcases mem_append.1 hit with hit | hit
        · exact h.known_altChain bl hit
        · rw [mem_singleton.1 hit, hangs.block]
          exact hbl
      dsimp only
      cases isCheckpoint with
      | true => exact hkept.switchToAlternative ih rules hknown true
      | false =>
        by_cases hheavier : s.node.base.topDifficulty < bei.cumulativeDifficulty
        · simp only [hheavier, if_true, Bool.false_eq_true, if_false]
          exact hkept.switchToAlternative ih rules hknown false
        · simp only [hheavier, if_false, Bool.false_eq_true]
          exact ⟨rfl, hkept⟩

theorem Good.addNewBlock (h : s.Good ids) (rules : ChainRules) (depth : Nat) (hbl : ids.Known bl) :
    Refines ids (addNewBlock rules depth s bl) (s.node.addNewBlock rules.fresh depth bl) := by
  unfold CachedNode.addNewBlock Node.addNewBlock
  split
  · exact ⟨rfl, h⟩
  · split
    · exact handleAlternativeBlock_refines ids t rules depth s bl h hbl
    · obtain ⟨s', v, heq, hnode, hgood⟩ := (h.handleBlockToMainChain rules hbl).elim
      rw [heq, hnode]
      exact ⟨rfl, hgood⟩

theorem Good.clear (h : s.Good ids) : Good ids { s.forget with node := s.node.clear } := by
  refine h.of_chain ⟨HashTree.Naming.path_nil, fun id e he => ?_⟩ fun i e he => ?_
  · exact absurd he (by simp [Node.clear])
  · simp [Node.clear] at he

def Mirrors (ids : BlockIds) (s : CachedNode t) (n : Node t) : Prop := n = s.node ∧ s.Good ids

theorem Mirrors.act (h : Mirrors ids s n) {a : ChainAction} (ha : a.Known ids) : Mirrors ids (s.act a) (n.act a) := by
  obtain ⟨rfl, h⟩ := h
  cases a with
  | ask => exact ⟨rfl, h.query.good⟩
  | arrive bl rules depth pool =>
    have hpooled : Good ids { s with node := s.node.withPool pool } := h.of_node ⟨h.tree.path, h.tree.alternatives⟩ rfl
    have hadded := hpooled.addNewBlock rules depth ha
    exact ⟨congrArg Prod.fst hadded.same, hadded.good⟩
  | pop rules =>
    obtain ⟨hpopped, -⟩ := h.popBlock rules
    exact ⟨congrArg Prod.fst hpopped.same, hpopped.good⟩
  | reset genesis rules depth =>
    have hadded := h.clear.addNewBlock rules depth ha
    exact ⟨congrArg Prod.fst hadded.same, hadded.good⟩

/-- **The caches are transparent**, in every run of blocks, switches, pops and resets. -/
theorem difficulty_cache_transparent (ids : BlockIds) (t : ForkTable) (actions : List ChainAction)
    (hknown : ∀ a ∈ actions, a.Known ids) :
    (∀ call ∈ (run act (init t) actions).calls, call.2 = forNextBlock (call.1.map (·.sample)) ∧
      call.2 = (DifficultyCache.empty.query call.1).2) ∧
    (run act (init t) actions).node = run Node.act (Node.init t) actions := by
  have hmirrors : Mirrors ids (run act (init t) actions) (run Node.act (Node.init t) actions) :=
    run_simulation (fun _ _ _ h ha => h.act ha) hknown ⟨rfl, good_init ids t⟩
  obtain ⟨hnode, hgood⟩ := hmirrors
  exact ⟨hgood.calls, hnode.symm⟩

section Example
open Node (genesis forkBlocks forkIds openNode)

def openRules : ChainRules := { openNode with checkHash := fun _ _ _ => true }

def forkActions : List ChainAction :=
  .ask :: .reset genesis openRules 2 ::
    (forkBlocks.tail.flatMap fun bl => [.ask, .arrive bl openRules 2 ∅]) ++ [.ask, .pop openRules, .ask]

theorem forkActions_transparent :
    (run act (init .mainnet) forkActions).calls.map (fun call => (call.1.length, call.2)) =
      [(0, 1), (0, 1), (1, 1), (1, 1), (2, 1), (2, 1), (1, 1), (2, 1), (3, 60), (2, 1)] ∧
    (∀ call ∈ (run act (init .mainnet) forkActions).calls, call.2 = forNextBlock (call.1.map (·.sample)) ∧
      call.2 = (DifficultyCache.empty.query call.1).2) ∧
    (run act (init .mainnet) forkActions).node = run Node.act (Node.init .mainnet) forkActions := by
  have hblocks : ∀ bl ∈ forkBlocks, forkIds.Known bl := by
    unfold HashTree.Naming.Known
    decide +kernel
  refine ⟨by decide +kernel, difficulty_cache_transparent forkIds .mainnet forkActions fun a ha => ?_⟩
  simp only [forkActions, mem_append, mem_cons, mem_flatMap, not_mem_nil, or_false] at ha
  rcases ha with (rfl | rfl | ⟨bl, hbl, rfl | rfl⟩) | rfl | rfl | rfl
  · trivial
  · exact hblocks genesis (by decide +kernel)
  · trivial
  · exact hblocks bl (mem_of_mem_tail hbl)
  · trivial
  · trivial
  · trivial

end Example

end CachedNode

end Electronero
