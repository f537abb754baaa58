import Electronero.Core.Node
import Electronero.Lib.HashTree
/-!
# The block tree of a node

A `BlockIds` is what `get_block_hash` is taken for: equal hashes belong to equal blocks, and cover the parent's.
-/
namespace Electronero
open Text FiniteMap List

abbrev BlockIds := HashTree.Naming Block.id Block.prevId (default : Hash)

theorem Base.tailId_eq (ids : BlockIds) (b : Base) : b.tailId = ids.tip (b.chain.map (·.block)) := by
  unfold Base.tailId HashTree.Naming.tip
  rw [getLast?_map, Option.map_map]
  rfl

def parentOf (altChain : List BlockExtendedInfo) (id : Hash) : Hash := (altChain.head?.map (·.block.prevId)).getD id

theorem parentOf_snoc (altChain : List BlockExtendedInfo) (e : BlockExtendedInfo) (id : Hash) :
    parentOf (altChain ++ [e]) id = parentOf altChain e.block.prevId := by
  cases altChain <;> rfl

section Alternatives
variable (ids : BlockIds)

def KnownAlternatives (alts : UMap Hash BlockExtendedInfo) : Prop :=
  ∀ id e, alts.lookup id = some e → e.block.id = id ∧ ids.Known e.block ∧ e.height = ids.depth e.block.prevId

variable {ids} {alts : UMap Hash BlockExtendedInfo}

variable {e : BlockExtendedInfo}

theorem KnownAlternatives.insert (h : KnownAlternatives ids alts) (he : ids.Known e.block)
    (hheight : e.height = ids.depth e.block.prevId) : KnownAlternatives ids (alts.insert e.block.id e) := by
  intro id e' h'
  rw [lookup_insert_ite] at h'
  split at h'
  · grind
  · exact h id e' h'

theorem altChainTo_mem (h : KnownAlternatives ids alts) (k : Nat) (id : Hash)
    (he : e ∈ Base.altChainTo alts k id) : alts.lookup e.block.id = some e := by
  induction k generalizing id with
  | zero => cases he
  | succ k ih =>
    unfold Base.altChainTo at he
    split at he
    · cases he
    · rename_i e' hlookup
      rcases mem_append.1 he with he | he
      · exact ih _ he
      · rw [mem_singleton.1 he, (h id e' hlookup).1]
        exact hlookup

theorem altChainTo_path (h : KnownAlternatives ids alts) {c : List Block} (hc : ids.Path c) (k : Nat) (id : Hash)
    (hstart : ids.tip c = parentOf (Base.altChainTo alts k id) id) :
    ids.Path (c ++ (Base.altChainTo alts k id).map (·.block)) ∧
      ids.tip (c ++ (Base.altChainTo alts k id).map (·.block)) = id := by
  induction k generalizing id with
  | zero => simpa [Base.altChainTo] using ⟨hc, hstart⟩
  | succ k ih =>
    unfold Base.altChainTo at hstart ⊢
    cases hlookup : alts.lookup id with
    | none =>
      rw [hlookup] at hstart
      simpa using ⟨hc, hstart⟩
    | some e =>
      rw [hlookup] at hstart
      simp only [parentOf_snoc] at hstart
      obtain ⟨hid, hknown, -⟩ := h id e hlookup
      grind [HashTree.Naming.path_snoc, HashTree.Naming.tip_snoc]

theorem getLast?_altChainTo (k : Nat) (id : Hash)
    (h : (Base.altChainTo alts k id).getLast? = some e) : alts.lookup id = some e := by
  cases k with
  | zero => cases h
  | succ k => grind [Base.altChainTo]

end Alternatives

namespace Node
variable {t : ForkTable}

structure Tree (ids : BlockIds) (n : Node t) : Prop where
  path : ids.Path n.blocks
  alternatives : KnownAlternatives ids n.base.alternatives

variable {ids : BlockIds} {rules : NodeRules} {n : Node t} {bl : Block}

theorem tree_init (ids : BlockIds) (t : ForkTable) : Tree ids (init t) := by
  refine ⟨HashTree.Naming.path_nil, fun id e h => ?_⟩
  exact absurd h (by simp [init, Base.ofChain])

structure Placed (ids : BlockIds) (n : Node t) (bl : Block) (pre post : Chain) : Prop where
  chain : n.base.chain = pre ++ post
  nonempty : pre ≠ []
  tip : ids.tip (pre.map (·.block)) = parentOf (n.altChain bl) bl.prevId
  path : ids.Path (pre.map (·.block) ++ (n.altChain bl).map (·.block) ++ [bl])

structure Hangs (ids : BlockIds) (rules : NodeRules) (n : Node t) (bl : Block) (bei : BlockExtendedInfo)
    (pre post : Chain) : Prop extends Placed ids n bl pre post where
  block : bei.block = bl
  height : bei.height = ids.depth bl.prevId
  new : n.base.alternatives.lookup bl.id = none
  version : n.forks.hardFork.checkForHeight bl bl.height = true
  difficulty : bei = n.base.extendedInfo (n.altChain bl) bl
    ((rules.base n.version).alternativeDifficulty n.base.chain (n.altChain bl) bl)
  nonzero : (rules.base n.version).alternativeDifficulty n.base.chain (n.altChain bl) bl ≠ 0

variable {pre post : Chain} {i : Nat} {bei : BlockExtendedInfo} {cp : Bool}

theorem Placed.blocks_eq (h : Placed ids n bl pre post) : n.blocks = pre.map (·.block) ++ post.map (·.block) := by
  rw [blocks, h.chain, map_append]

theorem Placed.getElem?_post (h : Placed ids n bl pre post) {b : Block}
    (hi : (post.map (·.block))[i]? = some b) : n.blocks[pre.length + i]? = some b := by
  rw [h.blocks_eq, getElem?_append_right (by simp)]
  simpa using hi

theorem Placed.pathPre (h : Placed ids n bl pre post) : ids.Path (pre.map (·.block)) := by
  have hpath := h.path
  rw [append_assoc] at hpath
  exact hpath.of_append

theorem Placed.depth_parent (h : Placed ids n bl pre post) :
    ids.depth (parentOf (n.altChain bl) bl.prevId) = pre.length := by
  rw [← h.tip, h.pathPre.depth_tip, length_map]

theorem Placed.unique {pre' post' : Chain} (h : Placed ids n bl pre post) (h' : Placed ids n bl pre' post') :
    pre = pre' ∧ post = post' :=
  append_inj (h.chain.symm.trans h'.chain) (h.depth_parent.symm.trans h'.depth_parent)

theorem blockExists_parent {altChain : List BlockExtendedInfo} (h : n.base.connectsToMain altChain bl = true) :
    n.base.blockExists (parentOf altChain bl.prevId) = true := by
  cases altChain with
  | nil => exact h
  | cons front rest =>
    simp only [Base.connectsToMain, Bool.and_eq_true] at h
    exact h.1.2

theorem getElem?_of_id (htree : n.Tree ids) {e : StoredBlock} (h : n.base.chain[i]? = some e) :
    ids.depth e.block.id = i + 1 :=
  htree.path.depth (b := e.block) (by simp [blocks, h])

theorem extendedInfo_height (htree : n.Tree ids) (hexists : n.base.blockExists (parentOf (n.altChain bl) bl.prevId) = true)
    (difficulty : Nat) : (n.base.extendedInfo (n.altChain bl) bl difficulty).height = ids.depth bl.prevId := by
  unfold Base.extendedInfo
  cases hlast : (n.altChain bl).getLast? with
  | some prev =>
    obtain ⟨hid, hknown, hheight⟩ := htree.alternatives _ _ (getLast?_altChainTo _ _ hlast)
    simp only
    rw [← hid, hknown.2, hheight]
  | none =>
    have hnil : n.altChain bl = [] := by simpa using hlast
    rw [hnil] at hexists
    have hfound : n.base.chain.findIdx (·.block.id == bl.prevId) < n.base.chain.length :=
      findIdx_lt_length.2 (List.any_eq_true.1 hexists)
    have hid : (n.base.chain[n.base.chain.findIdx (·.block.id == bl.prevId)]).block.id = bl.prevId := by grind
    have hdepth := getElem?_of_id htree (getElem?_eq_getElem hfound)
    rw [hid] at hdepth
    exact hdepth.symm

theorem placed_of_connectsToMain (htree : n.Tree ids) (hbl : ids.Known bl)
    (h : n.base.connectsToMain (n.altChain bl) bl = true) : ∃ pre post, Placed ids n bl pre post := by
  obtain ⟨pre, post, hchain, hne, htail, -⟩ := exists_split (blockExists_parent h)
  have htip : ids.tip (pre.map (·.block)) = parentOf (n.altChain bl) bl.prevId := by
    rw [← htail, Base.tailId_eq ids]
    rfl
  have hpre : ids.Path (pre.map (·.block)) := by
    have hpath := htree.path
    rw [blocks, hchain, map_append] at hpath
    exact hpath.of_append
  obtain ⟨hpath, hend⟩ := altChainTo_path htree.alternatives hpre _ _ htip
  exact ⟨pre, post, hchain, hne, htip, HashTree.Naming.path_snoc.2 ⟨hpath, hbl, hend.symm⟩⟩

structure Passed (rules : NodeRules) (n : Node t) (bl : Block) (bei : BlockExtendedInfo) (isCheckpoint : Bool) : Prop where
  version : n.forks.hardFork.checkForHeight bl bl.height = true
  connects : n.base.connectsToMain (n.altChain bl) bl = true
  difficulty : bei = n.base.extendedInfo (n.altChain bl) bl
    ((rules.base n.version).alternativeDifficulty n.base.chain (n.altChain bl) bl)
  nonzero : (rules.base n.version).alternativeDifficulty n.base.chain (n.altChain bl) bl ≠ 0
  checkpoint : (rules.base n.version).checkpoint bei.height bl.id = some isCheckpoint
  new : n.base.alternatives.lookup bl.id = none
  allowed : (rules.base n.version).alternativeAllowed n.base.chain bl = true
  proof : (rules.base n.version).alternativeProof n.base.chain bl bei.height
    ((rules.base n.version).alternativeDifficulty n.base.chain (n.altChain bl) bl) = true

theorem judgeAlternative_passed (h : judgeAlternative rules n bl = .accepted bei cp) : Passed rules n bl bei cp := by
  unfold judgeAlternative at h
  dsimp only at h
  split at h
  · cases h
  rename_i hallowed
  split at h
  · cases h
  rename_i hversion
  split at h
  · cases h
  split at h
  · cases h
  rename_i hconnects
  split at h
  · cases h
  split at h
  · cases h
  rename_i hcheckpoint
  split at h
  · cases h
  rename_i hnonzero
  split at h
  · cases h
  rename_i hproof
  split at h
  · cases h
  rename_i hnew
  cases h
  simp only [Bool.or_eq_true, decide_eq_true_eq, Bool.not_eq_true', not_or, Bool.not_eq_false] at hallowed
  exact ⟨by simpa using hversion, by simpa using hconnects, rfl, hnonzero, hcheckpoint, by simpa using hnew, hallowed.2,
    by simpa using hproof⟩

theorem Passed.block (h : Passed rules n bl bei cp) : bei.block = bl := by
  rw [h.difficulty]
  unfold Base.extendedInfo
  split <;> rfl

theorem judgeAlternative_accepted (htree : n.Tree ids) (hbl : ids.Known bl)
    (h : judgeAlternative rules n bl = .accepted bei cp) :
    (∃ pre post, Hangs ids rules n bl bei pre post) ∧ (rules.base n.version).checkpoint bei.height bl.id = some cp := by
  have hpassed := judgeAlternative_passed h
  obtain ⟨pre, post, hplaced⟩ := placed_of_connectsToMain htree hbl hpassed.connects
  have hheight := extendedInfo_height htree (blockExists_parent hpassed.connects)
    ((rules.base n.version).alternativeDifficulty n.base.chain (n.altChain bl) bl)
  rw [← hpassed.difficulty] at hheight
  exact ⟨⟨pre, post, hplaced, hpassed.block, hheight, hpassed.new, hpassed.version, hpassed.difficulty, hpassed.nonzero⟩,
    hpassed.checkpoint⟩

theorem Tree.of_chain (htree : n.Tree ids) {chain popped : Chain} {pool : Pool} {invalid : Finset Hash}
    {forks : ForkState t} (h : ids.Path (chain.map (·.block))) : (n.set chain popped pool invalid forks).Tree ids :=
  ⟨h, htree.alternatives⟩

theorem Tree.path_pre (htree : n.Tree ids) (h : n.base.chain = pre ++ post) : ids.Path (pre.map (·.block)) := by
  have hpath := htree.path
  rw [blocks, h, map_append] at hpath
  exact hpath.of_append

theorem Tree.path_accepted (htree : n.Tree ids) (hbl : ids.Known bl) {r : BaseRules} {txs : List Transaction}
    (h : n.base.accepted r bl = some txs) : ids.Path ((n.base.chain ++ [n.base.entry r bl txs]).map (·.block)) := by
  rw [map_append]
  exact HashTree.Naming.path_snoc.2 ⟨htree.path, hbl, (Base.accepted_prevId h).trans (Base.tailId_eq ids n.base)⟩

theorem Tree.insertAlternative (htree : n.Tree ids) (hknown : ids.Known bei.block)
    (hheight : bei.height = ids.depth bei.block.prevId) : (n.insertAlternative rules bei).Tree ids := by
  unfold Node.insertAlternative
  dsimp only
  split
  · exact ⟨htree.path, htree.alternatives.insert hknown hheight⟩
  · exact ⟨htree.path, htree.alternatives.insert hknown hheight⟩

@[simp] theorem insertAlternative_base (n : Node t) (bei : BlockExtendedInfo) : (n.insertAlternative rules bei).base =
      { n.base with alternatives := n.base.alternatives.insert bei.block.id bei } := by
  unfold Node.insertAlternative
  dsimp only
  split <;> rfl

@[simp] theorem insertAlternative_forks (n : Node t) (bei : BlockExtendedInfo) :
    (n.insertAlternative rules bei).forks = n.forks := by
  unfold Node.insertAlternative
  dsimp only
  split <;> rfl

theorem lookup_foldl_erase {f : Node t → AltIterator → Node t}
    (hf : ∀ n it, (f n it).base.alternatives = n.base.alternatives.erase it.info.block.id) (its : List AltIterator)
    (n : Node t) (id : Hash) : (its.foldl f n).base.alternatives.lookup id =
      if id ∈ its.map (·.info.block.id) then none else n.base.alternatives.lookup id := by
  induction its generalizing n with
  | nil => rfl
  | cons it its ih =>
    rw [foldl_cons, ih, hf]
    by_cases hid : id = it.info.block.id
    · subst hid
      simp
    · simp [hid, Finmap.lookup_erase_ne hid]

theorem foldl_erase_eq {f : Node t → AltIterator → Node t} {β : Type} {get : Node t → β}
    (hf : ∀ n it, get (f n it) = get n) (its : List AltIterator) (n : Node t) : get (its.foldl f n) = get n := by
  induction its generalizing n with
  | nil => rfl
  | cons it its ih => exact (ih (f n it)).trans (hf n it)

end Node

end Electronero
