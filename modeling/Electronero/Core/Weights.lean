import Electronero.Core.Versions
import Electronero.Core.DifficultyAgreement
/-!
# The weight of a chain

`weights` are the cumulative difficulties a node stores when it gets the blocks of a path one after the other. A node is
`Weighed` if all it has are those.
-/
namespace Electronero
open Text FiniteMap Machine List

namespace Difficulty

def top (path : List Sample) : UInt64 := (path.getLast?.map (·.cumulativeDifficulty)).getD 0

def extend (path : List Sample) (timestamp : UInt64) : List Sample :=
  path ++ [⟨timestamp, top path + forNextBlock path⟩]

def weigh (timestamps : List UInt64) : List Sample := timestamps.foldl extend []

theorem weigh_snoc (timestamps : List UInt64) (timestamp : UInt64) :
    weigh (timestamps ++ [timestamp]) = extend (weigh timestamps) timestamp := by
  simp [weigh]

theorem top_extend (path : List Sample) (timestamp : UInt64) : top (extend path timestamp) = top path + forNextBlock path := by
  simp [top, extend]

@[simp] theorem length_weigh (timestamps : List UInt64) : (weigh timestamps).length = timestamps.length := by
  induction timestamps using List.reverseRecOn with
  | nil => rfl
  | append_singleton timestamps timestamp ih => rw [weigh_snoc, extend, length_append, ih, length_append]; rfl

end Difficulty

open Difficulty

def weights (blocks : List Block) : List Sample := weigh (blocks.map (·.timestamp))

def weightOf (blocks : List Block) : Nat := (top (weights blocks)).toNat

theorem weights_snoc (blocks : List Block) (bl : Block) : weights (blocks ++ [bl]) = extend (weights blocks) bl.timestamp := by
  rw [weights, map_append, map_singleton, weigh_snoc]
  rfl

theorem weightOf_snoc (blocks : List Block) (bl : Block) :
    weightOf (blocks ++ [bl]) = (weightOf blocks + (forNextBlock (weights blocks)).toNat) % UInt64.size := by
  rw [weightOf, weights_snoc, top_extend, UInt64.toNat_add]
  rfl

theorem samples_eq {α : Type} (block : α → Block) (cumulative : α → Nat) {l : List α}
    (h : ∀ i x, l[i]? = some x → cumulative x = weightOf ((l.map block).take (i + 1))) :
    l.map (fun x => (⟨(block x).timestamp, (cumulative x).toUInt64⟩ : Sample)) = weights (l.map block) := by
  induction l using List.reverseRecOn with
  | nil => rfl
  | append_singleton l x ih =>
    have hl := ih fun i y hy => by
      have hi := (List.getElem?_eq_some_iff.1 hy).1
      have hfull := h i y (by rw [getElem?_append_left hi, hy])
      rwa [map_append, take_append_of_le_length (by rw [length_map]; exact hi)] at hfull
    have hx := h l.length x (by simp)
    rw [take_of_length_le (by simp), map_append, map_singleton] at hx
    have hweight : (cumulative x).toUInt64 = top (weights (l.map block)) + forNextBlock (weights (l.map block)) := by
      rw [hx, weightOf, weights_snoc, top_extend]
      exact UInt64.ofNat_toNat
    rw [map_append, map_append, map_singleton, map_singleton, hl, hweight, weights_snoc]
    rfl

def Weighs (chain : Chain) : Prop :=
  ∀ i e, chain[i]? = some e → e.cumulativeDifficulty = weightOf ((chain.map (·.block)).take (i + 1))

theorem Weighs.samples {chain : Chain} (h : Weighs chain) : chain.map (·.sample) = weights (chain.map (·.block)) :=
  samples_eq StoredBlock.block StoredBlock.cumulativeDifficulty h

theorem Weighs.topDifficulty {b : Base} (h : Weighs b.chain) : b.topDifficulty = weightOf (b.chain.map (·.block)) := by
  unfold Base.topDifficulty
  rcases eq_nil_or_concat' b.chain with hnil | ⟨chain, e, hsnoc⟩
  · rw [hnil]
    rfl
  · have he := h chain.length e (by simp [hsnoc])
    grind

variable {c : Chain} {ids : BlockIds}

theorem Weighs.of_append {d : Chain} (h : Weighs (c ++ d)) : Weighs c := by
  intro i e he
  have hi := (List.getElem?_eq_some_iff.1 he).1
  have hfull := h i e (by rw [getElem?_append_left hi, he])
  grind

def NodeRules.Mainnet (rules : NodeRules) : Prop :=
  ∀ v, (rules.base v).difficultyForNextBlock = getDifficultyForNextBlock ∧
    (rules.base v).alternativeDifficulty = getNextDifficultyForAlternativeChain

variable {rules : NodeRules}

theorem Weighs.entry {r : BaseRules} {b : Base} (h : Weighs b.chain)
    (hr : r.difficultyForNextBlock b.chain = getDifficultyForNextBlock b.chain) (bl : Block) (txs : List Transaction) :
    Weighs (b.chain ++ [b.entry r bl txs]) := by
  intro i e he
  rcases Nat.lt_trichotomy i b.chain.length with hi | rfl | hi
  · rw [getElem?_append_left hi] at he
    rw [map_append, take_append_of_le_length (by rw [length_map]; exact hi)]
    exact h i e he
  · obtain rfl : b.entry r bl txs = e := by simpa using he
    rw [take_of_length_le (by simp), map_append, map_singleton]
    show (_ + _) % _ = weightOf (_ ++ [bl])
    rw [weightOf_snoc, hr, getDifficultyForNextBlock, h.samples, h.topDifficulty, Nat.add_comm]
  · grind

theorem Weighs.snoc (hrules : rules.Mainnet) {b : Base} (h : Weighs b.chain) (version : UInt8) (bl : Block)
    (txs : List Transaction) : Weighs (b.chain ++ [b.entry (rules.base version) bl txs]) :=
  h.entry (by rw [(hrules version).1]) bl txs

theorem Grows.weighs (hrules : rules.Mainnet) {c' : Chain} (hgrows : Grows rules c c') (h : Weighs c) : Weighs c' := by
  induction hgrows with
  | refl => exact h
  | snoc version _ _ ih => exact ih.snoc hrules version _ _

namespace Node
variable {t : ForkTable} {ids : BlockIds} {n m : Node t} {bl : Block} {bei : BlockExtendedInfo} {pre post : Chain}

structure Weighed (ids : BlockIds) (n : Node t) : Prop where
  chain : Weighs n.base.chain
  alternatives : ∀ id e, n.base.alternatives.lookup id = some e → ∀ c, ids.Path (c ++ [e.block]) →
    e.cumulativeDifficulty = weightOf (c ++ [e.block])

def pathBelow (pre : Chain) (altChain : List BlockExtendedInfo) : List Block :=
  pre.map (·.block) ++ altChain.map (·.block)

theorem Placed.depth_eq (hplaced : Placed ids n bl pre post) :
    ids.depth bl.prevId = (pathBelow pre (n.altChain bl)).length := by
  obtain ⟨hpath, -, hprev⟩ := HashTree.Naming.path_snoc.1 hplaced.path
  rw [hprev]
  exact hpath.depth_tip

theorem Placed.mainChainStopOffset_eq (htree : n.Tree ids) (hplaced : Placed ids n bl pre post) :
    mainChainStopOffset n.base.chain (n.altChain bl) bl = pre.length := by
  have hdepth := hplaced.depth_parent
  unfold mainChainStopOffset
  cases halt : n.altChain bl with
  | cons front rest =>
    have hfront := htree.alternatives _ _ (Hangs.mem_altChain htree (show front ∈ n.altChain bl by rw [halt]; simp))
    rw [halt] at hdepth
    exact hfront.2.2.trans hdepth
  | nil =>
    rw [halt] at hdepth
    obtain ⟨pre', e, rfl⟩ := (eq_nil_or_concat' pre).resolve_left hplaced.nonempty
    have htip := hplaced.tip
    rw [halt, map_append] at htip
    have hid : e.block.id = bl.prevId := by simpa [parentOf] using htip
    have hpath := htree.path
    rw [blocks, hplaced.chain, map_append, map_append] at hpath
    have hpair := hpath.of_append.pairwise
    dsimp only
    rw [hplaced.chain, append_assoc, findIdx_append, if_neg, length_append]
    · simp [findIdx_cons, hid]
    · grind

def recorded (pre : Chain) (altChain : List BlockExtendedInfo) : List (Block × Nat) :=
  pre.map (fun e => (e.block, e.cumulativeDifficulty)) ++ altChain.map (fun e => (e.block, e.cumulativeDifficulty))

theorem recorded_blocks (pre : Chain) (altChain : List BlockExtendedInfo) :
    (recorded pre altChain).map Prod.fst = pathBelow pre altChain := by
  rw [recorded, map_append, List.map_map, List.map_map]
  rfl

theorem Placed.recorded_weights (htree : n.Tree ids) (h : n.Weighed ids) (hplaced : Placed ids n bl pre post)
    {i : Nat} {x : Block × Nat} (hx : (recorded pre (n.altChain bl))[i]? = some x) :
    x.2 = weightOf ((pathBelow pre (n.altChain bl)).take (i + 1)) := by
  unfold recorded at hx
  rcases Nat.lt_or_ge i pre.length with hi | hi
  · rw [getElem?_append_left (by simpa using hi), getElem?_map, Option.map_eq_some_iff] at hx
    obtain ⟨e, he, rfl⟩ := hx
    have hchain := h.chain
    rw [hplaced.chain] at hchain
    rw [pathBelow, take_append_of_le_length (by rw [length_map]; exact hi)]
    exact hchain.of_append i e he
  · rw [getElem?_append_right (by simpa using hi), getElem?_map, Option.map_eq_some_iff] at hx
    obtain ⟨e, he, rfl⟩ := hx
    rw [length_map] at he
    have hplace : (pathBelow pre (n.altChain bl))[i]? = some e.block := by grind [pathBelow]
    have hpath : ids.Path ((pathBelow pre (n.altChain bl)).take (i + 1)) :=
      (HashTree.Naming.path_snoc.1 hplaced.path).1.take (i + 1)
    rw [take_add_one, hplace] at hpath ⊢
    exact h.alternatives _ e (Hangs.mem_altChain htree (mem_of_getElem? he)) _ hpath

theorem Placed.samples_eq (htree : n.Tree ids) (h : n.Weighed ids) (hplaced : Placed ids n bl pre post) :
    pre.map (·.sample) ++ (n.altChain bl).map (·.sample) = weights (pathBelow pre (n.altChain bl)) := by
  rw [← recorded_blocks, ← @Electronero.samples_eq (Block × Nat) Prod.fst Prod.snd (recorded pre (n.altChain bl))
    fun i x hx => by rw [recorded_blocks]; exact hplaced.recorded_weights htree h hx, recorded, map_append, List.map_map,
    List.map_map]
  rfl

theorem Placed.difficulty_eq (htree : n.Tree ids) (h : n.Weighed ids) (hplaced : Placed ids n bl pre post) :
    getNextDifficultyForAlternativeChain n.base.chain (n.altChain bl) bl =
      ((era n.base.chain.length).demand (weights (pathBelow pre (n.altChain bl)))).toNat := by
  have hle : pre.length ≤ n.base.chain.length := by simp [hplaced.chain]
  have htake : (n.base.chain.map (·.sample)).take pre.length = pre.map (·.sample) := by
    rw [hplaced.chain, map_append, take_append_of_le_length (by simp), take_of_length_le (by simp)]
  rw [getNextDifficultyForAlternativeChain, hplaced.mainChainStopOffset_eq htree,
    forAlternativeChain_eq (length_pos_iff.2 hplaced.nonempty) (by simpa using hle), htake, hplaced.samples_eq htree h,
    length_map]
  rfl

theorem Placed.extendedInfo_eq (htree : n.Tree ids) (h : n.Weighed ids) (hplaced : Placed ids n bl pre post)
    (difficulty : Nat) : (n.base.extendedInfo (n.altChain bl) bl difficulty).cumulativeDifficulty =
      (weightOf (pathBelow pre (n.altChain bl)) + difficulty) % UInt64.size := by
  have hpath := (HashTree.Naming.path_snoc.1 hplaced.path).1
  have hstop := hplaced.mainChainStopOffset_eq htree
  unfold Base.extendedInfo
  rcases eq_nil_or_concat' (n.altChain bl) with halt | ⟨rest, prev, halt⟩
  · rw [halt] at hstop ⊢
    obtain ⟨pre', e, rfl⟩ := (eq_nil_or_concat' pre).resolve_left hplaced.nonempty
    have hparent : n.base.chain[n.base.chain.findIdx (·.block.id == bl.prevId)]? = some e := by
      simp only [mainChainStopOffset, length_append, length_singleton] at hstop
      rw [Nat.add_right_cancel hstop, hplaced.chain, append_assoc, getElem?_append_right (le_refl _)]
      simp
    have hweight := h.chain pre'.length e (by rw [hplaced.chain]; simp)
    rw [hplaced.chain, map_append, take_append_of_le_length (by simp), take_of_length_le (by simp)] at hweight
    simp only [getLast?_nil, hparent, Option.map_some, Option.getD_some]
    rw [hweight, pathBelow, map_nil, append_nil]
  · have hmem := Hangs.mem_altChain htree (show prev ∈ n.altChain bl by rw [halt]; simp)
    rw [halt, map_append, ← append_assoc] at hpath
    have hweight := h.alternatives _ prev hmem _ hpath
    grind [pathBelow]

theorem Placed.length_weights (hplaced : Placed ids n bl pre post) :
    (weights (pathBelow pre (n.altChain bl))).length = ids.depth bl.prevId := by
  rw [hplaced.depth_eq, weights, length_weigh, length_map]

theorem Hangs.cumulativeDifficulty_eq (hrules : rules.Mainnet) (htree : n.Tree ids) (h : n.Weighed ids)
    (hangs : Hangs ids rules n bl bei pre post) (hagree : Agreeing (ids.depth bl.prevId) n.base.chain.length) :
    bei.cumulativeDifficulty = weightOf (pathBelow pre (n.altChain bl) ++ [bl]) := by
  rw [hangs.difficulty, hangs.extendedInfo_eq htree h, (hrules _).2, hangs.difficulty_eq htree h, weightOf_snoc,
    forNextBlock_of_agreeing (by rw [hangs.length_weights]; exact hagree)]

theorem Weighed.of_chain (h : n.Weighed ids) (hchain : Weighs m.base.chain)
    (halts : ∀ id e, m.base.alternatives.lookup id = some e → n.base.alternatives.lookup id = some e) : m.Weighed ids :=
  ⟨hchain, fun id e he => h.alternatives id e (halts id e he)⟩

theorem Weighed.insertAlternative (hrules : rules.Mainnet) (htree : n.Tree ids) (h : n.Weighed ids)
    (hangs : Hangs ids rules n bl bei pre post) (hagree : Agreeing (ids.depth bl.prevId) n.base.chain.length) :
    (n.insertAlternative rules bei).Weighed ids := by
  refine ⟨by simpa using h.chain, fun id e he c hc => ?_⟩
  rw [insertAlternative_base, lookup_insert_ite] at he
  split at he
  · cases he
    rw [hangs.block] at hc ⊢
    rw [hangs.cumulativeDifficulty_eq hrules htree h hagree,
      hc.unique hangs.path (by rw [HashTree.Naming.tip_snoc, HashTree.Naming.tip_snoc])]
    rfl
  · exact h.alternatives id e he c hc

end Node

def Fits (ids : BlockIds) (bl : Block) : Prop :=
  ∀ c, ids.Path (c ++ [bl]) → weightOf c + (forNextBlock (weights c)).toNat < UInt64.size

theorem Fits.weightOf_eq {bl : Block} (h : Fits ids bl) {c : List Block} (hc : ids.Path (c ++ [bl])) :
    weightOf (c ++ [bl]) = weightOf c + (forNextBlock (weights c)).toNat := by
  rw [weightOf_snoc, Nat.mod_eq_of_lt (h c hc)]

theorem weightOf_le {c d : List Block} (hpath : ids.Path (c ++ d)) (h : ∀ b ∈ d, Fits ids b) :
    weightOf c ≤ weightOf (c ++ d) := by
  induction d using List.reverseRecOn with
  | nil => rw [append_nil]
  | append_singleton d b ih =>
    rw [← append_assoc] at hpath ⊢
    rw [(h b (by simp)).weightOf_eq hpath]
    exact (ih hpath.of_append fun b' hb' => h b' (mem_append_left _ hb')).trans (Nat.le_add_right _ _)

namespace Node
variable {t : ForkTable} {ids : BlockIds} {n m : Node t} {bl x : Block} {bei : BlockExtendedInfo} {pre post : Chain}

/-- A block that both rules judge alike at this height of the main chain, that is no checkpoint and not heavier than
`weight`. -/
structure Light (ids : BlockIds) (rules : NodeRules) (height weight : Nat) (x : Block) : Prop where
  known : ids.Known x
  agrees : Agreeing (ids.depth x.prevId) height
  plain : ∀ v, (rules.base v).checkpoint (ids.depth x.prevId) x.id ≠ some true
  le : ∀ c, ids.Path (c ++ [x]) → weightOf (c ++ [x]) ≤ weight

theorem Light.not_prevails (hrules : rules.Mainnet) (htree : m.Tree ids) (h : m.Weighed ids)
    (hx : Light ids rules m.base.chain.length m.base.topDifficulty x) (hangs : Hangs ids rules m x bei pre post)
    (discard : Bool) : ¬Prevails rules m x bei discard := by
  intro hwhy
  cases discard with
  | true =>
    unfold Prevails at hwhy
    rw [hangs.height] at hwhy
    exact hx.plain _ hwhy
  | false =>
    unfold Prevails at hwhy
    rw [hangs.cumulativeDifficulty_eq hrules htree h hx.agrees] at hwhy
    exact absurd (hx.le _ hangs.path) (Nat.not_le.2 hwhy)

theorem handleAlternativeBlock_light (hrules : rules.Mainnet) (htree : m.Tree ids) (h : m.Weighed ids)
    (hx : Light ids rules m.base.chain.length m.base.topDifficulty x) (depth : Nat) :
    (∃ result, handleAlternativeBlock rules depth m x = (m, .ok result)) ∨
    ∃ bei pre post, Hangs ids rules m x bei pre post ∧
      handleAlternativeBlock rules depth m x = (m.insertAlternative rules bei, .ok true) := by
  cases depth with
  | zero => exact Or.inl ⟨false, rfl⟩
  | succ depth =>
    have hout := handleAlternativeBlock_outcome rules htree hx.known depth
    generalize handleAlternativeBlock rules (depth + 1) m x = r at hout ⊢
    cases hout with
    | same result => exact Or.inl ⟨result, rfl⟩
    | kept hangs => exact Or.inr ⟨_, _, _, hangs, rfl⟩
    | switched hangs hwhy => exact absurd hwhy (hx.not_prevails hrules htree h hangs _)
    | abandoned hangs hwhy => exact absurd hwhy (hx.not_prevails hrules htree h hangs _)

theorem pushAll_light (hrules : rules.Mainnet) (htree : m.Tree ids) (h : m.Weighed ids) {xs : List Block}
    (hxs : ∀ x ∈ xs, Light ids rules m.base.chain.length m.base.topDifficulty x) (depth : Nat) :
    (pushAll (handleAlternativeBlock rules depth) m xs).1.base.chain = m.base.chain ∧
    (pushAll (handleAlternativeBlock rules depth) m xs).1.Weighed ids := by
  induction xs generalizing m with
  | nil => exact ⟨rfl, h⟩
  | cons x rest ih =>
    have hx := hxs x mem_cons_self
    have hrest : ∀ y ∈ rest, Light ids rules m.base.chain.length m.base.topDifficulty y :=
      fun y hy => hxs y (mem_cons_of_mem _ hy)
    rw [pushAll]
    rcases handleAlternativeBlock_light hrules htree h hx depth with
      ⟨result, heq⟩ | ⟨bei, pre, post, hangs, heq⟩
    · rw [heq]
      exact ih htree h hrest
    · rw [heq]
      have htree' : (m.insertAlternative rules bei).Tree ids :=
        htree.insertAlternative (by rw [hangs.block]; exact hx.known) (by rw [hangs.block]; exact hangs.height)
      obtain ⟨hchain, hweighed⟩ := ih htree' (h.insertAlternative hrules htree hangs hx.agrees)
        (by rw [insertAlternative_base]; exact hrest)
      simp_all

/-- Both rules judge the new block alike, and if its chain is heavier than the main chain, they also judge
the blocks alike that the switch will disconnect, at the height the main chain has then; none of those is a
checkpoint. -/
structure Fair (ids : BlockIds) (rules : NodeRules) (n : Node t) (bl : Block) : Prop where
  new : Agreeing (ids.depth bl.prevId) n.base.chain.length
  old : ∀ c, ids.Path (c ++ [bl]) → n.base.topDifficulty < weightOf (c ++ [bl]) →
    ∀ i x, ids.depth (parentOf (n.altChain bl) bl.prevId) ≤ i → n.blocks[i]? = some x →
      Agreeing i (ids.depth bl.prevId + 1) ∧ ∀ v, (rules.base v).checkpoint i x.id ≠ some true

theorem Fair.light (hrules : rules.Mainnet) (h : n.Inside ids (Fits ids)) (hw : n.Weighed ids)
    (hfair : Fair ids rules n bl) (hangs : Hangs ids rules n bl bei pre post)
    (hheavy : n.base.topDifficulty < bei.cumulativeDifficulty) (hx : x ∈ post.map (·.block)) :
    Light ids rules (ids.depth bl.prevId + 1) (weightOf (pathBelow pre (n.altChain bl) ++ [bl])) x := by
  rw [hangs.cumulativeDifficulty_eq hrules h.tree hw hfair.new] at hheavy
  obtain ⟨i, hi⟩ := mem_iff_getElem?.1 hx
  have hplace := hangs.getElem?_post hi
  have hsplit := hangs.depth_parent
  have hknown := h.tree.path.known (mem_of_getElem? hplace)
  have hdepth := h.tree.path.depth hplace
  rw [hknown.2, Nat.add_right_cancel_iff] at hdepth
  obtain ⟨hagree, hplain⟩ := hfair.old _ hangs.path hheavy (pre.length + i) x (by omega) hplace
  refine ⟨hknown, by rw [hdepth]; exact hagree, by rw [hdepth]; exact hplain, fun c hc => ?_⟩
  -- the block is on the old chain, which is lighter
  have hc' : c ++ [x] = n.blocks.take (pre.length + i + 1) := by
    refine hc.unique (h.tree.path.take _) ?_
    rw [take_add_one, hplace]
    simp
  have hall := h.tree.path
  rw [← take_append_drop (pre.length + i + 1) n.blocks] at hall
  have hle := weightOf_le hall fun b hb => h.blocks b (mem_of_mem_drop hb)
  rw [take_append_drop] at hle
  rw [hc']
  refine hle.trans (le_of_lt ?_)
  rwa [hw.chain.topDifficulty] at hheavy

section
variable {discard : Bool} {stored popped : Chain} {pool : Pool} {invalid : Finset Hash}

theorem Hangs.connected_blocks (hangs : Hangs ids rules n bl bei pre post)
    (hstored : stored.map (·.block) = (iterators rules n bl bei).map (·.info.block)) :
    (pre ++ stored).map (·.block) = pathBelow pre (n.altChain bl) ++ [bl] := by
  rw [map_append, hstored, iterators_blocks rules n hangs.block, pathBelow, append_assoc]

theorem Weighed.connected (hrules : rules.Mainnet) (htree : n.Tree ids) (hw : n.Weighed ids)
    (hangs : Hangs ids rules n bl bei pre post) (hagree : Agreeing (ids.depth bl.prevId) n.base.chain.length)
    (hgrows : Grows rules pre (pre ++ stored)) :
    (Node.connected rules n bei discard pre stored popped pool invalid).Weighed ids := by
  have hchain := hw.chain
  rw [hangs.chain] at hchain
  exact (hw.insertAlternative hrules htree hangs hagree).of_chain (hgrows.weighs hrules hchain.of_append) fun _ _ he => he

theorem Hangs.connected_tree (htree : n.Tree ids) (hangs : Hangs ids rules n bl bei pre post)
    (hstored : stored.map (·.block) = (iterators rules n bl bei).map (·.info.block)) :
    (connected rules n bei discard pre stored popped pool invalid).Tree ids := by
  have hkept : (n.insertAlternative rules bei).Tree ids :=
    htree.insertAlternative (by rw [hangs.block]; exact hangs.path.known (by simp)) (by rw [hangs.block]; exact hangs.height)
  refine ⟨?_, hkept.alternatives⟩
  rw [blocks, connected_chain, hangs.connected_blocks hstored]
  exact hangs.path

theorem Fair.connected_light (hrules : rules.Mainnet) (h : n.Inside ids (Fits ids)) (hw : n.Weighed ids)
    (hfair : Fair ids rules n bl) (hangs : Hangs ids rules n bl bei pre post)
    (hheavy : n.base.topDifficulty < bei.cumulativeDifficulty)
    (hstored : stored.map (·.block) = (iterators rules n bl bei).map (·.info.block))
    (hconnected : (connected rules n bei discard pre stored popped pool invalid).Weighed ids)
    (hx : x ∈ post.map (·.block)) :
    Light ids rules (connected rules n bei discard pre stored popped pool invalid).base.chain.length
      (connected rules n bei discard pre stored popped pool invalid).base.topDifficulty x := by
  have hblocks := hangs.connected_blocks hstored
  have hlight := hfair.light hrules h hw hangs hheavy hx
  rw [← hblocks] at hlight
  have hlen : (pre ++ stored).length = ids.depth bl.prevId + 1 := by
    rw [hangs.depth_eq, ← length_map StoredBlock.block, hblocks, length_append]
    rfl
  rw [hconnected.chain.topDifficulty, connected_chain, hlen]
  exact hlight

theorem switched_weighed (hrules : rules.Mainnet) (h : n.Inside ids (Fits ids)) (hw : n.Weighed ids)
    (hfair : Fair ids rules n bl) (hangs : Hangs ids rules n bl bei pre post) (hwhy : Prevails rules n bl bei discard)
    (hstored : stored.map (·.block) = (iterators rules n bl bei).map (·.info.block))
    (hgrows : Grows rules pre (pre ++ stored)) (depth : Nat) :
    (pushAll (handleAlternativeBlock rules depth) (connected rules n bei discard pre stored popped pool invalid)
      (if discard then [] else post.map (·.block))).1.base.chain = pre ++ stored ∧
    (pushAll (handleAlternativeBlock rules depth) (connected rules n bei discard pre stored popped pool invalid)
      (if discard then [] else post.map (·.block))).1.Weighed ids := by
  have hconnected := @Weighed.connected rules t ids n bl bei pre post discard stored popped pool invalid hrules h.tree hw
    hangs hfair.new hgrows
  refine pushAll_light hrules (hangs.connected_tree h.tree hstored) hconnected (fun x hx => ?_) depth
  cases discard with
  | true => cases hx
  | false => exact hfair.connected_light hrules h hw hangs hwhy hstored hconnected hx

theorem finishSwitch_weighed {its : List AltIterator} {height : Nat} {r : Node t × Except DbError Unit} (h : r.1.Weighed ids) :
    (finishSwitch its height r).1.Weighed ids :=
  h.of_chain (by rw [finishSwitch_chain]; exact h.chain) fun _ _ he => (finishSwitch_alternatives he).1

theorem abandoned_weighed (hrules : rules.Mainnet) (htree : n.Tree ids) (hw : n.Weighed ids)
    (hangs : Hangs ids rules n bl bei pre post) (hagree : Agreeing (ids.depth bl.prevId) n.base.chain.length)
    (failed : List AltIterator) (olds : List Block) : (abandonSwitch failed
      (rollback rules (connected rules n bei discard pre stored popped pool invalid) olds pre.length)).1.Weighed ids := by
  obtain ⟨stored', popped', pool', invalid', forks', rest, -, hroll, hgrows, -⟩ := rollback_spec rules
    (@connected_chain t rules n bei discard pre stored popped pool invalid) olds
  have hchain := hw.chain
  rw [hangs.chain] at hchain
  refine (hw.insertAlternative hrules htree hangs hagree).of_chain ?_ fun id e he => ?_
  · rw [abandonSwitch_chain, hroll, set_chain]
    exact hgrows.weighs hrules hchain.of_append
  · have he' := abandonSwitch_alternatives he
    rw [hroll] at he'
    exact he'

end

structure Assessed (ids : BlockIds) (n : Node t) : Prop where
  inside : n.Inside ids (Fits ids)
  weighed : n.Weighed ids

theorem assessed_init (ids : BlockIds) (t : ForkTable) : (init t).Assessed ids := by
  refine ⟨⟨tree_init ids t, fun b hb => ?_, fun id e he => ?_⟩, fun i e he => ?_, fun id e he => ?_⟩
  · cases hb
  · exact absurd he (by simp [init, Base.ofChain])
  · cases he
  · exact absurd he (by simp [init, Base.ofChain])

theorem Assessed.addNewBlock (hrules : rules.Mainnet) (h : n.Assessed ids) (hknown : ids.Known bl) (hfits : Fits ids bl)
    (hfair : bl.prevId ≠ n.base.tailId → Fair ids rules n bl) (depth : Nat) : (n.addNewBlock rules depth bl).1.Assessed ids := by
  obtain ⟨hin, hw⟩ := h
  unfold Node.addNewBlock
  split
  · exact ⟨hin, hw⟩
  split
  · rename_i hprev
    have hfair := hfair hprev
    refine ⟨handleAlternativeBlock_inside depth hin hknown hfits, ?_⟩
    cases depth with
    | zero => exact hw
    | succ depth =>
      have hout := handleAlternativeBlock_outcome rules hin.tree hknown depth
      generalize handleAlternativeBlock rules (depth + 1) n bl = r at hout ⊢
      cases hout with
      | same result => exact hw
      | kept hangs => exact hw.insertAlternative hrules hin.tree hangs hfair.new
      | switched hangs hwhy hstored hgrows =>
        exact finishSwitch_weighed (switched_weighed hrules hin hw hfair hangs hwhy hstored hgrows depth).2
      | abandoned hangs => exact abandoned_weighed hrules hin.tree hw hangs hfair.new _ _
  · cases hverdict : n.base.accepted (rules.base n.version) bl with
    | none =>
      obtain ⟨pool, invalid, heq, -⟩ := handleBlockToMainChain_of_refused hverdict
      rw [heq]
      exact ⟨hin.of_chain hin.tree.path hin.blocks fun _ _ he => he, hw.of_chain hw.chain fun _ _ he => he⟩
    | some txs =>
      rw [handleBlockToMainChain_of_accepted hverdict]
      refine ⟨hin.of_chain (hin.tree.path_accepted hknown hverdict) (fun b hb => ?_) fun _ _ he => he,
        hw.of_chain (hw.chain.snoc hrules _ _ _) fun _ _ he => he⟩
      rw [Node.blocks, set_chain, map_append] at hb
      rcases mem_append.1 hb with hb | hb
      · exact hin.blocks b hb
      · grind [Base.entry]

end Node

end Electronero
