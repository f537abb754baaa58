import Electronero.Core.Switching
import Electronero.Lib.Run
/-!
# The versions of the stored blocks

`handle_block_to_main_chain` never asks `HardFork::check`, and `BlockchainDB::add_block` drops the result of
`HardFork::add`; only `handle_alternative_block` looks at a block's version. Switches that a switch starts stay above the
point where the first one split off (`Based`).
-/
namespace Electronero
open Text FiniteMap Machine List

variable {t : ForkTable} {height : Nat} {blocks : List Block}

theorem ForkState.addAll_onTrack (hs : t.Scheduled) {s : ForkState t}
    (hin : s.OnTrack height) (h : t.DemandsFrom height blocks) :
    (s.addAll height blocks).OnTrack (height + blocks.length) ∧ (s.addAll height blocks).refused = s.refused := by
  induction blocks generalizing s height with
  | nil => exact ⟨hin, rfl⟩
  | cons bl rest ih =>
    obtain ⟨hbl, hrest⟩ := (@ForkTable.demandsFrom_append t _ [bl] rest).1 h
    obtain ⟨hstored, hrefused⟩ := ForkState.addStored_onTrack hs hin (ForkTable.demandsFrom_singleton.1 hbl)
    obtain ⟨hnext, hrefused'⟩ := ih hstored hrest
    rw [length_cons, Nat.add_comm rest.length 1, ← Nat.add_assoc]
    exact ⟨hnext, hrefused'.trans hrefused⟩

theorem ForkState.addAll_inStep (hs : t.Scheduled) {s : ForkState t}
    (hin : s.InStep height) (h : t.DemandsFrom height blocks) :
    (s.addAll height blocks).InStep (height + blocks.length) := by
  obtain ⟨htrack, hrefused⟩ := ForkState.addAll_onTrack hs hin.toOnTrack h
  exact ⟨htrack, hrefused.trans hin.refused⟩

theorem ForkTable.demandsFrom_of_path {ids : BlockIds} {c d : List Block} (hpath : ids.Path (c ++ d))
    (h : ∀ b ∈ d, t.Demands (ids.depth b.prevId) b) : t.DemandsFrom c.length d := by
  intro i b hb
  have hdepth := hpath.depth (i := c.length + i) (b := b) (by rw [getElem?_append_right (by omega)]; simpa using hb)
  have hmem := mem_of_getElem? hb
  have hknown := hpath.known (mem_append_right c hmem)
  have hplace : ids.depth b.prevId = c.length + i := by
    rw [hknown.2] at hdepth
    omega
  rw [← hplace]
  exact h b hmem

namespace Node
variable {t : ForkTable}

structure Sound (ids : BlockIds) (n : Node t) : Prop where
  tree : n.Tree ids
  demands : t.DemandsFrom 0 n.blocks
  altDemands : ∀ id e, n.base.alternatives.lookup id = some e → t.Demands e.height e.block
  forks : n.forks.InStep n.base.chain.length

variable {ids : BlockIds} {rules : NodeRules} {n m : Node t} {bl : Block}

theorem Sound.congr (h : n.Sound ids) (hchain : m.base.chain = n.base.chain) (hforks : m.forks = n.forks)
    (halts : ∀ id e, m.base.alternatives.lookup id = some e → n.base.alternatives.lookup id = some e) : m.Sound ids := by
  refine ⟨⟨?_, fun id e he => h.tree.alternatives id e (halts id e he)⟩, ?_, fun id e he => ?_, ?_⟩
  · rw [blocks, hchain]
    exact h.tree.path
  · rw [blocks, hchain]
    exact h.demands
  · exact h.altDemands id e (halts id e he)
  · rw [hchain, hforks]
    exact h.forks

theorem sound_init (ids : BlockIds) (t : ForkTable) : (init t).Sound ids := by
  refine ⟨tree_init ids t, fun i bl h => ?_, fun id e h => ?_, ⟨⟨?_, fun i hi => ?_⟩, rfl⟩⟩
  · simp [blocks, init, Base.ofChain] at h
  · exact absurd h (by simp [init, Base.ofChain])
  · exact ForkTable.idealIndex_zero.symm
  · exact absurd hi (by simp [init, Base.ofChain])

theorem Sound.demands_append (h : n.Sound ids) {pre post : Chain} (hchain : n.base.chain = pre ++ post) :
    t.DemandsFrom 0 (pre.map (·.block)) ∧ t.DemandsFrom pre.length (post.map (·.block)) := by
  have hdemands := h.demands
  rw [blocks, hchain, map_append] at hdemands
  simpa using ForkTable.demandsFrom_append.1 hdemands

theorem Sound.handleBlockToMainChain (hs : t.Scheduled) (h : n.Sound ids) (hknown : ids.Known bl)
    (hbl : t.Demands n.base.chain.length bl) : (n.handleBlockToMainChain rules bl).1.Sound ids := by
  cases hverdict : n.base.accepted (rules.base n.version) bl with
  | none =>
    obtain ⟨pool, invalid, heq, -⟩ := handleBlockToMainChain_of_refused hverdict
    rw [heq]
    exact h.congr rfl rfl fun _ _ he => he
  | some txs =>
    rw [handleBlockToMainChain_of_accepted hverdict]
    refine ⟨h.tree.of_chain (h.tree.path_accepted hknown hverdict), ?_, h.altDemands, ?_⟩
    · rw [blocks, set_chain, map_append]
      refine ForkTable.demandsFrom_append.2 ⟨h.demands, ForkTable.demandsFrom_singleton.2 ?_⟩
      simpa [Base.entry] using hbl
    · simpa using ForkState.addStored_inStep hs h.forks hbl

theorem Sound.insertAlternative (h : n.Sound ids) {bei : BlockExtendedInfo} {pre post : Chain}
    (hangs : Hangs ids rules n bl bei pre post) (hbl : t.Demands (ids.depth bl.prevId) bl) :
    (n.insertAlternative rules bei).Sound ids := by
  have hin := Inside.insertAlternative (Q := fun _ => True) ⟨h.tree, fun _ _ => trivial, fun _ _ _ => trivial⟩ trivial hangs
  refine ⟨hin.tree, by simpa [blocks] using h.demands, fun id e he => ?_, by simpa using h.forks⟩
  rw [insertAlternative_base, lookup_insert_ite] at he
  split at he
  · cases he
    rw [hangs.block, hangs.height]
    exact hbl
  · exact h.altDemands id e he

variable {height : Nat} {b : Block} {push : Node t → Block → Node t × Except DbError Bool}

/-- The `HardFork` object may be ahead of the chain, as it is after blocks have been popped. -/
theorem Sound.reorganize (hs : t.Scheduled) (htree : n.Tree ids) (hdemands : t.DemandsFrom 0 n.blocks)
    (halts : ∀ id e, n.base.alternatives.lookup id = some e → t.Demands e.height e.block)
    (hpos : 0 < height) (hle : height ≤ n.base.chain.length) (hr : n.forks.RecordedTo height)
    (hindex : t.idealIndex (height - 1) ≤ n.forks.hardFork.currentForkIndex) (hrefused : n.forks.refused = []) :
    ∃ forks, n.reorganize height =
        (n.set n.base.chain n.base.popped n.base.pool n.base.invalidBlocks forks, .ok true) ∧
      (n.set n.base.chain n.base.popped n.base.pool n.base.invalidBlocks forks).Sound ids := by
  obtain ⟨forks, heq, hhf, hrec, href⟩ := ForkState.reorganizeFromChainHeight_ofBlocks hs hpos
    (by simpa [blocks] using hle) hr hindex hdemands
  refine ⟨forks, by rw [Node.reorganize, heq]; rfl, ⟨htree.path, htree.alternatives⟩, hdemands, halts, ⟨?_, ?_⟩, ?_⟩
  · rw [set_forks, hhf]
    simp [HardFork.ofBlocks, blocks]
  · simpa [blocks] using hrec
  · exact href.trans hrefused

theorem Sound.reorganize_self (hs : t.Scheduled) (h : n.Sound ids) (hpos : 0 < height) :
    (n.reorganize height).1.Sound ids ∧ (n.reorganize height).2.isOk = true := by
  by_cases hle : height ≤ n.base.chain.length
  · obtain ⟨forks, heq, hsound⟩ := Sound.reorganize hs h.tree h.demands h.altDemands hpos hle
      (h.forks.recorded.mono hle) (by
        rw [h.forks.index]
        exact ForkTable.idealIndex_mono (by omega)) h.forks.refused
    rw [heq]
    exact ⟨hsound, rfl⟩
  · have heq : n.reorganize height = (n, .ok false) := by
      unfold Node.reorganize ForkState.reorganizeFromChainHeight ForkState.reorganizeFromBlockHeight
      rw [if_neg (by omega), if_pos (by simp [blocks]; omega)]
    rw [heq]
    exact ⟨h, rfl⟩

theorem Sound.finishSwitch (hs : t.Scheduled) (h : n.Sound ids) (hpos : 0 < height)
    (its : List AltIterator) (u : Unit) :
    (Node.finishSwitch its height (n, .ok u)).1.Sound ids ∧ (Node.finishSwitch its height (n, .ok u)).2 = .ok true := by
  have herased : (its.foldl eraseAlternative n).Sound ids := by
    refine h.congr (foldl_eraseAlternative_chain its n)
      (@foldl_erase_eq t eraseAlternative _ Node.forks (fun _ _ => rfl) its n) fun id e he => ?_
    grind [lookup_foldl_erase, eraseAlternative]
  obtain ⟨hsound, hok⟩ := herased.reorganize_self hs hpos
  rw [Node.finishSwitch]
  generalize Node.reorganize _ _ = r at hsound hok ⊢
  obtain ⟨m, e | b⟩ := r
  · cases hok
  · exact ⟨hsound, rfl⟩

theorem Sound.rollback (rules : NodeRules) (hs : t.Scheduled) (h : n.Sound ids) {pre post : Chain} (hchain : n.base.chain = pre ++ post)
    (hpre : pre ≠ []) (originalChain : List Block) (hpath : ids.Path (pre.map (·.block) ++ originalChain))
    (horiginal : t.DemandsFrom pre.length originalChain) :
    (Node.rollback rules n originalChain pre.length).1.Sound ids ∧
      (Node.rollback rules n originalChain pre.length).2.isOk = true := by
  have hpos : 0 < pre.length := length_pos_iff.2 hpre
  obtain ⟨popped, pool, hpop, -⟩ := popN_spec rules hchain
  have hdemands := (h.demands_append hchain).1
  have hlen : n.base.chain.length - pre.length = post.length := by simp [hchain]
  obtain ⟨forks, hre, hsound⟩ := Sound.reorganize (n := n.set pre popped pool n.base.invalidBlocks n.forks) hs
    (h.tree.of_chain (h.tree.path_pre hchain)) hdemands h.altDemands hpos (Nat.le_refl _)
    (h.forks.recorded.mono (by simp [hchain]))
    (by
      rw [set_forks, h.forks.index]
      exact ForkTable.idealIndex_mono (by simp [hchain]; omega))
    h.forks.refused
  obtain ⟨stored, pool', invalid', done, rest, hconnect, hsplit, hblocks, -⟩ := connectAll_spec rules id originalChain
    (n.set pre popped pool n.base.invalidBlocks forks)
  rw [List.map_id] at hblocks
  rw [hsplit, ← hblocks] at horiginal hpath
  obtain ⟨hstored, -⟩ := ForkTable.demandsFrom_append.1 horiginal
  have hafter : (n.set (pre ++ stored) popped pool' invalid' (forks.addAll pre.length (stored.map (·.block)))).Sound ids := by
    refine ⟨h.tree.of_chain ?_, ?_, h.altDemands, ?_⟩
    · rw [map_append]
      rw [← append_assoc] at hpath
      exact hpath.of_append
    · rw [blocks, set_chain, map_append]
      exact ForkTable.demandsFrom_append.2 ⟨hdemands, by simpa using hstored⟩
    · simpa using ForkState.addAll_inStep hs hsound.forks hstored
  simp only [set_chain, set_popped, set_pool, set_invalidBlocks, set_set, set_forks] at hre hconnect
  unfold Node.rollback
  rw [if_neg (by simp [hchain]), hlen, hpop, hre]
  simp only [reconnect, hconnect]
  cases rest with
  | nil =>
    obtain ⟨hsound', hok⟩ := hafter.reorganize_self hs hpos
    dsimp only
    generalize Node.reorganize _ _ = r at hsound' hok ⊢
    obtain ⟨m, e | b⟩ := r
    · cases hok
    · exact ⟨hsound', rfl⟩
  | cons x rest' => exact ⟨hafter, rfl⟩

/-- A sound state whose chain starts with `low`, and none of `low` is an alternative as well. -/
structure Based (ids : BlockIds) (low : List Block) (n : Node t) : Prop where
  sound : n.Sound ids
  below : low <+: n.blocks
  clear : ∀ b ∈ low, n.base.alternatives.lookup b.id = none

structure Pushable (ids : BlockIds) (t : ForkTable) (low : List Block) (bl : Block) : Prop where
  path : ∃ c, ids.Path (low ++ c ++ [bl])
  demands : t.Demands (ids.depth bl.prevId) bl
  same : t.idealIndex low.length = t.idealIndex (ids.depth bl.prevId)

variable {low : List Block} {bei : BlockExtendedInfo} {pre post : Chain}

theorem Sound.connected (hs : t.Scheduled) (h : n.Sound ids) (hangs : Hangs ids rules n bl bei pre post)
    (hbl : t.Demands (ids.depth bl.prevId) bl) (hsame : t.idealIndex pre.length = t.idealIndex n.base.chain.length)
    {done failed : List AltIterator} (hits : iterators rules n bl bei = done ++ failed) {discard : Bool}
    {stored popped : Chain} {pool : Pool} {invalid : Finset Hash} (hstored : stored.map (·.block) = done.map (·.info.block)) :
    (Node.connected rules n bei discard pre stored popped pool invalid).Sound ids := by
  have hkept := h.insertAlternative hangs hbl
  have hdemandsIn : n.Inside ids (fun b => ids.Known b → t.Demands (ids.depth b.prevId) b) := by
    refine ⟨h.tree, fun b hb hknown => ?_, fun id e he _ => ?_⟩
    · obtain ⟨i, hi⟩ := mem_iff_getElem?.1 hb
      have hdepth := h.tree.path.depth hi
      rw [hknown.2] at hdepth
      obtain rfl : ids.depth b.prevId = i := by omega
      simpa using h.demands _ b hi
    · rw [← (h.tree.alternatives id e he).2.2]
      exact h.altDemands id e he
  obtain ⟨hpath, hall⟩ := hangs.blocks_new hdemandsIn (fun _ => hbl) hits
  rw [← hstored] at hpath hall
  have hnew : t.DemandsFrom pre.length (stored.map (·.block)) := by
    simpa using ForkTable.demandsFrom_of_path hpath fun b hb =>
      hall b (mem_append_right _ hb) (hpath.known (mem_append_right _ hb))
  refine ⟨⟨?_, hkept.tree.alternatives⟩, ?_, hkept.altDemands, ?_⟩
  · rw [blocks, connected_chain, map_append]
    exact hpath
  · rw [blocks, connected_chain, map_append]
    exact ForkTable.demandsFrom_append.2 ⟨(h.demands_append hangs.chain).1, by simpa using hnew⟩
  · have hlow := h.forks.lower (by simp [hangs.chain]) hsame
    simpa using ForkState.addAll_inStep hs hlow hnew

theorem Based.clear_insert (h : n.Based ids low) (hangs : Hangs ids rules n bl bei pre post)
    (hle : low <+: pre.map (·.block)) (hb : b ∈ low) : (n.base.alternatives.insert bl.id bei).lookup b.id = none := by
  have hne : b.id ≠ bl.id := by
    have hpair := hangs.path.pairwise
    grind
  rw [lookup_insert_ite, if_neg hne]
  exact h.clear b hb

theorem Based.connected (hs : t.Scheduled) (h : n.Based ids low) (hangs : Hangs ids rules n bl bei pre post)
    (hbl : t.Demands (ids.depth bl.prevId) bl) (hle : low <+: pre.map (·.block))
    (hsame : t.idealIndex low.length = t.idealIndex n.base.chain.length)
    {done failed : List AltIterator} (hits : iterators rules n bl bei = done ++ failed) {discard : Bool}
    {stored popped : Chain} {pool : Pool} {invalid : Finset Hash} (hstored : stored.map (·.block) = done.map (·.info.block)) :
    (Node.connected rules n bei discard pre stored popped pool invalid).Based ids low := by
  have hlow : low.length ≤ pre.length := by simpa using hle.length_le
  have hsame' : t.idealIndex pre.length = t.idealIndex n.base.chain.length := by
    refine le_antisymm (ForkTable.idealIndex_mono (by simp [hangs.chain])) ?_
    rw [← hsame]
    exact ForkTable.idealIndex_mono hlow
  refine ⟨h.sound.connected hs hangs hbl hsame' hits hstored, ?_, fun b hb => ?_⟩
  · rw [blocks, connected_chain, map_append]
    exact hle.trans (prefix_append _ _)
  · rw [connected_alternatives, hangs.block]
    exact h.clear_insert hangs hle hb

theorem Based.pushable (h : n.Based ids low) (hangs : Hangs ids rules n bl bei pre post) (hle : low <+: pre.map (·.block))
    (hsame : t.idealIndex low.length = t.idealIndex n.base.chain.length) (hb : b ∈ post.map (·.block)) :
    Pushable ids t low b := by
  obtain ⟨c, hc⟩ := hle
  obtain ⟨i, hi⟩ := mem_iff_getElem?.1 hb
  have hi' := (List.getElem?_eq_some_iff.1 hi).1
  have hplace := hangs.getElem?_post hi
  have hdepth := h.sound.tree.path.depth hplace
  rw [(h.sound.tree.path.known (mem_of_getElem? hplace)).2] at hdepth
  obtain hprev : ids.depth b.prevId = pre.length + i := by omega
  have hc' : low.length + c.length = pre.length := by simpa using congrArg List.length hc
  have hlen : pre.length + i < n.base.chain.length := by
    rw [hangs.chain, length_append]
    simpa using hi'
  refine ⟨⟨c ++ (post.map (·.block)).take i, ?_⟩, ?_, ?_⟩
  · have hpath := h.sound.tree.path.take (pre.length + i + 1)
    rw [take_add_one, hplace, hangs.blocks_eq, take_append, ← hc] at hpath
    have hall : (low ++ c).take (pre.length + i) = low ++ c := take_of_length_le (by simp; omega)
    have hsub : pre.length + i - (low ++ c).length = i := by simp; omega
    rw [hall, hsub] at hpath
    simpa using hpath
  · rw [hprev]
    simpa using h.sound.demands _ b hplace
  · rw [hprev]
    refine le_antisymm (ForkTable.idealIndex_mono (by omega)) ?_
    rw [hsame]
    exact ForkTable.idealIndex_mono (by omega)

theorem pushAll_based
    (hpush : ∀ m b, m.Based ids low → Pushable ids t low b → (push m b).1.Based ids low ∧ (push m b).2.isOk = true)
    (xs : List Block) (hxs : ∀ x ∈ xs, Pushable ids t low x) (h : n.Based ids low) :
    (pushAll push n xs).1.Based ids low ∧ (pushAll push n xs).2.isOk = true := by
  induction xs generalizing n with
  | nil => exact ⟨h, rfl⟩
  | cons x rest ih =>
    obtain ⟨hbased, hok⟩ := hpush n x h (hxs x mem_cons_self)
    unfold pushAll
    generalize push n x = r at hbased hok ⊢
    obtain ⟨m, e | b⟩ := r
    · cases hok
    · grind

theorem Based.erased (h : n.Based ids low) (hchain : m.base.chain = n.base.chain) (hforks : m.forks = n.forks)
    {gone : List Hash} (halts : ∀ id, m.base.alternatives.lookup id = if id ∈ gone then none else n.base.alternatives.lookup id) :
    m.Based ids low := by
  have hsub : ∀ id e, m.base.alternatives.lookup id = some e → n.base.alternatives.lookup id = some e := by grind
  refine ⟨h.sound.congr hchain hforks hsub, ?_, fun b hb => ?_⟩
  · rw [blocks, hchain]
    exact h.below
  · rw [halts, h.clear b hb]
    exact ite_self _

theorem based_outcome (hs : t.Scheduled)
    (hpush : ∀ m b, m.Based ids low → Pushable ids t low b → (push m b).1.Based ids low ∧ (push m b).2.isOk = true)
    (h : n.Based ids low) (hbl : t.Demands (ids.depth bl.prevId) bl)
    (hhangs : ∀ bei pre post, Hangs ids rules n bl bei pre post →
      low <+: pre.map (·.block) ∧ t.idealIndex low.length = t.idealIndex n.base.chain.length)
    {r : Node t × Except DbError Bool} (hout : Outcome ids rules push n bl r) :
    r.1.Based ids low ∧ r.2.isOk = true := by
  cases hout with
  | same result => exact ⟨h, rfl⟩
  | kept hangs =>
    obtain ⟨hle, -⟩ := hhangs _ _ _ hangs
    refine ⟨⟨h.sound.insertAlternative hangs hbl, by simpa [blocks] using h.below, fun b hb => ?_⟩, rfl⟩
    rw [insertAlternative_base, hangs.block]
    exact h.clear_insert hangs hle hb
  | @switched bei pre post hangs discard _ stored popped pool invalid hstored =>
    obtain ⟨hle, hsame⟩ := hhangs _ _ _ hangs
    have hconnected : (connected rules n bei discard pre stored popped pool invalid).Based ids low :=
      h.connected hs hangs hbl hle hsame (append_nil _).symm hstored
    obtain ⟨hpushed, hok⟩ := pushAll_based hpush (n := connected rules n bei discard pre stored popped pool invalid)
      (if discard then [] else post.map (·.block))
      (by cases discard; exacts [fun x hx => h.pushable hangs hle hsame hx, fun x hx => by cases hx]) hconnected
    generalize pushAll push _ _ = r at hpushed hok ⊢
    obtain ⟨m, e | u⟩ := r
    · cases hok
    have herased : ((iterators rules n bl bei).foldl eraseAlternative m).Based ids low :=
      hpushed.erased (foldl_eraseAlternative_chain _ m)
        (@foldl_erase_eq t eraseAlternative _ Node.forks (fun _ _ => rfl) _ m)
        (@lookup_foldl_erase t eraseAlternative (fun _ _ => rfl) _ m)
    obtain ⟨hsound, hok'⟩ := herased.sound.reorganize_self hs (length_pos_iff.2 hangs.nonempty)
    have hbased : (((iterators rules n bl bei).foldl eraseAlternative m).reorganize pre.length).1.Based ids low :=
      ⟨hsound, herased.below, herased.clear⟩
    rw [finishSwitch]
    generalize Node.reorganize _ _ = r at hbased hok' ⊢
    obtain ⟨m', e | b⟩ := r
    · cases hok'
    · exact ⟨hbased, rfl⟩
  | @abandoned bei pre post hangs discard _ done failed hits _ stored popped pool invalid hstored =>
    obtain ⟨hle, hsame⟩ := hhangs _ _ _ hangs
    have hconnected : (connected rules n bei discard pre stored popped pool invalid).Based ids low :=
      h.connected hs hangs hbl hle hsame hits hstored
    obtain ⟨stored', popped', pool', invalid', forks', rest, holds, hroll, -⟩ := rollback_spec rules
      (@connected_chain t rules n bei discard pre stored popped pool invalid) (post.map (·.block))
    obtain ⟨hsound, hok⟩ := hconnected.sound.rollback rules hs
      (@connected_chain t rules n bei discard pre stored popped pool invalid) hangs.nonempty (post.map (·.block))
      (by rw [← map_append, ← hangs.chain]; exact h.sound.tree.path) (h.sound.demands_append hangs.chain).2
    have hbased : (rollback rules (connected rules n bei discard pre stored popped pool invalid) (post.map (·.block))
        pre.length).1.Based ids low := by
      refine ⟨hsound, ?_, ?_⟩
      · rw [hroll, blocks, set_chain, map_append]
        exact hle.trans (prefix_append _ _)
      · rw [hroll]
        exact hconnected.clear
    generalize rollback rules _ _ _ = r at hbased hok ⊢
    obtain ⟨m, e | b⟩ := r
    · cases hok
    exact ⟨hbased.erased (foldl_invalidate_chain failed m)
      (@foldl_erase_eq t invalidate _ Node.forks (fun _ _ => rfl) _ m)
      (@lookup_foldl_erase t invalidate (fun _ _ => rfl) _ m), rfl⟩

theorem Based.le_pre (h : n.Based ids low) (hbl : Pushable ids t low bl) (hangs : Hangs ids rules n bl bei pre post) :
    low <+: pre.map (·.block) := by
  obtain ⟨c, hc⟩ := hbl.path
  have heq := hangs.path.unique hc (by rw [HashTree.Naming.tip_snoc, HashTree.Naming.tip_snoc])
  rw [append_cancel_right_eq] at heq
  rcases append_eq_append_iff.1 heq with ⟨d, hlow, halt⟩ | ⟨d, hpre, -⟩
  · cases d with
    | nil =>
      rw [hlow, append_nil]
    | cons b d =>
      -- the first alternative block would be one of `low`
      obtain ⟨e, he, rfl⟩ : ∃ e ∈ n.altChain bl, e.block = b := by
        have hb : b ∈ (n.altChain bl).map (·.block) := by
          rw [halt]
          simp
        exact List.mem_map.1 hb
      have hsome := Hangs.mem_altChain h.sound.tree he
      rw [h.clear e.block (by rw [hlow]; simp)] at hsome
      cases hsome
  · exact ⟨d, hpre.symm⟩

theorem Based.same (hs : t.Scheduled) (h : n.Based ids low) (hbl : Pushable ids t low bl)
    (hangs : Hangs ids rules n bl bei pre post) : t.idealIndex low.length = t.idealIndex n.base.chain.length := by
  have hversion := hangs.version
  rw [HardFork.checkForHeight, HardFork.getVotedForkIndex_eq hs, h.sound.forks.index, Bool.and_eq_true, beq_iff_eq,
    hbl.demands.1] at hversion
  have hmax := ForkTable.version_injective hversion.1
  refine le_antisymm (ForkTable.idealIndex_mono (by simpa [blocks] using h.below.length_le)) ?_
  rw [hbl.same, hmax]
  exact le_max_left _ _

theorem handleAlternativeBlock_based (hs : t.Scheduled) (depth : Nat) (h : n.Based ids low) (hbl : Pushable ids t low bl) :
    (handleAlternativeBlock rules depth n bl).1.Based ids low ∧ (handleAlternativeBlock rules depth n bl).2.isOk = true := by
  induction depth generalizing n bl with
  | zero => exact ⟨h, rfl⟩
  | succ depth ih =>
    obtain ⟨c, hc⟩ := hbl.path
    exact based_outcome hs (fun m b hm hb => ih hm hb) h hbl.demands
      (fun _ _ _ hangs => ⟨h.le_pre hbl hangs, h.same hs hbl hangs⟩)
      (handleAlternativeBlock_outcome rules h.sound.tree (hc.known (by simp)) depth)

/-- A block that arrives, with the outcome of the checks at that time and a bound on nested switches. Since the
last block transactions have come to the pool and left it: `pool` is what is there now. -/
structure Arrival where
  block : Block
  rules : NodeRules
  depth : Nat
  pool : Pool

def withPool (n : Node t) (pool : Pool) : Node t := { n with base := { n.base with pool := pool } }

def arrive (n : Node t) (a : Arrival) : Node t := ((n.withPool a.pool).addNewBlock a.rules a.depth a.block).1

theorem Inside.arrive {Q : Block → Prop} (h : n.Inside ids Q) (a : Arrival) (hbl : ids.Known a.block) (hQ : Q a.block) :
    (n.arrive a).Inside ids Q := by
  have hpool : (n.withPool a.pool).Inside ids Q := ⟨⟨h.tree.path, h.tree.alternatives⟩, h.blocks, h.kept⟩
  unfold Node.arrive addNewBlock
  split
  · exact hpool
  split
  · exact handleAlternativeBlock_inside a.depth hpool hbl hQ
  · cases hverdict : (n.withPool a.pool).base.accepted (a.rules.base (n.withPool a.pool).version) a.block with
    | none =>
      obtain ⟨pool, invalid, heq, -⟩ := handleBlockToMainChain_of_refused hverdict
      rw [heq]
      exact hpool.of_chain hpool.tree.path hpool.blocks fun _ _ he => he
    | some txs =>
      rw [handleBlockToMainChain_of_accepted hverdict]
      refine hpool.of_chain (hpool.tree.path_accepted hbl hverdict) (fun b hb => ?_) fun _ _ he => he
      rw [Node.blocks, set_chain, map_append] at hb
      rcases mem_append.1 hb with hb | hb
      · exact hpool.blocks b hb
      · rw [mem_singleton.1 hb]
        exact hQ

def Sent (arrivals : List Arrival) (b : Block) : Prop := ∃ a ∈ arrivals, a.block = b

theorem inside_run (ids : BlockIds) (t : ForkTable) {arrivals : List Arrival} (h : ∀ a ∈ arrivals, ids.Known a.block) :
    (run arrive (init t) arrivals).Inside ids (Sent arrivals) := by
  have hstep : ∀ (n : Node t) (a : Arrival), n.Inside ids (Sent arrivals) → ids.Known a.block ∧ a ∈ arrivals →
      (n.arrive a).Inside ids (Sent arrivals) :=
    fun _ a hn ha => hn.arrive a ha.1 ⟨a, ha.2, rfl⟩
  exact run_invariant hstep ⟨tree_init ids t, fun _ hb => absurd hb not_mem_nil, fun id e he => by cases he⟩
    (meets_of_forall (fun a ha _ => ⟨h a ha, ha⟩) _)

/-- **Nothing comes from nowhere**: what a node stores was sent to it, through all switches and rollbacks, and an
alternative block is kept under its id and with the height of the path to it. -/
theorem stored_blocks_arrived (ids : BlockIds) (t : ForkTable) {arrivals : List Arrival}
    (hknown : ∀ a ∈ arrivals, ids.Known a.block) : (∀ b ∈ (run arrive (init t) arrivals).blocks, Sent arrivals b) ∧
      ∀ id e, (run arrive (init t) arrivals).base.alternatives.lookup id = some e →
        e.block.id = id ∧ e.height = ids.depth e.block.prevId ∧ Sent arrivals e.block := by
  have hinside := inside_run ids t hknown
  refine ⟨hinside.blocks, fun id e he => ?_⟩
  obtain ⟨hid, -, hheight⟩ := hinside.tree.alternatives id e he
  exact ⟨hid, hheight, hinside.kept id e he⟩

/-- **Agreement**: nodes that share a block share the chain up to it, whatever arrived before, under whatever rules and
fork tables, and however often they switched. -/
theorem shared_block_shared_chain (ids : BlockIds) {t t' : ForkTable} {arrivals arrivals' : List Arrival}
    (hknown : ∀ a ∈ arrivals ++ arrivals', ids.Known a.block) {i j : Nat} {b b' : Block}
    (hb : (run arrive (init t) arrivals).blocks[i]? = some b)
    (hb' : (run arrive (init t') arrivals').blocks[j]? = some b') (hid : b.id = b'.id) :
    i = j ∧ (run arrive (init t) arrivals).blocks.take (i + 1) = (run arrive (init t') arrivals').blocks.take (i + 1) := by
  have hn := inside_run ids t fun a ha => hknown a (mem_append_left _ ha)
  have hm := inside_run ids t' fun a ha => hknown a (mem_append_right _ ha)
  exact hn.tree.path.agree hm.tree.path hb hb' hid

def Timely (ids : BlockIds) (n : Node t) (bl : Block) : Prop :=
  t.Demands (ids.depth bl.prevId) bl ∧
    (bl.prevId ≠ n.base.tailId →
      t.idealVersion (ids.depth (parentOf (n.altChain bl) bl.prevId)) = t.idealVersion n.base.chain.length)

instance (ids : BlockIds) (n : Node t) (bl : Block) : Decidable (Timely ids n bl) := inferInstanceAs (Decidable (_ ∧ _))

def Versioned (n : Node t) : Prop :=
  n.forks.refused = [] ∧ ∀ i bl, n.blocks[i]? = some bl → n.forks.recorded i = some bl.majorVersion

theorem versioned_of_inStep (hdemands : t.DemandsFrom 0 n.blocks) (hforks : n.forks.InStep n.base.chain.length) :
    n.Versioned := by
  refine ⟨hforks.refused, fun i bl hbl => ?_⟩
  have hi : i < n.base.chain.length := by simpa [blocks] using (List.getElem?_eq_some_iff.1 hbl).1
  rw [hforks.recorded i hi, (hdemands i bl hbl).1, Nat.zero_add]

theorem Sound.versioned_iff (hs : t.Scheduled) (h : n.Sound ids) {txs : List Transaction}
    (hverdict : n.base.accepted (rules.base n.version) bl = some txs) :
    (n.handleBlockToMainChain rules bl).1.Versioned ↔ t.Demands n.base.chain.length bl := by
  rw [handleBlockToMainChain_of_accepted hverdict]
  constructor
  · rintro ⟨hrefused, -⟩
    refine (HardFork.check_iff h.forks.index).1 ?_
    by_contra hcheck
    rw [set_forks, ForkState.addStored_refused (by simpa using hcheck)] at hrefused
    simp at hrefused
  · intro hbl
    refine versioned_of_inStep ?_ (by simpa using ForkState.addStored_inStep hs h.forks hbl)
    rw [blocks, set_chain, map_append]
    refine ForkTable.demandsFrom_append.2 ⟨h.demands, ForkTable.demandsFrom_singleton.2 ?_⟩
    simpa [Base.entry, blocks] using hbl

def Settled (ids : BlockIds) (n : Node t) : Prop := n.Sound ids ∧ n.Apart fun _ => False

theorem settled_init (ids : BlockIds) (t : ForkTable) : (init t).Settled ids := by
  refine ⟨sound_init ids t, fun b hb => ?_⟩
  simp [blocks, init, Base.ofChain] at hb

theorem not_mem_of_haveBlock (h : n.base.haveBlock bl.id = false) :
    bl ∉ n.blocks ∧ n.base.alternatives.lookup bl.id = none := by
  simp only [Base.haveBlock, Base.blockExists, Bool.or_eq_false_iff, List.any_eq_false] at h
  refine ⟨fun hmem => ?_, by simpa using h.1.2⟩
  obtain ⟨e, he, rfl⟩ := List.mem_map.1 hmem
  exact h.1.1 e he (beq_self_eq_true _)

theorem Settled.based (h : n.Settled ids) (height : Nat) : n.Based ids (n.blocks.take height) := by
  obtain ⟨hsound, hapart⟩ := h
  refine ⟨hsound, take_prefix _ _, fun b hb => ?_⟩
  cases hlookup : n.base.alternatives.lookup b.id with
  | none => rfl
  | some e => exact (hapart b (mem_of_mem_take hb) e hlookup).elim

theorem Placed.blocks_take (h : Placed ids n bl pre post) :
    n.blocks.take (ids.depth (parentOf (n.altChain bl) bl.prevId)) = pre.map (·.block) := by
  rw [h.depth_parent, blocks, h.chain, map_append]
  simp

theorem Timely.hangs (h : Timely ids n bl) (hprev : bl.prevId ≠ n.base.tailId)
    (hangs : Hangs ids rules n bl bei pre post) : t.idealIndex pre.length = t.idealIndex n.base.chain.length := by
  rw [← hangs.depth_parent]
  exact ForkTable.idealVersion_eq_iff.1 (h.2 hprev)

theorem Settled.addNewBlock (hs : t.Scheduled) (h : n.Settled ids) (rules : NodeRules) (depth : Nat) (hknown : ids.Known bl)
    (htimely : Timely ids n bl) : (n.addNewBlock rules depth bl).1.Settled ids := by
  have hbased := h.based (ids.depth (parentOf (n.altChain bl) bl.prevId))
  obtain ⟨hsound, hapart⟩ := h
  unfold Node.addNewBlock
  split
  · exact ⟨hsound, hapart⟩
  rename_i hhave
  obtain ⟨hmem, hnone⟩ := not_mem_of_haveBlock (by simpa using hhave)
  split
  · rename_i hprev
    let low := n.blocks.take (ids.depth (parentOf (n.altChain bl) bl.prevId))
    have hhangs : ∀ bei pre post, Hangs ids rules n bl bei pre post →
        low <+: pre.map (·.block) ∧ t.idealIndex low.length = t.idealIndex n.base.chain.length := by
      intro bei pre post hangs
      have hlow : low = pre.map (·.block) := hangs.blocks_take
      refine ⟨by rw [hlow], ?_⟩
      rw [hlow, length_map]
      exact htimely.hangs hprev hangs
    have hresult : (handleAlternativeBlock rules depth n bl).1.Based ids low ∧
        (handleAlternativeBlock rules depth n bl).2.isOk = true := by
      cases depth with
      | zero => exact ⟨hbased, rfl⟩
      | succ depth =>
        exact based_outcome hs (fun m b hm hb => handleAlternativeBlock_based hs depth hm hb) hbased htimely.1 hhangs
          (handleAlternativeBlock_outcome rules hsound.tree hknown depth)
    exact ⟨hresult.1.sound, handleAlternativeBlock_apart _ hsound.tree hknown (fun hin => hmem hin) hapart hresult.2⟩
  · rename_i hprev
    have hplace : ids.depth bl.prevId = n.base.chain.length := by
      rw [not_not.1 hprev, Base.tailId_eq ids]
      simpa [blocks] using hsound.tree.path.depth_tip
    have hdemands := htimely.1
    rw [hplace] at hdemands
    refine ⟨hsound.handleBlockToMainChain hs hknown hdemands, ?_⟩
    cases hverdict : n.base.accepted (rules.base n.version) bl with
    | none =>
      obtain ⟨pool, invalid, heq, -⟩ := handleBlockToMainChain_of_refused hverdict
      rw [heq]
      exact hapart
    | some txs =>
      rw [handleBlockToMainChain_of_accepted hverdict]
      intro b hb e he
      rw [blocks, set_chain, map_append] at hb
      rcases mem_append.1 hb with hb | hb
      · exact hapart b hb e he
      · grind [Base.entry, set_alternatives]

theorem Settled.arrive (hs : t.Scheduled) (h : n.Settled ids) (a : Arrival) (hknown : ids.Known a.block)
    (htimely : Timely ids n a.block) : (n.arrive a).Settled ids :=
  have hpool : (n.withPool a.pool).Settled ids := ⟨h.1.congr rfl rfl fun _ _ he => he, h.2⟩
  hpool.addNewBlock hs a.rules a.depth hknown htimely

/-- **Every block of the main chain has the version its height demands**, if those that arrive do and none starts a switch
across a fork height. -/
theorem versions_hold_over_runs (hs : t.Scheduled) (ids : BlockIds) (arrivals : List Arrival)
    (hknown : ∀ a ∈ arrivals, ids.Known a.block)
    (h : Meets arrive (fun n a => Timely ids n a.block) (init t) arrivals) :
    Always arrive (fun n => n.Versioned ∧ ∀ (rules : NodeRules) bl txs,
      n.base.accepted (rules.base n.version) bl = some txs →
      ((n.handleBlockToMainChain rules bl).1.Versioned ↔ t.Demands n.base.chain.length bl)) (init t) arrivals := by
  have hstep : ∀ (n : Node t) (a : Arrival), n.Settled ids → ids.Known a.block ∧ Timely ids n a.block →
      (n.arrive a).Settled ids :=
    fun n a hn hok => hn.arrive hs a hok.1 hok.2
  refine always_of_invariant hstep ?_ (settled_init ids t) ((meets_of_forall (fun a ha _ => hknown a ha) _).and h)
  rintro n ⟨hsound, -⟩
  exact ⟨versioned_of_inStep hsound.demands hsound.forks, fun rules bl txs hverdict => hsound.versioned_iff hs hverdict⟩

section Example

def plainBlock (id : UInt8) (majorVersion : UInt8) (prevId : Hash) (height : Nat) : Block :=
  ⟨Env.plainKey id, majorVersion, 0, 0, prevId, height, ⟨Env.plainKey (100 + id), 2, some []⟩, []⟩

def openNode : NodeRules := ⟨fun _ => .lenient [], fun k => 2 * k⟩

def genesis : Block := plainBlock 1 1 default 0

def forkBlocks : List Block :=
  [genesis, plainBlock 2 1 (Env.plainKey 1) 1, plainBlock 3 1 (Env.plainKey 1) 1, plainBlock 4 1 (Env.plainKey 3) 2]

def forkIds : BlockIds where
  block id := (forkBlocks.find? (·.id = id)).getD genesis
  depth id := ((forkBlocks.find? (·.id = id)).map (·.height + 1)).getD 0
  depth_root := by decide +kernel

def forkRun : List Arrival := forkBlocks.map (⟨·, openNode, 2, ∅⟩)

theorem forkRun_versioned :
    (run arrive (init .mainnet) forkRun).blocks.map (·.id) = [Env.plainKey 1, Env.plainKey 3, Env.plainKey 4] ∧
    (run arrive (init .mainnet) forkRun).Versioned := by
  have hknown : ∀ a ∈ forkRun, forkIds.Known a.block := by
    unfold HashTree.Naming.Known
    decide +kernel
  have hmeets : Meets arrive (fun n a => Timely forkIds n a.block) (init .mainnet) forkRun := by decide +kernel
  have halways := versions_hold_over_runs (t := .mainnet) (by decide +kernel) forkIds forkRun hknown hmeets
  exact ⟨by decide +kernel, (always_iff_initial.1 halways forkRun (prefix_refl _)).1⟩

theorem stored_blocks_arrived_forkRun : Sent forkRun (plainBlock 4 1 (Env.plainKey 3) 2) := by
  have hknown : ∀ a ∈ forkRun, forkIds.Known a.block := by
    unfold HashTree.Naming.Known
    decide +kernel
  exact (stored_blocks_arrived forkIds .mainnet hknown).1 _ (by decide +kernel)

theorem shared_block_shared_chain_forkRun :
    let direct := forkRun.filter fun a => a.block.id ≠ Env.plainKey 2
    (run arrive (init .mainnet) direct).base.popped.length ≠ (run arrive (init .mainnet) forkRun).base.popped.length ∧
    (run arrive (init .mainnet) direct).blocks.take 3 = (run arrive (init .mainnet) forkRun).blocks.take 3 := by
  intro direct
  have hknown : ∀ a ∈ direct ++ forkRun, forkIds.Known a.block := by
    unfold HashTree.Naming.Known
    decide +kernel
  exact ⟨by decide +kernel, (shared_block_shared_chain forkIds (i := 2) (j := 2) (b := plainBlock 4 1 (Env.plainKey 3) 2)
    hknown (by decide +kernel) (by decide +kernel) rfl).2⟩

/-- A block of version 5 on top of the first block: the check says no, the block is stored, and there is
no version on record for it. -/
theorem wrongVersion_stored :
    let n := run arrive (init .mainnet) [⟨genesis, openNode, 2, ∅⟩]
    let bl := plainBlock 2 5 (Env.plainKey 1) 1
    let r := n.handleBlockToMainChain openNode bl
    n.forks.hardFork.check bl = false ∧ r.2 = true ∧ r.1.blocks = [genesis, bl] ∧ r.1.forks.refused = [1] ∧
    r.1.forks.recorded 1 = none := by
  decide +kernel

end Example

end Node

end Electronero
