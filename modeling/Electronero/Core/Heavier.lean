import Electronero.Core.SteadyChain
import Electronero.Core.FailedSwitch
/-!
# The main chain gets heavier

A switch is decided on a difficulty from `get_next_difficulty_for_alternative_chain`, but blocks are stored with those of
`get_difficulty_for_next_block`. Around the fork heights the two differ (`rival_not_heavier`).
-/
namespace Electronero
open Text FiniteMap Machine Difficulty List

namespace Node
variable {t : ForkTable} {ids : BlockIds} {rules : NodeRules} {n m : Node t} {bl : Block} {bei : BlockExtendedInfo}
  {pre post : Chain}

def Weighable (ids : BlockIds) (n : Node t) (a : Arrival) : Prop :=
  Fits ids a.block ∧ (a.block.prevId ≠ n.base.tailId → Fair ids a.rules n a.block)

theorem Assessed.arrive (h : n.Assessed ids) (a : Arrival) (hrules : a.rules.Mainnet) (hknown : ids.Known a.block)
    (hweighable : Weighable ids n a) : (n.arrive a).Assessed ids := by
  have hpool : (n.withPool a.pool).Assessed ids :=
    ⟨h.inside.of_chain h.inside.tree.path h.inside.blocks fun _ _ he => he, h.weighed.of_chain h.weighed.chain fun _ _ he => he⟩
  exact hpool.addNewBlock hrules hknown hweighable.1 (fun hprev => ⟨(hweighable.2 hprev).new, (hweighable.2 hprev).old⟩) a.depth

theorem Assessed.difficulty_eq (h : n.Assessed ids) (hknown : ids.Known bl)
    (hconnects : n.base.connectsToMain (n.altChain bl) bl = true) (hrules : rules.Mainnet) (htree : m.Tree ids)
    (hgrows : Grows rules [] m.base.chain) (htail : m.base.tailId = bl.prevId)
    (hagree : Agreeing m.base.chain.length n.base.chain.length) :
    getNextDifficultyForAlternativeChain n.base.chain (n.altChain bl) bl = getDifficultyForNextBlock m.base.chain := by
  obtain ⟨pre, post, hplaced⟩ := placed_of_connectsToMain h.inside.tree hknown hconnects
  have hweighs : Weighs m.base.chain := hgrows.weighs hrules fun i e he => by cases he
  obtain ⟨hpath, -, hprev⟩ := HashTree.Naming.path_snoc.1 hplaced.path
  have hblocks : m.base.chain.map (·.block) = pathBelow pre (n.altChain bl) :=
    htree.path.unique hpath (((Base.tailId_eq ids m.base).symm.trans htail).trans hprev)
  have hlen : Agreeing (weights (pathBelow pre (n.altChain bl))).length n.base.chain.length := by
    rwa [hplaced.length_weights, hplaced.depth_eq, ← hblocks, length_map]
  rw [hplaced.difficulty_eq h.inside.tree h.weighed, getDifficultyForNextBlock, hweighs.samples, hblocks,
    forNextBlock_of_agreeing hlen]

theorem always_assessed (ids : BlockIds) {arrivals : List Arrival} (hknown : ∀ a ∈ arrivals, ids.Known a.block ∧ a.rules.Mainnet)
    (hmeets : Meets arrive (Weighable ids) (init t) arrivals) : Always arrive (Assessed ids) (init t) arrivals := by
  have hstep : ∀ (n : Node t) (a : Arrival), n.Assessed ids → (ids.Known a.block ∧ a.rules.Mainnet) ∧ Weighable ids n a →
      (n.arrive a).Assessed ids :=
    fun n a hn hok => hn.arrive a hok.1.2 hok.1.1 hok.2
  exact always_of_invariant hstep (fun _ hn => hn) (assessed_init ids t)
    ((meets_of_forall (fun a ha _ => hknown a ha) _).and hmeets)

/-- **The two difficulty rules agree exactly at agreeing heights**, over all samples and in every state of a fair run. -/
theorem difficulty_rules_agree (ids : BlockIds) (arrivals : List Arrival)
    (hknown : ∀ a ∈ arrivals, ids.Known a.block ∧ a.rules.Mainnet)
    (hmeets : Meets arrive (Weighable ids) (init t) arrivals) : (∀ h H, 0 < h → h ≤ H ∨ 2 ≤ H →
      ((∀ (main : List Sample) (stopOffset : Nat) (altChain : List Sample), main.length = H → 0 < stopOffset →
        stopOffset + altChain.length = h → stopOffset < H ∨ stopOffset = H ∧ altChain = [] →
        forAlternativeChain main stopOffset altChain = forNextBlock (main.take stopOffset ++ altChain)) ↔ Agreeing h H)) ∧
    Always arrive (fun n => ∀ (m : Node t) (rules : NodeRules) (bl : Block), ids.Known bl →
      n.base.connectsToMain (n.altChain bl) bl = true → rules.Mainnet → m.Tree ids → Grows rules [] m.base.chain →
      m.base.tailId = bl.prevId → Agreeing m.base.chain.length n.base.chain.length →
      getNextDifficultyForAlternativeChain n.base.chain (n.altChain bl) bl = getDifficultyForNextBlock m.base.chain)
      (init t) arrivals := by
  refine ⟨fun h H hpos hreach => forAlternativeChain_eq_iff hpos hreach, always_iff_initial.2 fun done hdone => ?_⟩
  have hn := always_iff_initial.1 (always_assessed ids hknown hmeets) done hdone
  intro m rules bl hbl hconnects hrules htree hgrows htail hagree
  exact hn.difficulty_eq hbl hconnects hrules htree hgrows htail hagree

variable {c : List Block}

theorem forNextBlock_of_short (h : c.length ≤ 2) : forNextBlock (weights c) = 1 := by
  have hlen : (weights c).length ≤ 2 := by simpa [weights] using h
  rw [forNextBlock_of_agreeing (H := 0) (Or.inl hlen)]
  exact Era.next_of_short _ ((length_window_le _ _).trans (by omega))

theorem weightOf_of_short (h : c.length ≤ 3) : weightOf c = c.length := by
  induction c using List.reverseRecOn with
  | nil => rfl
  | append_singleton c b ih =>
    rw [length_append, length_singleton] at h ⊢
    rw [weightOf_snoc, ih (by omega), forNextBlock_of_short (by omega)]
    exact Nat.mod_eq_of_lt (by simp [UInt64.size]; omega)

theorem weighable_of_short {a : Arrival} (hdepth : ids.depth a.block.prevId ≤ 2) (hlen : n.base.chain.length ≤ 3)
    (hcheckpoint : ∀ v height id, (a.rules.base v).checkpoint height id = some false) : Weighable ids n a := by
  refine ⟨fun c hc => ?_, fun _ => ⟨Or.inl hdepth, fun c _ _ i x _ hx => ⟨Or.inl ?_, fun v => ?_⟩⟩⟩
  · obtain ⟨hpath, -, hprev⟩ := HashTree.Naming.path_snoc.1 hc
    have hc' : c.length ≤ 2 := by
      rw [← hpath.depth_tip, ← hprev]
      exact hdepth
    rw [weightOf_of_short (by omega), forNextBlock_of_short hc']
    simp [UInt64.size]
    omega
  · have hi := (List.getElem?_eq_some_iff.1 hx).1
    rw [blocks, length_map] at hi
    omega
  · rw [hcheckpoint]
    decide

def sideRun : List Arrival := forkBlocks.map (⟨·, minedRules (fun _ => 1), 2, ∅⟩)

theorem sideRun_known : ∀ a ∈ sideRun, forkIds.Known a.block ∧ a.rules.Mainnet := by
  intro a ha
  obtain ⟨bl, hbl, rfl⟩ := List.mem_map.1 ha
  have hall : ∀ bl ∈ forkBlocks, forkIds.Known bl := by
    unfold HashTree.Naming.Known
    decide +kernel
  exact ⟨hall bl hbl, mainnet_minedRules _⟩

theorem sideRun_agrees :
    let n := run arrive (init .mainnet) (sideRun.take 3)
    let m := run arrive (init .mainnet) (sideRun.eraseIdx 1 |>.take 2)
    let bl := plainBlock 4 1 (Env.plainKey 3) 2
    (n.base.alternatives.lookup (Env.plainKey 3)).isSome = true ∧
    getNextDifficultyForAlternativeChain n.base.chain (n.altChain bl) bl = getDifficultyForNextBlock m.base.chain := by
  intro n m bl
  have hmeets : Meets arrive (Weighable forkIds) (init .mainnet) (sideRun.take 3) := by
    refine ⟨?_, ?_, ?_, trivial⟩ <;> exact weighable_of_short (by decide +kernel) (by decide +kernel) fun _ _ _ => rfl
  have hagrees := (difficulty_rules_agree forkIds (sideRun.take 3) (fun a ha => sideRun_known a (mem_of_mem_take ha)) hmeets).2
  let first : Chain := [⟨genesis, [], 1⟩]
  have hblocks : m.base.chain = first ++ [⟨plainBlock 3 1 (Env.plainKey 1) 1, [], 2⟩] := by decide +kernel
  have hgrows : Grows (minedRules fun _ => 1) [] m.base.chain := by
    rw [hblocks]
    have hfirst : Grows (minedRules fun _ => 1) [] first :=
      @Grows.snoc _ [] (Base.ofChain []) genesis [] 1 .refl (by decide +kernel)
    exact @Grows.snoc _ [] (Base.ofChain first) _ [] 1 hfirst (by decide +kernel)
  have htree : m.Tree forkIds := by
    refine ⟨?_, fun id e he => ?_⟩
    · rw [Node.blocks, hblocks]
      refine HashTree.Naming.path_snoc.2 ⟨HashTree.Naming.path_snoc (c := []).2 ⟨HashTree.Naming.path_nil, ?_⟩, ?_⟩
      · exact ⟨⟨by decide +kernel, by decide +kernel⟩, by decide +kernel⟩
      · exact ⟨⟨by decide +kernel, by decide +kernel⟩, by decide +kernel⟩
    · rw [show m.base.alternatives = ∅ by decide +kernel] at he
      cases he
  exact ⟨by decide +kernel, always_iff_initial.1 hagrees _ (prefix_refl _) m _ bl ⟨by decide +kernel, by decide +kernel⟩
    (by decide +kernel) (mainnet_minedRules fun _ => 1) htree hgrows (by decide +kernel) (Or.inl (by decide +kernel))⟩

/-- At height 307000 the main chain asks for 255, and for 1 if the block is an alternative block. -/
theorem fixedDifficulty_not_asked :
    let n := run arrive (init .mainnet) (steadyArrivals (fun _ => 287) 307001)
    let m := run arrive (init .mainnet) (steadyArrivals (fun _ => 287) 307000)
    let bl := rivalBlock 307000
    bl.prevId = m.base.tailId ∧ n.base.connectsToMain (n.altChain bl) bl = true ∧
    getNextDifficultyForAlternativeChain n.base.chain (n.altChain bl) bl = 1 ∧
    getDifficultyForNextBlock m.base.chain = 255 := by
  intro n m bl
  have hn : n.Steady 307001 := steady_run (fun _ => le_rfl) (by omega)
  have hm : m.Steady 307000 := steady_run (fun _ => le_rfl) (by omega)
  clear_value n m
  have hbeside : Beside 307000 n bl := hn.beside (by omega) (by omega) (by omega)
  refine ⟨?_, hbeside.connectsToMain, ?_, ?_⟩
  · exact (rivalBlock_prevId _).trans hm.tailId.symm
  · rw [hbeside.difficulty_eq, hn.chain, length_steadyChain, era_of_lt (by omega), demand_era1_steady (by omega)]
    rfl
  · rw [hm.chain, getDifficultyForNextBlock_steady (by omega)]
    decide

section
variable {discard : Bool} {stored popped : Chain} {pool : Pool} {invalid : Finset Hash}

theorem abandoned_restores (hs : t.Scheduled) (hsound : n.Sound ids) (hstored : Stored n.base.chain)
    (hreturn : ∀ v, Base.Returnable (rules.base v)) (hangs : Hangs ids rules n bl bei pre post)
    (hpool : returned pool stored = returned n.base.pool post)
    (hreconnects : ∀ j e, post[j]? = some e → Reconnects rules t (pre ++ post.take j) e) :
    (rollback rules (connected rules n bei discard pre stored popped pool invalid) (post.map (·.block))
      pre.length).1.base.chain = n.base.chain := by
  have hdemands := hsound.demands
  rw [blocks, hangs.chain] at hdemands
  have hpre := (hsound.demands_append hangs.chain).1
  have hle : pre.length ≤ n.base.chain.length := by simp [hangs.chain]
  rw [hangs.chain] at hstored
  obtain ⟨hindex, hrecorded⟩ := addAll_le hs n.forks pre.length (stored.map (·.block))
  obtain ⟨popped', forks, hroll, htrack⟩ := rollback_eq
    (m := connected rules n bei discard pre stored popped pool invalid) rules hs hreturn hangs.nonempty rfl hpre
    (fun i hi => (hrecorded i hi).trans (hsound.forks.recorded i (by omega)))
    (le_trans (by rw [hsound.forks.index]; exact ForkTable.idealIndex_mono hle) hindex) (post.map (·.block))
  have hsupplies : ∀ e ∈ post, Supplies (returned pool stored) e := by
    rw [hpool]
    exact fun e he => supplies_returned hstored.append.2 _ he
  rw [hroll, hangs.chain]
  exact (reconnect_restores_iff (m := (connected rules n bei discard pre stored popped pool invalid).set pre popped'
    (returned pool stored) invalid forks) rules hs hangs.nonempty hdemands htrack hstored.append.2 hsupplies).1.2 hreconnects

end

structure Orderly (ids : BlockIds) (n : Node t) (a : Arrival) : Prop where
  timely : Timely ids n a.block
  weighable : Weighable ids n a
  keyed : Base.Keyed a.pool
  returnable : ∀ v, Base.Returnable (a.rules.base v)
  /-- the blocks a switch would disconnect still pass where they are -/
  reconnects : a.block.prevId ≠ n.base.tailId → ∀ j e, ids.depth (parentOf (n.altChain a.block) a.block.prevId) ≤ j →
    n.base.chain[j]? = some e → Reconnects a.rules t (n.base.chain.take j) e

structure Balanced (ids : BlockIds) (n : Node t) : Prop where
  settled : n.Settled ids
  assessed : n.Assessed ids
  stored : Stored n.base.chain

def GetsHeavier (ids : BlockIds) (n : Node t) (a : Arrival) : Prop :=
  (n.arrive a).base.tailId ≠ n.base.tailId →
    (a.block.prevId ≠ n.base.tailId ∧
      (a.rules.base n.version).checkpoint (ids.depth a.block.prevId) a.block.id = some true) ∨
    n.base.topDifficulty < (n.arrive a).base.topDifficulty

inductive ChainStep (ids : BlockIds) (rules : NodeRules) (n : Node t) (bl : Block) (chain : Chain) : Prop
  | same : chain = n.base.chain → ChainStep ids rules n bl chain
  | checkpoint : bl.prevId ≠ n.base.tailId → (rules.base n.version).checkpoint (ids.depth bl.prevId) bl.id = some true →
      Stored chain → ChainStep ids rules n bl chain
  | heavier : n.base.topDifficulty < (Base.ofChain chain).topDifficulty → Stored chain → ChainStep ids rules n bl chain

theorem Balanced.handleAlternativeBlock (hs : t.Scheduled) (hrules : rules.Mainnet) (h : n.Balanced ids)
    (hknown : ids.Known bl) (hprev : bl.prevId ≠ n.base.tailId) (hfair : Fair ids rules n bl)
    (hkeyed : Base.Keyed n.base.pool) (hreturn : ∀ v, Base.Returnable (rules.base v))
    (hreconnects : ∀ j e, ids.depth (parentOf (n.altChain bl) bl.prevId) ≤ j → n.base.chain[j]? = some e →
      Reconnects rules t (n.base.chain.take j) e) (depth : Nat) :
    ChainStep ids rules n bl (Node.handleAlternativeBlock rules depth n bl).1.base.chain := by
  obtain ⟨⟨hsound, -⟩, ⟨hin, hw⟩, hstoredTxs⟩ := h
  cases depth with
  | zero => exact .same rfl
  | succ depth =>
    have hout := handleAlternativeBlock_outcome rules hin.tree hknown depth
    generalize Node.handleAlternativeBlock rules (depth + 1) n bl = r at hout ⊢
    cases hout with
    | same result => exact .same rfl
    | kept hangs => exact .same (by rw [insertAlternative_base])
    | @switched bei pre post hangs discard hwhy stored popped pool invalid hstored hgrows htxs =>
      obtain ⟨hchain, -⟩ := @switched_weighed rules t ids n bl bei pre post discard stored popped pool invalid hrules hin hw
        hfair hangs hwhy hstored hgrows depth
      rw [finishSwitch_chain, hchain]
      have hnew := htxs hkeyed hreturn hstoredTxs
      cases discard with
      | true =>
        unfold Prevails at hwhy
        rw [hangs.height] at hwhy
        exact .checkpoint hprev hwhy hnew
      | false =>
        have hweighs := hw.chain
        rw [hangs.chain] at hweighs
        have htop := @Weighs.topDifficulty (Base.ofChain (pre ++ stored)) (hgrows.weighs hrules hweighs.of_append)
        refine .heavier ?_ hnew
        unfold Prevails at hwhy
        rw [hangs.cumulativeDifficulty_eq hrules hin.tree hw hfair.new, ← hangs.connected_blocks hstored] at hwhy
        rw [htop]
        exact hwhy
    | @abandoned bei pre post hangs discard hwhy done failed hits hne stored popped pool invalid hstored hgrows hpool =>
      refine .same ?_
      rw [abandonSwitch_chain]
      refine abandoned_restores hs hsound hstoredTxs hreturn hangs (hpool hkeyed hreturn) fun j e he => ?_
      have hsplit := hangs.depth_parent
      have hfull := hreconnects (pre.length + j) e (by omega) (by
        rw [hangs.chain, getElem?_append_right (by omega)]
        simpa using he)
      rwa [hangs.chain, take_append, take_of_length_le (by omega), Nat.add_sub_cancel_left] at hfull

theorem Balanced.handleBlockToMainChain (hrules : rules.Mainnet) (h : n.Balanced ids) (hknown : ids.Known bl)
    (hfits : Fits ids bl) (hkeyed : Base.Keyed n.base.pool) :
    ChainStep ids rules n bl (n.handleBlockToMainChain rules bl).1.base.chain := by
  obtain ⟨-, ⟨hin, hw⟩, hstored⟩ := h
  cases hverdict : n.base.accepted (rules.base n.version) bl with
  | none =>
    obtain ⟨pool, invalid, heq, -⟩ := handleBlockToMainChain_of_refused hverdict
    rw [heq]
    exact .same rfl
  | some txs =>
    rw [handleBlockToMainChain_of_accepted hverdict, set_chain]
    refine .heavier ?_ (hstored.snoc hkeyed hverdict)
    have hpath := hin.tree.path_accepted hknown hverdict
    rw [map_append, map_singleton] at hpath
    have hdifficulty := Base.accepted_difficulty hverdict
    rw [(hrules _).1, getDifficultyForNextBlock, hw.chain.samples] at hdifficulty
    have htop := @Weighs.topDifficulty (Base.ofChain (n.base.chain ++ [n.base.entry (rules.base n.version) bl txs]))
      (hw.chain.snoc hrules _ _ _)
    rw [show (Base.ofChain (n.base.chain ++ [n.base.entry (rules.base n.version) bl txs])).chain =
      n.base.chain ++ [n.base.entry (rules.base n.version) bl txs] from rfl, map_append, map_singleton] at htop
    rw [htop, hw.chain.topDifficulty]
    exact Nat.lt_of_lt_of_eq (Nat.lt_add_of_pos_right (Nat.pos_of_ne_zero hdifficulty)) (hfits.weightOf_eq hpath).symm

theorem Balanced.addNewBlock (hs : t.Scheduled) (hrules : rules.Mainnet) (h : n.Balanced ids) (hknown : ids.Known bl)
    (hfits : Fits ids bl) (hfair : bl.prevId ≠ n.base.tailId → Fair ids rules n bl) (hkeyed : Base.Keyed n.base.pool)
    (hreturn : ∀ v, Base.Returnable (rules.base v))
    (hreconnects : bl.prevId ≠ n.base.tailId → ∀ j e, ids.depth (parentOf (n.altChain bl) bl.prevId) ≤ j →
      n.base.chain[j]? = some e → Reconnects rules t (n.base.chain.take j) e) (depth : Nat) :
    ChainStep ids rules n bl (n.addNewBlock rules depth bl).1.base.chain := by
  unfold Node.addNewBlock
  split
  · exact .same rfl
  split
  · rename_i hprev
    exact h.handleAlternativeBlock hs hrules hknown hprev (hfair hprev) hkeyed hreturn (hreconnects hprev) depth
  · exact h.handleBlockToMainChain hrules hknown hfits hkeyed

theorem Balanced.arrive (hs : t.Scheduled) (h : n.Balanced ids) (a : Arrival) (hknown : ids.Known a.block)
    (hrules : a.rules.Mainnet) (ha : Orderly ids n a) : (n.arrive a).Balanced ids ∧ GetsHeavier ids n a := by
  have hpool : (n.withPool a.pool).Balanced ids := by
    refine ⟨⟨h.settled.1.congr rfl rfl fun _ _ he => he, h.settled.2⟩, ⟨?_, ?_⟩, h.stored⟩
    · exact h.assessed.inside.of_chain h.assessed.inside.tree.path h.assessed.inside.blocks fun _ _ he => he
    · exact h.assessed.weighed.of_chain h.assessed.weighed.chain fun _ _ he => he
  have hstep : ChainStep ids a.rules (n.withPool a.pool) a.block (n.arrive a).base.chain :=
    hpool.addNewBlock hs hrules hknown ha.weighable.1
      (fun hprev => ⟨(ha.weighable.2 hprev).new, (ha.weighable.2 hprev).old⟩) ha.keyed ha.returnable ha.reconnects a.depth
  have hsettled := h.settled.arrive hs a hknown ha.timely
  have hassessed := h.assessed.arrive a hrules hknown ha.weighable
  cases hstep with
  | same hchain =>
    refine ⟨⟨hsettled, hassessed, by rw [hchain]; exact h.stored⟩, fun htail => absurd ?_ htail⟩
    unfold Base.tailId
    rw [hchain]
    rfl
  | checkpoint hprev hcheckpoint hstored => exact ⟨⟨hsettled, hassessed, hstored⟩, fun _ => Or.inl ⟨hprev, hcheckpoint⟩⟩
  | heavier htop hstored => exact ⟨⟨hsettled, hassessed, hstored⟩, fun _ => Or.inr htop⟩

/-- **The main chain only ever gets heavier**, in every run in which every step is orderly. -/
theorem main_chain_only_heavier (hs : t.Scheduled) (ids : BlockIds) (arrivals : List Arrival)
    (hknown : ∀ a ∈ arrivals, ids.Known a.block ∧ a.rules.Mainnet)
    (hmeets : Meets arrive (Orderly ids) (init t) arrivals) : Meets arrive (GetsHeavier ids) (init t) arrivals := by
  have hinit : (init t).Balanced ids :=
    ⟨settled_init ids t, assessed_init ids t, fun e he => absurd he not_mem_nil, nodup_nil⟩
  have hstep : ∀ (n : Node t) (a : Arrival), n.Balanced ids → (ids.Known a.block ∧ a.rules.Mainnet) ∧ Orderly ids n a →
      (n.arrive a).Balanced ids ∧ GetsHeavier ids n a :=
    fun n a hn hok => hn.arrive hs a hok.1.1 hok.1.2 hok.2
  exact meets_of_invariant hstep hinit ((meets_of_forall (fun a ha _ => hknown a ha) _).and hmeets)

theorem sideRun_orderly {n : Node .mainnet} (htimely : Timely forkIds n bl)
    (hdepth : forkIds.depth bl.prevId ≤ 2) (hlen : n.base.chain.length ≤ 3)
    (hreconnects : ∀ j : Fin n.base.chain.length,
      Reconnects (minedRules fun _ => 1) .mainnet (n.base.chain.take j) n.base.chain[j]) :
    Orderly forkIds n ⟨bl, minedRules (fun _ => 1), 2, ∅⟩ where
  timely := htimely
  weighable := weighable_of_short hdepth hlen fun _ _ _ => rfl
  keyed := fun _ _ h => by cases h
  returnable := fun _ _ _ _ => rfl
  reconnects := fun _ j e _ he => by
    obtain ⟨hj, rfl⟩ := List.getElem?_eq_some_iff.1 he
    exact hreconnects ⟨j, hj⟩

theorem sideRun_heavier :
    (run arrive (init .mainnet) sideRun).blocks.map (·.id) = [Env.plainKey 1, Env.plainKey 3, Env.plainKey 4] ∧
    Meets arrive (GetsHeavier forkIds) (init .mainnet) sideRun := by
  have hmeets : Meets arrive (Orderly forkIds) (init .mainnet) sideRun := by
    refine ⟨?_, ?_, ?_, ?_, trivial⟩ <;>
      exact sideRun_orderly (by decide +kernel) (by decide +kernel) (by decide +kernel) (by decide +kernel)
  exact ⟨by decide +kernel, main_chain_only_heavier (by decide +kernel) forkIds sideRun sideRun_known hmeets⟩

theorem Steady.replaced {n : Node .mainnet} {work : Block → Nat} {i : Nat} (hi : i = 307050) (hn : n.Steady (i + 1))
    (hwork : 476 ≤ work (rivalBlock i)) (hlow : work (steadyBlock i) < 476) :
    (n.arrive ⟨rivalBlock i, minedRules work, 3, ∅⟩).base.chain = steadyChain i ++ [⟨rivalBlock i, [], steadyWeight i⟩] := by
  have hbeside : Beside i n (rivalBlock i) := hn.beside (by omega) (by omega) (by omega)
  have hhave : n.base.haveBlock (rivalBlock i).id = false := by
    rw [hn.base]
    exact haveBlock_steady (by omega) (by omega) fun j hj => by omega
  have hprev : (rivalBlock i).prevId ≠ n.base.tailId := by
    rw [hn.tailId, rivalBlock_prevId]
    intro heq
    have := numberHash_injective (by omega) (by omega) heq
    omega
  obtain ⟨popped, pool, hresult, hback⟩ := hbeside.replaces work hi (hn.chain.trans (steadyChain_succ i)) (Or.inl rfl) hwork
    (by rw [hn.base]; rfl) 2
  unfold Node.arrive Node.addNewBlock
  dsimp only
  rw [hn.withPool, hhave, if_neg (by simp), if_pos hprev, hresult, finishSwitch_chain]
  have hjudge := hback.judgeAlternative_contest work hi (by simp)
  rw [if_neg (by omega)] at hjudge
  rw [pushAll, Node.handleAlternativeBlock, hjudge]
  rfl

/-- At height 307050 a block in the place of the tip is taken for 189 heavier than the tip and is stored with the
same cumulative difficulty. -/
theorem rival_not_heavier :
    let work := fun bl : Block => if bl.id = (rivalBlock 307050).id then 476 else 287
    let n := run arrive (init .mainnet) (steadyArrivals work 307051)
    let a : Arrival := ⟨rivalBlock 307050, minedRules work, 3, ∅⟩
    n.base.tailId = (steadyBlock 307050).id ∧ (n.arrive a).base.tailId = (rivalBlock 307050).id ∧
    (n.arrive a).base.topDifficulty = n.base.topDifficulty ∧ ¬GetsHeavier steadyIds n a := by
  intro work n a
  have hn : n.Steady 307051 := by
    refine steady_run (fun i => ?_) (by omega)
    show 287 ≤ if _ then _ else _
    split <;> decide
  have hwork : 476 ≤ work (rivalBlock 307050) := le_of_eq (if_pos rfl).symm
  have hlow : work (steadyBlock 307050) < 476 := by decide +kernel
  clear_value n work
  have hchain := @Steady.replaced n work 307050 rfl hn hwork hlow
  have htail := hn.tailId
  have htail' : (n.arrive a).base.tailId = (rivalBlock 307050).id := by
    unfold Base.tailId
    rw [hchain, getLast?_append]
    rfl
  have htop : (n.arrive a).base.topDifficulty = n.base.topDifficulty := by
    rw [topDifficulty_steady hn.chain]
    unfold Base.topDifficulty
    rw [hchain, getLast?_append]
    rfl
  refine ⟨htail, htail', htop, fun hheavier => ?_⟩
  rcases hheavier (by rw [htail, htail']; decide +kernel) with ⟨-, hcheckpoint⟩ | hlt
  · cases hcheckpoint
  · exact absurd hlt (by rw [htop]; exact lt_irrefl _)

end Node

end Electronero
