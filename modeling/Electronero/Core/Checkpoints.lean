import Electronero.Core.Versions
import Mathlib.Data.List.TakeWhile
/-!
# Checkpoints (`src/checkpoints/checkpoints.cpp`, blockchain.cpp:1309, 1631, 1704, 3697)

The rule for alternative blocks takes the number of blocks for the height of the top one, so a checkpoint right above the
chain counts as passed.
-/
namespace Electronero
open Text FiniteMap Machine List

structure Checkpoints where
  points : List (Nat × Hash)
  sorted : points.Pairwise fun p q => p.1 < q.1

namespace Checkpoints
variable (cps : Checkpoints)

def find (height : Nat) : Option Hash := (cps.points.find? (·.1 == height)).map (·.2)

def At (height : Nat) : Prop := (cps.find height).isSome = true

instance (height : Nat) : Decidable (cps.At height) := inferInstanceAs (Decidable (_ = true))

def isInCheckpointZone (height : Nat) : Bool :=
  match cps.points.getLast? with
  | none => false
  | some last => decide (height ≤ last.1)

def checkBlock (height : Nat) (id : Hash) : Option Bool :=
  match cps.find height with
  | none => some false
  | some hash => if hash = id then some true else none

def isAlternativeBlockAllowed (blockchainHeight blockHeight : Nat) : Bool :=
  if blockHeight = 0 then false
  else
    -- the element before `m_points.upper_bound(blockchain_height)`
    match (cps.points.takeWhile fun p => decide (p.1 ≤ blockchainHeight)).getLast? with
    | none => true
    | some p => decide (p.1 < blockHeight)

variable {cps}

variable {c height : Nat} {p : Nat × Hash} {l : List (Nat × Hash)}

theorem exists_mem_of_at (h : cps.At c) : ∃ p ∈ cps.points, p.1 = c := by
  obtain ⟨hash, hash'⟩ := Option.isSome_iff_exists.1 h
  obtain ⟨p, hp, -⟩ := Option.map_eq_some_iff.1 hash'
  grind

theorem at_of_mem (h : p ∈ cps.points) : cps.At p.1 := by
  unfold At find
  grind

theorem le_of_getLast? (hl : l.Pairwise fun p q => p.1 < q.1) {last : Nat × Hash}
    (h : l.getLast? = some last) (hp : p ∈ l) : p.1 ≤ last.1 := by
  obtain ⟨init, rfl⟩ := getLast?_eq_some_iff.1 h
  grind

theorem mem_takeWhile (hl : l.Pairwise fun p q => p.1 < q.1)
    (hp : p ∈ l) (h : p.1 ≤ height) : p ∈ l.takeWhile fun q => decide (q.1 ≤ height) := by
  induction l with
  | nil => cases hp
  | cons q rest ih =>
    obtain ⟨hq, hrest⟩ := pairwise_cons.1 hl
    rcases mem_cons.1 hp with rfl | hp
    · simp [h]
    · have hle : q.1 ≤ height := (hq p hp).le.trans h
      simp_all

theorem isAlternativeBlockAllowed_iff {blockchainHeight blockHeight : Nat} :
    cps.isAlternativeBlockAllowed blockchainHeight blockHeight = true ↔
      blockHeight ≠ 0 ∧ ∀ c, cps.At c → c ≤ blockchainHeight → c < blockHeight := by
  unfold isAlternativeBlockAllowed
  by_cases h0 : blockHeight = 0
  · simp [h0]
  rw [if_neg h0]
  have hsorted := cps.sorted.sublist (takeWhile_sublist fun p => decide (p.1 ≤ blockchainHeight))
  cases hlast : (cps.points.takeWhile fun p => decide (p.1 ≤ blockchainHeight)).getLast? with
  | none =>
    refine iff_of_true rfl ⟨h0, fun c hc hle => ?_⟩
    obtain ⟨p, hp, rfl⟩ := exists_mem_of_at hc
    have hmem := mem_takeWhile cps.sorted hp hle
    grind
  | some last =>
    have hmem := mem_of_getLast? hlast
    have hle : last.1 ≤ blockchainHeight := by simpa using mem_takeWhile_imp hmem
    simp only [decide_eq_true_eq]
    constructor
    · intro hlt
      refine ⟨h0, fun c hc hcle => ?_⟩
      obtain ⟨p, hp, rfl⟩ := exists_mem_of_at hc
      exact lt_of_le_of_lt (le_of_getLast? hsorted hlast (mem_takeWhile cps.sorted hp hcle)) hlt
    · rintro ⟨-, h⟩
      exact h last.1 (at_of_mem ((takeWhile_sublist _).subset hmem)) hle

theorem isInCheckpointZone_of_at (h : cps.At c) : cps.isInCheckpointZone c = true := by
  obtain ⟨p, hp, rfl⟩ := exists_mem_of_at h
  unfold isInCheckpointZone
  cases hlast : cps.points.getLast? with
  | none => grind
  | some last => simpa using le_of_getLast? cps.sorted hlast hp

theorem eq_of_checkBlock {id hash : Hash} (h : (cps.checkBlock height id).isSome = true)
    (hfind : cps.find height = some hash) : id = hash := by
  unfold checkBlock at h
  grind

end Checkpoints

structure NodeRules.Checked (rules : NodeRules) (cps : Checkpoints) : Prop where
  allowed : ∀ v chain bl, (rules.base v).alternativeAllowed chain bl =
    cps.isAlternativeBlockAllowed chain.length bl.height
  checkpoint : ∀ v, (rules.base v).checkpoint = cps.checkBlock
  header : ∀ v chain bl, (rules.base v).checkHeader chain bl = true →
    (cps.isInCheckpointZone chain.length = true → (cps.checkBlock chain.length bl.id).isSome = true) ∧
      bl.height = chain.length
  proof : ∀ v chain bl height difficulty, (rules.base v).alternativeProof chain bl height difficulty = true →
    bl.height = height

def NodeRules.withCheckpoints (rules : NodeRules) (cps : Checkpoints) : NodeRules :=
  { rules with
    base := fun v =>
      { rules.base v with
        alternativeAllowed := fun chain bl => cps.isAlternativeBlockAllowed chain.length bl.height
        checkpoint := cps.checkBlock
        checkHeader := fun chain bl => (rules.base v).checkHeader chain bl &&
          (!cps.isInCheckpointZone chain.length || (cps.checkBlock chain.length bl.id).isSome) &&
          decide (bl.height = chain.length)
        alternativeProof := fun chain bl height difficulty =>
          (rules.base v).alternativeProof chain bl height difficulty && decide (bl.height = height) } }

theorem NodeRules.checked_withCheckpoints (rules : NodeRules) (cps : Checkpoints) : (rules.withCheckpoints cps).Checked cps where
  allowed _ _ _ := rfl
  checkpoint _ := rfl
  header v chain bl h := by
    simp only [withCheckpoints, Bool.and_eq_true, Bool.or_eq_true, Bool.not_eq_true', decide_eq_true_eq] at h
    exact ⟨fun hzone => h.1.2.resolve_left (by simp [hzone]), h.2⟩
  proof v chain bl height difficulty h := by
    simp only [withCheckpoints, Bool.and_eq_true, decide_eq_true_eq] at h
    exact h.2

namespace Node
variable {t : ForkTable} {ids : BlockIds} {cps : Checkpoints} {rules : NodeRules} {n m : Node t} {bl : Block}

/-! ## A checkpoint that is not reached yet -/

def RefusedByCheckpoints (cps : Checkpoints) (n : Node t) (bl : Block) : Prop :=
  bl.height ≠ 0 ∧ cps.isAlternativeBlockAllowed n.base.chain.length bl.height = false

instance (n : Node t) (bl : Block) : Decidable (RefusedByCheckpoints cps n bl) := inferInstanceAs (Decidable (_ ∧ _))

theorem refusedByCheckpoints_iff : RefusedByCheckpoints cps n bl ↔
    bl.height ≠ 0 ∧ ∃ c, cps.At c ∧ bl.height ≤ c ∧ c ≤ n.base.chain.length := by
  unfold RefusedByCheckpoints
  rw [← Bool.not_eq_true, Checkpoints.isAlternativeBlockAllowed_iff]
  grind

theorem RefusedByCheckpoints.judgeAlternative (hrules : rules.Checked cps) (h : RefusedByCheckpoints cps n bl) :
    Node.judgeAlternative rules n bl = .refused := by
  unfold Node.judgeAlternative
  rw [if_pos (by simp [hrules.allowed, h.2])]

/-- **Only reached checkpoints refuse**, exactly as long as the chain does not end right below a checkpoint. -/
theorem checkpoint_refusals_reached_iff (cps : Checkpoints) (n : Node t) :
    (∀ bl, RefusedByCheckpoints cps n bl → ∃ c, cps.At c ∧ bl.height ≤ c ∧ c < n.base.chain.length) ↔
      (n.base.chain.length ≠ 0 → ¬ cps.At n.base.chain.length) := by
  constructor
  · intro h hpos hat
    -- a block that claims the height right above the chain
    let bl : Block := ⟨default, 1, 0, 0, default, n.base.chain.length, ⟨default, 2, some []⟩, []⟩
    obtain ⟨c, -, hge, hlt⟩ := h bl (refusedByCheckpoints_iff.2 ⟨hpos, _, hat, le_refl _, le_refl _⟩)
    exact absurd (lt_of_le_of_lt hge hlt) (lt_irrefl _)
  · grind [refusedByCheckpoints_iff]

def otherBranch : Checkpoints := ⟨[(2, Env.plainKey 4)], by decide⟩

def lockedArrival (bl : Block) : Arrival := ⟨bl, openNode.withCheckpoints otherBranch, 2, ∅⟩

/-- The chain has no block at height 2, and neither the block below the checkpoint nor the checkpoint itself is
taken any more; nor is a block on top of the chain. -/
theorem unreached_checkpoint_locks :
    let n := run arrive (init .mainnet) [lockedArrival genesis, lockedArrival (plainBlock 2 1 (Env.plainKey 1) 1)]
    let low := plainBlock 3 1 (Env.plainKey 1) 1
    let high := plainBlock 4 1 (Env.plainKey 3) 2
    n.base.chain.length = 2 ∧ RefusedByCheckpoints otherBranch n low ∧ (∀ c < 2, ¬ otherBranch.At c) ∧
    (run arrive n [lockedArrival low, lockedArrival high]).blocks = n.blocks ∧
    (run arrive n [lockedArrival low, lockedArrival high]).base.alternatives = ∅ ∧
    (n.arrive (lockedArrival (plainBlock 5 1 (Env.plainKey 2) 2))).blocks = n.blocks := by
  decide +kernel

def Sealed (ids : BlockIds) (cps : Checkpoints) (b : Block) : Prop :=
  b.height = ids.depth b.prevId ∧ ∀ hash, cps.find (ids.depth b.prevId) = some hash → b.id = hash

/-- No alternative block competes with a checkpoint that the chain has passed. -/
structure Guarded (ids : BlockIds) (cps : Checkpoints) (n : Node t) : Prop where
  inside : n.Inside ids (Sealed ids cps)
  ahead : ∀ id e, n.base.alternatives.lookup id = some e → cps.At e.height → n.base.chain.length ≤ e.height

/-- The main chain of `n` up to its checkpoints is that of `m`, and no block of it was taken off in between. -/
structure Retains (cps : Checkpoints) (n m : Node t) : Prop where
  initial : ∀ c, cps.At c → c < n.base.chain.length → n.blocks.take (c + 1) <+: m.blocks
  popped : ∃ new, m.base.popped = n.base.popped ++ new ∧
    ∀ e ∈ new, ∀ c, cps.At c → c < n.base.chain.length → c < e.block.height

theorem length_blocks (n : Node t) : n.blocks.length = n.base.chain.length := length_map _

theorem Retains.refl (cps : Checkpoints) (n : Node t) : Retains cps n n :=
  ⟨fun _ _ _ => take_prefix _ _, [], (append_nil _).symm, fun _ he => absurd he not_mem_nil⟩

variable {c : Nat}

theorem Retains.length_lt (h : Retains cps n m) (hc : cps.At c) (hlt : c < n.base.chain.length) :
    c < m.base.chain.length := by
  have hle := (h.initial c hc hlt).length_le
  grind [length_blocks]

theorem Retains.trans {k : Node t} (h : Retains cps n m) (h' : Retains cps m k) : Retains cps n k := by
  obtain ⟨new, hnew, hheight⟩ := h.popped
  obtain ⟨new', hnew', hheight'⟩ := h'.popped
  refine ⟨fun c hc hlt => ?_, new ++ new', by rw [hnew', hnew, append_assoc], fun e he c hc hlt => ?_⟩
  · have hinitial := h.initial c hc hlt
    have htake : n.blocks.take (c + 1) = m.blocks.take (c + 1) := by
      have hlen : (n.blocks.take (c + 1)).length = c + 1 := by
        rw [length_take, length_blocks]
        omega
      exact (prefix_iff_eq_take.1 hinitial).trans (by rw [hlen])
    rw [htake]
    exact h'.initial c hc (h.length_lt hc hlt)
  · rcases mem_append.1 he with he | he
    · exact hheight e he c hc hlt
    · exact hheight' e he c hc (h.length_lt hc hlt)

theorem Retains.of_split {pre post : Chain} (hchain : n.base.chain = pre ++ post)
    (hsplit : ∀ c, cps.At c → c < n.base.chain.length → c < pre.length) {above : List Block}
    (hblocks : m.blocks = pre.map (·.block) ++ above) {new : Chain} (hpopped : m.base.popped = n.base.popped ++ new)
    (hnew : ∀ e ∈ new, pre.length ≤ e.block.height) : Retains cps n m := by
  refine ⟨fun c hc hlt => ?_, new, hpopped, fun e he c hc hlt => lt_of_lt_of_le (hsplit c hc hlt) (hnew e he)⟩
  grind [Node.blocks]

theorem guarded_init (ids : BlockIds) (cps : Checkpoints) (t : ForkTable) : (init t).Guarded ids cps := by
  refine ⟨⟨tree_init ids t, fun b hb => ?_, fun id e he => ?_⟩, fun id e he => ?_⟩
  · simp [blocks, init, Base.ofChain] at hb
  · simp [init, Base.ofChain] at he
  · simp [init, Base.ofChain] at he

theorem height_of_path {low high : List Block} (hpath : ids.Path (low ++ high)) (hsealed : ∀ b ∈ low ++ high, Sealed ids cps b)
    {b : Block} (hb : b ∈ high) : low.length ≤ b.height ∧ b.height < (low ++ high).length := by
  obtain ⟨j, hj⟩ := mem_iff_getElem?.1 hb
  have hlt := (List.getElem?_eq_some_iff.1 hj).1
  have hdepth := hpath.depth (i := low.length + j) (b := b) (by rw [getElem?_append_right (by omega)]; simpa using hj)
  have hmem : b ∈ low ++ high := mem_append_right _ hb
  rw [(hpath.known hmem).2, ← (hsealed b hmem).1] at hdepth
  rw [length_append]
  omega

theorem Guarded.hash (h : n.Guarded ids cps) {hash : Hash} (hfind : cps.find c = some hash)
    (hlt : c < n.base.chain.length) : (n.blocks[c]?).map (·.id) = some hash := by
  have hget := getElem?_eq_getElem (l := n.blocks) (by rw [length_blocks]; exact hlt)
  have hmem := mem_of_getElem? hget
  have hdepth := h.inside.tree.path.depth hget
  rw [(h.inside.tree.path.known hmem).2] at hdepth
  have hid := (h.inside.blocks _ hmem).2 hash (by rw [Nat.succ.inj hdepth]; exact hfind)
  rw [hget, Option.map_some, hid]

section Switch
variable {bei : BlockExtendedInfo} {pre post : Chain}

theorem Passed.sealed (hrules : rules.Checked cps) {cp : Bool} (hpassed : Passed rules n bl bei cp)
    (hheight : bei.height = ids.depth bl.prevId) :
    Sealed ids cps bl ∧ ∀ c, cps.At c → c ≤ n.base.chain.length → c < bei.height := by
  have hclaimed : bl.height = bei.height := hrules.proof _ _ _ _ _ hpassed.proof
  have hcheckpoint := hpassed.checkpoint
  rw [hrules.checkpoint] at hcheckpoint
  have hallowed := hpassed.allowed
  rw [hrules.allowed, Checkpoints.isAlternativeBlockAllowed_iff] at hallowed
  refine ⟨⟨hclaimed.trans hheight, fun hash hfind => ?_⟩, fun c hc hle => hclaimed ▸ hallowed.2 c hc hle⟩
  exact Checkpoints.eq_of_checkBlock (by rw [hcheckpoint]; rfl) (hheight.symm ▸ hfind)

theorem Hangs.height_eq (hangs : Hangs ids rules n bl bei pre post) : bei.height = pre.length + (n.altChain bl).length := by
  obtain ⟨hpath, -, hprev⟩ := HashTree.Naming.path_snoc.1 hangs.path
  rw [hangs.height, hprev, hpath.depth_tip, length_append, length_map, length_map]

variable {e : BlockExtendedInfo} {c : Nat} {stored : Chain}

theorem Placed.height_altChain (htree : n.Tree ids) (hplaced : Placed ids n bl pre post) {j : Nat}
    (he : (n.altChain bl)[j]? = some e) : e.height = pre.length + j := by
  obtain ⟨hpath, -, -⟩ := HashTree.Naming.path_snoc.1 hplaced.path
  have hdepth := hpath.depth (i := pre.length + j) (b := e.block) (by
    rw [getElem?_append_right (by simp)]
    simp [he])
  obtain ⟨-, hknown, hheight⟩ := htree.alternatives _ _ (Hangs.mem_altChain htree (mem_of_getElem? he))
  rw [hknown.2, ← hheight] at hdepth
  omega

theorem Guarded.split (h : n.Guarded ids cps) (hangs : Hangs ids rules n bl bei pre post)
    (habove : ∀ c, cps.At c → c ≤ n.base.chain.length → c < bei.height) (hc : cps.At c)
    (hlt : c < n.base.chain.length) : c < pre.length := by
  by_contra hge
  -- the alternative chain has a block of that height
  have hindex : c - pre.length < (n.altChain bl).length := by
    have := habove c hc hlt.le
    rw [hangs.height_eq] at this
    omega
  have hget := getElem?_eq_getElem hindex
  have hheight := hangs.toPlaced.height_altChain h.inside.tree hget
  have hahead := h.ahead _ _ (Hangs.mem_altChain h.inside.tree (mem_of_getElem? hget)) (by
    rw [hheight, Nat.add_sub_cancel' (Nat.not_lt.1 hge)]
    exact hc)
  omega

theorem Guarded.height_post (h : n.Guarded ids cps) (hangs : Hangs ids rules n bl bei pre post) {b : Block}
    (hb : b ∈ post.map (·.block)) : pre.length ≤ b.height ∧ b.height < n.base.chain.length := by
  have hheight := height_of_path (hangs.blocks_eq ▸ h.inside.tree.path) (hangs.blocks_eq ▸ h.inside.blocks) hb
  rwa [← hangs.blocks_eq, length_blocks, length_map] at hheight

theorem finishSwitch_blocks (its : List AltIterator) (height : Nat) (r : Node t × Except DbError Unit) :
    (finishSwitch its height r).1.blocks = r.1.blocks :=
  congrArg (List.map StoredBlock.block) (finishSwitch_chain its height r)

theorem finishSwitch_popped (its : List AltIterator) (height : Nat) (r : Node t × Except DbError Unit) :
    (finishSwitch its height r).1.base.popped = r.1.base.popped := by
  obtain ⟨m, e | u⟩ := r
  · rfl
  · obtain ⟨forks, heq⟩ := finishSwitch_spec its height m u
    rw [heq]
    exact @foldl_erase_eq t eraseAlternative _ (fun n => n.base.popped) (fun _ _ => rfl) its m

theorem abandonSwitch_popped (failed : List AltIterator) (r : Node t × Except DbError Bool) :
    (abandonSwitch failed r).1.base.popped = r.1.base.popped := by
  obtain ⟨m, e | b⟩ := r
  · rfl
  · exact @foldl_erase_eq t invalidate _ (fun n => n.base.popped) (fun _ _ => rfl) failed m

theorem pushAll_refused (depth : Nat) {xs : List Block} (h : ∀ x ∈ xs, judgeAlternative rules n x = .refused) :
    pushAll (handleAlternativeBlock rules depth) n xs = (n, .ok ()) := by
  induction xs with
  | nil => rfl
  | cons x rest ih =>
    have hpush : handleAlternativeBlock rules depth n x = (n, .ok false) := by
      cases depth with
      | zero => rfl
      | succ depth => exact handleAlternativeBlock_of_refused depth (h x mem_cons_self)
    grind [pushAll]

theorem Guarded.connected (h : n.Guarded ids cps) (hsealed : Sealed ids cps bl) (hangs : Hangs ids rules n bl bei pre post)
    (discard : Bool) {stored : Chain} (popped : Chain) (pool : Pool) (invalid : Finset Hash)
    (hstored : stored.map (·.block) = (iterators rules n bl bei).map (·.info.block)) :
    (connected rules n bei discard pre stored popped pool invalid).Inside ids (Sealed ids cps) := by
  obtain ⟨hpath, hnew⟩ := hangs.blocks_new h.inside hsealed (append_nil _).symm
  rw [← hstored, ← map_append] at hpath hnew
  exact (h.inside.insertAlternative hsealed hangs).of_chain hpath hnew fun _ _ he => he

theorem Hangs.length_connected (hangs : Hangs ids rules n bl bei pre post)
    (hstored : stored.map (·.block) = (iterators rules n bl bei).map (·.info.block)) :
    (pre ++ stored).length = bei.height + 1 := by
  have hlen := congrArg List.length hstored
  rw [length_map, length_map] at hlen
  rw [length_append, hlen, hangs.height_eq]
  simp [iterators]
  omega

theorem Guarded.ahead_insert (h : n.Guarded ids cps)
    (habove : ∀ c, cps.At c → c ≤ n.base.chain.length → c < bei.height) {id : Hash}
    (he : (n.base.alternatives.insert bei.block.id bei).lookup id = some e) (hat : cps.At e.height) :
    n.base.chain.length ≤ e.height := by
  rw [lookup_insert_ite] at he
  split at he
  · grind
  · exact h.ahead id e he hat

theorem Guarded.exists_iterator (h : n.Guarded ids cps) (hsealed : Sealed ids cps bl) (hangs : Hangs ids rules n bl bei pre post)
    (hge : pre.length ≤ c) (hle : c ≤ bei.height) :
    ∃ it ∈ iterators rules n bl bei, it.info.height = c ∧ Sealed ids cps it.info.block ∧
      it.info.height = ids.depth it.info.block.prevId := by
  rcases Nat.lt_or_eq_of_le hle with hlt | rfl
  · have hindex : c - pre.length < (n.altChain bl).length := by
      rw [hangs.height_eq] at hlt
      omega
    have hget := getElem?_eq_getElem hindex
    have hmem := mem_of_getElem? hget
    have hlookup := Hangs.mem_altChain h.inside.tree hmem
    refine ⟨⟨_, n.epoch⟩, mem_append_left _ (List.mem_map_of_mem hmem), ?_, h.inside.kept _ _ hlookup,
      (h.inside.tree.alternatives _ _ hlookup).2.2⟩
    have := hangs.toPlaced.height_altChain h.inside.tree hget
    simp only
    omega
  · refine ⟨⟨bei, _⟩, mem_append_right _ (mem_singleton_self _), rfl, ?_, ?_⟩
    · rw [hangs.block]
      exact hsealed
    · rw [hangs.block]
      exact hangs.height

theorem Guarded.connected_of_not_at (h : n.Guarded ids cps) (hsealed : Sealed ids cps bl)
    (hangs : Hangs ids rules n bl bei pre post) (habove : ∀ c, cps.At c → c ≤ n.base.chain.length → c < bei.height)
    (hnone : ∀ c, pre.length ≤ c → c ≤ bei.height → ¬ cps.At c) (discard : Bool) (popped : Chain)
    (pool : Pool) (invalid : Finset Hash)
    (hstored : stored.map (·.block) = (iterators rules n bl bei).map (·.info.block)) :
    (Node.connected rules n bei discard pre stored popped pool invalid).Guarded ids cps := by
  refine ⟨h.connected hsealed hangs discard popped pool invalid hstored, fun id e he hat => ?_⟩
  rw [connected_alternatives] at he
  rw [connected_chain, hangs.length_connected hstored]
  have hahead := h.ahead_insert habove he hat
  have hpre : pre.length ≤ n.base.chain.length := by simp [hangs.chain]
  grind

theorem Guarded.finishSwitch_of_at (hrules : rules.Checked cps) (h : n.Guarded ids cps) (hsealed : Sealed ids cps bl)
    (hangs : Hangs ids rules n bl bei pre post) (habove : ∀ c, cps.At c → c ≤ n.base.chain.length → c < bei.height)
    (hge : pre.length ≤ c) (hle : c ≤ bei.height) (hat : cps.At c) {discard : Bool} {popped : Chain}
    {pool : Pool} {invalid : Finset Hash}
    (hstored : stored.map (·.block) = (iterators rules n bl bei).map (·.info.block)) (depth : Nat) :
    ∀ r, r = finishSwitch (iterators rules n bl bei) pre.length
        (pushAll (handleAlternativeBlock rules depth) (Node.connected rules n bei discard pre stored popped pool invalid)
          (if discard then [] else post.map (·.block))) →
      (∀ id e, r.1.base.alternatives.lookup id = some e → cps.At e.height → r.1.base.chain.length ≤ e.height) ∧
        r.1.base.chain = pre ++ stored ∧ r.1.base.popped = popped := by
  have hlen := hangs.length_connected hstored
  -- the checkpoint is not below the old chain, and not above the new one
  have hold : n.base.chain.length ≤ c := by
    by_contra hlt
    exact absurd (h.split hangs habove hat (by omega)) (by omega)
  have hpushed : pushAll (handleAlternativeBlock rules depth)
      (Node.connected rules n bei discard pre stored popped pool invalid) (if discard then [] else post.map (·.block)) =
      (Node.connected rules n bei discard pre stored popped pool invalid, .ok ()) := by
    refine pushAll_refused depth fun b hb => ?_
    have hb' : b ∈ post.map (·.block) := by
      cases discard
      · exact hb
      · cases hb
    refine RefusedByCheckpoints.judgeAlternative hrules (refusedByCheckpoints_iff.2 ⟨?_, c, hat, ?_, ?_⟩)
    · have hpos := length_pos_iff.2 hangs.nonempty
      have := (h.height_post hangs hb').1
      omega
    · have := (h.height_post hangs hb').2
      omega
    · rw [connected_chain, hlen]
      omega
  rintro r rfl
  rw [hpushed]
  refine ⟨fun id e he hat' => ?_, by rw [finishSwitch_chain, connected_chain], by rw [finishSwitch_popped]; rfl⟩
  obtain ⟨he', hnot⟩ := finishSwitch_alternatives he
  rw [finishSwitch_chain, connected_chain, hlen]
  rw [connected_alternatives] at he'
  have hahead := h.ahead_insert habove he' hat'
  have hpre : pre.length ≤ n.base.chain.length := by simp [hangs.chain]
  by_contra hlt
  -- the switch had a block of that height too, with the hash of the checkpoint
  obtain ⟨it, hit, hheight, hsealed', hdepth⟩ := h.exists_iterator hsealed hangs (c := e.height) (by omega) (by omega)
  have hinsert := h.inside.insertAlternative hsealed hangs
  have he'' : (n.insertAlternative rules bei).base.alternatives.lookup id = some e := by
    rw [insertAlternative_base]
    exact he'
  obtain ⟨hid, -, hdepth'⟩ := hinsert.tree.alternatives id e he''
  obtain ⟨hash, hfind⟩ := Option.isSome_iff_exists.1 hat'
  have hhash := (hinsert.kept id e he'').2 hash (by rw [← hdepth']; exact hfind)
  have hhash' := hsealed'.2 hash (by rw [← hdepth, hheight]; exact hfind)
  exact hnot rfl (List.mem_map.2 ⟨it, hit, by rw [hhash', ← hhash, hid]⟩)

def GuardedStep (ids : BlockIds) (cps : Checkpoints) (n m : Node t) : Prop := m.Guarded ids cps ∧ Retains cps n m

theorem Guarded.switched_of_not_at (h : n.Guarded ids cps) (hsealed : Sealed ids cps bl)
    (hangs : Hangs ids rules n bl bei pre post) (habove : ∀ c, cps.At c → c ≤ n.base.chain.length → c < bei.height)
    (hnone : ∀ c, pre.length ≤ c → c ≤ bei.height → ¬ cps.At c) {discard : Bool} {stored popped : Chain} {pool : Pool}
    {invalid : Finset Hash} (hstored : stored.map (·.block) = (iterators rules n bl bei).map (·.info.block))
    (hpopped : popped = n.base.popped ++ post.reverse) {push : Node t → Block → Node t × Except DbError Bool}
    (hpush : ∀ m b, m.Guarded ids cps → ids.Known b → GuardedStep ids cps m (push m b).1) :
    GuardedStep ids cps n (pushAll push (Node.connected rules n bei discard pre stored popped pool invalid)
      (if discard then [] else post.map (·.block))).1 := by
  have hconnected := h.connected_of_not_at hsealed hangs habove hnone discard popped pool invalid hstored
  have hretains : Retains cps n (Node.connected rules n bei discard pre stored popped pool invalid) :=
    .of_split hangs.chain (fun c hc hlt => h.split hangs habove hc hlt)
      (by rw [Node.blocks, connected_chain, map_append]) hpopped
      fun e he => (h.height_post hangs (List.mem_map_of_mem (mem_reverse.1 he))).1
  refine pushAll_keeps (I := GuardedStep ids cps n) (fun m b hb hm => ?_) ⟨hconnected, hretains⟩
  have hb' : b ∈ n.blocks := by
    rw [hangs.blocks_eq]
    grind
  obtain ⟨hguarded, hkept⟩ := hpush m b hm.1 (h.inside.tree.path.known hb')
  exact ⟨hguarded, hm.2.trans hkept⟩

theorem Guarded.abandoned (h : n.Guarded ids cps) (hsealed : Sealed ids cps bl) (hangs : Hangs ids rules n bl bei pre post)
    (habove : ∀ c, cps.At c → c ≤ n.base.chain.length → c < bei.height) {discard : Bool} {done failed : List AltIterator}
    (hits : iterators rules n bl bei = done ++ failed) {stored popped : Chain} {pool : Pool} {invalid : Finset Hash}
    (hstored : stored.map (·.block) = done.map (·.info.block)) (hpopped : popped = n.base.popped ++ post.reverse) :
    ∀ r, r = abandonSwitch failed (rollback rules (Node.connected rules n bei discard pre stored popped pool invalid)
        (post.map (·.block)) pre.length) →
      (∀ id e, r.1.base.alternatives.lookup id = some e → cps.At e.height → r.1.base.chain.length ≤ e.height) ∧
        Retains cps n r.1 := by
  rintro r rfl
  obtain ⟨stored', popped', pool', invalid', forks', rest, holds, hroll, -, hpopped'⟩ := rollback_spec rules
    (@connected_chain t rules n bei discard pre stored popped pool invalid) (post.map (·.block))
  constructor
  · intro id e he hat
    have he' := abandonSwitch_alternatives he
    rw [hroll, set_alternatives, connected_alternatives] at he'
    have hahead := h.ahead_insert habove he' hat
    have hle : (stored'.map (·.block)).length ≤ (post.map (·.block)).length := by grind
    rw [abandonSwitch_chain, hroll, set_chain, length_append]
    rw [hangs.chain, length_append] at hahead
    simp only [length_map] at hle
    omega
  · have hpop : (abandonSwitch failed (rollback rules (Node.connected rules n bei discard pre stored popped pool invalid)
        (post.map (·.block)) pre.length)).1.base.popped = n.base.popped ++ (post.reverse ++ stored.reverse) := by
      rw [abandonSwitch_popped, hroll, set_popped, hpopped', ← append_assoc, ← hpopped]
      rfl
    refine .of_split hangs.chain (fun c hc hlt => h.split hangs habove hc hlt)
      (by rw [Node.blocks, abandonSwitch_chain, hroll, set_chain, map_append]) hpop fun e he => ?_
    rcases mem_append.1 he with he | he
    · exact (h.height_post hangs (List.mem_map_of_mem (mem_reverse.1 he))).1
    · obtain ⟨hpath, hnew⟩ := hangs.blocks_new h.inside hsealed hits
      rw [← hstored] at hpath hnew
      have := (height_of_path hpath hnew (List.mem_map_of_mem (mem_reverse.1 he))).1
      simpa using this

end Switch

theorem handleAlternativeBlock_guarded (hrules : rules.Checked cps) (depth : Nat) (h : n.Guarded ids cps)
    (hbl : ids.Known bl) : GuardedStep ids cps n (handleAlternativeBlock rules depth n bl).1 := by
  induction depth generalizing n bl with
  | zero => exact ⟨h, .refl cps n⟩
  | succ depth ih =>
    cases hjudge : judgeAlternative rules n bl with
    | refused =>
      rw [handleAlternativeBlock_of_refused depth hjudge]
      exact ⟨h, .refl cps n⟩
    | orphaned =>
      rw [handleAlternativeBlock, hjudge]
      exact ⟨h, .refl cps n⟩
    | accepted bei₀ cp =>
      have hpassed := judgeAlternative_passed hjudge
      have hout := handleAlternativeBlock_outcome rules h.inside.tree hbl depth
      have hheight : bei₀.height = ids.depth bl.prevId := by
        rw [hpassed.difficulty]
        exact extendedInfo_height h.inside.tree (blockExists_parent hpassed.connects) _
      obtain ⟨hsealed, habove⟩ := hpassed.sealed hrules hheight
      have hinside : (handleAlternativeBlock rules (depth + 1) n bl).1.Inside ids (Sealed ids cps) :=
        handleAlternativeBlock_inside (depth + 1) h.inside hbl hsealed
      generalize handleAlternativeBlock rules (depth + 1) n bl = r at hout hinside ⊢
      cases hout with
      | same result => exact ⟨h, .refl cps n⟩
      | @kept bei pre post hangs =>
        obtain rfl : bei = bei₀ := hangs.difficulty.trans hpassed.difficulty.symm
        refine ⟨⟨hinside, fun id e he hat => ?_⟩, ?_⟩
        · rw [insertAlternative_base] at he ⊢
          exact h.ahead_insert habove he hat
        · have hsame : (n.insertAlternative rules bei).blocks = n.blocks := by simp [Node.blocks]
          exact ⟨fun c _ _ => by rw [hsame]; exact take_prefix _ _, [], by simp, fun _ he => absurd he not_mem_nil⟩
      | @switched bei pre post hangs discard _ stored popped pool invalid hstored _ _ hpopped =>
        obtain rfl : bei = bei₀ := hangs.difficulty.trans hpassed.difficulty.symm
        by_cases hnone : ∀ c, pre.length ≤ c → c ≤ bei.height → ¬ cps.At c
        · obtain ⟨hguarded, hretains⟩ := @Guarded.switched_of_not_at t ids cps rules n bl bei pre post h hsealed hangs habove
            hnone discard stored popped pool invalid hstored hpopped _ fun m b hm hb => ih hm hb
          refine ⟨⟨hinside, fun id e he hat => ?_⟩, ?_⟩
          · rw [finishSwitch_chain]
            exact hguarded.ahead id e (finishSwitch_alternatives he).1 hat
          · obtain ⟨new, hnew, hheights⟩ := hretains.popped
            refine ⟨fun c hc hlt => ?_, new, by rw [finishSwitch_popped, hnew], hheights⟩
            rw [finishSwitch_blocks]
            exact hretains.initial c hc hlt
        · obtain ⟨c, hge, hle, hat⟩ : ∃ c, pre.length ≤ c ∧ c ≤ bei.height ∧ cps.At c := by
            by_contra hno
            exact hnone fun c hge hle hat => hno ⟨c, hge, hle, hat⟩
          obtain ⟨hahead, hchain, hpop⟩ := h.finishSwitch_of_at hrules hsealed hangs habove hge hle hat hstored depth _ rfl
          exact ⟨⟨hinside, hahead⟩, .of_split hangs.chain (fun c hc hlt => h.split hangs habove hc hlt)
            (by rw [Node.blocks, hchain, map_append]) (hpop.trans hpopped)
            fun e he => (h.height_post hangs (List.mem_map_of_mem (mem_reverse.1 he))).1⟩
      | @abandoned bei pre post hangs discard _ done failed hits _ stored popped pool invalid hstored _ _ hpopped =>
        obtain rfl : bei = bei₀ := hangs.difficulty.trans hpassed.difficulty.symm
        obtain ⟨hahead, hretains⟩ := h.abandoned hsealed hangs habove hits hstored hpopped _ rfl
        exact ⟨⟨hinside, hahead⟩, hretains⟩

theorem Guarded.handleBlockToMainChain (hrules : rules.Checked cps) (h : n.Guarded ids cps) (hbl : ids.Known bl)
    (hnew : n.base.alternatives.lookup bl.id = none) :
    (n.handleBlockToMainChain rules bl).1.Guarded ids cps ∧ Retains cps n (n.handleBlockToMainChain rules bl).1 := by
  cases hverdict : n.base.accepted (rules.base n.version) bl with
  | none =>
    obtain ⟨pool, invalid, heq, -⟩ := handleBlockToMainChain_of_refused hverdict
    rw [heq]
    exact ⟨⟨h.inside.of_chain h.inside.tree.path h.inside.blocks fun _ _ he => he, h.ahead⟩,
      ⟨fun _ _ _ => take_prefix _ _, [], (append_nil _).symm, fun _ he => absurd he not_mem_nil⟩⟩
  | some txs =>
    obtain ⟨hzone, hheight⟩ := hrules.header _ _ _ (Base.accepted_checkHeader hverdict)
    have hdepth : ids.depth bl.prevId = n.base.chain.length := by
      rw [Base.accepted_prevId hverdict, Base.tailId_eq ids, ← length_blocks]
      exact h.inside.tree.path.depth_tip
    have hhash : ∀ hash, cps.find n.base.chain.length = some hash → bl.id = hash := fun hash hfind =>
      Checkpoints.eq_of_checkBlock
        (hzone (Checkpoints.isInCheckpointZone_of_at (Option.isSome_iff_exists.2 ⟨hash, hfind⟩))) hfind
    have hsealed : Sealed ids cps bl := ⟨hheight.trans hdepth.symm, fun hash hfind => hhash hash (hdepth ▸ hfind)⟩
    have hpath := h.inside.tree.path_accepted hbl hverdict
    rw [handleBlockToMainChain_of_accepted hverdict]
    refine ⟨⟨h.inside.of_chain hpath (fun b hb => ?_) fun _ _ he => he, fun id e he hat => ?_⟩, ⟨fun c _ hlt => ?_, [], ?_, ?_⟩⟩
    · rw [Node.blocks, set_chain, map_append] at hb
      rcases mem_append.1 hb with hb | hb
      · exact h.inside.blocks b hb
      · grind [Base.entry]
    · rw [set_alternatives] at he
      rw [set_chain, length_append, length_singleton]
      have hahead := h.ahead id e he hat
      by_contra hlt
      -- an alternative block of this height would be this block
      have heq : e.height = n.base.chain.length := by omega
      obtain ⟨hash, hfind⟩ := Option.isSome_iff_exists.1 hat
      obtain ⟨hid, -, hdepth'⟩ := h.inside.tree.alternatives id e he
      have hhash' := (h.inside.kept id e he).2 hash (by rw [← hdepth']; exact hfind)
      rw [hhash hash (heq ▸ hfind), ← hhash', hid, he] at hnew
      cases hnew
    · grind [Node.blocks, set_chain]
    · exact (append_nil _).symm
    · exact fun _ he => absurd he not_mem_nil

theorem Guarded.arrive (h : n.Guarded ids cps) (a : Arrival) (hrules : a.rules.Checked cps) (hbl : ids.Known a.block) :
    (n.arrive a).Guarded ids cps ∧ Retains cps n (n.arrive a) := by
  have hpool : (n.withPool a.pool).Guarded ids cps :=
    ⟨h.inside.of_chain h.inside.tree.path h.inside.blocks fun _ _ he => he, h.ahead⟩
  have hretains : Retains cps n (n.withPool a.pool) :=
    ⟨fun _ _ _ => take_prefix _ _, [], (append_nil _).symm, fun _ he => absurd he not_mem_nil⟩
  have hstep : ((n.withPool a.pool).addNewBlock a.rules a.depth a.block).1.Guarded ids cps ∧
      Retains cps (n.withPool a.pool) ((n.withPool a.pool).addNewBlock a.rules a.depth a.block).1 := by
    unfold addNewBlock
    split
    · exact ⟨hpool, .refl _ _⟩
    rename_i hhave
    split
    · exact handleAlternativeBlock_guarded hrules a.depth hpool hbl
    · exact hpool.handleBlockToMainChain hrules hbl (not_mem_of_haveBlock (by simpa using hhave)).2
  exact ⟨hstep.1, hretains.trans hstep.2⟩

/-- **Checkpointed history is immutable** in a run of a node, cut anywhere. -/
theorem checkpointed_history_immutable (ids : BlockIds) (cps : Checkpoints) (before after : List Arrival)
    (hknown : ∀ a ∈ before ++ after, ids.Known a.block ∧ a.rules.Checked cps) {n m : Node t}
    (hn : n = run arrive (init t) before) (hm : m = run arrive n after) {c : Nat} {hash : Hash}
    (hcheckpoint : cps.find c = some hash) (hlt : c < n.base.chain.length) :
    (n.blocks[c]?).map (·.id) = some hash ∧ n.blocks.take (c + 1) <+: m.blocks ∧
      ∃ new, m.base.popped = n.base.popped ++ new ∧ ∀ e ∈ new, c < e.block.height := by
  subst hn hm
  have hstep : ∀ (n : Node t) (a : Arrival), n.Guarded ids cps → ids.Known a.block ∧ a.rules.Checked cps →
      (n.arrive a).Guarded ids cps := fun n a h ha => (h.arrive a ha.2 ha.1).1
  have hmeets : Meets arrive (fun _ a => ids.Known a.block ∧ a.rules.Checked cps) (init t) (before ++ after) :=
    meets_of_forall (fun a ha _ => hknown a ha) _
  obtain ⟨hbefore, hafter⟩ := meets_append.1 hmeets
  have hguarded := run_invariant hstep (guarded_init ids cps t) hbefore
  generalize run arrive (init t) before = n at hguarded hafter hlt ⊢
  have hinvariant : (run arrive n after).Guarded ids cps ∧ Retains cps n (run arrive n after) := by
    have hnext : ∀ (m : Node t) (a : Arrival), m.Guarded ids cps ∧ Retains cps n m →
        ids.Known a.block ∧ a.rules.Checked cps → (m.arrive a).Guarded ids cps ∧ Retains cps n (m.arrive a) := by
      intro m a hm ha
      obtain ⟨hg, hr⟩ := hm.1.arrive a ha.2 ha.1
      exact ⟨hg, hm.2.trans hr⟩
    exact run_invariant hnext ⟨hguarded, .refl cps n⟩ hafter
  have hat : cps.At c := Option.isSome_iff_exists.2 ⟨hash, hcheckpoint⟩
  obtain ⟨new, hnew, hheights⟩ := hinvariant.2.popped
  exact ⟨hguarded.hash hcheckpoint hlt, hinvariant.2.initial c hat hlt, new, hnew, fun e he => hheights e he c hat hlt⟩

def firstBlock : Checkpoints := ⟨[(1, Env.plainKey 3)], by decide⟩

def sealedRun (bls : List Block) : List Arrival := bls.map (⟨·, openNode.withCheckpoints firstBlock, 2, ∅⟩)

theorem firstBlock_stays :
    let n := run arrive (init .mainnet) (sealedRun [genesis, plainBlock 3 1 (Env.plainKey 1) 1])
    let m := run arrive n (sealedRun [plainBlock 2 1 (Env.plainKey 1) 1, plainBlock 4 1 (Env.plainKey 3) 2])
    m.blocks.map (·.id) = [Env.plainKey 1, Env.plainKey 3, Env.plainKey 4] ∧
      (n.blocks[1]?).map (·.id) = some (Env.plainKey 3) ∧ n.blocks.take 2 <+: m.blocks := by
  intro n m
  have hknown : ∀ a ∈ sealedRun [genesis, plainBlock 3 1 (Env.plainKey 1) 1] ++
      sealedRun [plainBlock 2 1 (Env.plainKey 1) 1, plainBlock 4 1 (Env.plainKey 3) 2],
      forkIds.Known a.block ∧ a.rules.Checked firstBlock := by
    have hids : ∀ bl ∈ forkBlocks, forkIds.Known bl := by
      unfold HashTree.Naming.Known
      decide +kernel
    intro a ha
    rw [sealedRun, sealedRun, ← map_append] at ha
    obtain ⟨bl, hbl, rfl⟩ := List.mem_map.1 ha
    refine ⟨hids bl ?_, NodeRules.checked_withCheckpoints _ _⟩
    simp only [cons_append, nil_append, mem_cons, not_mem_nil, or_false] at hbl
    rcases hbl with rfl | rfl | rfl | rfl <;> decide +kernel
  have himmutable := checkpointed_history_immutable forkIds firstBlock _ _ hknown (n := n) (m := m) rfl rfl
    (c := 1) (by decide +kernel : firstBlock.find 1 = some (Env.plainKey 3)) (by decide +kernel)
  exact ⟨by decide +kernel, himmutable.1, himmutable.2.1⟩

end Node

end Electronero
