import Electronero.Core.BlockTemplate
import Electronero.Core.Versions
/-!
# The block size limit (`src/cryptonote_core/blockchain.cpp`)

`m_current_block_cumul_sz_limit` is computed again at the end of each pop and addition (:584, :733, :3946) only. A switch
and a rollback reorganise the `HardFork` object after that, so the version may change and the limit does not.

The functions of `SizedNode` are those of `Node` with the limit handed along.
-/
namespace Electronero
open Text FiniteMap Machine Reward List

structure SizedNode (t : ForkTable) where
  node : Node t
  limit : UInt64

namespace SizedNode
variable {t : ForkTable} (size : StoredBlock → BlockInfo) (rules : NodeRules)

section
variable (s : SizedNode t)

def updateLimit : SizedNode t :=
  { s with limit := updateNextCumulativeSizeLimit s.node.version (s.node.base.chain.map size) }

def onNode {α : Type} (f : Node t → Node t × α) : SizedNode t × α := (⟨(f s.node).1, s.limit⟩, (f s.node).2)

def popBlock : SizedNode t × Option StoredBlock :=
  match s.onNode (·.popBlock rules) with
  | (s, none) => (s, none)
  | (s, some e) => (s.updateLimit size, some e)

def handleBlockToMainChain (bl : Block) : SizedNode t × Bool :=
  match s.onNode (·.handleBlockToMainChain rules bl) with
  | (s, true) => (s.updateLimit size, true)
  | (s, false) => (s, false)

def reorganize (height : Nat) : SizedNode t × Except DbError Bool := s.onNode (·.reorganize height)

end

def init (t : ForkTable) : SizedNode t := updateLimit size ⟨.init t, 0⟩

def popN : Nat → SizedNode t → SizedNode t
  | 0, s => s
  | k + 1, s => popN k (s.popBlock size rules).1

def popUntil (id : Hash) : Nat → SizedNode t → SizedNode t × List Block
  | 0, s => (s, [])
  | k + 1, s =>
    if s.node.base.tailId = id then (s, [])
    else match s.popBlock size rules with
      | (s, none) => (s, [])
      | (s, some e) =>
        let r := popUntil id k s
        (r.1, r.2 ++ [e.block])

def connectAll {α : Type} (block : α → Block) : SizedNode t → List α → SizedNode t × List α
  | s, [] => (s, [])
  | s, x :: rest =>
    match s.handleBlockToMainChain size rules (block x) with
    | (s, true) => connectAll block s rest
    | (s, false) => (s, x :: rest)

def reconnect (s : SizedNode t) (originalChain : List Block) (rollbackHeight : Nat) : SizedNode t × Except DbError Bool :=
  match connectAll size rules id s originalChain with
  | (s, []) =>
    match s.reorganize rollbackHeight with
    | (s, .error e) => (s, .error e)
    | (s, .ok _) => (s, .ok true)
  | (s, _ :: _) => (s, .ok false)

def rollback (s : SizedNode t) (originalChain : List Block) (rollbackHeight : Nat) : SizedNode t × Except DbError Bool :=
  if s.node.base.chain.length < rollbackHeight then (s, .ok true)
  else
    match (popN size rules (s.node.base.chain.length - rollbackHeight) s).reorganize rollbackHeight with
    | (s, .error e) => (s, .error e)
    | (s, .ok _) => reconnect size rules s originalChain rollbackHeight

def pushAll (push : SizedNode t → Block → SizedNode t × Except DbError Bool) :
    SizedNode t → List Block → SizedNode t × Except DbError Unit
  | s, [] => (s, .ok ())
  | s, bl :: rest =>
    match push s bl with
    | (s, .error e) => (s, .error e)
    | (s, .ok _) => pushAll push s rest

def finishSwitch (altChain : List AltIterator) (splitHeight : Nat) :
    SizedNode t × Except DbError Unit → SizedNode t × Except DbError Bool
  | (s, .error e) => (s, .error e)
  | (s, .ok _) =>
    match { s with node := altChain.foldl Node.eraseAlternative s.node }.reorganize splitHeight with
    | (s, .error e) => (s, .error e)
    | (s, .ok _) => (s, .ok true)

def abandonSwitch (failed : List AltIterator) : SizedNode t × Except DbError Bool → SizedNode t × Except DbError Bool
  | (s, .error e) => (s, .error e)
  | (s, .ok _) => ({ s with node := failed.foldl Node.invalidate s.node }, .ok false)

def connectAlternative (push : SizedNode t → Block → SizedNode t × Except DbError Bool) (s : SizedNode t)
    (disconnectedChain : List Block) (altChain : List AltIterator) (discardDisconnectedChain : Bool) :
    SizedNode t × Except DbError Bool :=
  let splitHeight := s.node.base.chain.length
  match connectAll size rules (·.info.block) s altChain with
  | (s, []) =>
    finishSwitch altChain splitHeight (if discardDisconnectedChain then (s, .ok ()) else pushAll push s disconnectedChain)
  | (s, it :: failed) => abandonSwitch (it :: failed) (rollback size rules s disconnectedChain splitHeight)

def switchToAlternative (push : SizedNode t → Block → SizedNode t × Except DbError Bool) (s : SizedNode t)
    (altChain : List AltIterator) (discardDisconnectedChain : Bool) : SizedNode t × Except DbError Bool :=
  let s := { s with node := s.node.logSwitch discardDisconnectedChain }
  match altChain with
  | [] => (s, .ok false)
  | front :: _ =>
    if !s.node.base.blockExists front.info.block.prevId then (s, .ok false)
    else
      let r := popUntil size rules front.info.block.prevId s.node.base.chain.length s
      connectAlternative size rules push r.1 r.2 altChain discardDisconnectedChain

def handleAlternativeBlock : Nat → SizedNode t → Block → SizedNode t × Except DbError Bool
  | 0, s, _ => (s, .ok false)
  | depth + 1, s, bl =>
    match s.node.judgeAlternative rules bl with
    | .refused => (s, .ok false)
    | .orphaned => (s, .ok true)
    | .accepted bei isCheckpoint =>
      let kept := { s with node := s.node.insertAlternative rules bei }
      let altChain := (s.node.altChain bl).map (⟨·, s.node.epoch⟩) ++ [⟨bei, kept.node.epoch⟩]
      if isCheckpoint then switchToAlternative size rules (handleAlternativeBlock depth) kept altChain true
      else if s.node.base.topDifficulty < bei.cumulativeDifficulty then
        switchToAlternative size rules (handleAlternativeBlock depth) kept altChain false
      else (kept, .ok true)

def addNewBlock (depth : Nat) (s : SizedNode t) (bl : Block) : SizedNode t × Except DbError Bool :=
  if s.node.base.haveBlock bl.id then (s, .ok false)
  else if bl.prevId ≠ s.node.base.tailId then handleAlternativeBlock size rules depth s bl
  else
    let r := s.handleBlockToMainChain size rules bl
    (r.1, .ok r.2)

def failCheckpoint (s : SizedNode t) (point : UInt64) : SizedNode t :=
  if s.node.base.chain.length ≤ point.toNat then s else (rollback size rules s [] (point - 2).toNat).1

def Current (s : SizedNode t) : Prop :=
  s.limit.toNat = 2 * max (medianSize (s.node.base.chain.map size)).toNat (getMinBlockSize s.node.version).toNat

instance (s : SizedNode t) : Decidable (s.Current size) := inferInstanceAs (Decidable (_ = _))

def Follows {α : Type} (r : SizedNode t × α) (r' : Node t × α) : Prop := r' = (r.1.node, r.2)

theorem Follows.elim {α : Type} {r : SizedNode t × α} {r' : Node t × α} (h : Follows r r') :
    ∃ s v, r = (s, v) ∧ r' = (s.node, v) :=
  ⟨r.1, r.2, rfl, h⟩

theorem popBlock_follows (s : SizedNode t) : Follows (s.popBlock size rules) (s.node.popBlock rules) := by
  unfold popBlock onNode
  dsimp only
  rcases s.node.popBlock rules with ⟨n, _ | e⟩ <;> rfl

theorem handleBlockToMainChain_follows (s : SizedNode t) (bl : Block) :
    Follows (s.handleBlockToMainChain size rules bl) (s.node.handleBlockToMainChain rules bl) := by
  unfold handleBlockToMainChain onNode
  dsimp only
  rcases s.node.handleBlockToMainChain rules bl with ⟨n, _ | _⟩ <;> rfl

theorem reorganize_node (s : SizedNode t) (height : Nat) :
    (s.reorganize height).1.node = (s.node.reorganize height).1 := rfl

theorem reorganize_follows (s : SizedNode t) (height : Nat) : Follows (s.reorganize height) (s.node.reorganize height) := rfl

theorem popN_follows (k : Nat) (s : SizedNode t) : Node.popN rules k s.node = (popN size rules k s).node := by
  induction k generalizing s with
  | zero => rfl
  | succ k ih =>
    obtain ⟨s', v, heq, hnode⟩ := (popBlock_follows size rules s).elim
    grind [SizedNode.popN, Node.popN]

theorem popUntil_follows (id : Hash) (k : Nat) (s : SizedNode t) :
    Follows (popUntil size rules id k s) (Node.popUntil rules id k s.node) := by
  induction k generalizing s with
  | zero => rfl
  | succ k ih =>
    obtain ⟨s', v, heq, hnode⟩ := (popBlock_follows size rules s).elim
    unfold SizedNode.popUntil Node.popUntil
    split
    · rfl
    · rw [heq, hnode]
      cases v with
      | none => rfl
      | some e =>
        obtain ⟨s'', bs, heq', hnode'⟩ := (ih s').elim
        simp only [heq', hnode']
        rfl

theorem connectAll_follows {α : Type} (block : α → Block) (xs : List α) (s : SizedNode t) :
    Follows (connectAll size rules block s xs) (Node.connectAll rules block s.node xs) := by
  induction xs generalizing s with
  | nil => rfl
  | cons x xs ih =>
    obtain ⟨s', v, heq, hnode⟩ := (handleBlockToMainChain_follows size rules s (block x)).elim
    unfold SizedNode.connectAll Node.connectAll
    rw [heq, hnode]
    cases v with
    | true => exact ih s'
    | false => rfl

theorem reconnect_follows (s : SizedNode t) (originalChain : List Block) (height : Nat) :
    Follows (reconnect size rules s originalChain height) (Node.reconnect rules s.node originalChain height) := by
  obtain ⟨s', left, heq, hnode⟩ := (connectAll_follows size rules id originalChain s).elim
  unfold SizedNode.reconnect Node.reconnect
  rw [heq, hnode]
  cases left with
  | cons x left => rfl
  | nil =>
    obtain ⟨s'', v, heq', hnode'⟩ := (reorganize_follows s' height).elim
    dsimp only
    rw [heq', hnode']
    cases v <;> rfl

theorem rollback_follows (s : SizedNode t) (originalChain : List Block) (height : Nat) :
    Follows (rollback size rules s originalChain height) (Node.rollback rules s.node originalChain height) := by
  unfold SizedNode.rollback Node.rollback
  split
  · rfl
  · rw [popN_follows size]
    obtain ⟨s', v, heq, hnode⟩ :=
      (reorganize_follows (popN size rules (s.node.base.chain.length - height) s) height).elim
    rw [heq, hnode]
    cases v with
    | error e => rfl
    | ok _ => exact reconnect_follows size rules s' originalChain height

variable {push : SizedNode t → Block → SizedNode t × Except DbError Bool}
  {push' : Node t → Block → Node t × Except DbError Bool}

theorem pushAll_follows (hpush : ∀ s bl, Follows (push s bl) (push' s.node bl)) (blocks : List Block) (s : SizedNode t) :
    Follows (pushAll push s blocks) (Node.pushAll push' s.node blocks) := by
  induction blocks generalizing s with
  | nil => rfl
  | cons bl blocks ih =>
    obtain ⟨s', v, heq, hnode⟩ := (hpush s bl).elim
    unfold SizedNode.pushAll Node.pushAll
    rw [heq, hnode]
    cases v with
    | error e => rfl
    | ok _ => exact ih s'

theorem finishSwitch_follows {r : SizedNode t × Except DbError Unit} {r' : Node t × Except DbError Unit}
    (h : Follows r r') (altChain : List AltIterator) (height : Nat) :
    Follows (finishSwitch altChain height r) (Node.finishSwitch altChain height r') := by
  obtain ⟨s, v, rfl, rfl⟩ := h.elim
  cases v with
  | error e => rfl
  | ok _ =>
    unfold SizedNode.finishSwitch Node.finishSwitch
    obtain ⟨s', v, heq, hnode⟩ :=
      (reorganize_follows { s with node := altChain.foldl Node.eraseAlternative s.node } height).elim
    dsimp only at hnode ⊢
    rw [heq, hnode]
    cases v <;> rfl

theorem abandonSwitch_follows {r : SizedNode t × Except DbError Bool} {r' : Node t × Except DbError Bool}
    (h : Follows r r') (failed : List AltIterator) : Follows (abandonSwitch failed r) (Node.abandonSwitch failed r') := by
  obtain ⟨s, v, rfl, rfl⟩ := h.elim
  cases v <;> rfl

theorem connectAlternative_follows (hpush : ∀ s bl, Follows (push s bl) (push' s.node bl)) (s : SizedNode t)
    (disconnectedChain : List Block) (altChain : List AltIterator) (discard : Bool) :
    Follows (connectAlternative size rules push s disconnectedChain altChain discard)
      (Node.connectAlternative rules push' s.node disconnectedChain altChain discard) := by
  obtain ⟨s', left, heq, hnode⟩ :=
    (connectAll_follows size rules (fun it : AltIterator => it.info.block) altChain s).elim
  unfold SizedNode.connectAlternative Node.connectAlternative
  rw [heq, hnode]
  cases left with
  | cons it failed => exact abandonSwitch_follows (rollback_follows size rules s' disconnectedChain _) _
  | nil =>
    cases discard with
    | true => exact finishSwitch_follows (r := (s', .ok ())) rfl altChain _
    | false => exact finishSwitch_follows (pushAll_follows hpush disconnectedChain s') altChain _

theorem switchToAlternative_follows (hpush : ∀ s bl, Follows (push s bl) (push' s.node bl)) (s : SizedNode t)
    (altChain : List AltIterator) (discard : Bool) : Follows (switchToAlternative size rules push s altChain discard)
      (Node.switchToAlternative rules push' s.node altChain discard) := by
  unfold SizedNode.switchToAlternative Node.switchToAlternative
  cases altChain with
  | nil => rfl
  | cons front rest =>
    dsimp only
    split
    · rfl
    · obtain ⟨s', bs, heq, hnode⟩ := (popUntil_follows size rules front.info.block.prevId
        (s.node.logSwitch discard).base.chain.length { s with node := s.node.logSwitch discard }).elim
      grind [connectAlternative_follows]

theorem handleAlternativeBlock_follows (depth : Nat) (s : SizedNode t) (bl : Block) :
    Follows (handleAlternativeBlock size rules depth s bl) (Node.handleAlternativeBlock rules depth s.node bl) := by
  induction depth generalizing s bl with
  | zero => rfl
  | succ depth ih =>
    unfold SizedNode.handleAlternativeBlock Node.handleAlternativeBlock
    cases s.node.judgeAlternative rules bl with
    | refused => rfl
    | orphaned => rfl
    | accepted bei isCheckpoint =>
      dsimp only
      split
      · exact switchToAlternative_follows size rules ih _ _ true
      split
      · exact switchToAlternative_follows size rules ih _ _ false
      · rfl

theorem addNewBlock_follows (depth : Nat) (s : SizedNode t) (bl : Block) :
    Follows (addNewBlock size rules depth s bl) (s.node.addNewBlock rules depth bl) := by
  unfold SizedNode.addNewBlock Node.addNewBlock
  split
  · rfl
  split
  · exact handleAlternativeBlock_follows size rules depth s bl
  · obtain ⟨s', v, heq, hnode⟩ := (handleBlockToMainChain_follows size rules s bl).elim
    rw [heq, hnode]
    rfl

/-! ## One pop, one block, one reorganisation -/

theorem updateLimit_toNat (version : UInt8) (db : List BlockInfo) : (updateNextCumulativeSizeLimit version db).toNat =
    2 * max (medianSize db).toNat (getMinBlockSize version).toNat := by
  have hmedian := medianSize_lt db
  have hmin := (getMinBlockSize_lt version).trans (by decide : 2 ^ 32 < 2 ^ 63)
  unfold updateNextCumulativeSizeLimit
  dsimp only
  rw [UInt64.toNat_mul]
  show _ * 2 % 2 ^ 64 = _
  by_cases hle : medianSize db ≤ getMinBlockSize version
  · rw [if_pos hle, max_eq_right (UInt64.le_iff_toNat_le.1 hle)]
    omega
  · rw [if_neg hle, max_eq_left (by rw [UInt64.le_iff_toNat_le] at hle; omega)]
    omega

variable {size rules} {s : SizedNode t} {ids : BlockIds} {bl : Block}

theorem current_updateLimit (s : SizedNode t) : (s.updateLimit size).Current size := by
  unfold Current updateLimit
  exact updateLimit_toNat _ _

theorem Current.congr (h : s.Current size) {n : Node t} (hchain : n.base.chain = s.node.base.chain)
    (hversion : n.version = s.node.version) : Current size ⟨n, s.limit⟩ := by
  unfold Current at h ⊢
  rw [hchain, hversion]
  exact h

theorem Current.popBlock (h : s.Current size) (rules : NodeRules) : (s.popBlock size rules).1.Current size := by
  rcases eq_nil_or_concat' s.node.base.chain with hnil | ⟨chain, e, hsnoc⟩
  · have hpop : s.node.popBlock rules = (s.node, none) := by
      unfold Node.popBlock Base.popBlock
      simp [hnil]
    unfold SizedNode.popBlock onNode
    simp only [hpop]
    exact h
  · obtain ⟨pool, hpop, -⟩ := Node.popBlock_snoc rules hsnoc
    grind [SizedNode.popBlock, onNode, current_updateLimit]

theorem Current.handleBlockToMainChain (h : s.Current size) (rules : NodeRules) (bl : Block) :
    (s.handleBlockToMainChain size rules bl).1.Current size := by
  unfold SizedNode.handleBlockToMainChain onNode
  cases hverdict : s.node.base.accepted (rules.base s.node.version) bl with
  | none =>
    obtain ⟨pool, invalid, heq, -⟩ := Node.handleBlockToMainChain_of_refused hverdict
    simp only [heq]
    exact h.congr rfl rfl
  | some txs =>
    simp only [Node.handleBlockToMainChain_of_accepted hverdict]
    exact current_updateLimit _

end SizedNode

namespace Node
variable {t : ForkTable} {n : Node t} {ids : BlockIds}

theorem Sound.version_eq (h : n.Sound ids) : n.version = t.idealVersion n.base.chain.length := by
  unfold Node.version HardFork.currentVersion ForkTable.idealVersion
  rw [h.forks.index]

theorem Sound.reorganize_any (hs : t.Scheduled) (h : n.Sound ids) (height : Nat) :
    (n.reorganize height).1.Sound ids ∧ (n.reorganize height).2.isOk = true := by
  cases height with
  | zero => exact ⟨h, rfl⟩
  | succ height => exact h.reorganize_self hs (Nat.succ_pos _)

theorem Sound.reorganize_version (hs : t.Scheduled) (h : n.Sound ids) (height : Nat) :
    (n.reorganize height).1.version = n.version := by
  rw [(h.reorganize_any hs height).1.version_eq, h.version_eq]
  rfl

theorem Sound.cut (h : n.Sound ids) {pre post popped : Chain} (hchain : n.base.chain = pre ++ post)
    (hsame : t.idealIndex pre.length = t.idealIndex n.base.chain.length) (pool : Pool) (invalid : Finset Hash) :
    (n.set pre popped pool invalid n.forks).Sound ids :=
  ⟨h.tree.of_chain (h.tree.path_pre hchain), (h.demands_append hchain).1, h.altDemands,
    h.forks.lower (by simp [hchain]) hsame⟩

theorem Sound.connectAll {blocks : List Block} (rules : NodeRules) (hs : t.Scheduled) (h : n.Sound ids)
    (hknown : ∀ b ∈ blocks, ids.Known b) (hdemands : t.DemandsFrom n.base.chain.length blocks) :
    (connectAll rules id n blocks).1.Sound ids := by
  induction blocks generalizing n with
  | nil => exact h
  | cons bl rest ih =>
    obtain ⟨hbl, hrest⟩ := ForkTable.demandsFrom_append.1 (show t.DemandsFrom _ ([bl] ++ rest) from hdemands)
    have hsound : (n.handleBlockToMainChain rules bl).1.Sound ids :=
      h.handleBlockToMainChain hs (hknown bl mem_cons_self) (ForkTable.demandsFrom_singleton.1 hbl)
    have hknown' : ∀ b ∈ rest, ids.Known b := fun b hb => hknown b (mem_cons_of_mem _ hb)
    unfold Node.connectAll
    cases hverdict : n.base.accepted (rules.base n.version) bl with
    | none => grind [handleBlockToMainChain_of_refused]
    | some txs =>
      have heq := handleBlockToMainChain_of_accepted hverdict
      simp_all

end Node

namespace SizedNode
variable {t : ForkTable} {size : StoredBlock → BlockInfo} {rules : NodeRules} {s : SizedNode t} {ids : BlockIds}
  {bl : Block}

theorem Current.reorganize (hs : t.Scheduled) (hc : s.Current size) (h : s.node.Sound ids) (height : Nat) :
    (s.reorganize height).1.Current size :=
  hc.congr rfl (h.reorganize_version hs height)

theorem Current.popN (h : s.Current size) (rules : NodeRules) (k : Nat) : (popN size rules k s).Current size := by
  induction k generalizing s with
  | zero => exact h
  | succ k ih => exact ih (h.popBlock rules)

theorem Current.popUntil (h : s.Current size) (rules : NodeRules) (id : Hash) (k : Nat) :
    (popUntil size rules id k s).1.Current size := by
  induction k generalizing s with
  | zero => exact h
  | succ k ih =>
    have hpop := h.popBlock rules
    grind [SizedNode.popUntil]

theorem Current.connectAll {α : Type} (h : s.Current size) (rules : NodeRules) (block : α → Block) (xs : List α) :
    (connectAll size rules block s xs).1.Current size := by
  induction xs generalizing s with
  | nil => exact h
  | cons x xs ih =>
    have hnext := h.handleBlockToMainChain rules (block x)
    grind [SizedNode.connectAll]

variable {originalChain : List Block}

theorem Current.reconnect (hs : t.Scheduled) (hc : s.Current size) (h : s.node.Sound ids)
    (hknown : ∀ b ∈ originalChain, ids.Known b) (hdemands : t.DemandsFrom s.node.base.chain.length originalChain)
    (height : Nat) : (reconnect size rules s originalChain height).1.Current size := by
  have hnext := hc.connectAll rules id originalChain
  have hsound := h.connectAll rules hs hknown hdemands
  obtain ⟨s', left, heq, hnode⟩ := (connectAll_follows size rules id originalChain s).elim
  rw [heq] at hnext
  grind [SizedNode.reconnect, Current.reorganize]

theorem Current.rollback (hs : t.Scheduled) (hc : s.Current size) (h : s.node.Sound ids) {pre post : Chain}
    (hchain : s.node.base.chain = pre ++ post) (hsame : t.idealIndex pre.length = t.idealIndex s.node.base.chain.length)
    (hknown : ∀ b ∈ originalChain, ids.Known b) (hdemands : t.DemandsFrom pre.length originalChain) :
    (rollback size rules s originalChain pre.length).1.Current size := by
  have hlen : s.node.base.chain.length - pre.length = post.length := by simp [hchain]
  obtain ⟨popped, pool, hpop, -⟩ := Node.popN_spec rules hchain
  have hnode := (popN_follows size rules post.length s).symm.trans hpop
  have hcut : (SizedNode.popN size rules post.length s).node.Sound ids := by
    rw [hnode]
    exact h.cut hchain hsame pool _
  have hre := Current.reorganize hs (hc.popN rules post.length) hcut pre.length
  have hsound := (hcut.reorganize_any hs pre.length).1
  have hheight : ((SizedNode.popN size rules post.length s).reorganize pre.length).1.node.base.chain.length =
      pre.length := by
    show (SizedNode.popN size rules post.length s).node.base.chain.length = _
    rw [hnode]
    rfl
  rw [← reorganize_node] at hsound
  unfold SizedNode.rollback
  rw [if_neg (by simp [hchain]), hlen]
  generalize SizedNode.reorganize _ _ = r at hre hsound hheight ⊢
  obtain ⟨s', e | b⟩ := r
  · exact hre
  · exact hre.reconnect hs hsound hknown (by rw [hheight]; exact hdemands) pre.length

theorem Current.finishSwitch {r : SizedNode t × Except DbError Unit} (hs : t.Scheduled) (hc : r.1.Current size)
    (h : r.1.node.Sound ids) (its : List AltIterator) (height : Nat) : (finishSwitch its height r).1.Current size := by
  obtain ⟨s, e | u⟩ := r
  · exact hc
  have hchain := Node.foldl_eraseAlternative_chain its s.node
  have hforks := @Node.foldl_erase_eq t Node.eraseAlternative _ Node.forks (fun _ _ => rfl) its s.node
  have herased : (its.foldl Node.eraseAlternative s.node).Sound ids := by
    refine h.congr hchain hforks fun id e he => ?_
    grind [Node.lookup_foldl_erase, Node.eraseAlternative]
  have hc' :=
    hc.congr hchain (by unfold Node.version; rw [hforks])
  have hre := Current.reorganize hs hc' herased height
  grind [SizedNode.finishSwitch, SizedNode.reorganize]

theorem Current.abandonSwitch {r : SizedNode t × Except DbError Bool} (hc : r.1.Current size) (failed : List AltIterator) :
    (abandonSwitch failed r).1.Current size := by
  obtain ⟨s, e | b⟩ := r
  · exact hc
  · refine hc.congr (Node.foldl_invalidate_chain failed s.node) ?_
    unfold Node.version
    rw [@Node.foldl_erase_eq t Node.invalidate _ Node.forks (fun _ _ => rfl) failed s.node]

variable {low : List Block} {bei : BlockExtendedInfo} {pre post : Chain}

def PushHolds (size : StoredBlock → BlockInfo) (ids : BlockIds) (low : List Block)
    (push : SizedNode t → Block → SizedNode t × Except DbError Bool) : Prop :=
  ∀ s bl, s.node.Based ids low → s.Current size → Node.Pushable ids t low bl →
    (push s bl).1.node.Based ids low ∧ (push s bl).1.Current size

variable {push : SizedNode t → Block → SizedNode t × Except DbError Bool}

theorem PushHolds.pushAll (hpush : PushHolds size ids low push) {blocks : List Block}
    (hblocks : ∀ b ∈ blocks, Node.Pushable ids t low b) (h : s.node.Based ids low) (hc : s.Current size) :
    (pushAll push s blocks).1.node.Based ids low ∧ (pushAll push s blocks).1.Current size := by
  induction blocks generalizing s with
  | nil => exact ⟨h, hc⟩
  | cons bl blocks ih =>
    have hnext := hpush s bl h hc (hblocks bl mem_cons_self)
    grind [SizedNode.pushAll]

end SizedNode

theorem Node.Hangs.length_stored_le {t : ForkTable} {n : Node t} {rules : NodeRules} {ids : BlockIds} {bl : Block}
    {bei : BlockExtendedInfo} {pre post stored : Chain} (hangs : Hangs ids rules n bl bei pre post)
    {done failed : List AltIterator} {it : AltIterator} (hits : iterators rules n bl bei = done ++ it :: failed)
    (hstored : stored.map (·.block) = done.map (·.info.block)) : (pre ++ stored).length ≤ ids.depth bl.prevId := by
  have hpath := hangs.path.depth_tip
  have hknown := (hangs.path.known (by simp : bl ∈ _)).2
  rw [HashTree.Naming.tip_snoc] at hpath
  have hlength := congrArg List.length hstored
  have hlist := congrArg List.length hits
  simp [iterators] at hpath hlength hlist ⊢
  omega

namespace SizedNode
variable {t : ForkTable} {size : StoredBlock → BlockInfo} {rules : NodeRules} {s : SizedNode t} {ids : BlockIds}
  {bl : Block} {low : List Block} {bei : BlockExtendedInfo} {pre post : Chain}
  {push : SizedNode t → Block → SizedNode t × Except DbError Bool}

theorem Current.relocate (hc : s.Current size) (htree : s.node.Tree ids)
    (hangs : Node.Hangs ids rules s.node bl bei pre post) (discard : Bool) :
    ∃ front rest s₁ s₂ stored popped pool invalid done failed,
      Node.iterators rules s.node bl bei = front :: rest ∧
      SizedNode.popUntil size rules front.info.block.prevId
        ((s.node.insertAlternative rules bei).logSwitch discard).base.chain.length
        ⟨(s.node.insertAlternative rules bei).logSwitch discard, s.limit⟩ = (s₁, post.map (·.block)) ∧
      s₁.node.base.chain = pre ∧
      SizedNode.connectAll size rules (·.info.block) s₁ (Node.iterators rules s.node bl bei) = (s₂, failed) ∧
      s₂.node = Node.connected rules s.node bei discard pre stored popped pool invalid ∧ s₂.Current size ∧
      Node.iterators rules s.node bl bei = done ++ failed ∧ stored.map (·.block) = done.map (·.info.block) := by
  obtain ⟨front, rest, hits, htail, hpost⟩ := hangs.split htree
  generalize hstart : (⟨(s.node.insertAlternative rules bei).logSwitch discard, s.limit⟩ : SizedNode t) = s₀
  have hnode₀ : s₀.node = (s.node.insertAlternative rules bei).logSwitch discard := by rw [← hstart]
  have hc₀ : s₀.Current size := by
    rw [← hstart]
    exact hc.congr (by simp [Node.logSwitch]) (by simp [Node.version, Node.logSwitch])
  have hchain : s₀.node.base.chain = pre ++ post := by simpa [hnode₀, Node.logSwitch] using hangs.chain
  rw [← hnode₀]
  obtain ⟨popped, pool, hpop, -⟩ := Node.popUntil_spec rules hchain htail hpost (k := s₀.node.base.chain.length)
    (by simp [hchain])
  have hc₁ := hc₀.popUntil rules front.info.block.prevId s₀.node.base.chain.length
  obtain ⟨s₁, olds, hpopped, hnode₁⟩ :=
    (popUntil_follows size rules front.info.block.prevId s₀.node.base.chain.length s₀).elim
  rw [hpopped] at hc₁
  obtain ⟨hs₁, rfl⟩ := Prod.mk.inj (hnode₁.symm.trans hpop)
  have hc₂ := hc₁.connectAll rules (fun it : AltIterator => it.info.block) (Node.iterators rules s.node bl bei)
  obtain ⟨s₂, failed, hconnected, hnode₂⟩ :=
    (connectAll_follows size rules (fun it : AltIterator => it.info.block) (Node.iterators rules s.node bl bei) s₁).elim
  rw [hconnected] at hc₂
  obtain ⟨stored, pool', invalid, done, failed', hconnect, hsplit, hblocks, -⟩ := Node.connectAll_spec rules
    (fun it : AltIterator => it.info.block) (Node.iterators rules s.node bl bei) s₁.node
  obtain ⟨hs₂, rfl⟩ := Prod.mk.inj (hnode₂.symm.trans hconnect)
  refine ⟨front, rest, s₁, s₂, stored, popped, pool', invalid, done, failed, hits, hpopped, by rw [hs₁]; rfl, hconnected,
    ?_, hc₂, hsplit, hblocks⟩
  rw [hs₂, hs₁, hnode₀]
  simp [Node.connected, Node.logSwitch]

theorem Current.switchToAlternative (hs : t.Scheduled) (hpush : PushHolds size ids low push) (hc : s.Current size)
    (h : s.node.Based ids low) (hangs : Node.Hangs ids rules s.node bl bei pre post)
    (hbl : t.Demands (ids.depth bl.prevId) bl) (hle : low <+: pre.map (·.block))
    (htop : t.idealIndex low.length = t.idealIndex s.node.base.chain.length)
    (hplace : t.idealIndex low.length = t.idealIndex (ids.depth bl.prevId)) (discard : Bool) :
    (switchToAlternative size rules push { s with node := s.node.insertAlternative rules bei }
      (Node.iterators rules s.node bl bei) discard).1.Current size := by
  obtain ⟨front, rest, s₁, s₂, stored, popped, pool, invalid, done, failed, hits, hpopped, hsplit, hconnected, hnode, hc₂,
    hlist, hstored⟩ := hc.relocate h.sound.tree hangs discard
  have hbased : s₂.node.Based ids low := by
    rw [hnode]
    exact h.connected hs hangs hbl hle htop hlist hstored
  rw [hits, SizedNode.switchToAlternative]
  dsimp only
  split
  · exact hc.congr (by simp [Node.logSwitch]) (by simp [Node.version, Node.logSwitch])
  rw [hpopped, ← hits]
  unfold SizedNode.connectAlternative
  rw [hconnected, hsplit]
  cases failed with
  | nil =>
    cases discard with
    | true => exact Current.finishSwitch (r := (s₂, .ok ())) hs hc₂ hbased.sound _ _
    | false =>
      obtain ⟨hafter, hc₃⟩ := hpush.pushAll (fun b hb => h.pushable hangs hle htop hb) hbased hc₂
      exact Current.finishSwitch hs hc₃ hafter.sound _ _
  | cons it failed =>
    have hchain : s₂.node.base.chain = pre ++ stored := by
      rw [hnode]
      rfl
    have hsame : t.idealIndex pre.length = t.idealIndex s₂.node.base.chain.length := by
      have hlow : low.length ≤ pre.length := by simpa using hle.length_le
      refine le_antisymm (ForkTable.idealIndex_mono (by simp [hchain])) ?_
      calc t.idealIndex s₂.node.base.chain.length
          ≤ t.idealIndex (ids.depth bl.prevId) :=
            ForkTable.idealIndex_mono (by rw [hchain]; exact hangs.length_stored_le hlist hstored)
        _ = t.idealIndex low.length := hplace.symm
        _ ≤ t.idealIndex pre.length := ForkTable.idealIndex_mono hlow
    exact (Current.rollback hs hc₂ hbased.sound hchain hsame
      (fun b hb => h.sound.tree.path.known (by rw [hangs.blocks_eq]; exact mem_append_right _ hb))
      (h.sound.demands_append hangs.chain).2).abandonSwitch _

theorem Current.handleAlternative_succ (hs : t.Scheduled) (depth : Nat)
    (hpush : PushHolds (t := t) size ids low (handleAlternativeBlock size rules depth)) (hc : s.Current size)
    (h : s.node.Based ids low) (hknown : ids.Known bl) (hbl : t.Demands (ids.depth bl.prevId) bl)
    (hhangs : ∀ bei pre post, Node.Hangs ids rules s.node bl bei pre post →
      low <+: pre.map (·.block) ∧ t.idealIndex low.length = t.idealIndex s.node.base.chain.length ∧
        t.idealIndex low.length = t.idealIndex (ids.depth bl.prevId)) :
    (handleAlternativeBlock size rules (depth + 1) s bl).1.Current size := by
  rw [SizedNode.handleAlternativeBlock]
  cases hjudge : Node.judgeAlternative rules s.node bl with
  | refused => exact hc
  | orphaned => exact hc
  | accepted bei cp =>
    obtain ⟨⟨pre, post, hangs⟩, -⟩ := Node.judgeAlternative_accepted h.sound.tree hknown hjudge
    obtain ⟨hle, htop, hplace⟩ := hhangs bei pre post hangs
    dsimp only
    split
    · exact hc.switchToAlternative hs hpush h hangs hbl hle htop hplace true
    split
    · exact hc.switchToAlternative hs hpush h hangs hbl hle htop hplace false
    · exact hc.congr (by simp) (by simp [Node.version])

theorem pushHolds_handleAlternativeBlock (hs : t.Scheduled) (depth : Nat) :
    PushHolds (t := t) size ids low (handleAlternativeBlock size rules depth) := by
  induction depth with
  | zero => exact fun s bl h hc _ => ⟨h, hc⟩
  | succ depth ih =>
    intro s bl h hc hbl
    obtain ⟨c, hpath⟩ := hbl.path
    refine ⟨?_, hc.handleAlternative_succ hs depth ih h (hpath.known (by simp)) hbl.demands
      (fun _ _ _ hangs => ⟨h.le_pre hbl hangs, h.same hs hbl hangs, hbl.same⟩)⟩
    have hbased : (Node.handleAlternativeBlock rules (depth + 1) s.node bl).1.Based ids low :=
      (Node.handleAlternativeBlock_based hs (depth + 1) h hbl).1
    rwa [handleAlternativeBlock_follows size rules (depth + 1) s bl] at hbased

theorem Current.addNewBlock (hs : t.Scheduled) (hc : s.Current size) (h : s.node.Settled ids) (rules : NodeRules)
    (depth : Nat) (hknown : ids.Known bl) (htimely : Node.Timely ids s.node bl)
    (hplace : bl.prevId ≠ s.node.base.tailId →
      t.idealVersion (ids.depth bl.prevId) = t.idealVersion s.node.base.chain.length) :
    (addNewBlock size rules depth s bl).1.Current size := by
  unfold SizedNode.addNewBlock
  split
  · exact hc
  split
  · rename_i hprev
    cases depth with
    | zero => exact hc
    | succ depth =>
      have hbased := h.based (ids.depth (parentOf (s.node.altChain bl) bl.prevId))
      refine hc.handleAlternative_succ hs depth (pushHolds_handleAlternativeBlock hs depth) hbased hknown htimely.1 ?_
      intro bei pre post hangs
      have htop := htimely.hangs hprev hangs
      rw [hangs.blocks_take, length_map]
      exact ⟨prefix_refl _, htop, htop.trans (ForkTable.idealVersion_eq_iff.1 (hplace hprev)).symm⟩
  · exact hc.handleBlockToMainChain rules bl

end SizedNode

/-! ## Pops and rollbacks between arrivals -/

namespace Node
variable {t : ForkTable} {n : Node t} {ids : BlockIds} {pre post : Chain}

theorem Settled.cut (h : n.Settled ids) {popped : Chain} (hchain : n.base.chain = pre ++ post)
    (hsame : t.idealIndex pre.length = t.idealIndex n.base.chain.length) (pool : Pool) (invalid : Finset Hash) :
    (n.set pre popped pool invalid n.forks).Settled ids := by
  refine ⟨h.1.cut hchain hsame pool invalid, fun b hb e he => h.2 b ?_ e he⟩
  rw [blocks, hchain, map_append]
  exact mem_append_left _ hb

theorem Settled.reorganize (hs : t.Scheduled) (h : n.Settled ids) (height : Nat) : (n.reorganize height).1.Settled ids :=
  ⟨(h.1.reorganize_any hs height).1, h.2⟩

theorem Settled.rollback_nil (hs : t.Scheduled) (h : n.Settled ids) (rules : NodeRules) (hchain : n.base.chain = pre ++ post)
    (hsame : t.idealIndex pre.length = t.idealIndex n.base.chain.length) :
    (rollback rules n [] pre.length).1.Settled ids := by
  have hlen : n.base.chain.length - pre.length = post.length := by simp [hchain]
  obtain ⟨popped, pool, hpop, -⟩ := popN_spec rules hchain
  have hcut : (popN rules post.length n).Settled ids := by
    rw [hpop]
    exact h.cut hchain hsame pool _
  have hsettled := hcut.reorganize hs pre.length
  unfold rollback
  rw [if_neg (by simp [hchain]), hlen]
  generalize Node.reorganize _ _ = r at hsettled ⊢
  obtain ⟨m, e | b⟩ := r
  · exact hsettled
  have hagain := hsettled.reorganize hs pre.length
  simp only [reconnect, connectAll]
  grind

end Node

namespace SizedNode
variable {t : ForkTable} {size : StoredBlock → BlockInfo} {rules : NodeRules} {s : SizedNode t} {ids : BlockIds}

theorem rollback_nil_limit (s : SizedNode t) {height : Nat} (hle : height ≤ s.node.base.chain.length) :
    (rollback size rules s [] height).1.limit = (popN size rules (s.node.base.chain.length - height) s).limit := by
  unfold rollback reconnect connectAll reorganize onNode
  grind

theorem rollback_nil_spec (hs : t.Scheduled) (hc : s.Current size) (h : s.node.Sound ids) (rules : NodeRules)
    {pre post : Chain} (hchain : s.node.base.chain = pre ++ post) (hpre : pre ≠ []) :
    (rollback size rules s [] pre.length).1.node.base.chain = pre ∧
    (rollback size rules s [] pre.length).1.node.version = t.idealVersion pre.length ∧
    (rollback size rules s [] pre.length).1.limit.toNat =
      2 * max (medianSize (pre.map size)).toNat (getMinBlockSize (t.idealVersion s.node.base.chain.length)).toNat := by
  have hlen : s.node.base.chain.length - pre.length = post.length := by simp [hchain]
  have hsound : (rollback size rules s [] pre.length).1.node.Sound ids := by
    have hsound := (h.rollback rules hs hchain hpre [] (by simpa using h.tree.path_pre hchain)
      (by simp [ForkTable.DemandsFrom])).1
    rwa [rollback_follows size rules s [] pre.length] at hsound
  have hleft : (rollback size rules s [] pre.length).1.node.base.chain = pre := by
    obtain ⟨stored, popped, pool, invalid, forks, rest, hnil, hroll, -⟩ := Node.rollback_spec rules hchain []
    rw [rollback_follows size rules s [] pre.length] at hroll
    simp_all
  refine ⟨hleft, by rw [hsound.version_eq, hleft], ?_⟩
  obtain ⟨popped, pool, hpop, -⟩ := Node.popN_spec rules hchain
  have hnode := (popN_follows size rules post.length s).symm.trans hpop
  have hcurrent := hc.popN rules post.length
  unfold Current at hcurrent
  rw [rollback_nil_limit s (by simp [hchain]), hlen, hcurrent, hnode, ← h.version_eq]
  rfl

inductive Op
  | arrive (a : Node.Arrival)
  | pop (rules : NodeRules)
  | failCheckpoint (rules : NodeRules) (point : UInt64)

def Op.Known (ids : BlockIds) : Op → Prop
  | .arrive a => ids.Known a.block
  | .pop _ => True
  | .failCheckpoint _ _ => True

def apply (size : StoredBlock → BlockInfo) (s : SizedNode t) : Op → SizedNode t
  | .arrive a => (addNewBlock size a.rules a.depth { s with node := s.node.withPool a.pool } a.block).1
  | .pop rules => (s.popBlock size rules).1
  | .failCheckpoint rules point => s.failCheckpoint size rules point

/-- The operation stays within one hard fork. A block that arrives has the version its height asks for, and if it
is not for the top of the chain then no fork height lies between the block its chain hangs on, the block itself
and the top. A pop and a rollback do not go below a fork height. -/
def Op.Within (ids : BlockIds) (n : Node t) : Op → Prop
  | .arrive a => Node.Timely ids n a.block ∧
      (a.block.prevId ≠ n.base.tailId → t.idealVersion (ids.depth a.block.prevId) = t.idealVersion n.base.chain.length)
  | .pop _ => t.idealVersion (n.base.chain.length - 1) = t.idealVersion n.base.chain.length
  | .failCheckpoint _ point => point.toNat < n.base.chain.length → (point - 2).toNat ≤ n.base.chain.length →
      t.idealVersion (point - 2).toNat = t.idealVersion n.base.chain.length

instance (ids : BlockIds) (n : Node t) : (op : Op) → Decidable (op.Within ids n)
  | .arrive _ => inferInstanceAs (Decidable (_ ∧ _))
  | .pop _ => inferInstanceAs (Decidable (_ = _))
  | .failCheckpoint _ _ => inferInstanceAs (Decidable (_ → _))

structure Steady (size : StoredBlock → BlockInfo) (ids : BlockIds) (s : SizedNode t) : Prop where
  settled : s.node.Settled ids
  current : s.Current size

theorem steady_init (size : StoredBlock → BlockInfo) (ids : BlockIds) (t : ForkTable) : (init size t).Steady size ids :=
  ⟨Node.settled_init ids t, current_updateLimit _⟩

theorem Steady.arrive (hs : t.Scheduled) (h : s.Steady size ids) {a : Node.Arrival} (hknown : ids.Known a.block)
    (hok : (Op.arrive a).Within ids s.node) : (s.apply size (.arrive a)).Steady size ids := by
  have hpool : (s.node.withPool a.pool).Settled ids := ⟨h.settled.1.congr rfl rfl fun _ _ he => he, h.settled.2⟩
  have hcurrent : Current size ⟨s.node.withPool a.pool, s.limit⟩ := h.current.congr rfl rfl
  refine ⟨?_, hcurrent.addNewBlock hs hpool a.rules a.depth hknown hok.1 hok.2⟩
  have hsettled := hpool.addNewBlock hs a.rules a.depth hknown hok.1
  rwa [addNewBlock_follows size a.rules a.depth ⟨s.node.withPool a.pool, s.limit⟩ a.block] at hsettled

theorem Steady.pop (h : s.Steady size ids) (hok : (Op.pop rules).Within ids s.node) :
    (s.apply size (.pop rules)).Steady size ids := by
  refine ⟨?_, h.current.popBlock rules⟩
  have hnode : (s.popBlock size rules).1.node = (s.node.popBlock rules).1 := by rw [popBlock_follows size rules s]
  show (s.popBlock size rules).1.node.Settled ids
  rw [hnode]
  rcases eq_nil_or_concat' s.node.base.chain with hnil | ⟨chain, e, hsnoc⟩
  · have hpop : s.node.popBlock rules = (s.node, none) := by
      unfold Node.popBlock Base.popBlock
      simp [hnil]
    rw [hpop]
    exact h.settled
  · obtain ⟨pool, hpop, -⟩ := Node.popBlock_snoc rules hsnoc
    have hsame := ForkTable.idealVersion_eq_iff.1 hok
    rw [hsnoc, length_append, length_singleton, Nat.add_sub_cancel] at hsame
    rw [hpop]
    exact h.settled.cut hsnoc (by simpa [hsnoc] using hsame) pool _

variable {point : UInt64}

theorem Steady.failCheckpoint (hs : t.Scheduled) (h : s.Steady size ids)
    (hok : (Op.failCheckpoint rules point).Within ids s.node) :
    (s.apply size (.failCheckpoint rules point)).Steady size ids := by
  unfold apply SizedNode.failCheckpoint
  dsimp only
  split
  · exact h
  rename_i hbelow
  by_cases hle : (point - 2).toNat ≤ s.node.base.chain.length
  · have hheight : (s.node.base.chain.take (point - 2).toNat).length = (point - 2).toNat := by simpa using hle
    have hchain := (take_append_drop (point - 2).toNat s.node.base.chain).symm
    have hsame := ForkTable.idealVersion_eq_iff.1 (hok (Nat.not_le.1 hbelow) hle)
    rw [← hheight] at hsame
    rw [← hheight]
    refine ⟨?_, Current.rollback hs h.current h.settled.1 hchain hsame (fun b hb => by cases hb)
      (by simp [ForkTable.DemandsFrom])⟩
    have hsettled := h.settled.rollback_nil hs rules hchain hsame
    rwa [rollback_follows size rules s] at hsettled
  · -- the height has wrapped around, and there is nothing to roll back
    unfold rollback
    rw [if_pos (Nat.not_le.1 hle)]
    exact h

theorem Steady.apply (hs : t.Scheduled) (h : s.Steady size ids) {op : Op} (hknown : op.Known ids)
    (hok : op.Within ids s.node) : (s.apply size op).Steady size ids := by
  cases op with
  | arrive a => exact h.arrive hs hknown hok
  | pop rules => exact h.pop hok
  | failCheckpoint rules point => exact h.failCheckpoint hs hok

theorem Steady.failCheckpoint_iff (hs : t.Scheduled) (h : s.Steady size ids) (rules : NodeRules)
    (htwo : 2 < point) (hpoint : point.toNat < s.node.base.chain.length) :
    (s.failCheckpoint size rules point).Current size ↔
      updateNextCumulativeSizeLimit (t.idealVersion (point - 2).toNat)
          ((s.node.base.chain.take (point - 2).toNat).map size) =
        updateNextCumulativeSizeLimit (t.idealVersion s.node.base.chain.length)
          ((s.node.base.chain.take (point - 2).toNat).map size) := by
  have hheight : (point - 2).toNat = point.toNat - 2 := UInt64.toNat_sub_of_le _ _ (UInt64.le_of_lt htwo)
  have hpos : 2 < point.toNat := UInt64.lt_iff_toNat_lt.1 htwo
  generalize hpre : s.node.base.chain.take (point - 2).toNat = pre
  have hlen : pre.length = (point - 2).toNat := by
    rw [← hpre, length_take]
    omega
  have hchain : s.node.base.chain = pre ++ s.node.base.chain.drop (point - 2).toNat := by
    rw [← hpre, take_append_drop]
  have hne : pre ≠ [] := by
    rw [← length_pos_iff, hlen]
    omega
  obtain ⟨hleft, hversion, hlimit⟩ := rollback_nil_spec hs h.current h.settled.1 rules hchain hne
  unfold SizedNode.failCheckpoint
  rw [if_neg (Nat.not_le.2 hpoint), ← hlen]
  unfold Current
  rw [hleft, hversion, hlimit, ← UInt64.toNat_inj, updateLimit_toNat, updateLimit_toNat]
  exact eq_comm

/-- **The limit is current after every operation** of a run whose operations all stay within one hard fork. -/
theorem limit_current_over_runs (hs : t.Scheduled) (ids : BlockIds) (size : StoredBlock → BlockInfo) (ops : List Op)
    (hknown : ∀ op ∈ ops, op.Known ids)
    (h : Meets (apply size) (fun (s : SizedNode t) op => op.Within ids s.node) (init size t) ops) :
    Always (apply size) (fun s => s.Current size ∧ ∀ (rules : NodeRules) (point : UInt64),
      2 < point → point.toNat < s.node.base.chain.length →
      ((s.failCheckpoint size rules point).Current size ↔
        updateNextCumulativeSizeLimit (t.idealVersion (point - 2).toNat)
            ((s.node.base.chain.take (point - 2).toNat).map size) =
          updateNextCumulativeSizeLimit (t.idealVersion s.node.base.chain.length)
            ((s.node.base.chain.take (point - 2).toNat).map size))) (init size t) ops := by
  have hstep : ∀ (s : SizedNode t) (op : Op), s.Steady size ids → op.Known ids ∧ op.Within ids s.node →
      (s.apply size op).Steady size ids :=
    fun s op hsteady hok => hsteady.apply hs hok.1 hok.2
  refine always_of_invariant hstep ?_ (steady_init size ids t) ((meets_of_forall (fun op hop _ => hknown op hop) _).and h)
  intro s hsteady
  exact ⟨hsteady.current, fun rules point htwo hpoint => hsteady.failCheckpoint_iff hs rules htwo hpoint⟩

section Example
open Node

def sameSize (_ : StoredBlock) : BlockInfo := ⟨1000, 0, by decide⟩

theorem forkRun_limit :
    let s := run (apply sameSize) (init sameSize .mainnet) (forkRun.map .arrive ++ [.pop openNode])
    s.node.blocks.map (·.id) = [Env.plainKey 1, Env.plainKey 3] ∧ s.limit = 40000 ∧ s.Current sameSize := by
  have hblocks : ∀ a ∈ forkRun, forkIds.Known a.block := by
    unfold HashTree.Naming.Known
    decide +kernel
  have hknown : ∀ op ∈ forkRun.map Op.arrive ++ [.pop openNode], op.Known forkIds := by
    intro op hop
    rcases mem_append.1 hop with hop | hop
    · obtain ⟨a, ha, rfl⟩ := List.mem_map.1 hop
      exact hblocks a ha
    · rw [mem_singleton.1 hop]
      trivial
  have hmeets : Meets (apply sameSize) (fun (s : SizedNode .mainnet) op => op.Within forkIds s.node)
      (init sameSize .mainnet) (forkRun.map .arrive ++ [.pop openNode]) := by decide +kernel
  have halways := limit_current_over_runs (t := .mainnet) (by decide +kernel) forkIds sameSize _ hknown hmeets
  exact ⟨by decide +kernel, by decide +kernel, (always_iff_initial.1 halways _ (prefix_refl _)).1⟩

def secondFork : ForkTable := ⟨⟨1, 1, 0⟩, [⟨2, 3, 0⟩], 10080, ForkTable.mainnet.windowSize_pos, by decide⟩

theorem rollback_leaves_limit :
    let blocks := [genesis, plainBlock 2 1 (Env.plainKey 1) 1, plainBlock 3 1 (Env.plainKey 2) 2,
      plainBlock 4 2 (Env.plainKey 3) 3]
    let s : SizedNode secondFork := run (apply sameSize) (init sameSize _) (blocks.map (.arrive ⟨·, openNode, 2, ∅⟩))
    let s' := s.failCheckpoint sameSize openNode 3
    s.node.blocks = blocks ∧ s.Current sameSize ∧ s'.node.blocks = blocks.take 1 ∧ s'.node.version = 1 ∧
    s'.limit = 120000 ∧ ¬ s'.Current sameSize := by
  decide +kernel

end Example

end SizedNode

end Electronero
