import Electronero.Core.HardFork
import Electronero.Core.OneBlock
/-!
# A node: chain, hard forks and alternative blocks (`src/cryptonote_core/blockchain.cpp`)

Each check is made under the version current at that moment, and the `HardFork` object is reorganised where the source
does it, which is not where blocks are popped. `.error` is an exception of the database that nobody catches.

A rehash of a `std::unordered_map` invalidates all iterators, so an iterator carries the number of rehashes so far.
-/
namespace Electronero
open Text FiniteMap List

structure NodeRules where
  base : UInt8 → BaseRules
  /-- the bucket count after a rehash for so many elements -/
  growBuckets : Nat → Nat

structure AltIterator where
  info : BlockExtendedInfo
  epoch : Nat
deriving DecidableEq

/-- What happened, for the statements; nothing reads it. -/
inductive NodeEvent
  | switchStarted (discard : Bool)
  /-- `m_alternative_chains.erase` with an iterator that is not valid any more -/
  | danglingErase (id : Hash)
deriving DecidableEq

structure Node (t : ForkTable) where
  base : Base
  forks : ForkState t
  buckets : Nat
  /-- rehashes of `m_alternative_chains` so far -/
  epoch : Nat
  log : List NodeEvent

inductive AltVerdict
  | refused
  | orphaned
  | accepted (bei : BlockExtendedInfo) (isCheckpoint : Bool)
deriving DecidableEq

namespace Node
variable {t : ForkTable} (rules : NodeRules)

def init (t : ForkTable) : Node t := ⟨.ofChain [], .init t, 1, 0, []⟩

section
variable (n : Node t)

def blocks : List Block := n.base.chain.map (·.block)

def version : UInt8 := n.forks.hardFork.currentVersion

def popBlock : Node t × Option StoredBlock :=
  let r := n.base.popBlock (rules.base n.version)
  ({ n with base := r.1 }, r.2)

def handleBlockToMainChain (bl : Block) : Node t × Bool :=
  let r := n.base.handleBlockToMainChain (rules.base n.version) bl
  if r.2 then ({ n with base := r.1, forks := n.forks.addStored n.base.chain.length bl }, true)
  else ({ n with base := r.1 }, false)

def reorganize (height : Nat) : Node t × Except DbError Bool :=
  let r := n.forks.reorganizeFromChainHeight n.blocks height
  ({ n with forks := r.1 }, r.2)

def insertAlternative (bei : BlockExtendedInfo) : Node t :=
  let size := n.base.alternatives.keys.card
  let n' := { n with base := { n.base with alternatives := n.base.alternatives.insert bei.block.id bei } }
  if n.buckets < size + 1 then { n' with buckets := rules.growBuckets (size + 1), epoch := n.epoch + 1 } else n'

def Valid (it : AltIterator) : Prop := it.epoch = n.epoch ∧ n.base.alternatives.lookup it.info.block.id = some it.info

instance (it : AltIterator) : Decidable (n.Valid it) := inferInstanceAs (Decidable (_ ∧ _))

def eraseAlternative (it : AltIterator) : Node t :=
  { n with
    base := { n.base with alternatives := n.base.alternatives.erase it.info.block.id }
    log := if n.Valid it then n.log else n.log ++ [.danglingErase it.info.block.id] }

def invalidate (it : AltIterator) : Node t :=
  { n with base := { n.base with invalidBlocks := insert it.info.block.id n.base.invalidBlocks } }.eraseAlternative it

def altChain (bl : Block) : List BlockExtendedInfo :=
  Base.altChainTo n.base.alternatives n.base.alternatives.keys.card bl.prevId

end

def popN : Nat → Node t → Node t
  | 0, n => n
  | k + 1, n => popN k (n.popBlock rules).1

def popUntil (id : Hash) : Nat → Node t → Node t × List Block
  | 0, n => (n, [])
  | k + 1, n =>
    if n.base.tailId = id then (n, [])
    else match n.popBlock rules with
      | (n, none) => (n, [])
      | (n, some e) =>
        let r := popUntil id k n
        (r.1, r.2 ++ [e.block])

def connectAll {α : Type} (block : α → Block) : Node t → List α → Node t × List α
  | n, [] => (n, [])
  | n, x :: rest =>
    match n.handleBlockToMainChain rules (block x) with
    | (n, true) => connectAll block n rest
    | (n, false) => (n, x :: rest)

def reconnect (n : Node t) (originalChain : List Block) (rollbackHeight : Nat) : Node t × Except DbError Bool :=
  match connectAll rules id n originalChain with
  | (n, []) =>
    match n.reorganize rollbackHeight with
    | (n, .error e) => (n, .error e)
    | (n, .ok _) => (n, .ok true)
  | (n, _ :: _) => (n, .ok false)

def rollback (n : Node t) (originalChain : List Block) (rollbackHeight : Nat) : Node t × Except DbError Bool :=
  if n.base.chain.length < rollbackHeight then (n, .ok true)
  else
    match (popN rules (n.base.chain.length - rollbackHeight) n).reorganize rollbackHeight with
    | (n, .error e) => (n, .error e)
    | (n, .ok _) => reconnect rules n originalChain rollbackHeight

def pushAll (push : Node t → Block → Node t × Except DbError Bool) : Node t → List Block → Node t × Except DbError Unit
  | n, [] => (n, .ok ())
  | n, bl :: rest =>
    match push n bl with
    | (n, .error e) => (n, .error e)
    | (n, .ok _) => pushAll push n rest

def finishSwitch (altChain : List AltIterator) (splitHeight : Nat) :
    Node t × Except DbError Unit → Node t × Except DbError Bool
  | (n, .error e) => (n, .error e)
  | (n, .ok _) =>
    match (altChain.foldl eraseAlternative n).reorganize splitHeight with
    | (n, .error e) => (n, .error e)
    | (n, .ok _) => (n, .ok true)

def abandonSwitch (failed : List AltIterator) : Node t × Except DbError Bool → Node t × Except DbError Bool
  | (n, .error e) => (n, .error e)
  | (n, .ok _) => (failed.foldl invalidate n, .ok false)

def connectAlternative (push : Node t → Block → Node t × Except DbError Bool) (n : Node t)
    (disconnectedChain : List Block) (altChain : List AltIterator) (discardDisconnectedChain : Bool) :
    Node t × Except DbError Bool :=
  let splitHeight := n.base.chain.length
  match connectAll rules (·.info.block) n altChain with
  | (n, []) =>
    finishSwitch altChain splitHeight (if discardDisconnectedChain then (n, .ok ()) else pushAll push n disconnectedChain)
  | (n, it :: failed) => abandonSwitch (it :: failed) (rollback rules n disconnectedChain splitHeight)

def logSwitch (n : Node t) (discardDisconnectedChain : Bool) : Node t :=
  { n with log := n.log ++ [.switchStarted discardDisconnectedChain] }

def switchToAlternative (push : Node t → Block → Node t × Except DbError Bool) (n : Node t)
    (altChain : List AltIterator) (discardDisconnectedChain : Bool) : Node t × Except DbError Bool :=
  let n := n.logSwitch discardDisconnectedChain
  match altChain with
  | [] => (n, .ok false)
  | front :: _ =>
    if !n.base.blockExists front.info.block.prevId then (n, .ok false)
    else
      let r := popUntil rules front.info.block.prevId n.base.chain.length n
      connectAlternative rules push r.1 r.2 altChain discardDisconnectedChain

def judgeAlternative (n : Node t) (bl : Block) : AltVerdict :=
  let r := rules.base n.version
  if bl.height = 0 || !r.alternativeAllowed n.base.chain bl then .refused
  else if !n.forks.hardFork.checkForHeight bl bl.height then .refused
  -- an orphan is not kept
  else if !(n.base.alternatives.lookup bl.prevId).isSome && !n.base.blockExists bl.prevId then .orphaned
  else
    if !n.base.connectsToMain (n.altChain bl) bl then .refused
    else if !r.alternativeTimestamp n.base.chain (n.altChain bl) bl then .refused
    else
      let difficulty := r.alternativeDifficulty n.base.chain (n.altChain bl) bl
      let bei := n.base.extendedInfo (n.altChain bl) bl difficulty
      match r.checkpoint bei.height bl.id with
      | none => .refused
      | some isCheckpoint =>
        if difficulty = 0 then .refused
        else if !r.alternativeProof n.base.chain bl bei.height difficulty then .refused
        else if (n.base.alternatives.lookup bl.id).isSome then .refused
        else .accepted bei isCheckpoint

def handleAlternativeBlock : Nat → Node t → Block → Node t × Except DbError Bool
  | 0, n, _ => (n, .ok false)
  | depth + 1, n, bl =>
    match judgeAlternative rules n bl with
    | .refused => (n, .ok false)
    | .orphaned => (n, .ok true)
    | .accepted bei isCheckpoint =>
      let kept := n.insertAlternative rules bei
      let altChain := (n.altChain bl).map (⟨·, n.epoch⟩) ++ [⟨bei, kept.epoch⟩]
      if isCheckpoint then switchToAlternative rules (handleAlternativeBlock depth) kept altChain true
      else if n.base.topDifficulty < bei.cumulativeDifficulty then
        switchToAlternative rules (handleAlternativeBlock depth) kept altChain false
      else (kept, .ok true)

def addNewBlock (depth : Nat) (n : Node t) (bl : Block) : Node t × Except DbError Bool :=
  if n.base.haveBlock bl.id then (n, .ok false)
  else if bl.prevId ≠ n.base.tailId then handleAlternativeBlock rules depth n bl
  else
    let r := n.handleBlockToMainChain rules bl
    (r.1, .ok r.2)

def set (n : Node t) (chain popped : Chain) (pool : Pool) (invalidBlocks : Finset Hash) (forks : ForkState t) : Node t :=
  ⟨⟨chain, n.base.alternatives, invalidBlocks, pool, n.base.badSemantics, popped⟩, forks, n.buckets, n.epoch, n.log⟩

section
variable (n : Node t) (chain popped : Chain) (pool : Pool) (invalid : Finset Hash) (forks : ForkState t)

@[simp] theorem set_chain : (n.set chain popped pool invalid forks).base.chain = chain := rfl
@[simp] theorem set_popped : (n.set chain popped pool invalid forks).base.popped = popped := rfl
@[simp] theorem set_pool : (n.set chain popped pool invalid forks).base.pool = pool := rfl
@[simp] theorem set_invalidBlocks : (n.set chain popped pool invalid forks).base.invalidBlocks = invalid := rfl
@[simp] theorem set_alternatives : (n.set chain popped pool invalid forks).base.alternatives = n.base.alternatives := rfl
@[simp] theorem set_forks : (n.set chain popped pool invalid forks).forks = forks := rfl

@[simp] theorem set_buckets : (n.set chain popped pool invalid forks).buckets = n.buckets := rfl
@[simp] theorem set_epoch : (n.set chain popped pool invalid forks).epoch = n.epoch := rfl
@[simp] theorem set_log : (n.set chain popped pool invalid forks).log = n.log := rfl

@[simp] theorem set_set (chain' popped' : Chain) (pool' : Pool) (invalid' : Finset Hash) (forks' : ForkState t) :
    (n.set chain popped pool invalid forks).set chain' popped' pool' invalid' forks' =
      n.set chain' popped' pool' invalid' forks' := rfl

theorem set_self : n.set n.base.chain n.base.popped n.base.pool n.base.invalidBlocks n.forks = n := rfl

end

variable {rules} {n : Node t} {bl : Block}

theorem handleBlockToMainChain_of_accepted {txs : List Transaction}
    (h : n.base.accepted (rules.base n.version) bl = some txs) : n.handleBlockToMainChain rules bl =
      (n.set (n.base.chain ++ [n.base.entry (rules.base n.version) bl txs]) n.base.popped
        (Base.without n.base.pool bl.txHashes) n.base.invalidBlocks (n.forks.addStored n.base.chain.length bl), true) := by
  unfold handleBlockToMainChain
  rw [Base.handleBlockToMainChain_of_accepted h]
  rfl

theorem handleBlockToMainChain_of_refused (h : n.base.accepted (rules.base n.version) bl = none) :
    ∃ pool invalid, n.handleBlockToMainChain rules bl =
        (n.set n.base.chain n.base.popped pool invalid n.forks, false) ∧
      n.base.invalidBlocks ⊆ invalid ∧
      (Base.Keyed n.base.pool → Base.Returnable (rules.base n.version) → pool = n.base.pool) := by
  obtain ⟨pool, invalid, heq, hspec⟩ := Base.handleBlockToMainChain_of_refused h
  refine ⟨pool, invalid, ?_, hspec⟩
  unfold handleBlockToMainChain
  rw [heq]
  rfl

def returned (pool : Pool) (chain : Chain) : Pool :=
  chain.reverse.foldl (fun pool e => Base.withTxs pool e.txs.reverse) pool

theorem returned_snoc (pool : Pool) (chain : Chain) (e : StoredBlock) :
    returned pool (chain ++ [e]) = returned (Base.withTxs pool e.txs.reverse) chain := by
  simp [returned]

theorem returned_cons (pool : Pool) (chain : Chain) (e : StoredBlock) :
    returned pool (e :: chain) = Base.withTxs (returned pool chain) e.txs.reverse := by
  simp [returned]

theorem Keyed.returned {pool : Pool} (h : Base.Keyed pool) (chain : Chain) : Base.Keyed (returned pool chain) := by
  induction chain with
  | nil => exact h
  | cons e chain ih =>
    rw [returned_cons]
    exact ih.withTxs _

structure Stored (chain : Chain) : Prop where
  hashes : ∀ e ∈ chain, e.txs.map (·.id) = e.block.txHashes
  nodup : ((chain.map (·.block)).flatMap (·.txHashes)).Nodup

theorem Stored.cons {e : StoredBlock} {chain : Chain} (h : Stored (e :: chain)) :
    e.block.txHashes.Nodup ∧ (∀ id ∈ e.block.txHashes, ∀ e' ∈ chain, id ∉ e'.block.txHashes) ∧ Stored chain := by
  have hnodup := h.nodup
  rw [map_cons, flatMap_cons, nodup_append] at hnodup
  refine ⟨hnodup.1, fun id hid e' he' hid' => ?_, fun e' he' => h.hashes e' (mem_cons_of_mem _ he'), hnodup.2.1⟩
  grind

variable {pre post : Chain} {id : Hash}

theorem Stored.append (h : Stored (pre ++ post)) : Stored pre ∧ Stored post := by
  have hnodup := h.nodup
  rw [map_append, flatMap_append, nodup_append] at hnodup
  exact ⟨⟨fun e he => h.hashes e (mem_append_left _ he), hnodup.1⟩,
    ⟨fun e he => h.hashes e (mem_append_right _ he), hnodup.2.1⟩⟩

theorem Stored.snoc {b : Base} {r : BaseRules} {txs : List Transaction} (h : Stored b.chain) (hkeyed : Base.Keyed b.pool)
    (haccepted : b.accepted r bl = some txs) : Stored (b.chain ++ [b.entry r bl txs]) := by
  obtain ⟨hids, -⟩ := Base.accepted_ids hkeyed haccepted
  obtain ⟨hnodup, hnew⟩ := Base.accepted_nodup haccepted
  refine ⟨fun e he => ?_, ?_⟩
  · rcases mem_append.1 he with he | he
    · exact h.hashes e he
    · rw [mem_singleton.1 he]
      exact hids
  · rw [map_append, flatMap_append, nodup_append]
    refine ⟨h.nodup, by simpa [Base.entry] using hnodup, fun id hid id' hid' heq => ?_⟩
    obtain ⟨bl', hbl', hid⟩ := mem_flatMap.1 hid
    obtain ⟨e, he, rfl⟩ := List.mem_map.1 hbl'
    have hfalse := hnew id' (by simpa [Base.entry] using hid')
    rw [← heq, Base.haveTx, List.any_eq_false] at hfalse
    rw [← h.hashes e he] at hid
    grind

theorem popBlock_snoc (rules : NodeRules) {chain : Chain} {e : StoredBlock} (h : n.base.chain = chain ++ [e]) :
    ∃ pool, n.popBlock rules = (n.set chain (n.base.popped ++ [e]) pool n.base.invalidBlocks n.forks, some e) ∧
      (Base.Returnable (rules.base n.version) → pool = Base.withTxs n.base.pool e.txs.reverse) := by
  obtain ⟨pool, hpop, hpool⟩ := Base.popBlock_snoc (rules.base n.version) h
  refine ⟨pool, ?_, hpool⟩
  unfold popBlock
  rw [hpop]
  rfl

theorem popN_spec (rules : NodeRules) (h : n.base.chain = pre ++ post) :
    ∃ popped pool, popN rules post.length n = n.set pre popped pool n.base.invalidBlocks n.forks ∧
      (Base.Returnable (rules.base n.version) → pool = returned n.base.pool post) ∧
      popped = n.base.popped ++ post.reverse := by
  induction post using List.reverseRecOn generalizing n with
  | nil =>
    rw [append_nil] at h
    exact ⟨n.base.popped, n.base.pool, by rw [← h, set_self]; rfl, fun _ => rfl, by simp⟩
  | append_singleton post e ih =>
    obtain ⟨pool, hpop, hpool⟩ := popBlock_snoc rules (h.trans (append_assoc ..).symm)
    obtain ⟨popped', pool', hrest, hpool', hpopped⟩ :=
      @ih (n.set (pre ++ post) (n.base.popped ++ [e]) pool n.base.invalidBlocks n.forks) rfl
    refine ⟨popped', pool', ?_, fun hr => ?_, by simpa using hpopped⟩
    · rw [length_append, length_singleton]
      unfold popN
      rw [hpop]
      exact hrest
    · rw [returned_snoc, ← hpool hr]
      exact hpool' hr

theorem popUntil_spec (rules : NodeRules) (h : n.base.chain = pre ++ post)
    (hid : (Base.ofChain pre).tailId = id) (hpost : ∀ e ∈ post, e.block.id ≠ id) {k : Nat} (hk : post.length ≤ k) :
    ∃ popped pool, popUntil rules id k n =
        (n.set pre popped pool n.base.invalidBlocks n.forks, post.map (·.block)) ∧
      (Base.Returnable (rules.base n.version) → pool = returned n.base.pool post) ∧
      popped = n.base.popped ++ post.reverse := by
  induction post using List.reverseRecOn generalizing n k with
  | nil =>
    rw [append_nil] at h
    have htail : n.base.tailId = id := by
      rw [← hid, ← h]
      rfl
    refine ⟨n.base.popped, n.base.pool, ?_, fun _ => rfl, by simp⟩
    rw [← h, set_self]
    cases k with
    | zero => rfl
    | succ k => simp [popUntil, htail]
  | append_singleton post e ih =>
    obtain ⟨pool, hpop, hpool⟩ := popBlock_snoc rules (h.trans (append_assoc ..).symm)
    obtain ⟨k, rfl⟩ : ∃ k', k = k' + 1 := ⟨k - 1, by simp at hk; omega⟩
    obtain ⟨popped', pool', hrest, hpool', hpopped⟩ :=
      @ih (n.set (pre ++ post) (n.base.popped ++ [e]) pool n.base.invalidBlocks n.forks) rfl
        (fun e' he' => hpost e' (mem_append_left _ he')) k (by simpa using hk)
    have hne : n.base.tailId ≠ id := by
      unfold Base.tailId
      simpa [h] using hpost e (by simp)
    refine ⟨popped', pool', ?_, fun hr => ?_, by simpa using hpopped⟩
    · unfold popUntil
      simp_all
    · rw [returned_snoc, ← hpool hr]
      exact hpool' hr

theorem exists_split (h : n.base.blockExists id = true) :
    ∃ pre post, n.base.chain = pre ++ post ∧ pre ≠ [] ∧ (Base.ofChain pre).tailId = id ∧
      ∀ e ∈ post, e.block.id ≠ id := by
  unfold Base.blockExists at h
  generalize n.base.chain = chain at h ⊢
  induction chain using List.reverseRecOn with
  | nil => simp at h
  | append_singleton chain e ih =>
    by_cases he : e.block.id = id
    · exact ⟨chain ++ [e], [], by simp, by simp, by simp [Base.tailId, Base.ofChain, he], by simp⟩
    · grind

end Node

def ForkState.addAll {t : ForkTable} : ForkState t → Nat → List Block → ForkState t
  | s, _, [] => s
  | s, height, bl :: rest => addAll (s.addStored height bl) (height + 1) rest

inductive Grows (rules : NodeRules) (chain : Chain) : Chain → Prop
  | refl : Grows rules chain chain
  | snoc {b : Base} {bl : Block} {txs : List Transaction} (version : UInt8) : Grows rules chain b.chain →
      b.accepted (rules.base version) bl = some txs → Grows rules chain (b.chain ++ [b.entry (rules.base version) bl txs])

theorem Grows.trans {rules : NodeRules} {c₁ c₂ c₃ : Chain} (h₁ : Grows rules c₁ c₂) (h₂ : Grows rules c₂ c₃) :
    Grows rules c₁ c₃ := by
  induction h₂ with
  | refl => exact h₁
  | snoc version _ haccepted ih => exact .snoc version ih haccepted

namespace Node
variable {t : ForkTable}

theorem connectAll_spec (rules : NodeRules) {α : Type} (block : α → Block) (xs : List α) (n : Node t) :
    ∃ stored pool invalid done rest,
      connectAll rules block n xs =
        (n.set (n.base.chain ++ stored) n.base.popped pool invalid
          (n.forks.addAll n.base.chain.length (stored.map (·.block))), rest) ∧
      xs = done ++ rest ∧ stored.map (·.block) = done.map block ∧ n.base.invalidBlocks ⊆ invalid ∧
      Grows rules n.base.chain (n.base.chain ++ stored) ∧
      (Base.Keyed n.base.pool → (∀ v, Base.Returnable (rules.base v)) → returned pool stored = n.base.pool) := by
  induction xs generalizing n with
  | nil =>
    refine ⟨[], n.base.pool, n.base.invalidBlocks, [], [], ?_, rfl, rfl, Finset.Subset.refl _, ?_, fun _ _ => rfl⟩
    · rw [append_nil]
      rfl
    · rw [append_nil]
      exact .refl
  | cons x xs ih =>
    cases hverdict : n.base.accepted (rules.base n.version) (block x) with
    | none =>
      obtain ⟨pool, invalid, heq, hsub, hpool⟩ := handleBlockToMainChain_of_refused hverdict
      refine ⟨[], pool, invalid, [], x :: xs, ?_, rfl, rfl, hsub, ?_, fun hkeyed hreturn => hpool hkeyed (hreturn _)⟩
      · unfold connectAll
        rw [heq, append_nil]
        rfl
      · rw [append_nil]
        exact .refl
    | some txs =>
      have heq := handleBlockToMainChain_of_accepted hverdict
      obtain ⟨stored, pool, invalid, done, rest, hrest, hsplit, hblocks, hsub, hgrows, hpool⟩ := ih
        (n.set (n.base.chain ++ [n.base.entry (rules.base n.version) (block x) txs]) n.base.popped
          (Base.without n.base.pool (block x).txHashes) n.base.invalidBlocks
          (n.forks.addStored n.base.chain.length (block x)))
      refine ⟨n.base.entry (rules.base n.version) (block x) txs :: stored, pool, invalid, x :: done, rest, ?_,
        by simp [hsplit], by simp [Base.entry, hblocks], hsub, ?_, fun hkeyed hreturn => ?_⟩
      · unfold connectAll
        rw [heq]
        simp only [hrest]
        simp [ForkState.addAll, Base.entry]
      · have hone : Grows rules n.base.chain (n.base.chain ++ [n.base.entry (rules.base n.version) (block x) txs]) :=
          .snoc n.version .refl hverdict
        simpa using hone.trans hgrows
      · obtain ⟨hids, hin⟩ := Base.accepted_ids hkeyed hverdict
        have hback := hpool (hkeyed.without _) hreturn
        rw [returned_cons, hback, set_pool, ← hids]
        exact (Base.Missing.without hin).reverse.withTxs_eq

theorem connectAll_stored (rules : NodeRules) {α : Type} (block : α → Block) (xs : List α) {n : Node t}
    (hkeyed : Base.Keyed n.base.pool) (h : Stored n.base.chain) : Stored (connectAll rules block n xs).1.base.chain := by
  induction xs generalizing n with
  | nil => exact h
  | cons x xs ih =>
    rw [connectAll]
    cases hverdict : n.base.accepted (rules.base n.version) (block x) with
    | none =>
      obtain ⟨pool, invalid, heq, -⟩ := handleBlockToMainChain_of_refused hverdict
      rw [heq]
      exact h
    | some txs =>
      rw [handleBlockToMainChain_of_accepted hverdict]
      exact ih (hkeyed.without _) (h.snoc hkeyed hverdict)

end Node

end Electronero
