import Electronero.Core.BlockTree
/-!
# What a switch leaves

The results here hold whatever the rules are and however deep the nested switches go.
-/
namespace Electronero
open Text FiniteMap List

namespace Node
variable {t : ForkTable} {ids : BlockIds} {rules : NodeRules} {n m : Node t} {bl : Block}

def iterators (rules : NodeRules) (n : Node t) (bl : Block) (bei : BlockExtendedInfo) : List AltIterator :=
  (n.altChain bl).map (⟨·, n.epoch⟩) ++ [⟨bei, (n.insertAlternative rules bei).epoch⟩]

variable {bei : BlockExtendedInfo} {pre post : Chain} {failed : List AltIterator}

theorem iterators_blocks (rules : NodeRules) (n : Node t) (h : bei.block = bl) :
    (iterators rules n bl bei).map (·.info.block) = (n.altChain bl).map (·.block) ++ [bl] := by
  simp [iterators, h]

theorem iterators_head (rules : NodeRules) (n : Node t) (h : bei.block = bl) :
    ∃ front rest, iterators rules n bl bei = front :: rest ∧ front.info.block.prevId = parentOf (n.altChain bl) bl.prevId := by
  unfold iterators
  cases n.altChain bl with
  | nil => exact ⟨_, _, rfl, by simp [parentOf, h]⟩
  | cons e rest => exact ⟨_, _, rfl, rfl⟩

theorem switchToAlternative_eq (rules : NodeRules) (push : Node t → Block → Node t × Except DbError Bool) (discard : Bool)
    (hchain : n.base.chain = pre ++ post) (hne : pre ≠ []) {front : AltIterator}
    (rest : List AltIterator) (htail : (Base.ofChain pre).tailId = front.info.block.prevId)
    (hpost : ∀ e ∈ post, e.block.id ≠ front.info.block.prevId) :
    ∃ popped pool, switchToAlternative rules push n (front :: rest) discard =
        connectAlternative rules push ((n.logSwitch discard).set pre popped pool n.base.invalidBlocks n.forks)
          (post.map (·.block)) (front :: rest) discard ∧
      (popUntil rules front.info.block.prevId n.base.chain.length (n.logSwitch discard)).1 =
        (n.logSwitch discard).set pre popped pool n.base.invalidBlocks n.forks ∧
      (Base.Returnable (rules.base n.version) → pool = returned n.base.pool post) ∧
      popped = n.base.popped ++ post.reverse := by
  obtain ⟨popped, pool, hpop, hpool⟩ := popUntil_spec (n := n.logSwitch discard) rules hchain htail hpost
    (k := n.base.chain.length) (by simp [hchain])
  have hexists : n.base.blockExists front.info.block.prevId = true := by
    obtain ⟨pre', e, rfl⟩ := (eq_nil_or_concat' pre).resolve_left hne
    rw [← htail]
    simp [Base.blockExists, hchain, Base.tailId, Base.ofChain]
  refine ⟨popped, pool, ?_, by rw [hpop]; rfl, hpool⟩
  grind [switchToAlternative, logSwitch, connectAlternative, popUntil]

def connected (rules : NodeRules) (n : Node t) (bei : BlockExtendedInfo) (discard : Bool) (pre stored popped : Chain)
    (pool : Pool) (invalid : Finset Hash) : Node t :=
  ((n.insertAlternative rules bei).logSwitch discard).set (pre ++ stored) popped pool invalid
    (n.forks.addAll pre.length (stored.map (·.block)))

section
variable (bei : BlockExtendedInfo) (discard : Bool) (pre stored popped : Chain) (pool : Pool) (invalid : Finset Hash)

@[simp] theorem connected_chain :
    (connected rules n bei discard pre stored popped pool invalid).base.chain = pre ++ stored := rfl

@[simp] theorem connected_alternatives : (connected rules n bei discard pre stored popped pool invalid).base.alternatives =
    n.base.alternatives.insert bei.block.id bei := by
  simp [connected, logSwitch]

@[simp] theorem connected_forks : (connected rules n bei discard pre stored popped pool invalid).forks =
    n.forks.addAll pre.length (stored.map (·.block)) := rfl

end

def Prevails (rules : NodeRules) (n : Node t) (bl : Block) (bei : BlockExtendedInfo) : Bool → Prop
  | true => (rules.base n.version).checkpoint bei.height bl.id = some true
  | false => n.base.topDifficulty < bei.cumulativeDifficulty

inductive Outcome (ids : BlockIds) (rules : NodeRules) (push : Node t → Block → Node t × Except DbError Bool) (n : Node t)
    (bl : Block) : Node t × Except DbError Bool → Prop
  | same (result : Bool) : Outcome ids rules push n bl (n, .ok result)
  | kept {bei : BlockExtendedInfo} {pre post : Chain} (hangs : Hangs ids rules n bl bei pre post)
      (hnot : bei.cumulativeDifficulty ≤ n.base.topDifficulty) :
      Outcome ids rules push n bl (n.insertAlternative rules bei, .ok true)
  | switched {bei : BlockExtendedInfo} {pre post : Chain} (hangs : Hangs ids rules n bl bei pre post)
      {discard : Bool} (hwhy : Prevails rules n bl bei discard)
      {stored popped : Chain} {pool : Pool} {invalid : Finset Hash}
      (hstored : stored.map (·.block) = (iterators rules n bl bei).map (·.info.block))
      (hgrows : Grows rules pre (pre ++ stored))
      (htxs : Base.Keyed n.base.pool → (∀ v, Base.Returnable (rules.base v)) → Stored n.base.chain → Stored (pre ++ stored))
      (hpopped : popped = n.base.popped ++ post.reverse) :
      Outcome ids rules push n bl (finishSwitch (iterators rules n bl bei) pre.length
        (pushAll push (connected rules n bei discard pre stored popped pool invalid)
          (if discard then [] else post.map (·.block))))
  | abandoned {bei : BlockExtendedInfo} {pre post : Chain} (hangs : Hangs ids rules n bl bei pre post)
      {discard : Bool} (hwhy : Prevails rules n bl bei discard)
      {done failed : List AltIterator} (hits : iterators rules n bl bei = done ++ failed) (hne : failed ≠ [])
      {stored popped : Chain} {pool : Pool} {invalid : Finset Hash}
      (hstored : stored.map (·.block) = done.map (·.info.block)) (hgrows : Grows rules pre (pre ++ stored))
      (hpool : Base.Keyed n.base.pool → (∀ v, Base.Returnable (rules.base v)) →
        returned pool stored = returned n.base.pool post)
      (hpopped : popped = n.base.popped ++ post.reverse) :
      Outcome ids rules push n bl (abandonSwitch failed
        (rollback rules (connected rules n bei discard pre stored popped pool invalid) (post.map (·.block)) pre.length))

theorem Hangs.split (htree : n.Tree ids)
    (hangs : Hangs ids rules n bl bei pre post) : ∃ front rest, iterators rules n bl bei = front :: rest ∧
      (Base.ofChain pre).tailId = front.info.block.prevId ∧ ∀ e ∈ post, e.block.id ≠ front.info.block.prevId := by
  obtain ⟨front, rest, hits, hfront⟩ := iterators_head rules n hangs.block
  have hprev := hfront.trans hangs.tip.symm
  refine ⟨front, rest, hits, ?_, fun e he => ?_⟩
  · rw [hprev, Base.tailId_eq ids]
    rfl
  · have hpath := htree.path
    rw [blocks, hangs.chain, map_append] at hpath
    rw [hprev]
    exact hpath.id_ne_tip (List.mem_map_of_mem he)

theorem switchToAlternative_outcome (htree : n.Tree ids) (push : Node t → Block → Node t × Except DbError Bool)
    (hangs : Hangs ids rules n bl bei pre post) (discard : Bool) (hwhy : Prevails rules n bl bei discard) :
    Outcome ids rules push n bl
      (switchToAlternative rules push (n.insertAlternative rules bei) (iterators rules n bl bei) discard) := by
  obtain ⟨front, tail, hits, htail, hpost⟩ := hangs.split htree
  obtain ⟨popped, pool, hswitch, -, hpool, hpopped⟩ := switchToAlternative_eq (n := n.insertAlternative rules bei) rules push discard
    (by simpa using hangs.chain) hangs.nonempty tail htail hpost
  obtain ⟨stored, pool', invalid, done, rest, hconnect, hsplit, hblocks, -, hgrows, hback⟩ :=
    connectAll_spec rules (fun it : AltIterator => it.info.block) (iterators rules n bl bei)
      (((n.insertAlternative rules bei).logSwitch discard).set pre popped pool
        (n.insertAlternative rules bei).base.invalidBlocks (n.insertAlternative rules bei).forks)
  have hreturned : (∀ v, Base.Returnable (rules.base v)) → pool = returned n.base.pool post := by
    intro hreturn
    simpa using hpool (hreturn _)
  rw [insertAlternative_base] at hpopped
  have htxs : Base.Keyed n.base.pool → (∀ v, Base.Returnable (rules.base v)) → Stored n.base.chain →
      Stored (pre ++ stored) := by
    intro hkeyed hreturn hall
    rw [hangs.chain] at hall
    have hconnected := connectAll_stored rules (fun it : AltIterator => it.info.block) (iterators rules n bl bei)
      (n := ((n.insertAlternative rules bei).logSwitch discard).set pre popped pool
        (n.insertAlternative rules bei).base.invalidBlocks (n.insertAlternative rules bei).forks)
      (by rw [set_pool, hreturned hreturn]; exact Keyed.returned hkeyed post) hall.append.1
    rw [hconnect] at hconnected
    exact hconnected
  rw [hits, hswitch, ← hits]
  unfold connectAlternative
  simp only [hconnect]
  simp only [insertAlternative_forks, set_chain, set_popped, set_forks, set_set] at hgrows ⊢
  cases rest with
  | nil =>
    have hstored : stored.map (·.block) = (iterators rules n bl bei).map (·.info.block) := by
      rw [hblocks, hsplit, append_nil]
    have hout := @Outcome.switched t ids rules push n bl bei pre post hangs discard hwhy stored popped pool' invalid
      hstored hgrows htxs hpopped
    cases discard <;> exact hout
  | cons it failed =>
    refine .abandoned hangs hwhy hsplit (by simp) hblocks hgrows (fun hkeyed hreturn => ?_) hpopped
    grind [set_pool, Keyed.returned]

theorem handleAlternativeBlock_outcome (rules : NodeRules) (htree : n.Tree ids) (hbl : ids.Known bl) (depth : Nat) :
    Outcome ids rules (handleAlternativeBlock rules depth) n bl (handleAlternativeBlock rules (depth + 1) n bl) := by
  rw [handleAlternativeBlock]
  cases hjudge : judgeAlternative rules n bl with
  | refused => exact .same false
  | orphaned => exact .same true
  | accepted bei cp =>
    obtain ⟨⟨pre, post, hangs⟩, hcheckpoint⟩ := judgeAlternative_accepted htree hbl hjudge
    dsimp only
    split
    · rename_i hcp
      rw [hcp] at hcheckpoint
      exact switchToAlternative_outcome htree _ hangs true hcheckpoint
    split
    · rename_i hheavier
      exact switchToAlternative_outcome htree _ hangs false hheavier
    · rename_i hlight
      exact .kept hangs (Nat.not_lt.1 hlight)

theorem handleAlternativeBlock_of_refused (depth : Nat) (hjudge : judgeAlternative rules n bl = .refused) :
    handleAlternativeBlock rules (depth + 1) n bl = (n, .ok false) := by
  rw [handleAlternativeBlock, hjudge]

theorem handleAlternativeBlock_single (htree : n.Tree ids)
    (hangs : Hangs ids rules n bl bei pre post) (hjudge : judgeAlternative rules n bl = .accepted bei false)
    (hheavier : n.base.topDifficulty < bei.cumulativeDifficulty) (halt : n.altChain bl = []) {txs : List Transaction}
    (haccepted : ∀ b : Base, b.chain = pre → b.accepted (rules.base n.version) bl = some txs) (depth : Nat) :
    ∃ popped pool, handleAlternativeBlock rules (depth + 1) n bl = finishSwitch (iterators rules n bl bei) pre.length
      (pushAll (handleAlternativeBlock rules depth)
        (connected rules n bei false pre [(Base.ofChain pre).entry (rules.base n.version) bl txs] popped pool
          n.base.invalidBlocks) (post.map (·.block))) := by
  obtain ⟨front, rest, hits, htail, hpost⟩ := hangs.split htree
  obtain ⟨popped, pool, hswitch, -⟩ := switchToAlternative_eq (n := n.insertAlternative rules bei) rules
    (handleAlternativeBlock rules depth) false (by simpa using hangs.chain) hangs.nonempty rest htail hpost
  have hlist : iterators rules n bl bei = [⟨bei, (n.insertAlternative rules bei).epoch⟩] := by
    rw [iterators, halt]
    rfl
  simp only [insertAlternative_base, insertAlternative_forks] at hswitch
  have hverdict : (((n.insertAlternative rules bei).logSwitch false).set pre popped pool n.base.invalidBlocks n.forks).base.accepted
      (rules.base n.version) bl = some txs := haccepted _ rfl
  refine ⟨popped, Base.without pool bl.txHashes, ?_⟩
  rw [handleAlternativeBlock, hjudge]
  dsimp only
  rw [if_neg (by decide), if_pos hheavier]
  show switchToAlternative rules _ (n.insertAlternative rules bei) (iterators rules n bl bei) false = _
  rw [hits, hswitch, ← hits, hlist, connectAlternative]
  simp only [connectAll, hangs.block]
  rw [handleBlockToMainChain_of_accepted hverdict]
  rfl

theorem reorganize_spec (n : Node t) (height : Nat) : ∃ forks result,
    n.reorganize height = (n.set n.base.chain n.base.popped n.base.pool n.base.invalidBlocks forks, result) :=
  ⟨_, _, rfl⟩

theorem reconnect_spec (rules : NodeRules) (n : Node t) (olds : List Block) (height : Nat) :
    ∃ stored pool invalid forks rest, olds = stored.map (·.block) ++ rest ∧
      (reconnect rules n olds height).1 = n.set (n.base.chain ++ stored) n.base.popped pool invalid forks ∧
      (connectAll rules id n olds).1.base.chain = n.base.chain ++ stored ∧
      Grows rules n.base.chain (n.base.chain ++ stored) := by
  obtain ⟨stored, pool, invalid, done, rest, hconnect, hsplit, hblocks, -, hgrows, -⟩ := connectAll_spec rules id olds n
  have hsplit' : olds = stored.map (·.block) ++ rest := by rw [hblocks, List.map_id, hsplit]
  rw [reconnect, hconnect]
  cases rest with
  | cons x rest => exact ⟨stored, pool, invalid, _, x :: rest, hsplit', rfl, rfl, hgrows⟩
  | nil =>
    obtain ⟨forks, result, hre⟩ := (n.set (n.base.chain ++ stored) n.base.popped pool invalid
      (n.forks.addAll n.base.chain.length (stored.map (·.block)))).reorganize_spec height
    simp only [hre]
    cases result with
    | error e => exact ⟨stored, pool, invalid, forks, [], hsplit', rfl, rfl, hgrows⟩
    | ok b => exact ⟨stored, pool, invalid, forks, [], hsplit', rfl, rfl, hgrows⟩

theorem rollback_spec (rules : NodeRules) (hchain : n.base.chain = pre ++ post) (olds : List Block) :
    ∃ stored popped pool invalid forks rest, olds = stored.map (·.block) ++ rest ∧
      (rollback rules n olds pre.length).1 = n.set (pre ++ stored) popped pool invalid forks ∧
      Grows rules pre (pre ++ stored) ∧ popped = n.base.popped ++ post.reverse := by
  obtain ⟨popped, pool, hpop, -, hpopped⟩ := popN_spec rules hchain
  have hlen : n.base.chain.length - pre.length = post.length := by simp [hchain]
  obtain ⟨forks, result, hre⟩ := (n.set pre popped pool n.base.invalidBlocks n.forks).reorganize_spec pre.length
  unfold rollback
  rw [if_neg (by simp [hchain]), hlen, hpop, hre]
  cases result with
  | error e =>
    rw [show pre = pre ++ [] from (append_nil _).symm]
    exact ⟨[], popped, pool, n.base.invalidBlocks, forks, olds, rfl, by simp, by simpa using .refl, hpopped⟩
  | ok b =>
    obtain ⟨stored, pool', invalid', forks', rest, hsplit, heq, -, hgrows⟩ := reconnect_spec rules
      (n.set pre popped pool n.base.invalidBlocks forks) olds pre.length
    exact ⟨stored, popped, pool', invalid', forks', rest, hsplit, heq, hgrows, hpopped⟩

theorem finishSwitch_spec (its : List AltIterator) (h : Nat) (m : Node t) (u : Unit) :
    ∃ forks, (finishSwitch its h (m, .ok u)).1 = { its.foldl eraseAlternative m with forks := forks } := by
  obtain ⟨forks, result, hre⟩ := (its.foldl eraseAlternative m).reorganize_spec h
  refine ⟨forks, ?_⟩
  unfold finishSwitch
  simp only [hre]
  cases result <;> rfl

theorem foldl_eraseAlternative_chain (its : List AltIterator) (m : Node t) :
    (its.foldl eraseAlternative m).base.chain = m.base.chain :=
  @foldl_erase_eq t eraseAlternative _ (fun n => n.base.chain) (fun _ _ => rfl) its m

theorem foldl_invalidate_chain (its : List AltIterator) (m : Node t) :
    (its.foldl invalidate m).base.chain = m.base.chain :=
  @foldl_erase_eq t invalidate _ (fun n => n.base.chain) (fun _ _ => rfl) its m

theorem finishSwitch_chain (its : List AltIterator) (h : Nat) (r : Node t × Except DbError Unit) :
    (finishSwitch its h r).1.base.chain = r.1.base.chain := by
  obtain ⟨m, e | u⟩ := r
  · rfl
  · obtain ⟨forks, heq⟩ := finishSwitch_spec its h m u
    rw [heq]
    exact foldl_eraseAlternative_chain its m

variable {id : Hash} {e : BlockExtendedInfo}

theorem finishSwitch_alternatives {its : List AltIterator} {h : Nat} {r : Node t × Except DbError Unit}
    (he : (finishSwitch its h r).1.base.alternatives.lookup id = some e) :
    r.1.base.alternatives.lookup id = some e ∧ (r.2.isOk = true → id ∉ its.map (·.info.block.id)) := by
  obtain ⟨m, x | u⟩ := r
  · exact ⟨he, fun hok => by cases hok⟩
  · obtain ⟨forks, heq⟩ := finishSwitch_spec its h m u
    grind [lookup_foldl_erase, eraseAlternative]

theorem abandonSwitch_chain (failed : List AltIterator) (r : Node t × Except DbError Bool) :
    (abandonSwitch failed r).1.base.chain = r.1.base.chain := by
  obtain ⟨m, e | b⟩ := r
  · rfl
  · exact foldl_invalidate_chain failed m

theorem abandonSwitch_alternatives {r : Node t × Except DbError Bool}
    (he : (abandonSwitch failed r).1.base.alternatives.lookup id = some e) :
    r.1.base.alternatives.lookup id = some e := by
  obtain ⟨m, x | b⟩ := r
  · exact he
  · have hfold := @lookup_foldl_erase t invalidate (fun _ _ => rfl) failed m id
    grind [abandonSwitch]

structure Inside (ids : BlockIds) (Q : Block → Prop) (n : Node t) : Prop where
  tree : n.Tree ids
  blocks : ∀ b ∈ n.blocks, Q b
  kept : ∀ id e, n.base.alternatives.lookup id = some e → Q e.block

variable {Q S : Block → Prop}

theorem Inside.of_chain (h : n.Inside ids Q) (hpath : ids.Path m.blocks) (hQ : ∀ b ∈ m.blocks, Q b)
    (halts : ∀ id e, m.base.alternatives.lookup id = some e → n.base.alternatives.lookup id = some e) :
    m.Inside ids Q :=
  ⟨⟨hpath, fun id e he => h.tree.alternatives id e (halts id e he)⟩, hQ, fun id e he => h.kept id e (halts id e he)⟩

theorem Inside.insertAlternative (h : n.Inside ids Q) (hQ : Q bl)
    (hangs : Hangs ids rules n bl bei pre post) : (n.insertAlternative rules bei).Inside ids Q := by
  have hbl : ids.Known bl := hangs.path.known (by simp)
  refine ⟨h.tree.insertAlternative ?_ ?_, ?_, fun id e he => ?_⟩
  · rw [hangs.block]
    exact hbl
  · rw [hangs.block]
    exact hangs.height
  · simpa [Node.blocks] using h.blocks
  · rw [insertAlternative_base, lookup_insert_ite] at he
    split at he
    · cases he
      rw [hangs.block]
      exact hQ
    · exact h.kept id e he

theorem Hangs.mem_altChain (htree : n.Tree ids) (he : e ∈ n.altChain bl) :
    n.base.alternatives.lookup e.block.id = some e :=
  altChainTo_mem htree.alternatives _ _ he

theorem pushAll_keeps {I : Node t → Prop} {push : Node t → Block → Node t × Except DbError Bool} {xs : List Block}
    (hpush : ∀ n, ∀ bl ∈ xs, I n → I (push n bl).1) (h : I n) : I (pushAll push n xs).1 := by
  induction xs generalizing n with
  | nil => exact h
  | cons bl rest ih =>
    have hnext := hpush n bl mem_cons_self h
    unfold pushAll
    split
    · rename_i heq
      rwa [heq] at hnext
    · simp_all

theorem Hangs.blocks_new (h : n.Inside ids Q) (hQ : Q bl)
    (hangs : Hangs ids rules n bl bei pre post) {done : List AltIterator}
    (hits : iterators rules n bl bei = done ++ failed) : ids.Path (pre.map (·.block) ++ done.map (·.info.block)) ∧
      ∀ b ∈ pre.map (·.block) ++ done.map (·.info.block), Q b := by
  have hpath := hangs.path
  rw [append_assoc, ← iterators_blocks rules n hangs.block, hits, map_append,
    ← append_assoc] at hpath
  refine ⟨hpath.of_append, fun b hb => ?_⟩
  rcases mem_append.1 hb with hb | hb
  · refine h.blocks b ?_
    rw [Node.blocks, hangs.chain, map_append]
    exact mem_append_left _ hb
  · have hb' : b ∈ (iterators rules n bl bei).map (·.info.block) := by grind
    rw [iterators_blocks rules n hangs.block] at hb'
    rcases mem_append.1 hb' with hb' | hb'
    · obtain ⟨e, he, rfl⟩ := List.mem_map.1 hb'
      exact h.kept _ e (Hangs.mem_altChain h.tree he)
    · rw [mem_singleton.1 hb']
      exact hQ

theorem Hangs.blocks_old (h : n.Inside ids Q)
    (hangs : Hangs ids rules n bl bei pre post) {olds rest : List Block} (holds : post.map (·.block) = olds ++ rest) :
    ids.Path (pre.map (·.block) ++ olds) ∧ ∀ b ∈ pre.map (·.block) ++ olds, Q b ∧ b ∈ n.blocks := by
  have hall : n.blocks = pre.map (·.block) ++ olds ++ rest := by
    rw [Node.blocks, hangs.chain, map_append, holds, append_assoc]
  have hpath := h.tree.path
  rw [hall] at hpath
  refine ⟨hpath.of_append, fun b hb => ?_⟩
  have hb' : b ∈ n.blocks := by
    rw [hall]
    exact mem_append_left _ hb
  exact ⟨h.blocks b hb', hb'⟩

theorem handleAlternativeBlock_inside (depth : Nat) (h : n.Inside ids Q) (hbl : ids.Known bl) (hQ : Q bl) :
    (handleAlternativeBlock rules depth n bl).1.Inside ids Q := by
  induction depth generalizing n bl with
  | zero => exact h
  | succ depth ih =>
    have hout := handleAlternativeBlock_outcome rules h.tree hbl depth
    generalize handleAlternativeBlock rules (depth + 1) n bl = r at hout ⊢
    cases hout with
    | same result => exact h
    | kept hangs => exact h.insertAlternative hQ hangs
    | @switched bei pre post hangs discard _ stored popped pool invalid hstored =>
      obtain ⟨hpath, hnew⟩ := hangs.blocks_new h hQ (append_nil _).symm
      obtain ⟨hold, hQold⟩ := hangs.blocks_old h (append_nil _).symm
      rw [← hstored, ← map_append] at hpath hnew
      have hconnected : (connected rules n bei discard pre stored popped pool invalid).Inside ids Q :=
        (h.insertAlternative hQ hangs).of_chain hpath hnew (fun _ _ he => he)
      have hpushed : (pushAll (handleAlternativeBlock rules depth)
          (connected rules n bei discard pre stored popped pool invalid)
          (if discard then [] else post.map (·.block))).1.Inside ids Q := by
        refine pushAll_keeps (fun m b hb hm => ?_) hconnected
        have hb' : b ∈ pre.map (·.block) ++ post.map (·.block) := by grind
        exact ih hm (hold.known hb') (hQold b hb').1
      refine hpushed.of_chain ?_ ?_ fun _ _ he => (finishSwitch_alternatives he).1
      · rw [Node.blocks, finishSwitch_chain]
        exact hpushed.tree.path
      · rw [Node.blocks, finishSwitch_chain]
        exact hpushed.blocks
    | @abandoned bei pre post hangs discard _ done failed _ _ stored popped pool invalid =>
      obtain ⟨stored', popped', pool', invalid', forks', rest, holds, hroll, -⟩ := rollback_spec rules
        (@connected_chain t rules n bei discard pre stored popped pool invalid) (post.map (·.block))
      obtain ⟨hpath, hold⟩ := hangs.blocks_old h holds
      have hkept := h.insertAlternative hQ hangs
      refine hkept.of_chain ?_ ?_ fun _ _ he => ?_
      · grind [Node.blocks, abandonSwitch_chain, set_chain]
      · grind [Node.blocks, abandonSwitch_chain, set_chain]
      · have he' := abandonSwitch_alternatives he
        rw [hroll] at he'
        exact he'

theorem handleAlternativeBlock_tree (depth : Nat) (h : n.Tree ids) (hbl : ids.Known bl) :
    (handleAlternativeBlock rules depth n bl).1.Tree ids :=
  (handleAlternativeBlock_inside (Q := fun _ => True) depth ⟨h, fun _ _ => trivial, fun _ _ _ => trivial⟩ hbl trivial).tree

/-! ## On the main chain or an alternative -/

def Apart (S : Block → Prop) (n : Node t) : Prop :=
  ∀ b ∈ n.blocks, ∀ e, n.base.alternatives.lookup b.id = some e → S b

theorem Apart.of_insert (h : n.Apart S) (htree : n.Tree ids)
    (hangs : Hangs ids rules n bl bei pre post) (hS : bl ∈ n.blocks → S bl) (hblocks : ∀ b ∈ m.blocks, b ∈ n.blocks)
    (halts : ∀ id e, m.base.alternatives.lookup id = some e → (n.base.alternatives.insert bl.id bei).lookup id = some e) :
    m.Apart S := by
  intro b hb e he
  have hb' := hblocks b hb
  have he' := halts b.id e he
  rw [lookup_insert_ite] at he'
  split at he'
  · rename_i hid
    have hbl : ids.Known bl := hangs.path.known (by simp)
    obtain rfl : b = bl := (htree.path.known hb').eq_of_id hbl hid
    exact hS hb'
  · exact h b hb' e he'

theorem pushAll_apart {depth : Nat} (ih : ∀ (m : Node t) b, m.Tree ids → ids.Known b → (b ∈ m.blocks → S b) → m.Apart S →
      (handleAlternativeBlock rules depth m b).2.isOk = true → (handleAlternativeBlock rules depth m b).1.Apart S)
    {xs : List Block} (hpairwise : xs.Pairwise fun a b => a.id ≠ b.id) (hknown : ∀ x ∈ xs, ids.Known x)
    (hxs : ∀ x ∈ xs, S x ∨ n.Inside ids (fun b => b.id ≠ x.id)) (htree : n.Tree ids) (h : n.Apart S)
    (hok : (pushAll (handleAlternativeBlock rules depth) n xs).2.isOk = true) :
    (pushAll (handleAlternativeBlock rules depth) n xs).1.Apart S := by
  induction xs generalizing n with
  | nil => exact h
  | cons x rest ihxs =>
    obtain ⟨hne, hpairwise'⟩ := pairwise_cons.1 hpairwise
    have hx : x ∈ n.blocks → S x := by
      intro hmem
      rcases hxs x mem_cons_self with hS | hin
      · exact hS
      · exact absurd rfl (hin.blocks x hmem)
    have hnext := ih n x htree (hknown x mem_cons_self) hx h
    have htree' := @handleAlternativeBlock_tree t ids rules n x depth htree (hknown x mem_cons_self)
    have hrest : ∀ y ∈ rest, S y ∨ (handleAlternativeBlock rules depth n x).1.Inside ids (fun b => b.id ≠ y.id) := by
      grind [handleAlternativeBlock_inside]
    unfold pushAll at hok ⊢
    split at hok
    · cases hok
    · rename_i m b heq
      rw [heq] at hnext htree' hrest
      exact ihxs hpairwise' (fun y hy => hknown y (mem_cons_of_mem _ hy)) hrest htree' (hnext rfl) hok

theorem handleAlternativeBlock_apart (depth : Nat) (htree : n.Tree ids) (hbl : ids.Known bl) (hS : bl ∈ n.blocks → S bl)
    (h : n.Apart S) (hok : (handleAlternativeBlock rules depth n bl).2.isOk = true) :
    (handleAlternativeBlock rules depth n bl).1.Apart S := by
  induction depth generalizing n bl S with
  | zero => exact h
  | succ depth ih =>
    have hout := handleAlternativeBlock_outcome rules htree hbl depth
    generalize handleAlternativeBlock rules (depth + 1) n bl = r at hout hok ⊢
    cases hout with
    | same result => exact h
    | kept hangs =>
      refine h.of_insert htree hangs hS (by simp [Node.blocks]) fun id e he => ?_
      simpa [hangs.block] using he
    | @switched bei pre post hangs discard _ stored popped pool invalid hstored =>
      -- while the old blocks are handed back, the new ones are alternatives still
      let S' : Block → Prop := fun b => S b ∨ b.id ∈ (iterators rules n bl bei).map (·.info.block.id)
      have hits : ∀ b ∈ stored.map (·.block), b.id ∈ (iterators rules n bl bei).map (·.info.block.id) := by
        intro b hb
        rw [hstored] at hb
        obtain ⟨it, hit, rfl⟩ := List.mem_map.1 hb
        exact List.mem_map_of_mem hit
      have hblit : bl.id ∈ (iterators rules n bl bei).map (·.info.block.id) := by simp [iterators, hangs.block]
      have hchain := hangs.blocks_eq
      have htrue : n.Inside ids (fun _ => True) := ⟨htree, fun _ _ => trivial, fun _ _ _ => trivial⟩
      have htree' : (connected rules n bei discard pre stored popped pool invalid).Tree ids := by
        have hpath := (hangs.blocks_new htrue trivial (append_nil _).symm).1
        rw [← hstored, ← map_append] at hpath
        exact ⟨hpath, (htrue.insertAlternative trivial hangs).tree.alternatives⟩
      have hapart : (connected rules n bei discard pre stored popped pool invalid).Apart S' := by
        intro b hb e he
        rw [Node.blocks, connected_chain, map_append] at hb
        rcases mem_append.1 hb with hb | hb
        · rw [connected_alternatives, hangs.block, lookup_insert_ite] at he
          split at he
          · rename_i hid
            exact Or.inr (hid ▸ hblit)
          · exact Or.inl (h b (hchain ▸ mem_append_left _ hb) e he)
        · exact Or.inr (hits b hb)
      have hpath := htree.path
      rw [hchain] at hpath
      have hpost : ∀ x ∈ post.map (·.block), S' x ∨
          (connected rules n bei discard pre stored popped pool invalid).Inside ids (fun b => b.id ≠ x.id) := by
        intro x hx
        by_cases hS' : S' x
        · exact Or.inl hS'
        obtain ⟨hSx, hxits⟩ := not_or.1 hS'
        refine Or.inr ⟨htree', fun b hb => ?_, fun id e he => ?_⟩
        · rw [Node.blocks, connected_chain, map_append] at hb
          rcases mem_append.1 hb with hb | hb
          · exact (pairwise_append.1 hpath.pairwise).2.2 b hb x hx
          · exact fun heq => hxits (heq ▸ hits b hb)
        · rw [connected_alternatives, lookup_insert_ite] at he
          split at he
          · cases he
            rw [hangs.block]
            exact fun heq => hxits (heq ▸ hblit)
          · intro heq
            obtain rfl : id = x.id := (htree.alternatives id e he).1.symm.trans heq
            exact hSx (h x (hchain ▸ mem_append_right _ hx) e he)
      have hpushed := @pushAll_apart t ids rules
        (connected rules n bei discard pre stored popped pool invalid) S' depth
        (fun m b htree hb hS h hok => ih htree hb hS h hok) (if discard then [] else post.map (·.block))
        (by cases discard; exacts [(pairwise_append.1 hpath.pairwise).2.1, .nil])
        (by cases discard; exacts [fun x hx => hpath.known (mem_append_right _ hx), fun x hx => by cases hx])
        (by cases discard; exacts [hpost, fun x hx => by cases hx]) htree' hapart
      intro b hb e he
      rw [Node.blocks, finishSwitch_chain] at hb
      obtain ⟨he', hid⟩ := finishSwitch_alternatives he
      have hpok : (pushAll (handleAlternativeBlock rules depth) (connected rules n bei discard pre stored popped pool invalid)
          (if discard then [] else post.map (·.block))).2.isOk = true := by
        generalize pushAll (handleAlternativeBlock rules depth) _ _ = r at hok
        obtain ⟨m, e | u⟩ := r
        · cases hok
        · rfl
      exact (hpushed hpok b hb e he').resolve_right (hid hpok)
    | @abandoned bei pre post hangs discard _ done failed _ _ stored popped pool invalid =>
      obtain ⟨stored', popped', pool', invalid', forks', rest, holds, hroll, -⟩ := rollback_spec rules
        (@connected_chain t rules n bei discard pre stored popped pool invalid) (post.map (·.block))
      refine h.of_insert htree hangs hS (fun b hb => ?_) fun id e he => ?_
      · rw [Node.blocks, abandonSwitch_chain, hroll, set_chain, map_append] at hb
        rw [Node.blocks, hangs.chain, map_append, holds, ← append_assoc]
        exact mem_append_left _ hb
      · have he' := abandonSwitch_alternatives he
        rw [hroll, set_alternatives, connected_alternatives, hangs.block] at he'
        exact he'

end Node

end Electronero
