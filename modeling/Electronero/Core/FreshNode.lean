import Electronero.Core.Versions
/-!
# A switch and a fresh node

The `HardFork` object is reorganised only after the new blocks have been connected, so they are judged under the version
of the old tip, not of the split.
-/
namespace Electronero
open Text FiniteMap Machine

namespace Node
variable {t : ForkTable} {rules : NodeRules} {n f : Node t}

def AcceptsAll (rules : NodeRules) (n : Node t) (altChain : List AltIterator) : Prop :=
  (connectAll rules (·.info.block) n altChain).2 = []

def SwitchConnects (rules : NodeRules) (n : Node t) : List AltIterator → Prop
  | [] => False
  | front :: rest =>
    AcceptsAll rules (popUntil rules front.info.block.prevId n.base.chain.length n).1 (front :: rest)

theorem popUntil_logSwitch (id : Hash) (k : Nat) (n : Node t) (discard : Bool) :
    popUntil rules id k (n.logSwitch discard) =
      ((popUntil rules id k n).1.logSwitch discard, (popUntil rules id k n).2) := by
  induction k generalizing n with
  | zero => rfl
  | succ k ih =>
    rw [popUntil, popUntil]
    by_cases htail : n.base.tailId = id
    · rw [if_pos htail, if_pos (show (n.logSwitch discard).base.tailId = id from htail)]
    · rw [if_neg htail, if_neg (show (n.logSwitch discard).base.tailId ≠ id from htail),
        show (n.logSwitch discard).popBlock rules = ((n.popBlock rules).1.logSwitch discard, (n.popBlock rules).2) from rfl]
      grind

theorem connectAll_logSwitch {α : Type} (block : α → Block) (xs : List α) (n : Node t) (discard : Bool) :
    connectAll rules block (n.logSwitch discard) xs =
      ((connectAll rules block n xs).1.logSwitch discard, (connectAll rules block n xs).2) := by
  induction xs generalizing n with
  | nil => rfl
  | cons x rest ih =>
    have hstep : (n.logSwitch discard).handleBlockToMainChain rules (block x) =
        ((n.handleBlockToMainChain rules (block x)).1.logSwitch discard,
          (n.handleBlockToMainChain rules (block x)).2) := by
      grind [Node.handleBlockToMainChain, logSwitch, Node.version]
    rw [connectAll, connectAll, hstep]
    generalize n.handleBlockToMainChain rules (block x) = r
    obtain ⟨m, b⟩ := r
    cases b with
    | true => exact ih m
    | false => rfl

variable {rest altChain : List AltIterator} {it : AltIterator}

theorem switchConnects_of_result {push : Node t → Block → Node t × Except DbError Bool} {front : AltIterator}
    {discard : Bool} (hexists : n.base.blockExists front.info.block.prevId = true) :
    ((switchToAlternative rules push n (front :: rest) discard).2 = .ok true → SwitchConnects rules n (front :: rest)) ∧
    ((switchToAlternative rules push n (front :: rest) discard).2 = .ok false → ¬ SwitchConnects rules n (front :: rest)) := by
  rw [SwitchConnects, AcceptsAll, switchToAlternative]
  dsimp only
  rw [if_neg (by simpa [logSwitch] using hexists), show (n.logSwitch discard).base.chain.length = n.base.chain.length from rfl,
    popUntil_logSwitch, connectAlternative, connectAll_logSwitch]
  generalize connectAll rules (fun it : AltIterator => it.info.block) _ (front :: rest) = r
  obtain ⟨m, _ | ⟨it, failed⟩⟩ := r
  · refine ⟨fun _ => rfl, fun h => ?_⟩
    dsimp only at h
    generalize (if discard = true then (m.logSwitch discard, Except.ok ()) else pushAll push _ _) = r at h
    obtain ⟨m', e | u⟩ := r
    · cases h
    · rw [finishSwitch] at h
      split at h <;> cases h
  · refine ⟨fun h => ?_, fun _ => by simp⟩
    dsimp only at h
    generalize rollback rules _ _ _ = r at h
    obtain ⟨m', e | b⟩ := r <;> cases h

def accept (rules : NodeRules) (n : Node t) (bl : Block) (txs : List Transaction) : Node t :=
  n.set (n.base.chain ++ [n.base.entry (rules.base n.version) bl txs]) n.base.popped
    (Base.without n.base.pool bl.txHashes) n.base.invalidBlocks (n.forks.addStored n.base.chain.length bl)

theorem acceptsAll_cons : AcceptsAll rules n (it :: rest) ↔
    ∃ txs, n.base.accepted (rules.base n.version) it.info.block = some txs ∧
      AcceptsAll rules (n.accept rules it.info.block txs) rest := by
  unfold AcceptsAll
  rw [connectAll]
  cases hverdict : n.base.accepted (rules.base n.version) it.info.block with
  | none => grind [handleBlockToMainChain_of_refused]
  | some txs =>
    rw [handleBlockToMainChain_of_accepted hverdict]
    simp [accept]

theorem addStored_index_congr (hs : t.Scheduled) {s s' : ForkState t}
    (h : s.hardFork.currentForkIndex = s'.hardFork.currentForkIndex) (height : Nat) (bl : Block) :
    (s.addStored height bl).hardFork.currentForkIndex = (s'.addStored height bl).hardFork.currentForkIndex := by
  have hcheck : s.hardFork.check bl = s'.hardFork.check bl := by
    unfold HardFork.check HardFork.currentVersion
    rw [h]
  cases hc : s'.hardFork.check bl with
  | false => grind [ForkState.addStored_refused]
  | true =>
    rw [hc] at hcheck
    simp only [ForkState.addStored, ForkState.record, HardFork.add, hc, hcheck, if_true, Option.map_some, Option.getD_some]
    rw [HardFork.raise_currentForkIndex hs, HardFork.raise_currentForkIndex hs]
    exact congrArg (max · _) h

structure Alike (n f : Node t) (altChain : List AltIterator) : Prop where
  chain : n.base.chain = f.base.chain
  index : n.forks.hardFork.currentForkIndex = f.forks.hardFork.currentForkIndex
  pool : ∀ it ∈ altChain, ∀ id ∈ it.info.block.txHashes, n.base.pool.lookup id = f.base.pool.lookup id

theorem Alike.version (h : Alike n f altChain) : n.version = f.version := by
  unfold Node.version HardFork.currentVersion
  rw [h.index]

theorem Alike.accept (hs : t.Scheduled) (h : Alike n f (it :: rest))
    (txs : List Transaction) : Alike (n.accept rules it.info.block txs) (f.accept rules it.info.block txs) rest := by
  refine ⟨?_, ?_, fun it' hit' id hid => ?_⟩
  · simp only [Node.accept, set_chain, Base.entry, Base.topDifficulty]
    rw [h.version, h.chain]
  · simp only [Node.accept, set_forks]
    rw [h.chain]
    exact addStored_index_congr hs h.index _ _
  · simp only [Node.accept, set_pool, Base.lookup_without]
    rw [h.pool it' (List.mem_cons_of_mem _ hit') id hid]

theorem Alike.acceptsAll_iff (hs : t.Scheduled) (h : Alike n f altChain) :
    AcceptsAll rules n altChain ↔ AcceptsAll rules f altChain := by
  induction altChain generalizing n f with
  | nil => exact Iff.rfl
  | cons it rest ih =>
    have hverdict := @Base.accepted_congr (rules.base f.version) n.base f.base it.info.block h.chain
      (h.pool it List.mem_cons_self)
    rw [acceptsAll_cons, acceptsAll_cons, h.version, hverdict]
    exact exists_congr fun txs => and_congr_right fun _ => ih (h.accept hs txs)

/-! ## Rules that tell two versions apart -/

end Node

theorem Base.takeAll_header (r : BaseRules) (g : Chain → Block → Bool) (bl : Block) (b : Base) (ids : List Hash) :
    takeAll { r with checkHeader := g } bl b ids = takeAll r bl b ids := by
  induction ids generalizing b with
  | nil => rfl
  | cons id rest ih =>
    unfold takeAll
    simp only [ih]

variable {b b' : Base} {bl : Block} {r : BaseRules} {txs : List Transaction}

theorem Base.accepted_header (r : BaseRules) {g : Chain → Block → Bool}
    (h : g b.chain bl = r.checkHeader b.chain bl) : accepted { r with checkHeader := g } b bl = accepted r b bl := by
  unfold accepted
  simp only [takeAll_header, h]

def NodeRules.lenient : NodeRules := ⟨fun _ => .lenient [], id⟩

def SameContent (c c' : Chain) : Prop := c.map (fun e => (e.block, e.txs)) = c'.map (fun e => (e.block, e.txs))

theorem SameContent.tailId (h : SameContent b.chain b'.chain) : b.tailId = b'.tailId := by
  have hlast := congrArg (fun l => ((l.getLast?).map fun p : Block × List Transaction => p.1.id).getD default) h
  simpa [Base.tailId, List.getLast?_map, Function.comp_def] using hlast

theorem SameContent.haveTx (h : SameContent b.chain b'.chain) (id : Hash) : b.haveTx id = b'.haveTx id := by
  have hany := congrArg (fun l => l.any fun p : Block × List Transaction =>
    p.1.minerTx.id == id || p.2.any (·.id == id)) h
  simpa [Base.haveTx, List.any_map, Function.comp_def] using hany

theorem Base.takeAll_lenient {ids : List Hash}
    (hchain : SameContent b.chain b'.chain) (hpool : ∀ id ∈ ids, b.pool.lookup id = b'.pool.lookup id)
    (h : takeAll r bl b ids = some txs) : takeAll (.lenient []) bl b' ids = some txs := by
  induction ids generalizing b b' txs with
  | nil => exact h
  | cons id rest ih =>
    have hpool' : ∀ i ∈ rest, (b.pool.erase id).lookup i = (b'.pool.erase id).lookup i := by
      intro i hi
      by_cases hid : i = id
      · subst hid
        simp
      · simp_all
    unfold takeAll at h ⊢
    rw [← hchain.haveTx id, ← hpool id List.mem_cons_self]
    split at h
    · cases h
    rename_i hhave
    rw [if_neg hhave]
    split at h
    · cases h
    split at h
    · obtain ⟨later, hlater, rfl⟩ := Option.map_eq_some_iff.1 h
      grind [BaseRules.lenient]
    · cases h

theorem Base.accepted_lenient
    (hchain : SameContent b.chain b'.chain) (hpool : ∀ id ∈ bl.txHashes, b.pool.lookup id = b'.pool.lookup id)
    (h : accepted r b bl = some txs) : accepted (.lenient []) b' bl = some txs := by
  have hprev := accepted_prevId h
  unfold accepted at h ⊢
  split at h
  · rw [if_pos ⟨hprev.trans hchain.tailId, rfl, Nat.one_ne_zero, rfl⟩,
      takeAll_lenient hchain hpool (Option.filter_eq_some_iff.1 h).1]
    rfl
  · cases h

def NodeRules.closedAt (height : Nat) (version : UInt8) : NodeRules :=
  ⟨fun v => if v = version then { BaseRules.lenient [] with checkHeader := fun chain _ => chain.length != height }
    else .lenient [], id⟩

theorem NodeRules.closedAt_returnable (height : Nat) (version v : UInt8) :
    Base.Returnable ((closedAt height version).base v) := by
  intro chain pool tx
  unfold closedAt
  dsimp only
  split <;> rfl

namespace Node
variable {t : ForkTable} {n f : Node t} {height : Nat} {version : UInt8}

theorem accept_closedAt (n : Node t) (bl : Block) (txs : List Transaction) :
    n.accept (.closedAt height version) bl txs = n.accept .lenient bl txs := by
  have hentry : n.base.entry ((NodeRules.closedAt height version).base n.version) bl txs =
      n.base.entry (NodeRules.lenient.base n.version) bl txs := by
    unfold NodeRules.closedAt Base.entry
    dsimp only
    split <;> rfl
  unfold accept
  rw [hentry]

theorem accepted_closedAt {b : Base} {bl : Block} {v : UInt8} (h : v = version → b.chain.length ≠ height) :
    b.accepted ((NodeRules.closedAt height version).base v) bl = b.accepted (NodeRules.lenient.base v) bl := by
  unfold NodeRules.closedAt NodeRules.lenient
  dsimp only
  split
  · rename_i hv
    refine Base.accepted_header _ ?_
    show (b.chain.length != height) = true
    simpa using h hv
  · rfl

variable {altChain : List AltIterator}

theorem acceptsAll_closedAt (hlen : height ≤ n.base.chain.length)
    (h : n.version = version → n.base.chain.length ≠ height) (hall : AcceptsAll .lenient n altChain) :
    AcceptsAll (.closedAt height version) n altChain := by
  induction altChain generalizing n with
  | nil => rfl
  | cons it rest ih =>
    obtain ⟨txs, hverdict, hrest⟩ := acceptsAll_cons.1 hall
    refine acceptsAll_cons.2 ⟨txs, (accepted_closedAt h).trans hverdict, ?_⟩
    rw [accept_closedAt]
    have hlonger : (n.accept .lenient it.info.block txs).base.chain.length = n.base.chain.length + 1 := by simp [accept]
    exact ih (by omega) (fun _ => by omega) hrest

theorem not_acceptsAll_closedAt {it : AltIterator} {rest : List AltIterator} (hlen : n.base.chain.length = height)
    (h : n.version = version) : ¬ AcceptsAll (.closedAt height version) n (it :: rest) := by
  intro hall
  obtain ⟨txs, hverdict, -⟩ := acceptsAll_cons.1 hall
  grind [Base.accepted, NodeRules.closedAt]

theorem acceptsAll_lenient {rules : NodeRules} (hchain : SameContent n.base.chain f.base.chain)
    (hpool : ∀ it ∈ altChain, ∀ id ∈ it.info.block.txHashes, n.base.pool.lookup id = f.base.pool.lookup id)
    (h : AcceptsAll rules n altChain) : AcceptsAll .lenient f altChain := by
  induction altChain generalizing n f with
  | nil => rfl
  | cons it rest ih =>
    obtain ⟨txs, hverdict, hrest⟩ := acceptsAll_cons.1 h
    refine acceptsAll_cons.2 ⟨txs, Base.accepted_lenient hchain (hpool it List.mem_cons_self) hverdict, ?_⟩
    refine ih ?_ (fun it' hit' id hid => ?_) hrest
    · unfold SameContent at hchain ⊢
      simp [accept, Base.entry, hchain]
    · simp only [Node.accept, set_pool, Base.lookup_without]
      rw [hpool it' (List.mem_cons_of_mem _ hit') id hid]

section
variable {pre post : Chain} {front : AltIterator} {rest : List AltIterator}

theorem switchConnects_iff (rules : NodeRules) (hchain : n.base.chain = pre ++ post)
    (htail : (Base.ofChain pre).tailId = front.info.block.prevId)
    (hpost : ∀ e ∈ post, e.block.id ≠ front.info.block.prevId) (hreturn : ∀ v, Base.Returnable (rules.base v)) :
    ∃ popped, SwitchConnects rules n (front :: rest) ↔
      AcceptsAll rules (n.set pre popped (returned n.base.pool post) n.base.invalidBlocks n.forks) (front :: rest) := by
  obtain ⟨popped, pool, hpop, hpool, -⟩ := popUntil_spec rules hchain htail hpost (k := n.base.chain.length) (by simp [hchain])
  refine ⟨popped, ?_⟩
  rw [SwitchConnects, hpop, hpool (hreturn _)]

/-- **A switch judges the blocks as a fresh node would, whatever the rules are, exactly if the version of the tip is that
of the split**, or the blocks cannot be connected under any rules. -/
theorem switch_as_fresh_iff (hs : t.Scheduled) (hchain : n.base.chain = pre ++ post) (hne : pre ≠ [])
    (htail : (Base.ofChain pre).tailId = front.info.block.prevId)
    (hpost : ∀ e ∈ post, e.block.id ≠ front.info.block.prevId) (hfresh : f.base.chain = pre)
    (hpool : ∀ it ∈ front :: rest, ∀ id ∈ it.info.block.txHashes,
      (returned n.base.pool post).lookup id = f.base.pool.lookup id)
    (hn : n.forks.hardFork.currentForkIndex = t.idealIndex n.base.chain.length)
    (hf : f.forks.hardFork.currentForkIndex = t.idealIndex pre.length) :
    ((∀ rules : NodeRules, (∀ v, Base.Returnable (rules.base v)) →
        (SwitchConnects rules n (front :: rest) ↔ AcceptsAll rules f (front :: rest))) ↔
      t.idealVersion n.base.chain.length = t.idealVersion pre.length ∨ ¬ AcceptsAll .lenient f (front :: rest)) ∧
    ∀ (rules : NodeRules) push discard,
      ((switchToAlternative rules push n (front :: rest) discard).2 = .ok true → SwitchConnects rules n (front :: rest)) ∧
      ((switchToAlternative rules push n (front :: rest) discard).2 = .ok false →
        ¬ SwitchConnects rules n (front :: rest)) := by
  have hversions : n.version = f.version ↔ t.idealVersion n.base.chain.length = t.idealVersion pre.length := by
    unfold Node.version HardFork.currentVersion ForkTable.idealVersion
    rw [hn, hf]
  have hexists : n.base.blockExists front.info.block.prevId = true := by
    obtain ⟨pre', e, rfl⟩ := (List.eq_nil_or_concat' pre).resolve_left hne
    rw [← htail]
    simp [Base.blockExists, hchain, Base.tailId, Base.ofChain]
  refine ⟨⟨?_, ?_⟩, fun rules push discard => switchConnects_of_result hexists⟩
  · intro hagree
    by_contra hnot
    rw [not_or, not_not] at hnot
    have hne : n.version ≠ f.version := fun h => hnot.1 (hversions.1 h)
    have hreturn := NodeRules.closedAt_returnable pre.length n.version
    obtain ⟨popped, hswitch⟩ := @switchConnects_iff t n pre post front rest (.closedAt pre.length n.version) hchain htail
      hpost hreturn
    have hyes :=
      acceptsAll_closedAt (by rw [hfresh]) (fun h => absurd h.symm hne) hnot.2
    exact not_acceptsAll_closedAt rfl rfl (hswitch.1 ((hagree _ hreturn).2 hyes))
  · intro hcond rules hreturn
    obtain ⟨popped, hswitch⟩ := @switchConnects_iff t n pre post front rest rules hchain htail hpost hreturn
    rw [hswitch]
    rcases hcond with hsame | hnever
    · have halike : Alike (n.set pre popped (returned n.base.pool post) n.base.invalidBlocks n.forks) f (front :: rest) :=
        ⟨hfresh.symm, by rw [set_forks, hn, hf, ForkTable.idealVersion_eq_iff.1 hsame], hpool⟩
      exact halike.acceptsAll_iff hs
    · refine iff_of_false (fun hall => hnever ?_) fun hall => hnever ?_
      · refine acceptsAll_lenient ?_ hpool hall
        rw [SameContent, set_chain, hfresh]
      · exact acceptsAll_lenient rfl (fun _ _ _ _ => rfl) hall

end

section Example

def futureTimeLimit (version : UInt8) : Nat := if version < 12 then 120 else 300

def clockRules (now : Nat) : NodeRules :=
  ⟨fun version => { BaseRules.lenient [] with
    checkBlockTimestamp := fun _ bl => decide (bl.timestamp.toNat ≤ now + futureTimeLimit version) }, fun k => 2 * k⟩

def earlyForks : ForkTable := ⟨⟨1, 1, 0⟩, [⟨12, 3, 0⟩], 10080, ForkTable.mainnet.windowSize_pos, by decide⟩

def timedBlock (id majorVersion : UInt8) (timestamp : UInt64) (prevId : Hash) (height : Nat) : Block :=
  { plainBlock id majorVersion prevId height with minorVersion := majorVersion, timestamp := timestamp }

def earlyBlocks : List Block :=
  [timedBlock 1 1 0 default 0, timedBlock 2 1 0 (Env.plainKey 1) 1, timedBlock 11 1 1200 (Env.plainKey 1) 1,
    timedBlock 3 1 0 (Env.plainKey 2) 2, timedBlock 12 12 0 (Env.plainKey 11) 2]

def earlyNode (blocks : List Block) : Node earlyForks := run arrive (init _) (blocks.map (⟨·, clockRules 1000, 2, ∅⟩))

/-- An alternative block 200 seconds ahead is too early for version 1, which its height asks for, and not for version 12.
-/
theorem futureBlock_connected :
    let n := earlyNode earlyBlocks
    let r := n.addNewBlock (clockRules 1000) 2 (timedBlock 13 12 0 (Env.plainKey 12) 3)
    n.blocks.map (·.id) = [Env.plainKey 1, Env.plainKey 2, Env.plainKey 3] ∧
    r.1.blocks.map (·.id) = [Env.plainKey 1, Env.plainKey 11, Env.plainKey 12, Env.plainKey 13] ∧
    ((earlyNode (earlyBlocks.take 1)).handleBlockToMainChain (clockRules 1000)
      (timedBlock 11 1 1200 (Env.plainKey 1) 1)).2 = false := by
  decide +kernel

theorem nearBlock_as_fresh :
    let n := earlyNode (earlyBlocks.take 2)
    let altChain : List AltIterator := [⟨⟨timedBlock 11 1 1200 (Env.plainKey 1) 1, 1, 2⟩, 0⟩]
    n.blocks.map (·.id) = [Env.plainKey 1, Env.plainKey 2] ∧
    ∀ rules : NodeRules, (∀ v, Base.Returnable (rules.base v)) →
      (SwitchConnects rules n altChain ↔ AcceptsAll rules (earlyNode (earlyBlocks.take 1)) altChain) := by
  have hsplit : (earlyNode (earlyBlocks.take 2)).base.chain =
      (earlyNode (earlyBlocks.take 1)).base.chain ++ (earlyNode (earlyBlocks.take 2)).base.chain.drop 1 := by decide +kernel
  refine ⟨by decide +kernel, (switch_as_fresh_iff (by decide) hsplit (by decide +kernel) (by decide +kernel)
    (by decide +kernel) rfl (fun it hit id hid => ?_) (by decide +kernel) (by decide +kernel)).1.2
    (Or.inl (by decide +kernel))⟩
  rw [List.mem_singleton.1 hit] at hid
  cases hid

end Example

end Node

end Electronero
