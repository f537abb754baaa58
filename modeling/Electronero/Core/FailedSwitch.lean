import Electronero.Core.FreshNode
/-!
# A switch that fails

The old blocks are put back by `handle_block_to_main_chain`, which judges them anew, each under the version of its own
height; one that is refused now stays out, with everything above it.
-/
namespace Electronero
open Text FiniteMap Machine List

/-- The verdict about a stored block on the chain below it, under the version of its height and with its
transactions in the pool, is to store it as it is. -/
def Reconnects (rules : NodeRules) (t : ForkTable) (below : Chain) (e : StoredBlock) : Prop :=
  let b : Base := { Base.ofChain below with pool := Base.withTxs ∅ e.txs }
  b.accepted (rules.base (t.idealVersion below.length)) e.block = some e.txs ∧
    b.entry (rules.base (t.idealVersion below.length)) e.block e.txs = e

instance (rules : NodeRules) (t : ForkTable) (below : Chain) (e : StoredBlock) : Decidable (Reconnects rules t below e) :=
  inferInstanceAs (Decidable (_ ∧ _))

/-! ## Transactions that come back to the pool -/

namespace Base

variable {pool : Pool} {txs : List Transaction}

theorem lookup_withTxs_of_not_mem {id : Hash} (h : id ∉ txs.map (·.id)) :
    (withTxs pool txs).lookup id = pool.lookup id := by
  induction txs generalizing pool with
  | nil => rfl
  | cons tx txs ih =>
    simp only [map_cons, mem_cons, not_or] at h
    show (withTxs (pool.insert tx.id tx) txs).lookup id = _
    rw [ih h.2, lookup_insert_ite, if_neg h.1]

theorem lookup_withTxs_of_mem (hnodup : (txs.map (·.id)).Nodup) {tx : Transaction}
    (h : tx ∈ txs) : (withTxs pool txs).lookup tx.id = some tx := by
  induction txs generalizing pool with
  | nil => cases h
  | cons tx' txs ih =>
    obtain ⟨hnot, hnodup'⟩ := nodup_cons.1 hnodup
    show (withTxs (pool.insert tx'.id tx') txs).lookup tx.id = _
    grind [lookup_withTxs_of_not_mem, lookup_insert_ite]

end Base

namespace Node
variable {t : ForkTable} {rules : NodeRules} {n m : Node t}

def Supplies (pool : Pool) (e : StoredBlock) : Prop :=
  ∀ id ∈ e.block.txHashes, pool.lookup id = (Base.withTxs ∅ e.txs).lookup id

variable {e : StoredBlock} {post : Chain}

theorem supplies_withTxs {pool : Pool} (hhashes : e.txs.map (·.id) = e.block.txHashes)
    (hnodup : e.block.txHashes.Nodup) : Supplies (Base.withTxs pool e.txs.reverse) e := by
  intro id hid
  grind [Base.lookup_withTxs_of_mem]

theorem supplies_returned {chain : Chain} (h : Stored chain) (pool : Pool) (he : e ∈ chain) :
    Supplies (returned pool chain) e := by
  induction chain with
  | nil => cases he
  | cons e' chain ih =>
    obtain ⟨hnodup, hapart, hrest⟩ := h.cons
    have hhashes := h.hashes e' mem_cons_self
    rw [returned_cons]
    rcases mem_cons.1 he with rfl | he
    · exact supplies_withTxs hhashes hnodup
    · intro id hid
      rw [Base.lookup_withTxs_of_not_mem, ih hrest he id hid]
      grind

theorem connectAll_eq_iff (rules : NodeRules) (hs : t.Scheduled) (htrack : m.forks.OnTrack m.base.chain.length)
    (hdemands : t.DemandsFrom m.base.chain.length (post.map (·.block))) (hstored : Stored post)
    (hpool : ∀ e ∈ post, Supplies m.base.pool e) :
    (connectAll rules id m (post.map (·.block))).1.base.chain = m.base.chain ++ post ↔
      ∀ j e, post[j]? = some e → Reconnects rules t (m.base.chain ++ post.take j) e := by
  induction post generalizing m with
  | nil => simp [connectAll]
  | cons e post ih =>
    obtain ⟨-, hapart, hstored'⟩ := hstored.cons
    obtain ⟨hbl, hrest⟩ := (@ForkTable.demandsFrom_append t _ [e.block] (post.map (·.block))).1 hdemands
    have hbl' := ForkTable.demandsFrom_singleton.1 hbl
    have hversion : m.version = t.idealVersion m.base.chain.length := by
      unfold Node.version HardFork.currentVersion ForkTable.idealVersion
      rw [htrack.index]
    have hverdict := @Base.accepted_congr (rules.base (t.idealVersion m.base.chain.length)) m.base
      { Base.ofChain m.base.chain with pool := Base.withTxs ∅ e.txs } e.block rfl (hpool e mem_cons_self)
    have hentry : ∀ txs, m.base.entry (rules.base (t.idealVersion m.base.chain.length)) e.block txs =
        ({ Base.ofChain m.base.chain with pool := Base.withTxs ∅ e.txs } : Base).entry
          (rules.base (t.idealVersion m.base.chain.length)) e.block txs := fun _ => rfl
    have hzero : (∀ j e', (e :: post)[j]? = some e' → Reconnects rules t (m.base.chain ++ (e :: post).take j) e') ↔
        Reconnects rules t m.base.chain e ∧
          ∀ j e', post[j]? = some e' → Reconnects rules t (m.base.chain ++ [e] ++ post.take j) e' := by
      constructor
      · intro h
        refine ⟨by simpa using h 0 e rfl, fun j e' he' => ?_⟩
        simpa using h (j + 1) e' (by simpa using he')
      · rintro ⟨h0, h⟩ (_ | j) e' he'
        · grind
        · simpa using h j e' (by simpa using he')
    rw [hzero, map_cons, connectAll]
    cases hv : m.base.accepted (rules.base m.version) (id e.block) with
    | none =>
      obtain ⟨pool, invalid, heq, -⟩ := handleBlockToMainChain_of_refused hv
      rw [heq]
      refine iff_of_false (by simp) fun h => ?_
      rw [hversion, id, hverdict, h.1.1] at hv
      cases hv
    | some txs =>
      rw [handleBlockToMainChain_of_accepted hv]
      rw [hversion, id, hverdict] at hv
      rw [hversion]
      dsimp only [id]
      by_cases he : m.base.entry (rules.base (t.idealVersion m.base.chain.length)) e.block txs = e
      · obtain rfl : txs = e.txs := congrArg StoredBlock.txs he
        have hself : Reconnects rules t m.base.chain e := ⟨hv, (hentry _).symm.trans he⟩
        rw [he, and_iff_right hself]
        have hiff := @ih (m.set (m.base.chain ++ [e]) m.base.popped (Base.without m.base.pool e.block.txHashes)
          m.base.invalidBlocks (m.forks.addStored m.base.chain.length e.block))
          (by simpa using (ForkState.addStored_onTrack hs htrack hbl').1) (by simpa using hrest) hstored'
          (fun e' he' id hid => by
            rw [set_pool, Base.lookup_without, if_neg fun hid' => hapart id hid' e' he' hid]
            exact hpool e' (mem_cons_of_mem _ he') id hid)
        rw [set_chain, append_assoc] at hiff
        simpa using hiff
      · -- the block is stored in another form
        obtain ⟨stored, pool, invalid, done, rest, hconnect, -⟩ := connectAll_spec rules id (post.map (·.block))
          (m.set (m.base.chain ++ [m.base.entry (rules.base (t.idealVersion m.base.chain.length)) e.block txs]) m.base.popped
            (Base.without m.base.pool e.block.txHashes) m.base.invalidBlocks (m.forks.addStored m.base.chain.length e.block))
        rw [hconnect]
        refine iff_of_false (fun h => he ?_) fun h => he ?_
        · simp only [set_chain, append_assoc, append_cancel_left_eq, singleton_append, cons.injEq] at h
          exact h.1
        · have htxs := h.1.1
          rw [hv] at htxs
          rw [Option.some.inj htxs]
          exact h.1.2

theorem addAll_le (hs : t.Scheduled) (s : ForkState t) (height : Nat) (blocks : List Block) :
    s.hardFork.currentForkIndex ≤ (s.addAll height blocks).hardFork.currentForkIndex ∧
    ∀ i < height, (s.addAll height blocks).recorded i = s.recorded i := by
  induction blocks generalizing s height with
  | nil => exact ⟨le_rfl, fun _ _ => rfl⟩
  | cons bl rest ih =>
    obtain ⟨hle, hrec⟩ := ForkState.addStored_le hs s height bl
    obtain ⟨hle', hrec'⟩ := ih (s.addStored height bl) (height + 1)
    exact ⟨hle.trans hle', fun i hi => (hrec' i (by omega)).trans (hrec i hi)⟩

structure Coherent (n : Node t) : Prop where
  hardFork : n.forks.hardFork = HardFork.ofBlocks t n.blocks
  recorded : n.forks.RecordedTo n.base.chain.length
  demands : t.DemandsFrom 0 n.blocks
  keyed : Base.Keyed n.base.pool
  stored : Stored n.base.chain

theorem reconnect_restores_iff (rules : NodeRules) (hs : t.Scheduled) (hne : m.base.chain ≠ [])
    (hdemands : t.DemandsFrom 0 ((m.base.chain ++ post).map (·.block))) (htrack : m.forks.OnTrack m.base.chain.length)
    (hstored : Stored post) (hpool : ∀ e ∈ post, Supplies m.base.pool e) :
    ((reconnect rules m (post.map (·.block)) m.base.chain.length).1.base.chain = m.base.chain ++ post ↔
      ∀ j e, post[j]? = some e → Reconnects rules t (m.base.chain ++ post.take j) e) ∧
    ((reconnect rules m (post.map (·.block)) m.base.chain.length).1.base.chain = m.base.chain ++ post →
      (reconnect rules m (post.map (·.block)) m.base.chain.length).2.isOk = true ∧
      (reconnect rules m (post.map (·.block)) m.base.chain.length).1.forks.hardFork =
        HardFork.ofBlocks t ((m.base.chain ++ post).map (·.block))) := by
  have hpost := hdemands
  rw [map_append] at hpost
  replace hpost := (ForkTable.demandsFrom_append.1 hpost).2
  rw [length_map, Nat.zero_add] at hpost
  have hiff := connectAll_eq_iff rules hs htrack hpost hstored hpool
  obtain ⟨stored, pool, invalid, done, rest, hconnect, hxs, hblocks, -⟩ := connectAll_spec rules id (post.map (·.block)) m
  rw [List.map_id] at hblocks
  rw [hconnect] at hiff
  have hsame : (reconnect rules m (post.map (·.block)) m.base.chain.length).1.base.chain = m.base.chain ++ stored := by
    obtain ⟨stored', pool', invalid', forks', rest', -, heq, hchain, -⟩ := reconnect_spec rules m (post.map (·.block))
      m.base.chain.length
    rw [heq, set_chain, ← hchain, hconnect, set_chain]
  rw [hsame]
  refine ⟨hiff, fun hall => ?_⟩
  obtain rfl : stored = post := append_cancel_left hall
  obtain rfl : rest = [] := by
    rw [← hblocks] at hxs
    simpa using hxs
  obtain ⟨hafter, -⟩ := ForkState.addAll_onTrack hs htrack hpost
  obtain ⟨forks, hre, hhf, -⟩ := ForkState.reorganizeFromChainHeight_ofBlocks hs (length_pos_iff.2 hne)
    (s := m.forks.addAll m.base.chain.length (stored.map (·.block))) (by simp) (hafter.recorded.mono (by simp)) (by
      rw [hafter.index]
      exact ForkTable.idealIndex_mono (by omega)) hdemands
  rw [reconnect, hconnect]
  dsimp only
  rw [reorganize, blocks, set_forks, set_chain, hre]
  exact ⟨rfl, hhf⟩

theorem rollback_eq (rules : NodeRules) (hs : t.Scheduled) (hreturn : ∀ v, Base.Returnable (rules.base v)) {pre above : Chain}
    (hne : pre ≠ []) (hchain : m.base.chain = pre ++ above) (hpre : t.DemandsFrom 0 (pre.map (·.block)))
    (hrecorded : m.forks.RecordedTo pre.length) (hindex : t.idealIndex pre.length ≤ m.forks.hardFork.currentForkIndex)
    (olds : List Block) : ∃ popped forks, rollback rules m olds pre.length =
        reconnect rules (m.set pre popped (returned m.base.pool above) m.base.invalidBlocks forks) olds pre.length ∧
      forks.OnTrack pre.length := by
  obtain ⟨popped, pool, hpop, hpool, -⟩ := popN_spec rules hchain
  obtain rfl := hpool (hreturn _)
  have hlen : m.base.chain.length - pre.length = above.length := by simp [hchain]
  obtain ⟨forks, hre, hhf, hrec, -⟩ := ForkState.reorganizeFromChainHeight_ofBlocks hs (length_pos_iff.2 hne)
    (by simp) hrecorded ((ForkTable.idealIndex_mono (by omega)).trans hindex) hpre
  refine ⟨popped, forks, ?_, ?_, by simpa using hrec⟩
  · rw [rollback, if_neg (by simp [hchain]), hlen, hpop, reorganize, blocks, set_forks, set_chain, hre]
    rfl
  · rw [hhf]
    simp [HardFork.ofBlocks]

structure Restored (n : Node t) (done failed : List AltIterator) (r : Node t × Except DbError Bool) : Prop where
  result : r.2 = .ok false
  chain : r.1.base.chain = n.base.chain
  hardFork : r.1.forks.hardFork = n.forks.hardFork
  invalid : ∀ it ∈ failed, it.info.block.id ∈ r.1.base.invalidBlocks ∧
    r.1.base.alternatives.lookup it.info.block.id = none
  kept : ∀ it ∈ done, r.1.base.alternatives.lookup it.info.block.id = some it.info

theorem foldl_invalidate_invalidBlocks (its : List AltIterator) (m : Node t) {id : Hash} :
    id ∈ (its.foldl invalidate m).base.invalidBlocks ↔ id ∈ its.map (·.info.block.id) ∨ id ∈ m.base.invalidBlocks := by
  induction its generalizing m with
  | nil => simp
  | cons it its ih =>
    rw [foldl_cons, ih]
    simp only [invalidate, eraseAlternative, Finset.mem_insert, map_cons, mem_cons]
    rw [or_left_comm, or_assoc]

theorem abandonSwitch_restored {done failed : List AltIterator} {r : Node t × Except DbError Bool} (hok : r.2.isOk = true)
    (hchain : r.1.base.chain = n.base.chain) (hhf : r.1.forks.hardFork = n.forks.hardFork)
    (halts : r.1.base.alternatives = n.base.alternatives)
    (hvalid : ∀ it ∈ done, n.base.alternatives.lookup it.info.block.id = some it.info)
    (hdistinct : ((done ++ failed).map (·.info.block.id)).Nodup) : Restored n done failed (abandonSwitch failed r) := by
  obtain ⟨m, e | b⟩ := r
  · cases hok
  have hlookup := @lookup_foldl_erase t invalidate (fun _ _ => rfl) failed m
  rw [map_append, nodup_append] at hdistinct
  refine ⟨rfl, (foldl_invalidate_chain failed m).trans hchain, ?_, fun it hit => ⟨?_, ?_⟩, fun it hit => ?_⟩
  · exact (@foldl_erase_eq t invalidate _ (fun n => n.forks.hardFork) (fun _ _ => rfl) failed m).trans hhf
  · exact (foldl_invalidate_invalidBlocks failed m).2 (Or.inl (List.mem_map_of_mem hit))
  · rw [abandonSwitch, hlookup, if_pos (List.mem_map_of_mem hit)]
  · grind [abandonSwitch]

section
variable {pre post : Chain} {front : AltIterator} {rest done failed : List AltIterator}

/-- **A failed switch restores the chain exactly if every block it had popped passes again** under the version of its
height. -/
theorem failed_switch_restores_iff (hs : t.Scheduled) (hreturn : ∀ v, Base.Returnable (rules.base v)) (hn : n.Coherent)
    (hchain : n.base.chain = pre ++ post) (hne : pre ≠ []) (htail : (Base.ofChain pre).tailId = front.info.block.prevId)
    (hpost : ∀ e ∈ post, e.block.id ≠ front.info.block.prevId)
    (hvalid : ∀ it ∈ front :: rest, n.base.alternatives.lookup it.info.block.id = some it.info)
    (hdistinct : ((front :: rest).map (·.info.block.id)).Nodup) (hits : front :: rest = done ++ failed) (hfailed : failed ≠ [])
    (hrefused : (connectAll rules (·.info.block) (popUntil rules front.info.block.prevId n.base.chain.length n).1
      (front :: rest)).2 = failed) (push : Node t → Block → Node t × Except DbError Bool) (discard : Bool) :
    Restored n done failed (switchToAlternative rules push n (front :: rest) discard) ↔
      ∀ j e, post[j]? = some e → Reconnects rules t (pre ++ post.take j) e := by
  obtain ⟨popped, pool, hswitch, hpop, hpool, -⟩ := switchToAlternative_eq rules push discard hchain hne rest htail hpost
  obtain rfl := hpool (hreturn _)
  rw [popUntil_logSwitch] at hpop
  obtain ⟨stored, pool', invalid', -, rest', hconnect, -, -, -, -, hback⟩ :=
    connectAll_spec rules (fun it : AltIterator => it.info.block) (front :: rest)
      ((n.logSwitch discard).set pre popped (returned n.base.pool post) n.base.invalidBlocks n.forks)
  obtain rfl : rest' = failed := by
    have hlog := @connectAll_logSwitch t rules _ (fun it : AltIterator => it.info.block) (front :: rest)
      (popUntil rules front.info.block.prevId n.base.chain.length n).1 discard
    rw [show (popUntil rules front.info.block.prevId n.base.chain.length n).1.logSwitch discard = _ from hpop, hconnect] at hlog
    exact (congrArg Prod.snd hlog).trans hrefused
  replace hback := hback (Keyed.returned hn.keyed post) hreturn
  have hdemands : t.DemandsFrom 0 ((pre ++ post).map (·.block)) := by
    rw [← hchain]
    exact hn.demands
  have hpre : t.DemandsFrom 0 (pre.map (·.block)) := by grind [ForkTable.demandsFrom_append]
  have hstored : Stored post := by
    have hall := hn.stored
    rw [hchain] at hall
    exact hall.append.2
  obtain ⟨hle, hrec⟩ := addAll_le hs n.forks pre.length (stored.map (·.block))
  -- the state when the alternative block is refused, and the one in which the old blocks are connected again
  let mid := (n.logSwitch discard).set (pre ++ stored) popped pool' invalid'
    (n.forks.addAll pre.length (stored.map (·.block)))
  obtain ⟨popped', forks, hroll, htrack⟩ := rollback_eq (m := mid) rules hs hreturn hne rfl hpre
    (fun i hi => (hrec i hi).trans (hn.recorded i (by rw [hchain, length_append]; omega)))
    (le_trans (by
      rw [hn.hardFork]
      exact ForkTable.idealIndex_mono (by simp [blocks, hchain])) hle) (post.map (·.block))
  let low := mid.set pre popped' (returned pool' stored) invalid' forks
  have hsupplies : ∀ e ∈ post, Supplies low.base.pool e := by
    intro e he
    show Supplies (returned pool' stored) e
    rw [hback]
    exact supplies_returned hstored _ he
  obtain ⟨hiff, hrest⟩ := reconnect_restores_iff (m := low) rules hs hne hdemands htrack hstored hsupplies
  have hresult : switchToAlternative rules push n (front :: rest) discard =
      abandonSwitch rest' (reconnect rules low (post.map (·.block)) low.base.chain.length) := by
    rw [hswitch, connectAlternative, hconnect]
    cases rest' with
    | nil => exact absurd rfl hfailed
    | cons it later => exact congrArg (abandonSwitch (it :: later)) hroll
  rw [hresult, ← show low.base.chain = pre from rfl, ← hiff]
  constructor
  · intro h
    rw [← abandonSwitch_chain, h.chain, hchain]
    rfl
  · intro h
    obtain ⟨hok, hhf⟩ := hrest h
    obtain ⟨stored', pool'', invalid'', forks'', -, -, heq, -⟩ := reconnect_spec rules low (post.map (·.block))
      low.base.chain.length
    refine abandonSwitch_restored hok (h.trans hchain.symm) ?_ (by rw [heq]; rfl) (fun it hit => hvalid it ?_) (hits ▸ hdistinct)
    · rw [hhf, hn.hardFork, blocks, hchain]
      rfl
    · rw [hits]
      exact mem_append_left _ hit

end

section Example

def laterBlocks : List Block :=
  [timedBlock 13 12 0 (Env.plainKey 12) 3, timedBlock 21 1 0 (Env.plainKey 1) 1, timedBlock 22 1 0 (Env.plainKey 21) 2,
    timedBlock 23 12 5000 (Env.plainKey 22) 3]

/-- A block of height 1 came in under version 12. The rollback of a failed switch judges it under version 1: of four
blocks only the first one is left. -/
theorem rollback_loses_chain :
    let n := earlyNode (earlyBlocks ++ laterBlocks)
    let r := n.addNewBlock (clockRules 1000) 2 (timedBlock 24 12 0 (Env.plainKey 23) 4)
    n.blocks.map (·.id) = [Env.plainKey 1, Env.plainKey 11, Env.plainKey 12, Env.plainKey 13] ∧
    r.2 = .ok false ∧ r.1.blocks.map (·.id) = [Env.plainKey 1] := by
  decide +kernel

def sideNode : Node earlyForks :=
  (earlyNode [timedBlock 1 1 0 default 0, timedBlock 2 1 0 (Env.plainKey 1) 1, timedBlock 11 1 0 (Env.plainKey 1) 1]).insertAlternative
    (clockRules 1000) ⟨timedBlock 12 1 5000 (Env.plainKey 11) 2, 2, 3⟩

def sideChain : List AltIterator :=
  [⟨⟨timedBlock 11 1 0 (Env.plainKey 1) 1, 1, 2⟩, 0⟩, ⟨⟨timedBlock 12 1 5000 (Env.plainKey 11) 2, 2, 3⟩, 0⟩]

theorem sideChain_restored : sideNode.blocks.map (·.id) = [Env.plainKey 1, Env.plainKey 2] ∧
    Restored sideNode (sideChain.take 1) (sideChain.drop 1)
      (switchToAlternative (clockRules 1000) (handleAlternativeBlock (clockRules 1000) 2) sideNode sideChain false) := by
  have hpost : sideNode.base.chain.drop 1 = [⟨timedBlock 2 1 0 (Env.plainKey 1) 1, [], 2⟩] := by decide +kernel
  have hcoherent : sideNode.Coherent := by
    refine ⟨by decide +kernel, ?_, by decide +kernel, fun id tx h => ?_, by decide +kernel, by decide +kernel⟩
    · unfold ForkState.RecordedTo
      decide +kernel
    · rw [show sideNode.base.pool = ∅ by decide +kernel] at h
      cases h
  refine ⟨by decide +kernel, (failed_switch_restores_iff (by decide) (fun _ _ _ _ => rfl) hcoherent
    (take_append_drop 1 _).symm (by decide +kernel) (by decide +kernel) (by decide +kernel) (by decide +kernel)
    (by decide +kernel) (take_append_drop 1 sideChain).symm (by decide +kernel) (by decide +kernel) _ false).2 ?_⟩
  rw [hpost]
  rintro (_ | j) e he
  · cases he
    decide +kernel
  · cases he

end Example

end Node

end Electronero
