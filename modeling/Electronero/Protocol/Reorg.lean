import Electronero.Core.Blockchain
import Electronero.Protocol.Rescan
/-!
# Reorganisations that move no token transaction

`Keeps` is what stays in place as long as no marked transaction takes part; one lemma for each function of
`Core.Blockchain`.
-/
namespace Electronero
open Text FiniteMap List

section Marked
variable (p : Transaction → Bool)

def markedVisits (chain : Chain) : List Visit := (visits 0 chain).filter (p ·.2)

def StoredBlock.Free (e : StoredBlock) : Prop := p e.block.minerTx = false ∧ ∀ tx ∈ e.txs, p tx = false

variable {p}

theorem markedVisits_snoc (chain : Chain) (e : StoredBlock) : markedVisits p (chain ++ [e]) =
      markedVisits p chain ++ (blockVisits (UInt64.ofNat chain.length) e).filter (p ·.2) := by
  unfold markedVisits
  rw [visits_append, filter_append, Nat.zero_add]
  simp [visits]

variable {e : StoredBlock}

theorem StoredBlock.Free.blockVisits (h : e.Free p) (height : UInt64) : (blockVisits height e).filter (p ·.2) = [] := by
  rw [filter_eq_nil_iff]
  intro v hv
  unfold Electronero.blockVisits at hv
  obtain ⟨tx, htx, rfl⟩ := List.mem_map.1 hv
  have hfree : p tx = false := by
    rcases mem_cons.1 htx with rfl | htx
    · exact h.1
    · rcases mem_append.1 htx with htx | htx
      · exact h.2 tx (mem_of_mem_filter htx)
      · exact h.2 tx (mem_of_mem_filter htx)
  simp [hfree]

theorem markedVisits_snoc_free {chain : Chain} (h : e.Free p) :
    markedVisits p (chain ++ [e]) = markedVisits p chain := by
  rw [markedVisits_snoc, h.blockVisits, append_nil]

end Marked

namespace Base

structure Clean (p : Transaction → Bool) (b : Base) : Prop where
  keyed : ∀ id tx, b.pool.lookup id = some tx → tx.id = id
  pool : ∀ id tx, b.pool.lookup id = some tx → p tx = false
  alternatives : ∀ id e, b.alternatives.lookup id = some e → p e.block.minerTx = false

/-- Under the side condition `h`, and if no block with a marked transaction has been popped. -/
structure Keeps (p : Transaction → Bool) (h : Prop) (b b' : Base) : Prop where
  popped : b.popped <+: b'.popped
  kept : h → (∀ e ∈ b'.popped, e.Free p) → b.Clean p → b'.Clean p ∧ markedVisits p b'.chain = markedVisits p b.chain

variable {p : Transaction → Bool} {rules : BaseRules}

theorem Keeps.refl (h : Prop) (b : Base) : Keeps p h b b := ⟨prefix_refl _, fun _ _ hc => ⟨hc, rfl⟩⟩

variable {h h' : Prop} {b b₂ b' : Base} {e : StoredBlock} {bl : Block} {txs txs' : List Transaction} {ids : List Hash}
  {push : Base → Block → Base}

theorem Keeps.trans {b₁ : Base} (k : Keeps p h b b₁) (k' : Keeps p h' b₁ b₂)
    (himp : h → (∀ e ∈ b₂.popped, e.Free p) → b.Clean p → h') : Keeps p h b b₂ := by
  refine ⟨k.popped.trans k'.popped, fun hh hfree hc => ?_⟩
  have hfree₁ : ∀ e ∈ b₁.popped, e.Free p := fun e he => hfree e (k'.popped.subset he)
  obtain ⟨hc₁, hm₁⟩ := k.kept hh hfree₁ hc
  obtain ⟨hc₂, hm₂⟩ := k'.kept (himp hh hfree hc) hfree hc₁
  exact ⟨hc₂, hm₂.trans hm₁⟩

theorem Keeps.weaken (k : Keeps p h b b') (himp : h' → h) : Keeps p h' b b' :=
  ⟨k.popped, fun hh => k.kept (himp hh)⟩

theorem Keeps.of_fewer (hchain : b'.chain = b.chain) (hpool : b'.pool = b.pool) (hpopped : b'.popped = b.popped)
    (halt : ∀ id e, b'.alternatives.lookup id = some e → b.alternatives.lookup id = some e) : Keeps p h b b' := by
  refine ⟨hpopped ▸ prefix_refl _, fun _ _ hc => ⟨⟨?_, ?_, ?_⟩, by rw [hchain]⟩⟩
  · rw [hpool]
    exact hc.keyed
  · rw [hpool]
    exact hc.pool
  · intro id e he
    exact hc.alternatives id e (halt id e he)

theorem keeps_poolAdd (b : Base) (tx : Transaction) (kept : Bool) :
    Keeps p (p tx = false) b (b.poolAdd rules tx kept).1 := by
  unfold poolAdd
  dsimp only
  split
  · refine ⟨prefix_refl _, fun htx _ hc => ⟨⟨?_, ?_, hc.alternatives⟩, rfl⟩⟩
    · intro id tx' h
      rw [lookup_insert_ite] at h
      split at h
      · rename_i hid
        cases h
        exact hid.symm
      · exact hc.keyed id tx' h
    · intro id tx' h
      rw [lookup_insert_ite] at h
      split at h
      · cases h
        exact htx
      · exact hc.pool id tx' h
  · exact Keeps.refl _ _

theorem returnTxToPool_chain (txs : List Transaction) (b : Base) : (returnTxToPool rules b txs).chain = b.chain := by
  induction txs generalizing b with
  | nil => rfl
  | cons tx txs ih => exact (ih _).trans (b.poolAdd_chain rules tx true)

theorem keeps_returnTxToPool (txs : List Transaction) (b : Base) :
    Keeps p (∀ tx ∈ txs, p tx = false) b (returnTxToPool rules b txs) := by
  induction txs generalizing b with
  | nil => exact Keeps.refl _ _
  | cons tx txs ih =>
    have hhead : Keeps p (∀ t ∈ tx :: txs, p t = false) b (b.poolAdd rules tx true).1 :=
      (keeps_poolAdd b tx true).weaken fun h => h tx mem_cons_self
    exact hhead.trans (ih _) fun h _ _ t ht => h t (mem_cons_of_mem _ ht)

theorem popBlock_mem (h : b.popBlock rules = (b', some e)) : e ∈ b'.popped := by
  unfold popBlock at h
  split at h
  · cases h
  · cases h
    have hback := @keeps_returnTxToPool (fun _ => true) rules e.txs.reverse
      { b with chain := b.chain.dropLast, popped := b.popped ++ [e] }
    exact hback.popped.subset (mem_append_right _ mem_cons_self)

theorem keeps_popBlock (b : Base) : Keeps p True b (b.popBlock rules).1 := by
  unfold popBlock
  split
  · exact Keeps.refl _ _
  · rename_i e he
    have hchain : b.chain.dropLast ++ [e] = b.chain := dropLast_append_getLast? e he
    have hback := @keeps_returnTxToPool p rules e.txs.reverse
      { b with chain := b.chain.dropLast, popped := b.popped ++ [e] }
    refine ⟨(prefix_append _ _).trans hback.popped, fun _ hfree hc => ?_⟩
    have hefree : e.Free p := hfree e (hback.popped.subset (mem_append_right _ mem_cons_self))
    obtain ⟨hc', hm⟩ := hback.kept (fun tx htx => hefree.2 tx (mem_reverse.1 htx)) hfree ⟨hc.keyed, hc.pool, hc.alternatives⟩
    grind [markedVisits, markedVisits_snoc_free]

theorem takeTxs_spec {ok : Bool} (h : takeTxs rules bl b txs ids = (b', txs', ok)) :
    b'.chain = b.chain ∧ b'.alternatives = b.alternatives ∧ b'.popped = b.popped ∧
    (∀ id tx, b'.pool.lookup id = some tx → b.pool.lookup id = some tx) ∧
    (∀ tx ∈ txs', tx ∈ txs ∨ ∃ id, b.pool.lookup id = some tx) := by
  induction ids generalizing b txs with
  | nil =>
    cases h
    grind
  | cons id ids ih =>
    unfold takeTxs at h
    split at h
    · cases h
      exact ⟨rfl, rfl, rfl, fun _ _ h => h, fun _ h => Or.inl h⟩
    split at h
    · cases h
      exact ⟨rfl, rfl, rfl, fun _ _ h => h, fun _ h => Or.inl h⟩
    rename_i tx htx
    have hsnoc : ∀ t ∈ txs ++ [tx], t ∈ txs ∨ ∃ id, b.pool.lookup id = some t := by grind
    split at h
    · obtain ⟨h1, h2, h3, h4, h5⟩ := ih h
      refine ⟨h1, h2, h3, fun id' tx' h' => (lookup_of_lookup_erase (h4 id' tx' h')).2, fun t ht => ?_⟩
      rcases h5 t ht with ht | ⟨id', ht⟩
      · exact hsnoc t ht
      · exact Or.inr ⟨id', (lookup_of_lookup_erase ht).2⟩
    · grind [lookup_of_lookup_erase]

theorem handleBlockToMainChain_cases (h : (handleBlockToMainChain rules b bl).1 = b₂) :
    b₂ = b ∨ ∃ b' txs ok, takeTxs rules bl b [] bl.txHashes = (b', txs, ok) ∧
      (b₂ = returnTxToPool rules b' txs ∨
        ok = true ∧ ∃ difficulty, b₂ = { b' with chain := b'.chain ++ [⟨bl, txs, difficulty⟩] }) := by
  rcases htake : takeTxs rules bl b [] bl.txHashes with ⟨b', txs, ok⟩
  unfold handleBlockToMainChain at h
  rw [htake] at h
  dsimp only at h
  split at h
  · exact Or.inl h.symm
  split at h
  · exact Or.inl h.symm
  split at h
  · exact Or.inl h.symm
  split at h
  · exact Or.inl h.symm
  grind

theorem keeps_handleBlockToMainChain (b : Base) (bl : Block) :
    Keeps p (p bl.minerTx = false) b (handleBlockToMainChain rules b bl).1 := by
  obtain hsame | ⟨b', txs, ok, htake, hcases⟩ :=
    handleBlockToMainChain_cases (@rfl _ (handleBlockToMainChain rules b bl).1)
  · rw [hsame]
    exact Keeps.refl _ _
  obtain ⟨hchain, halt, hpopped, hpool, htxs⟩ := takeTxs_spec htake
  -- what was taken came out of a pool without marked transactions
  have hfreeTxs : b.Clean p → ∀ tx ∈ txs, p tx = false := by
    intro hc tx htx
    rcases htxs tx htx with htx | ⟨id, hid⟩
    · cases htx
    · exact hc.pool id tx hid
  have hclean : b.Clean p → b'.Clean p := by
    intro hc
    refine ⟨fun id tx h => hc.keyed id tx (hpool id tx h), fun id tx h => hc.pool id tx (hpool id tx h), ?_⟩
    rw [halt]
    exact hc.alternatives
  rcases hcases with hrefused | ⟨-, difficulty, hconnected⟩
  · have htaken : Keeps p (p bl.minerTx = false) b b' :=
      ⟨hpopped ▸ prefix_refl _, fun _ _ hc => ⟨hclean hc, by rw [hchain]⟩⟩
    rw [hrefused]
    exact htaken.trans (keeps_returnTxToPool txs b') fun _ _ hc => hfreeTxs hc
  · rw [hconnected]
    refine ⟨hpopped ▸ prefix_refl _, fun hminer _ hc => ⟨?_, ?_⟩⟩
    · exact ⟨(hclean hc).keyed, (hclean hc).pool, (hclean hc).alternatives⟩
    · dsimp only
      rw [markedVisits_snoc_free ⟨hminer, hfreeTxs hc⟩, hchain]

theorem keeps_popN (n : Nat) (b : Base) : Keeps p True b (popN rules n b) := by
  induction n generalizing b with
  | zero => exact Keeps.refl _ _
  | succ n ih => exact (keeps_popBlock b).trans (ih _) fun _ _ _ => trivial

theorem keeps_connectAll (bls : List Block) (b : Base) :
    Keeps p (∀ bl ∈ bls, p bl.minerTx = false) b (connectAll rules b bls).1 := by
  induction bls generalizing b with
  | nil => exact Keeps.refl _ _
  | cons bl bls ih =>
    have hhead : Keeps p (∀ x ∈ bl :: bls, p x.minerTx = false) b (handleBlockToMainChain rules b bl).1 :=
      (keeps_handleBlockToMainChain b bl).weaken fun h => h bl mem_cons_self
    unfold connectAll
    split
    · rename_i b' hb
      rw [hb] at hhead
      exact hhead.trans (ih b') fun h _ _ x hx => h x (mem_cons_of_mem _ hx)
    · grind

theorem keeps_rollback (b : Base) (original : List Block) (height : Nat) :
    Keeps p (∀ bl ∈ original, p bl.minerTx = false) b (rollback rules b original height).1 := by
  unfold rollback
  split
  · exact Keeps.refl _ _
  · exact ((keeps_popN _ b).weaken fun _ => trivial).trans (keeps_connectAll original _) fun h _ _ => h

theorem keeps_popUntil (id : Hash) (n : Nat) (b : Base) : Keeps p True b (popUntil rules id n b).1 := by
  induction n generalizing b with
  | zero => exact Keeps.refl _ _
  | succ n ih =>
    have hpop := @keeps_popBlock p rules b
    unfold popUntil
    split
    · exact Keeps.refl _ _
    split
    · rename_i b' hb
      rw [hb] at hpop
      exact hpop
    · rename_i b' e hb
      rw [hb] at hpop
      exact hpop.trans (ih b') fun _ _ _ => trivial

theorem popUntil_mem (id : Hash) (n : Nat) (b : Base) :
    ∀ bl ∈ (popUntil rules id n b).2, ∃ e ∈ (popUntil rules id n b).1.popped, e.block = bl := by
  induction n generalizing b with
  | zero => exact fun _ h => nomatch h
  | succ n ih =>
    unfold popUntil
    split
    · exact fun _ h => nomatch h
    split
    · exact fun _ h => nomatch h
    · rename_i b' e hb
      intro bl hbl
      rcases mem_append.1 hbl with hbl | hbl
      · exact ih b' bl hbl
      · obtain rfl := mem_singleton.1 hbl
        exact ⟨e, (@keeps_popUntil (fun _ => true) rules id n b').popped.subset (popBlock_mem hb), rfl⟩

theorem lookup_of_lookup_foldl_erase {β : Type} (key : β → Hash) (xs : List β) (m : UMap Hash BlockExtendedInfo)
    {id : Hash} {e : BlockExtendedInfo} (h : (xs.foldl (fun m x => m.erase (key x)) m).lookup id = some e) :
    m.lookup id = some e := by
  induction xs generalizing m with
  | nil => exact h
  | cons x xs ih => grind [lookup_of_lookup_erase]

theorem keeps_foldl_push (hpush : ∀ b bl, Keeps p (p bl.minerTx = false) b (push b bl)) (bls : List Block) (b : Base) :
    Keeps p (∀ bl ∈ bls, p bl.minerTx = false) b (bls.foldl push b) := by
  induction bls generalizing b with
  | nil => exact Keeps.refl _ _
  | cons bl bls ih =>
    have hhead : Keeps p (∀ x ∈ bl :: bls, p x.minerTx = false) b (push b bl) :=
      (hpush b bl).weaken fun h => h bl mem_cons_self
    exact hhead.trans (ih _) fun h _ _ x hx => h x (mem_cons_of_mem _ hx)

theorem keeps_switchToAlternative
    (hpush : ∀ b bl, Keeps p (p bl.minerTx = false) b (push b bl)) (b : Base) (altChain : List BlockExtendedInfo)
    (discard : Bool) : Keeps p (∀ e ∈ altChain, p e.block.minerTx = false) b
      (switchToAlternative rules push b altChain discard).1 := by
  unfold switchToAlternative
  split
  · exact Keeps.refl _ _
  rename_i front rest
  split
  · exact Keeps.refl _ _
  dsimp only
  have hmem := @popUntil_mem rules front.block.prevId b.chain.length b
  have hpops := @keeps_popUntil p rules front.block.prevId b.chain.length b
  generalize popUntil rules front.block.prevId b.chain.length b = r at hmem hpops
  have hconn : Keeps p (∀ e ∈ front :: rest, p e.block.minerTx = false) b
      (connectAll rules r.1 ((front :: rest).map (·.block))).1 := by
    refine (hpops.weaken fun _ => trivial).trans (keeps_connectAll _ r.1) fun h _ _ bl hbl => ?_
    grind
  have hgrow := (@keeps_connectAll p rules ((front :: rest).map (·.block)) r.1).popped
  generalize connectAll rules r.1 ((front :: rest).map (·.block)) = c at hconn hgrow
  -- a block the switch has popped is free, its miner transaction included
  have hold : ∀ {b₂ : Base}, c.1.popped <+: b₂.popped → (∀ e ∈ b₂.popped, e.Free p) →
      ∀ bl ∈ r.2, p bl.minerTx = false := by
    intro b₂ hpre hfree bl hbl
    obtain ⟨e, he, rfl⟩ := hmem bl hbl
    exact (hfree e (hpre.subset (hgrow.subset he))).1
  split
  · have hroll := @keeps_rollback p rules c.1 r.2 r.1.chain.length
    have hback := hconn.trans hroll fun _ hfree _ => hold hroll.popped hfree
    refine hback.trans (Keeps.of_fewer rfl rfl rfl fun id e he => ?_) fun _ _ _ => trivial
    exact lookup_of_lookup_foldl_erase (fun x : Block => x.id) c.2 _ he
  · have hend : Keeps p (∀ e ∈ front :: rest, p e.block.minerTx = false) b
        (if discard then c.1 else r.2.foldl push c.1) := by
      split
      · exact hconn
      · have hback := keeps_foldl_push hpush r.2 c.1
        exact hconn.trans hback fun _ hfree _ => hold hback.popped hfree
    generalize (if discard then c.1 else r.2.foldl push c.1) = last at hend
    refine hend.trans (Keeps.of_fewer rfl rfl rfl fun id e he => ?_) fun _ _ _ => trivial
    exact lookup_of_lookup_foldl_erase (fun x : BlockExtendedInfo => x.block.id) (front :: rest) last.alternatives he

theorem altChainTo_mem (alternatives : UMap Hash BlockExtendedInfo) (n : Nat) (id : Hash) :
    ∀ e ∈ altChainTo alternatives n id, ∃ id', alternatives.lookup id' = some e := by
  induction n generalizing id with
  | zero => exact fun _ h => nomatch h
  | succ n ih => grind [altChainTo]

theorem extendedInfo_block (b : Base) (altChain : List BlockExtendedInfo) (bl : Block) (difficulty : Nat) :
    (b.extendedInfo altChain bl difficulty).block = bl := by
  unfold extendedInfo
  split <;> rfl

theorem keeps_insertAlternative (b : Base) (bl : Block) (bei : BlockExtendedInfo) (hbei : bei.block = bl) :
    Keeps p (p bl.minerTx = false) b { b with alternatives := b.alternatives.insert bl.id bei } := by
  refine ⟨prefix_refl _, fun hminer _ hc => ⟨⟨hc.keyed, hc.pool, fun id e h => ?_⟩, rfl⟩⟩
  rw [lookup_insert_ite] at h
  split at h
  · cases h
    rwa [hbei]
  · exact hc.alternatives id e h

theorem keeps_handleAlternativeBlock (depth : Nat) (b : Base) (bl : Block) :
    Keeps p (p bl.minerTx = false) b (handleAlternativeBlock rules depth b bl).1 := by
  induction depth generalizing b bl with
  | zero => exact Keeps.refl _ _
  | succ depth ih =>
    unfold handleAlternativeBlock
    split
    · exact Keeps.refl _ _
    split
    · exact Keeps.refl _ _
    dsimp only
    have hmem := altChainTo_mem b.alternatives b.alternatives.keys.card bl.prevId
    generalize altChainTo b.alternatives b.alternatives.keys.card bl.prevId = altChain at hmem
    split
    · exact Keeps.refl _ _
    split
    · exact Keeps.refl _ _
    have hbei := extendedInfo_block b altChain bl (rules.alternativeDifficulty b.chain altChain bl)
    generalize b.extendedInfo altChain bl (rules.alternativeDifficulty b.chain altChain bl) = bei at hbei
    split
    · exact Keeps.refl _ _
    rename_i isCheckpoint _
    split
    · exact Keeps.refl _ _
    split
    · exact Keeps.refl _ _
    split
    · exact Keeps.refl _ _
    have hkept := @keeps_insertAlternative p b bl bei hbei
    have hswitch : ∀ discard, Keeps p (p bl.minerTx = false) b
        (switchToAlternative rules (fun b bl => (handleAlternativeBlock rules depth b bl).1)
          { b with alternatives := b.alternatives.insert bl.id bei } (altChain ++ [bei]) discard).1 := by
      intro discard
      refine hkept.trans (keeps_switchToAlternative ih _ _ discard) fun hminer _ hc e he => ?_
      rcases mem_append.1 he with he | he
      · obtain ⟨id, hid⟩ := hmem e he
        exact hc.alternatives id e hid
      · grind
    grind

theorem keeps_addNewBlock (depth : Nat) (b : Base) (bl : Block) :
    Keeps p (p bl.minerTx = false) b (addNewBlock rules depth b bl).1 := by
  unfold addNewBlock
  grind [Keeps.refl, keeps_handleAlternativeBlock, keeps_handleBlockToMainChain]

theorem takeTxs_taken (hkeyed : ∀ id tx, b.pool.lookup id = some tx → tx.id = id)
    (h : takeTxs rules bl b txs ids = (b', txs', true)) :
    ∃ taken : List Transaction, txs' = txs ++ taken ∧ taken.map (·.id) = ids ∧ ids.Nodup ∧
      (∀ tx ∈ taken, b.pool.lookup tx.id = some tx) ∧ ∀ id ∈ ids, b'.pool.lookup id = none := by
  induction ids generalizing b txs with
  | nil =>
    cases h
    simp_all
  | cons id ids ih =>
    unfold takeTxs at h
    split at h
    · cases h
    split at h
    · cases h
    rename_i tx htx
    split at h
    case isFalse => cases h
    have hid : tx.id = id := hkeyed id tx htx
    obtain ⟨taken, rfl, hids, hnodup, hpool, hgone⟩ :=
      ih (fun id' tx' h' => hkeyed id' tx' (lookup_of_lookup_erase h').2) h
    obtain ⟨-, -, -, hless, -⟩ := takeTxs_spec h
    refine ⟨tx :: taken, by simp, by simp [hid, hids], nodup_cons.2 ⟨fun hmem => ?_, hnodup⟩, ?_, ?_⟩
    · -- an id that comes again is no longer in the pool
      grind [lookup_of_lookup_erase]
    · grind [lookup_of_lookup_erase]
    · intro id' hid'
      rcases mem_cons.1 hid' with rfl | hid'
      · rw [Option.eq_none_iff_forall_ne_some]
        grind [lookup_of_lookup_erase]
      · exact hgone id' hid'

theorem handleBlockToMainChain_grown (hkeyed : ∀ id tx, b.pool.lookup id = some tx → tx.id = id)
    (h : (handleBlockToMainChain rules b bl).1.chain = b.chain ++ [e]) :
    e.block = bl ∧ (e.txs.map (·.id)).Nodup ∧ (∀ tx ∈ e.txs, b.pool.lookup tx.id = some tx) ∧
      (handleBlockToMainChain rules b bl).1.alternatives = b.alternatives ∧
      (handleBlockToMainChain rules b bl).1.popped = b.popped ∧
      ∀ id tx, (handleBlockToMainChain rules b bl).1.pool.lookup id = some tx →
        b.pool.lookup id = some tx ∧ tx ∉ e.txs := by
  have hstay : b.chain ≠ b.chain ++ [e] := by simp
  obtain hsame | ⟨b', txs, ok, htake, hcases⟩ :=
    handleBlockToMainChain_cases (@rfl _ (handleBlockToMainChain rules b bl).1)
  · rw [hsame] at h
    exact absurd h hstay
  obtain ⟨hchain, halt, hpopped, hless, -⟩ := takeTxs_spec htake
  rcases hcases with hrefused | ⟨rfl, difficulty, hconnected⟩
  · grind [returnTxToPool_chain]
  rw [hconnected] at h ⊢
  obtain ⟨taken, htaken, hids, hnodup, hpool, hgone⟩ := takeTxs_taken hkeyed htake
  rw [nil_append] at htaken
  subst htaken
  dsimp only at h
  rw [hchain] at h
  obtain rfl := singleton_inj.1 (append_cancel_left h)
  grind

end Base

end Electronero
