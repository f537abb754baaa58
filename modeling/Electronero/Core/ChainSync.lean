import Electronero.Core.Versions
/-!
# Finding the fork with another node (`src/cryptonote_core/blockchain.cpp:784, 2264, 2444`)

Eleven heights in a row are sent, then ones further and further apart by powers of two, and the genesis block. So the
height that is found is at most twice as far from the top as the fork.
-/
namespace Electronero
open Text FiniteMap List

/-- A main chain as a database has it: it starts with a genesis block, the blocks name each other, and
there are fewer than any database could hold. -/
structure MainChain (ids : BlockIds) where
  blocks : List Block
  path : ids.Path blocks
  started : blocks ≠ []
  length_lt : blocks.length < 2 ^ 63

def hashFromHeight (blocks : List Block) (height : Nat) : Hash := ((blocks[height]?).map (·.id)).getD default

/-- The heights of the loop, and `genesis_included`. The offset grows in each iteration, so `sz` iterations are enough. -/
def historyLoop (sz : UInt64) : Nat → UInt64 → UInt64 → UInt64 → Bool → List UInt64 × Bool
  | 0, _, _, _, genesisIncluded => ([], genesisIncluded)
  | fuel + 1, i, currentMultiplier, currentBackOffset, genesisIncluded =>
    if currentBackOffset < sz then
      let included := genesisIncluded || sz - currentBackOffset == 0
      let r :=
        if i < 10 then historyLoop sz fuel (i + 1) currentMultiplier (currentBackOffset + 1) included
        else historyLoop sz fuel (i + 1) (currentMultiplier * 2) (currentBackOffset + currentMultiplier * 2) included
      ((sz - currentBackOffset) :: r.1, r.2)
    else ([], genesisIncluded)

def getShortChainHistory (blocks : List Block) : List Hash :=
  let sz := UInt64.ofNat blocks.length
  if sz = 0 then []
  else
    let r := historyLoop sz sz.toNat 0 1 1 false
    r.1.map (fun height => hashFromHeight blocks height.toNat) ++ if r.2 then [] else [hashFromHeight blocks 0]

def blockExists (blocks : List Block) (hash : Hash) : Option Nat := blocks.findIdx? (·.id == hash)

def findSplit (blocks : List Block) (qblockIds : List Hash) : Option Nat :=
  match qblockIds.getLast? with
  | none => none
  | some last => if last ≠ hashFromHeight blocks 0 then none else qblockIds.findSome? (blockExists blocks)

def blocksIdsSynchronizingDefaultCount : Nat := 10000

structure Supplement where
  hashes : List Hash
  startHeight : Nat
  currentHeight : Nat
deriving DecidableEq

def findBlockchainSupplement (blocks : List Block) (qblockIds : List Hash) : Option Supplement :=
  (findSplit blocks qblockIds).map fun startHeight =>
    { hashes := ((blocks.drop startHeight).take blocksIdsSynchronizingDefaultCount).map (·.id)
      startHeight := startHeight
      currentHeight := blocks.length }

structure StepWithin (multiplier offset : UInt64) : Prop where
  positive : 1 ≤ multiplier.toNat
  started : 1 ≤ offset.toNat
  bound : 2 * multiplier.toNat ≤ offset.toNat + 2

variable {m offset : UInt64} {sz : Nat}

theorem StepWithin.unit (h : StepWithin m offset) (hlt : offset.toNat < 2 ^ 63) :
    (offset + 1).toNat = offset.toNat + 1 ∧ StepWithin m (offset + 1) := by
  have hnext : (offset + 1).toNat = offset.toNat + 1 := by
    rw [UInt64.toNat_add, UInt64.toNat_one, Nat.mod_eq_of_lt (by omega)]
  refine ⟨hnext, h.positive, by omega, ?_⟩
  have := h.bound
  omega

theorem StepWithin.double (h : StepWithin m offset) (hlt : offset.toNat < 2 ^ 63) :
    (offset + m * 2).toNat = offset.toNat + 2 * m.toNat ∧ StepWithin (m * 2) (offset + m * 2) := by
  have hm := h.bound
  have hdouble : (m * 2).toNat = 2 * m.toNat := by
    rw [UInt64.toNat_mul, show (2 : UInt64).toNat = 2 from rfl, Nat.mul_comm, Nat.mod_eq_of_lt (by omega)]
  have hnext : (offset + m * 2).toNat = offset.toNat + 2 * m.toNat := by
    rw [UInt64.toNat_add, hdouble, Nat.mod_eq_of_lt (by omega)]
  have hpos := h.positive
  exact ⟨hnext, by omega, by omega, by omega⟩

structure Sampled (sz offset : Nat) (heights : List Nat) : Prop where
  decreasing : heights.Pairwise (· > ·)
  range : ∀ h ∈ heights, 1 ≤ h ∧ h + offset ≤ sz
  /-- the first listed height at or below a given one, the genesis block included -/
  landing : ∀ before f, offset ≤ 2 * (before + 1) → f + before < sz →
    ∃ s ∈ heights ++ [0], s ≤ f ∧ (∀ h ∈ heights, h ≤ f → h ≤ s) ∧ sz - s ≤ 2 * (sz - f)

theorem sampled_nil {offset : Nat} (h : sz ≤ offset) : Sampled sz offset [] where
  decreasing := List.Pairwise.nil
  range := by simp
  landing before f hbefore hf := ⟨0, by simp, Nat.zero_le _, by simp, by omega⟩

theorem Sampled.cons {sz offset next : Nat} {heights : List Nat} (h : Sampled sz next heights) (hlt : offset < sz)
    (hnext : offset < next) (hstep : next ≤ 2 * (offset + 1)) : Sampled sz offset ((sz - offset) :: heights) where
  decreasing := by
    refine pairwise_cons.2 ⟨fun k hk => ?_, h.decreasing⟩
    have := h.range k hk
    omega
  range := by
    intro k hk
    rcases mem_cons.1 hk with rfl | hk
    · omega
    · have := h.range k hk
      omega
  landing := by
    intro before f hbefore hf
    by_cases hhere : sz - offset ≤ f
    · refine ⟨sz - offset, by simp, hhere, fun k hk _ => ?_, by omega⟩
      rcases mem_cons.1 hk with rfl | hk
      · exact le_refl _
      · have := h.range k hk
        omega
    · obtain ⟨s, hs, hle, hgreatest, hbound⟩ := h.landing offset f hstep (by omega)
      refine ⟨s, mem_cons_of_mem _ hs, hle, fun k hk hkf => ?_, hbound⟩
      rcases mem_cons.1 hk with rfl | hk
      · exact absurd hkf hhere
      · exact hgreatest k hk hkf

theorem Sampled.withGenesis {offset : Nat} {heights : List Nat} (h : Sampled sz offset heights) (hoffset : 1 ≤ offset)
    (hsz : 0 < sz) : (heights ++ [0]).Pairwise (· > ·) ∧ ∀ k ∈ heights ++ [0], k < sz := by
  refine ⟨pairwise_append.2 ⟨h.decreasing, pairwise_singleton _ _, fun k hk j hj => ?_⟩, fun k hk => ?_⟩
  · rw [mem_singleton.1 hj]
    exact (h.range k hk).1
  · rcases mem_append.1 hk with hk | hk
    · have := h.range k hk
      omega
    · rwa [mem_singleton.1 hk]

theorem historyLoop_spec (sz : UInt64) (hsz : sz.toNat < 2 ^ 63) (fuel : Nat) (i m offset : UInt64)
    (h : StepWithin m offset) (hfuel : sz.toNat ≤ offset.toNat + fuel) :
    (historyLoop sz fuel i m offset false).2 = false ∧
      Sampled sz.toNat offset.toNat ((historyLoop sz fuel i m offset false).1.map (·.toNat)) := by
  induction fuel generalizing i m offset with
  | zero => exact ⟨rfl, sampled_nil (by omega)⟩
  | succ fuel ih =>
    by_cases hlt : offset < sz
    · have hlt' : offset.toNat < sz.toNat := UInt64.lt_iff_toNat_lt.1 hlt
      have hheight :=
        UInt64.toNat_sub_of_le _ _ (UInt64.le_of_lt hlt)
      have hzero : (sz - offset == 0) = false := by grind
      unfold historyLoop
      simp only [if_pos hlt, hzero, Bool.or_false, map_cons, hheight]
      split
      · obtain ⟨hnext, hwithin⟩ := h.unit (by omega)
        obtain ⟨hflag, hrest⟩ := ih (i + 1) m (offset + 1) hwithin (by omega)
        rw [hnext] at hrest
        exact ⟨hflag, hrest.cons hlt' (by omega) (by omega)⟩
      · obtain ⟨hnext, hwithin⟩ := h.double (by omega)
        have hpos := h.positive
        have hbound := h.bound
        obtain ⟨hflag, hrest⟩ := ih (i + 1) (m * 2) (offset + m * 2) hwithin (by omega)
        rw [hnext] at hrest
        exact ⟨hflag, hrest.cons hlt' (by omega) (by omega)⟩
    · have hle : sz.toNat ≤ offset.toNat := UInt64.le_iff_toNat_le.1 (UInt64.not_lt.1 hlt)
      grind [historyLoop, sampled_nil]

namespace MainChain
variable {ids : BlockIds} (X Y : MainChain ids)

theorem length_pos : 0 < X.blocks.length := length_pos_iff.2 X.started

theorem getShortChainHistory_spec : ∃ heights : List Nat, Sampled X.blocks.length 1 heights ∧
    getShortChainHistory X.blocks = (heights ++ [0]).map (hashFromHeight X.blocks) := by
  have hlt := X.length_lt
  have hpos := X.length_pos
  have hsz := UInt64.toNat_ofNat_of_lt' (hlt.trans (by decide))
  have hne : UInt64.ofNat X.blocks.length ≠ 0 := by
    rw [ne_eq, ← UInt64.toNat_inj, hsz, UInt64.toNat_zero]
    omega
  obtain ⟨hflag, hsampled⟩ := historyLoop_spec (UInt64.ofNat X.blocks.length) (by omega)
    (UInt64.ofNat X.blocks.length).toNat 0 1 1 ⟨by decide, by decide, by decide⟩ (by omega)
  rw [hsz, UInt64.toNat_one] at hsampled
  refine ⟨_, hsampled, ?_⟩
  unfold getShortChainHistory
  simp only [if_neg hne, hsz] at hflag ⊢
  rw [hflag, map_append, List.map_map]
  rfl

structure HighestCommon (f : Nat) : Prop where
  common : ∃ b, X.blocks[f]? = some b ∧ b ∈ Y.blocks
  highest : ∀ h b, X.blocks[h]? = some b → b ∈ Y.blocks → h ≤ f

variable {X Y}

variable {f h s : Nat} {heights : List Nat}

theorem HighestCommon.agree (hfork : HighestCommon X Y f) (hle : h ≤ f) : X.blocks[h]? = Y.blocks[h]? := by
  obtain ⟨b, hX, hmem⟩ := hfork.common
  obtain ⟨k, hY⟩ := mem_iff_getElem?.1 hmem
  obtain rfl : k = f := by
    have hdX := X.path.depth hX
    have hdY := Y.path.depth hY
    omega
  have htip : ∀ l : List Block, l[k]? = some b → ids.tip (l.take (k + 1)) = b.id := by
    intro l hl
    obtain ⟨hlt, -⟩ := List.getElem?_eq_some_iff.1 hl
    have hget : l[k] = b := by rwa [getElem?_eq_getElem hlt, Option.some.injEq] at hl
    rw [take_succ_eq_append_getElem hlt, hget, ids.tip_snoc]
  have htake :=
    (X.path.take (k + 1)).unique (Y.path.take (k + 1)) ((htip _ hX).trans (htip _ hY).symm)
  have hget := congrArg (·[h]?) htake
  grind

theorem HighestCommon.blockExists_eq (hfork : HighestCommon X Y f) (hlt : h < X.blocks.length) :
    blockExists Y.blocks (hashFromHeight X.blocks h) = if h ≤ f then some h else none := by
  have hX : X.blocks[h]? = some X.blocks[h] := getElem?_eq_getElem hlt
  have hhash : hashFromHeight X.blocks h = (X.blocks[h]).id := by rw [hashFromHeight, hX]; rfl
  rw [hhash]
  unfold blockExists
  by_cases hle : h ≤ f
  · rw [if_pos hle, findIdx?_eq_some_iff_getElem]
    have hY : Y.blocks[h]? = some X.blocks[h] := (hfork.agree hle).symm.trans hX
    obtain ⟨hltY, hget⟩ := List.getElem?_eq_some_iff.1 hY
    refine ⟨hltY, by rw [hget]; exact beq_self_eq_true _, fun j hj hsame => ?_⟩
    -- the hashes of the chain are different
    have hne := pairwise_iff_getElem.1 Y.path.pairwise j h (hj.trans hltY) hltY hj
    rw [hget] at hne
    exact hne (by simpa using hsame)
  · rw [if_neg hle, findIdx?_eq_none_iff]
    intro b hb
    rw [beq_eq_false_iff_ne]
    intro hsame
    have heq : b = X.blocks[h] := (Y.path.known hb).eq_of_id (X.path.known (getElem_mem hlt)) hsame
    exact hle (hfork.highest h _ hX (heq ▸ hb))

theorem findSome?_decreasing {g : Nat → Option Nat}
    (hdecreasing : heights.Pairwise (· > ·)) (hg : ∀ h ∈ heights, g h = if h ≤ f then some h else none)
    (hs : s ∈ heights) (hle : s ≤ f) (hgreatest : ∀ h ∈ heights, h ≤ f → h ≤ s) : heights.findSome? g = some s := by
  induction heights with
  | nil => cases hs
  | cons h rest ih =>
    obtain ⟨hbelow, hrest⟩ := pairwise_cons.1 hdecreasing
    have hh := hg h mem_cons_self
    by_cases hhf : h ≤ f
    · grind
    · grind

theorem HighestCommon.findSplit_eq (hfork : HighestCommon X Y f) (hgenesis : X.blocks[0]? = Y.blocks[0]?)
    (hdecreasing : heights.Pairwise (· > ·)) (hrange : ∀ h ∈ heights, h < X.blocks.length)
    (hlast : heights.getLast? = some 0) (hs : s ∈ heights) (hle : s ≤ f) (hgreatest : ∀ h ∈ heights, h ≤ f → h ≤ s) :
    findSplit Y.blocks (heights.map (hashFromHeight X.blocks)) = some s := by
  have hsame : (heights.map (hashFromHeight X.blocks)).getLast? = some (hashFromHeight Y.blocks 0) := by
    simp [hlast, hashFromHeight, hgenesis]
  have hfind : (heights.map (hashFromHeight X.blocks)).findSome? (blockExists Y.blocks) = some s := by
    rw [findSome?_map]
    exact findSome?_decreasing hdecreasing (fun h hmem => hfork.blockExists_eq (hrange h hmem)) hs hle hgreatest
  grind [findSplit]

/-- **Synchronisation finds the fork**, or a common block at most twice as far from the top. -/
theorem sync_finds_fork (X Y : MainChain ids) (hgenesis : X.blocks[0]? = Y.blocks[0]?) (f : Nat)
    (hfork : HighestCommon X Y f) : ∃ heights : List Nat,
      getShortChainHistory X.blocks = heights.map (hashFromHeight X.blocks) ∧
      (∀ h ∈ heights, h < X.blocks.length) ∧ heights.Pairwise (· > ·) ∧ heights.getLast? = some 0 ∧
      ∃ s ∈ heights, s ≤ f ∧ (∀ h ∈ heights, h ≤ f → h ≤ s) ∧
        findBlockchainSupplement Y.blocks (getShortChainHistory X.blocks) =
          some ⟨((Y.blocks.drop s).take blocksIdsSynchronizingDefaultCount).map (·.id), s, Y.blocks.length⟩ ∧
        (((Y.blocks.drop s).take blocksIdsSynchronizingDefaultCount).map (·.id)).head? = (X.blocks[s]?).map (·.id) ∧
        (X.blocks[s]?).isSome = true ∧ X.blocks[s]? = Y.blocks[s]? ∧
        X.blocks.length - s ≤ 2 * (X.blocks.length - f) := by
  obtain ⟨sampled, hsampled, hlist⟩ := X.getShortChainHistory_spec
  obtain ⟨top, htop, -⟩ := hfork.common
  have hpos := X.length_pos
  obtain ⟨hf, -⟩ := List.getElem?_eq_some_iff.1 htop
  obtain ⟨hdecreasing, hrange⟩ := hsampled.withGenesis (le_refl 1) hpos
  obtain ⟨s, hs, hle, hgreatest, hbound⟩ := hsampled.landing 0 f (by omega) (by omega)
  have hgreatest' : ∀ h ∈ sampled ++ [0], h ≤ f → h ≤ s := by grind
  refine ⟨sampled ++ [0], hlist, hrange, hdecreasing, by simp, s, hs, hle, hgreatest', ?_, ?_, ?_, hfork.agree hle, hbound⟩
  · have hsplit := hfork.findSplit_eq hgenesis hdecreasing hrange (by simp) hs hle hgreatest'
    grind [findBlockchainSupplement]
  · rw [head?_map, head?_take, if_neg (by decide), head?_drop, hfork.agree hle]
  · rw [getElem?_eq_getElem (hrange s hs)]
    rfl

section Example
open Node HashTree.Naming

theorem forkIds_known : ∀ b ∈ forkBlocks, forkIds.Known b := by
  unfold HashTree.Naming.Known
  decide +kernel

theorem genesis_path : forkIds.Path [genesis] :=
  path_snoc.2 ⟨path_nil, forkIds_known _ (by decide +kernel), rfl⟩

def shortBranch : MainChain forkIds where
  blocks := [genesis] ++ [plainBlock 2 1 (Env.plainKey 1) 1]
  path := path_snoc.2 ⟨genesis_path, forkIds_known _ (by decide +kernel), rfl⟩
  started := by simp
  length_lt := by decide

def longBranch : MainChain forkIds where
  blocks := [genesis] ++ [plainBlock 3 1 (Env.plainKey 1) 1] ++ [plainBlock 4 1 (Env.plainKey 3) 2]
  path := path_snoc.2 ⟨path_snoc.2 ⟨genesis_path, forkIds_known _ (by decide +kernel), rfl⟩,
    forkIds_known _ (by decide +kernel), rfl⟩
  started := by simp
  length_lt := by decide

theorem branches_fork : HighestCommon shortBranch longBranch 0 where
  common := ⟨genesis, rfl, by decide +kernel⟩
  highest h b hb hmem := by
    rcases h with _ | _ | h
    · exact le_refl _
    · obtain rfl := Option.some.inj hb
      exact absurd hmem (by decide +kernel)
    · cases hb

theorem sync_finds_fork_branches :
    findBlockchainSupplement longBranch.blocks (getShortChainHistory shortBranch.blocks) =
      some ⟨[Env.plainKey 1, Env.plainKey 3, Env.plainKey 4], 0, 3⟩ := by
  obtain ⟨heights, -, -, -, -, s, -, hle, -, hanswer, -⟩ := sync_finds_fork shortBranch longBranch rfl 0 branches_fork
  obtain rfl := Nat.le_zero.1 hle
  exact hanswer

end Example

end MainChain

end Electronero
