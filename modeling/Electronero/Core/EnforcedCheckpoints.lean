import Electronero.Core.Checkpoints
/-!
# Enforcing checkpoints (`check_against_checkpoints`, src/cryptonote_core/blockchain.cpp:4020-4052)

At a block that fails the loop rolls back to `pt.first - 2`, an unsigned difference: at height 1 it wraps around and
nothing is cut, at height 2 the genesis block goes too.
-/
namespace Electronero
open Text FiniteMap Machine List

def Contradicts (chain : Chain) (p : Nat × Hash) : Prop := ∃ e, chain[p.1]? = some e ∧ e.block.id ≠ p.2

instance (chain : Chain) (p : Nat × Hash) : Decidable (Contradicts chain p) :=
  match h : chain[p.1]? with
  | none => isFalse fun ⟨_, he, _⟩ => by rw [h] at he; cases he
  | some e =>
    if hid : e.block.id ≠ p.2 then isTrue ⟨e, h, hid⟩
    else isFalse fun ⟨_, he, hne⟩ => hid (Option.some.inj (h.symm.trans he) ▸ hne)

def rollbackHeight (height : Nat) : Nat := (UInt64.ofNat height - 2).toNat

namespace Node
variable {t : ForkTable} (rules : NodeRules) (cps : Checkpoints)

def checkpointPass (enforce : Bool) (n : Node t) (p : Nat × Hash) : Node t × Except DbError Unit :=
  match n.base.chain[p.1]? with
  -- the checkpoint is for a block we don't have yet
  | none => (n, .ok ())
  | some e =>
    if (cps.checkBlock p.1 e.block.id).isSome then (n, .ok ())
    else if enforce then
      match rollback rules n [] (rollbackHeight p.1) with
      | (n, .error e) => (n, .error e)
      | (n, .ok _) => (n, .ok ())
    else (n, .ok ())

def checkpointLoop (enforce : Bool) : Node t → List (Nat × Hash) → Node t × Except DbError Unit
  | n, [] => (n, .ok ())
  | n, p :: rest =>
    match checkpointPass rules cps enforce n p with
    | (n, .ok _) => checkpointLoop enforce n rest
    | (n, .error e) => (n, .error e)

def checkAgainstCheckpoints (n : Node t) (enforce : Bool) : Node t × Except DbError Unit :=
  checkpointLoop rules cps enforce n cps.points

end Node

def cutAt (chain : Chain) (p : Nat × Hash) : Chain :=
  if Contradicts chain p then chain.take (rollbackHeight p.1) else chain

def cutBack (points : List (Nat × Hash)) (chain : Chain) : Chain := points.foldl cutAt chain

variable {chain : Chain} {p : Nat × Hash} {k : Nat} {points : List (Nat × Hash)}

theorem Contradicts.lt_length (h : Contradicts chain p) : p.1 < chain.length := by
  obtain ⟨e, he, -⟩ := h
  exact (List.getElem?_eq_some_iff.1 he).1

theorem contradicts_take_iff : Contradicts (chain.take k) p ↔ p.1 < k ∧ Contradicts chain p := by
  unfold Contradicts
  grind

theorem rollbackHeight_of_le {height : Nat} (hlow : 2 ≤ height) (hhigh : height < 2 ^ 64) :
    rollbackHeight height = height - 2 := by
  have hle : (2 : UInt64) ≤ UInt64.ofNat height := by
    rw [UInt64.le_iff_toNat_le, UInt64.toNat_ofNat_of_lt' hhigh]
    exact hlow
  unfold rollbackHeight
  rw [UInt64.toNat_sub_of_le _ _ hle, UInt64.toNat_ofNat_of_lt' hhigh]
  rfl

theorem rollbackHeight_one : rollbackHeight 1 = 2 ^ 64 - 1 := by decide

theorem cutBack_of_agreeing (h : ∀ p ∈ points, ¬ Contradicts chain p) : cutBack points chain = chain := by
  induction points with
  | nil => rfl
  | cons p rest ih => grind [cutAt, cutBack]

theorem cutBack_eq (hsorted : points.Pairwise fun p q => p.1 < q.1)
    (hpos : ∀ p ∈ points, 1 ≤ p.1) (hlen : chain.length < 2 ^ 64) : cutBack points chain =
      match points.find? fun p => decide (2 ≤ p.1 ∧ Contradicts chain p) with
      | none => chain
      | some p => chain.take (p.1 - 2) := by
  induction points with
  | nil => rfl
  | cons p rest ih =>
    obtain ⟨hfirst, hrest⟩ := pairwise_cons.1 hsorted
    have ih := ih hrest fun q hq => hpos q (mem_cons_of_mem _ hq)
    have hstep : cutBack (p :: rest) chain = cutBack rest (cutAt chain p) := rfl
    by_cases hcut : 2 ≤ p.1 ∧ Contradicts chain p
    · -- every later checkpoint is beyond the end of what is left
      have hheight := rollbackHeight_of_le hcut.1 (hcut.2.lt_length.trans hlen)
      grind [cutAt, cutBack_of_agreeing, contradicts_take_iff]
    · rw [hstep, find?_cons_of_neg (by simpa using hcut)]
      have hp : cutAt chain p = chain := by
        unfold cutAt
        split
        · rename_i hcontra
          have hone : p.1 = 1 := by grind
          rw [hone, rollbackHeight_one]
          exact take_of_length_le (by omega)
        · rfl
      rw [hp, ih]

theorem le_of_find? (hsorted : points.Pairwise fun p q => p.1 < q.1)
    {P : Nat × Hash → Bool} {q : Nat × Hash} (hfind : points.find? P = some p) (hq : q ∈ points) (hP : P q = true) :
    p.1 ≤ q.1 := by
  obtain ⟨-, init, tail, rfl, hinit⟩ := find?_eq_some_iff_append.1 hfind
  rcases mem_append.1 hq with hmem | hmem
  · exact absurd hP (by simpa using hinit q hmem)
  · rcases mem_cons.1 hmem with rfl | hmem
    · exact le_refl _
    · exact ((pairwise_cons.1 (pairwise_append.1 hsorted).2.1).1 q hmem).le

theorem head?_take_iff (hne : chain ≠ []) (hk : 2 ≤ k) : (chain.take (k - 2)).head? = chain.head? ↔ k ≠ 2 := by
  rw [head?_take]
  split
  · rename_i hzero
    refine iff_of_false (fun h => hne (head?_eq_none_iff.1 h.symm)) ?_
    omega
  · refine iff_of_true rfl ?_
    omega

theorem cut_enforced_iff {cut : Nat × Hash}
    (hpos : ∀ p ∈ points, 1 ≤ p.1) (hne : chain ≠ []) (hmem : cut ∈ points) (hhigh : 2 ≤ cut.1)
    (hcut : Contradicts chain cut) (hleast : ∀ q ∈ points, 2 ≤ q.1 → Contradicts chain q → cut.1 ≤ q.1) :
    ((∀ p ∈ points, ¬ Contradicts (chain.take (cut.1 - 2)) p) ∧ (chain.take (cut.1 - 2)).head? = chain.head?) ↔
      ∀ p ∈ points, Contradicts chain p →
        p.1 ≠ 2 ∧ (p.1 = 1 → ∃ q ∈ points, q.1 = 3 ∧ Contradicts chain q) := by
  rw [head?_take_iff hne hhigh]
  simp only [contradicts_take_iff]
  constructor
  · grind
  · intro h
    grind

theorem cutBack_enforced_iff
    (hsorted : points.Pairwise fun p q => p.1 < q.1) (hpos : ∀ p ∈ points, 1 ≤ p.1) (hlen : chain.length < 2 ^ 64)
    (hne : chain ≠ []) :
    ((∀ p ∈ points, ¬ Contradicts (cutBack points chain) p) ∧ (cutBack points chain).head? = chain.head?) ↔
      ∀ p ∈ points, Contradicts chain p →
        p.1 ≠ 2 ∧ (p.1 = 1 → ∃ q ∈ points, q.1 = 3 ∧ Contradicts chain q) := by
  rw [cutBack_eq hsorted hpos hlen]
  cases hfind : points.find? fun p => decide (2 ≤ p.1 ∧ Contradicts chain p) with
  | none => grind
  | some cut =>
    have hcut : 2 ≤ cut.1 ∧ Contradicts chain cut := by simpa using find?_some hfind
    exact cut_enforced_iff hpos hne (mem_of_find?_eq_some hfind) hcut.1 hcut.2 fun q hq hle hcontra =>
      le_of_find? hsorted hfind hq (by simpa using ⟨hle, hcontra⟩)

namespace Node
variable {t : ForkTable} {rules : NodeRules} {cps : Checkpoints} {n m : Node t}

theorem rollback_nil_chain (rules : NodeRules) (n : Node t) (height : Nat) :
    (rollback rules n [] height).1.base.chain = n.base.chain.take height := by
  by_cases hle : height ≤ n.base.chain.length
  · have hlen := length_take_of_le hle
    obtain ⟨stored, popped, pool, invalid, forks, rest, hsplit, hroll, -⟩ :=
      rollback_spec rules (take_append_drop height n.base.chain).symm []
    simp_all
  · unfold rollback
    rw [if_pos (Nat.not_le.1 hle), take_of_length_le (Nat.le_of_not_le hle)]

variable {p : Nat × Hash}

theorem checkBlock_isSome_iff (hp : p ∈ cps.points) (id : Hash) : (cps.checkBlock p.1 id).isSome = true ↔ id = p.2 := by
  have hfind : cps.find p.1 = some p.2 := by
    have hsome : (cps.points.find? (·.1 == p.1)).isSome = true := find?_isSome.2 ⟨p, hp, beq_self_eq_true p.1⟩
    obtain ⟨q, hq⟩ := Option.isSome_iff_exists.1 hsome
    have hsame : q.1 = p.1 := by simpa using find?_some hq
    have hqp : q = p := by
      by_contra hne
      have hkeys := cps.sorted.imp (fun h => Nat.ne_of_lt h)
      have hnodup : (cps.points.map (·.1)).Nodup := pairwise_map.2 hkeys
      exact hne (inj_on_of_nodup_map hnodup (mem_of_find?_eq_some hq) hp hsame)
    unfold Checkpoints.find
    rw [hq, hqp]
    rfl
  grind [Checkpoints.checkBlock]

theorem checkpointPass_chain (rules : NodeRules) (n : Node t) (hp : p ∈ cps.points) :
    (checkpointPass rules cps true n p).1.base.chain = cutAt n.base.chain p := by
  unfold checkpointPass cutAt
  cases he : n.base.chain[p.1]? with
  | none => grind [Contradicts]
  | some e => grind [Contradicts, checkBlock_isSome_iff, rollback_nil_chain, rollbackHeight]

theorem checkpointLoop_chain {points : List (Nat × Hash)} (hsub : ∀ p ∈ points, p ∈ cps.points)
    (h : checkpointLoop rules cps true n points = (m, .ok ())) : m.base.chain = cutBack points n.base.chain := by
  induction points generalizing n with
  | nil =>
    obtain rfl : n = m := congrArg Prod.fst h
    rfl
  | cons p rest ih =>
    have hpass := checkpointPass_chain rules n (hsub p mem_cons_self)
    unfold checkpointLoop at h
    rcases hr : checkpointPass rules cps true n p with ⟨n', _ | u⟩
    · rw [hr] at h
      cases h
    · rw [hr] at h hpass
      rw [ih (fun q hq => hsub q (mem_cons_of_mem _ hq)) h]
      show cutBack rest n'.base.chain = cutBack rest (cutAt n.base.chain p)
      rw [← hpass]

/-- **Enforced checkpoints**: the table is kept and the genesis block in place exactly if the block at height 2 agreed,
and the one at height 1 did as well or the one at height 3 did not. -/
theorem checkpoints_enforced_iff (rules : NodeRules) (cps : Checkpoints) (hpos : ∀ p ∈ cps.points, 1 ≤ p.1)
    (n m : Node t) (hgenesis : n.base.chain ≠ []) (hlen : n.base.chain.length < 2 ^ 64)
    (hreturns : checkAgainstCheckpoints rules cps n true = (m, .ok ())) :
    ((∀ p ∈ cps.points, ¬ Contradicts m.base.chain p) ∧ m.base.chain.head? = n.base.chain.head?) ↔
      ∀ p ∈ cps.points, Contradicts n.base.chain p →
        p.1 ≠ 2 ∧ (p.1 = 1 → ∃ q ∈ cps.points, q.1 = 3 ∧ Contradicts n.base.chain q) := by
  rw [checkpointLoop_chain (fun p hp => hp) hreturns]
  exact cutBack_enforced_iff cps.sorted hpos hlen hgenesis

section Example

def ofLength (k : Nat) : Node .mainnet :=
  run arrive (init .mainnet) ((List.range k).map fun i =>
    ⟨plainBlock (UInt8.ofNat (i + 1)) 1 (Env.plainKey (UInt8.ofNat i)) i, openNode, 2, ∅⟩)

def foreignPoint (height : Nat) : Checkpoints := ⟨[(height, Env.plainKey 99)], pairwise_singleton _ _⟩

theorem checkpoints_enforced_three :
    (checkAgainstCheckpoints openNode (foreignPoint 3) (ofLength 5) true).1.base.chain.length = 1 ∧
      (∀ p ∈ (foreignPoint 3).points,
        ¬ Contradicts (checkAgainstCheckpoints openNode (foreignPoint 3) (ofLength 5) true).1.base.chain p) ∧
      (checkAgainstCheckpoints openNode (foreignPoint 3) (ofLength 5) true).1.base.chain.head? =
        (ofLength 5).base.chain.head? := by
  refine ⟨by decide +kernel, ?_⟩
  have hreturns : (checkAgainstCheckpoints openNode (foreignPoint 3) (ofLength 5) true).2 = .ok () := by rfl
  refine (checkpoints_enforced_iff openNode (foreignPoint 3) (by decide) (ofLength 5) _ (by decide +kernel)
    (by decide +kernel) (Prod.ext rfl hreturns)).2 ?_
  intro p hp _
  obtain rfl := mem_singleton.1 hp
  exact ⟨by decide, fun h => absurd h (by decide)⟩

theorem low_checkpoints_not_enforced :
    ((checkAgainstCheckpoints openNode (foreignPoint 1) (ofLength 3) true).2.isOk = true ∧
      Contradicts (checkAgainstCheckpoints openNode (foreignPoint 1) (ofLength 3) true).1.base.chain
        (1, Env.plainKey 99)) ∧
    ((checkAgainstCheckpoints openNode (foreignPoint 2) (ofLength 3) true).2.isOk = true ∧
      (ofLength 3).base.chain.length = 3 ∧
      (checkAgainstCheckpoints openNode (foreignPoint 2) (ofLength 3) true).1.base.chain = []) := by
  decide +kernel

end Example

end Node

end Electronero
