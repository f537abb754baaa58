import Electronero.Core.Heavier
/-!
# Where a switch ends

The disconnected blocks are handed to `handle_alternative_block` (blockchain.cpp:1134-1148) before the entries of
`alt_chain` are erased. Each call may start a switch of its own, or a rehash that invalidates the iterators.
-/
namespace Electronero
open Text FiniteMap Machine Difficulty List

namespace Node
variable {t : ForkTable} {rules : NodeRules} {n m k : Node t}

structure Later (n m : Node t) : Prop where
  log : n.log <+: m.log
  epoch : n.epoch ≤ m.epoch

theorem Later.refl (n : Node t) : Later n n := ⟨prefix_refl _, le_refl _⟩

theorem Later.trans (h : Later n m) (h' : Later m k) : Later n k := ⟨h.log.trans h'.log, h.epoch.trans h'.epoch⟩

theorem Later.log_eq (h : Later n m) (h' : Later m k) (hlog : k.log = n.log) : m.log = n.log := by
  have hback := h'.log
  rw [hlog] at hback
  exact hback.eq_of_length_le h.log.length_le

theorem Later.epoch_eq (h : Later n m) (h' : Later m k) (hepoch : k.epoch = n.epoch) : m.epoch = n.epoch :=
  le_antisymm (h'.epoch.trans_eq hepoch) h.epoch

theorem later_logSwitch (n : Node t) (discard : Bool) : Later n (n.logSwitch discard) := ⟨prefix_append _ _, le_refl _⟩

theorem later_insertAlternative (rules : NodeRules) (n : Node t) (bei : BlockExtendedInfo) : Later n (n.insertAlternative rules bei) := by
  unfold insertAlternative
  dsimp only
  split
  · exact ⟨prefix_refl _, Nat.le_succ _⟩
  · exact ⟨prefix_refl _, le_refl _⟩

theorem later_eraseAlternative (n : Node t) (it : AltIterator) : Later n (n.eraseAlternative it) := by
  refine ⟨?_, le_refl _⟩
  show _ <+: if _ then _ else _
  grind

theorem later_invalidate (n : Node t) (it : AltIterator) : Later n (n.invalidate it) :=
  have herased := later_eraseAlternative
    { n with base := { n.base with invalidBlocks := insert it.info.block.id n.base.invalidBlocks } } it
  ⟨herased.log, herased.epoch⟩

theorem later_foldl {f : Node t → AltIterator → Node t} (hf : ∀ n it, Later n (f n it)) (its : List AltIterator)
    (n : Node t) : Later n (its.foldl f n) := by
  induction its generalizing n with
  | nil => exact .refl n
  | cons it its ih => exact (hf n it).trans (ih _)

theorem later_rollback (rules : NodeRules) (n : Node t) (olds : List Block) (height : Nat) :
    Later n (rollback rules n olds height).1 := by
  by_cases hheight : n.base.chain.length < height
  · rw [rollback, if_pos hheight]
    exact .refl n
  · obtain ⟨stored, popped, pool, invalid, forks, rest, -, heq, -⟩ := rollback_spec rules
      (take_append_drop height n.base.chain).symm olds
    rw [length_take, Nat.min_eq_left (Nat.not_lt.1 hheight)] at heq
    rw [heq]
    exact ⟨prefix_refl _, le_refl _⟩

theorem later_finishSwitch (its : List AltIterator) (height : Nat) (r : Node t × Except DbError Unit) :
    Later r.1 (finishSwitch its height r).1 := by
  obtain ⟨m, e | u⟩ := r
  · exact .refl m
  · obtain ⟨forks, heq⟩ := finishSwitch_spec its height m u
    have herased := later_foldl later_eraseAlternative its m
    rw [heq]
    exact ⟨herased.log, herased.epoch⟩

theorem later_abandonSwitch (failed : List AltIterator) (r : Node t × Except DbError Bool) :
    Later r.1 (abandonSwitch failed r).1 := by
  obtain ⟨m, e | b⟩ := r
  · exact .refl m
  · exact later_foldl later_invalidate failed m

section
variable {push : Node t → Block → Node t × Except DbError Bool} (hpush : ∀ n bl, Later n (push n bl).1)
include hpush

theorem later_pushAll (xs : List Block) (n : Node t) : Later n (pushAll push n xs).1 := by
  induction xs generalizing n with
  | nil => exact .refl n
  | cons x rest ih =>
    have hnext := hpush n x
    rw [pushAll]
    generalize push n x = r at hnext ⊢
    obtain ⟨m, e | b⟩ := r
    · exact hnext
    · exact hnext.trans (ih m)

theorem later_pushAll_cons (x : Block) (rest : List Block) (n : Node t) :
    Later (push n x).1 (pushAll push n (x :: rest)).1 := by
  rw [pushAll]
  generalize push n x = r
  obtain ⟨m, e | b⟩ := r
  · exact .refl m
  · exact later_pushAll hpush rest m

end

theorem popUntil_frame (rules : NodeRules) (id : Hash) (k : Nat) (n : Node t) : ∃ chain popped pool,
    (popUntil rules id k n).1 = n.set chain popped pool n.base.invalidBlocks n.forks := by
  induction k generalizing n with
  | zero => exact ⟨_, _, _, rfl⟩
  | succ k ih =>
    rw [popUntil]
    split
    · exact ⟨_, _, _, rfl⟩
    rcases eq_nil_or_concat' n.base.chain with hnil | ⟨chain, e, hsnoc⟩
    · have hpop : n.popBlock rules = (n, none) := by
        unfold popBlock Base.popBlock
        rw [hnil]
        rfl
      rw [hpop]
      exact ⟨_, _, _, rfl⟩
    · obtain ⟨pool, hpop, -⟩ := popBlock_snoc rules hsnoc
      rw [hpop]
      obtain ⟨chain', popped', pool', heq⟩ := ih (n.set chain (n.base.popped ++ [e]) pool n.base.invalidBlocks n.forks)
      exact ⟨chain', popped', pool', heq⟩

variable {push : Node t → Block → Node t × Except DbError Bool} {altChain : List AltIterator}

theorem later_connectAlternative (rules : NodeRules)
    (hpush : ∀ n bl, Later n (push n bl).1) (n : Node t) (olds : List Block) (its : List AltIterator) (discard : Bool) :
    Later n (connectAlternative rules push n olds its discard).1 := by
  obtain ⟨stored, pool, invalid, done, rest, hconnect, -⟩ := connectAll_spec rules (fun it : AltIterator => it.info.block) its n
  rw [connectAlternative, hconnect]
  have hconnected : Later n (n.set (n.base.chain ++ stored) n.base.popped pool invalid
      (n.forks.addAll n.base.chain.length (stored.map (·.block)))) := ⟨prefix_refl _, le_refl _⟩
  cases rest with
  | nil =>
    refine Later.trans ?_ (later_finishSwitch _ _ _)
    split
    · exact hconnected
    · exact hconnected.trans (later_pushAll hpush olds _)
  | cons it failed => exact (hconnected.trans (later_rollback _ _ _ _)).trans (later_abandonSwitch _ _)

theorem later_switchToAlternative (rules : NodeRules)
    (hpush : ∀ n bl, Later n (push n bl).1) (n : Node t) (its : List AltIterator) (discard : Bool) :
    Later (n.logSwitch discard) (switchToAlternative rules push n its discard).1 := by
  cases its with
  | nil => exact .refl _
  | cons front rest =>
    unfold switchToAlternative
    dsimp only
    split
    · exact .refl _
    · obtain ⟨chain, popped, pool, hpop⟩ := popUntil_frame rules front.info.block.prevId
        (n.logSwitch discard).base.chain.length (n.logSwitch discard)
      refine Later.trans ?_ (later_connectAlternative rules hpush _ _ _ _)
      rw [hpop]
      exact ⟨prefix_refl _, le_refl _⟩

theorem later_handleAlternativeBlock (rules : NodeRules) (depth : Nat) (n : Node t) (bl : Block) :
    Later n (handleAlternativeBlock rules depth n bl).1 := by
  induction depth generalizing n bl with
  | zero => exact .refl n
  | succ depth ih =>
    rw [handleAlternativeBlock]
    cases judgeAlternative rules n bl with
    | refused => exact .refl n
    | orphaned => exact .refl n
    | accepted bei cp =>
      have hkept := later_insertAlternative rules n bei
      have hswitch := fun its discard => (hkept.trans (later_logSwitch _ discard)).trans
        (later_switchToAlternative rules ih (n.insertAlternative rules bei) its discard)
      grind

def Undisturbed (rules : NodeRules) : Node t → List Block → Prop
  | _, [] => True
  | m, bl :: rest =>
    match judgeAlternative rules m bl with
    | .accepted bei isCheckpoint =>
      isCheckpoint = false ∧ bei.cumulativeDifficulty ≤ m.base.topDifficulty ∧
        m.base.alternatives.keys.card < m.buckets ∧ Undisturbed rules (m.insertAlternative rules bei) rest
    | _ => Undisturbed rules m rest

structure Keeps (n m : Node t) : Prop where
  log : m.log = n.log
  chain : m.base.chain = n.base.chain
  alternatives : ∀ id e, n.base.alternatives.lookup id = some e → m.base.alternatives.lookup id = some e

theorem Keeps.refl (n : Node t) : Keeps n n := ⟨rfl, rfl, fun _ _ h => h⟩

theorem Keeps.trans (h : Keeps n m) (h' : Keeps m k) : Keeps n k :=
  ⟨h'.log.trans h.log, h'.chain.trans h.chain, fun id e he => h'.alternatives id e (h.alternatives id e he)⟩

variable {bl : Block} {bei : BlockExtendedInfo} {cp : Bool}

@[simp] theorem insertAlternative_log (n : Node t) (bei : BlockExtendedInfo) :
    (n.insertAlternative rules bei).log = n.log := by
  unfold insertAlternative
  dsimp only
  split <;> rfl

theorem Passed.keeps (h : Passed rules n bl bei cp) : Keeps n (n.insertAlternative rules bei) := by
  refine ⟨insertAlternative_log n bei, by rw [insertAlternative_base], fun id e he => ?_⟩
  rw [insertAlternative_base, lookup_insert_ite, if_neg, he]
  rintro rfl
  rw [h.block, h.new] at he
  cases he

theorem insertAlternative_epoch (rules : NodeRules) (n : Node t) (bei : BlockExtendedInfo) :
    (n.insertAlternative rules bei).epoch = n.epoch ↔ n.base.alternatives.keys.card < n.buckets := by
  unfold insertAlternative
  grind

theorem handleAlternativeBlock_eq_of_light (depth : Nat) (hjudge : judgeAlternative rules n bl = .accepted bei false)
    (hlight : bei.cumulativeDifficulty ≤ n.base.topDifficulty) :
    handleAlternativeBlock rules (depth + 1) n bl = (n.insertAlternative rules bei, .ok true) := by
  rw [handleAlternativeBlock, hjudge]
  grind

theorem light_of_log {depth : Nat} (hjudge : judgeAlternative rules n bl = .accepted bei cp)
    (hlog : (handleAlternativeBlock rules (depth + 1) n bl).1.log = n.log) :
    cp = false ∧ bei.cumulativeDifficulty ≤ n.base.topDifficulty := by
  have hkept := (judgeAlternative_passed hjudge).keeps
  have hswitch : ∀ its discard, (switchToAlternative rules (handleAlternativeBlock rules depth)
      (n.insertAlternative rules bei) its discard).1.log ≠ n.log := by
    intro its discard heq
    have hle := (later_switchToAlternative rules (later_handleAlternativeBlock rules depth)
      (n.insertAlternative rules bei) its discard).log.length_le
    rw [heq, logSwitch, hkept.log, length_append, length_singleton] at hle
    omega
  grind [handleAlternativeBlock]

theorem pushAll_cons {x : Block} (rest : List Block) {b : Bool}
    (h : push n x = (m, .ok b)) : pushAll push n (x :: rest) = pushAll push m rest := by
  rw [pushAll, h]

theorem judged_or_same (rules : NodeRules) (depth : Nat) (n : Node t) (x : Block) :
    (∃ bei cp, judgeAlternative rules n x = .accepted bei cp) ∨
    (∃ b, handleAlternativeBlock rules (depth + 1) n x = (n, .ok b)) ∧
      ∀ rest, Undisturbed rules n (x :: rest) ↔ Undisturbed rules n rest := by
  cases hjudge : judgeAlternative rules n x with
  | refused => exact Or.inr ⟨⟨false, handleAlternativeBlock_of_refused depth hjudge⟩, fun rest => by simp only [Undisturbed, hjudge]⟩
  | orphaned => exact Or.inr ⟨⟨true, by rw [handleAlternativeBlock, hjudge]⟩, fun rest => by simp only [Undisturbed, hjudge]⟩
  | accepted bei cp => exact Or.inl ⟨bei, cp, rfl⟩

theorem pushAll_of_log (depth : Nat) (xs : List Block)
    (hlog : (pushAll (handleAlternativeBlock rules (depth + 1)) n xs).1.log = n.log) :
    Keeps n (pushAll (handleAlternativeBlock rules (depth + 1)) n xs).1 ∧
    ((pushAll (handleAlternativeBlock rules (depth + 1)) n xs).1.epoch = n.epoch → Undisturbed rules n xs) := by
  induction xs generalizing n with
  | nil => exact ⟨.refl n, fun _ => trivial⟩
  | cons x rest ih =>
    rcases judged_or_same rules depth n x with ⟨bei, cp, hjudge⟩ | ⟨⟨b, heq⟩, hiff⟩
    · have hpush := fun (n : Node t) bl => later_handleAlternativeBlock rules (depth + 1) n bl
      obtain ⟨rfl, hlight⟩ := light_of_log hjudge ((hpush n x).log_eq (later_pushAll_cons hpush x rest n) hlog)
      have hkeeps := (judgeAlternative_passed hjudge).keeps
      have hinsert := later_insertAlternative rules n bei
      have hrest := later_pushAll hpush rest (n.insertAlternative rules bei)
      rw [pushAll_cons rest (handleAlternativeBlock_eq_of_light depth hjudge hlight)] at hlog ⊢
      obtain ⟨hkeeps', hquiet⟩ := ih (hlog.trans hkeeps.log.symm)
      refine ⟨hkeeps.trans hkeeps', fun hepoch => ?_⟩
      have hepoch' := hinsert.epoch_eq hrest hepoch
      simp only [Undisturbed, hjudge]
      exact ⟨trivial, hlight, (insertAlternative_epoch rules n bei).1 hepoch', hquiet (hepoch.trans hepoch'.symm)⟩
    · grind [pushAll_cons]

theorem Undisturbed.pushAll (depth : Nat) {xs : List Block} (h : Undisturbed rules n xs) :
    Keeps n (Node.pushAll (handleAlternativeBlock rules (depth + 1)) n xs).1 ∧
    (Node.pushAll (handleAlternativeBlock rules (depth + 1)) n xs).1.epoch = n.epoch := by
  induction xs generalizing n with
  | nil => exact ⟨.refl n, rfl⟩
  | cons x rest ih =>
    rcases judged_or_same rules depth n x with ⟨bei, cp, hjudge⟩ | ⟨⟨b, heq⟩, hiff⟩
    · simp only [Undisturbed, hjudge] at h
      obtain ⟨rfl, hlight, hroom, hrest⟩ := h
      rw [pushAll_cons rest (handleAlternativeBlock_eq_of_light depth hjudge hlight)]
      obtain ⟨hkeeps, hepoch⟩ := ih hrest
      exact ⟨(judgeAlternative_passed hjudge).keeps.trans hkeeps,
        hepoch.trans ((insertAlternative_epoch rules n bei).2 hroom)⟩
    · grind [pushAll_cons]

theorem foldl_eraseAlternative_log_iff {its : List AltIterator}
    (hlookup : ∀ it ∈ its, n.base.alternatives.lookup it.info.block.id = some it.info)
    (hdistinct : (its.map (·.info.block.id)).Nodup) :
    (its.foldl eraseAlternative n).log = n.log ↔ ∀ it ∈ its, it.epoch = n.epoch := by
  induction its generalizing n with
  | nil => simp
  | cons it rest ih =>
    rw [map_cons, nodup_cons] at hdistinct
    have hrest : ∀ it' ∈ rest, (n.eraseAlternative it).base.alternatives.lookup it'.info.block.id = some it'.info := by
      intro it' hit'
      have hne : it'.info.block.id ≠ it.info.block.id := fun heq => hdistinct.1 (heq ▸ List.mem_map_of_mem hit')
      exact (Finmap.lookup_erase_ne hne).trans (hlookup it' (mem_cons_of_mem _ hit'))
    have hfirst : (n.eraseAlternative it).log = n.log ↔ it.epoch = n.epoch := by
      have hvalid : n.Valid it ↔ it.epoch = n.epoch := and_iff_left (hlookup it mem_cons_self)
      show (if n.Valid it then _ else _) = _ ↔ _
      rw [← hvalid]
      split <;> simp_all
    have hlater := later_foldl later_eraseAlternative rest (n.eraseAlternative it)
    rw [foldl_cons, forall_mem_cons, ← hfirst]
    constructor
    · intro hlog
      have hone := (later_eraseAlternative n it).log_eq hlater hlog
      exact ⟨hone, (ih hrest hdistinct.2).1 (hlog.trans hone.symm)⟩
    · rintro ⟨hone, hall⟩
      exact ((ih hrest hdistinct.2).2 hall).trans hone

def disconnected (rules : NodeRules) (n : Node t) : List AltIterator → Node t × List Block
  | [] => (n, [])
  | front :: _ => popUntil rules front.info.block.prevId n.base.chain.length n

def relocated (rules : NodeRules) (n : Node t) (altChain : List AltIterator) : Node t × List AltIterator :=
  connectAll rules (·.info.block) (disconnected rules (n.logSwitch false) altChain).1 altChain

structure Ended (n : Node t) (altChain : List AltIterator) (m : Node t) : Prop where
  tip : ∀ it, altChain.getLast? = some it → m.base.tailId = it.info.block.id
  /-- no other switch was started, and no iterator erased that was not valid -/
  log : m.log = n.log ++ [.switchStarted false]

structure Moved (n : Node t) (altChain : List AltIterator) (m : Node t) : Prop where
  tip : ∀ it, altChain.getLast? = some it → m.base.tailId = it.info.block.id
  log : m.log = n.log ++ [.switchStarted false]
  epoch : m.epoch = n.epoch
  alternatives : m.base.alternatives = n.base.alternatives

theorem switchToAlternative_true (hok : (switchToAlternative rules push n altChain false).2 = .ok true) :
    altChain ≠ [] ∧ (relocated rules n altChain).2 = [] ∧ Moved n altChain (relocated rules n altChain).1 ∧
    ∃ height, (switchToAlternative rules push n altChain false).1 = (finishSwitch altChain height
      ((pushAll push (relocated rules n altChain).1 (disconnected rules (n.logSwitch false) altChain).2).1, .ok ())).1 := by
  cases altChain with
  | nil => cases hok
  | cons front rest =>
    refine ⟨cons_ne_nil _ _, ?_⟩
    unfold switchToAlternative at hok ⊢
    unfold relocated disconnected
    dsimp only at hok ⊢
    split at hok
    · cases hok
    rename_i hexists
    rw [if_neg hexists]
    obtain ⟨chain, popped, pool, hpop⟩ := popUntil_frame rules front.info.block.prevId
      (n.logSwitch false).base.chain.length (n.logSwitch false)
    generalize popUntil rules front.info.block.prevId (n.logSwitch false).base.chain.length (n.logSwitch false) = p at hpop hok ⊢
    obtain ⟨p, olds⟩ := p
    dsimp only at hpop
    subst hpop
    obtain ⟨stored, pool', invalid, done, left, hconnect, hsplit, hblocks, -⟩ :=
      connectAll_spec rules (fun it : AltIterator => it.info.block) (front :: rest)
        ((n.logSwitch false).set chain popped pool (n.logSwitch false).base.invalidBlocks (n.logSwitch false).forks)
    unfold connectAlternative at hok ⊢
    simp only [hconnect] at hok ⊢
    cases left with
    | cons it failed =>
      dsimp only at hok
      generalize rollback rules _ _ _ = r at hok
      obtain ⟨m, e | b⟩ := r <;> cases hok
    | nil =>
      rw [append_nil] at hsplit
      simp only [Bool.false_eq_true, ite_false] at hok ⊢
      refine ⟨trivial, ⟨fun it hit => ?_, rfl, rfl, rfl⟩, chain.length, ?_⟩
      · have hlast : (stored.map (·.block)).getLast? = some it.info.block := by grind
        grind [Base.tailId, set_chain]
      · rw [set_chain] at hok ⊢
        generalize pushAll push _ _ = r at hok ⊢
        obtain ⟨m, e | u⟩ := r
        · cases hok
        · rfl

theorem switchToAlternative_ended_iff (depth : Nat)
    (hits : ∀ it ∈ altChain, it.epoch ≤ n.epoch ∧ n.base.alternatives.lookup it.info.block.id = some it.info)
    (hdistinct : (altChain.map (·.info.block.id)).Nodup)
    (hok : (switchToAlternative rules (handleAlternativeBlock rules (depth + 1)) n altChain false).2 = .ok true) :
    Ended n altChain (switchToAlternative rules (handleAlternativeBlock rules (depth + 1)) n altChain false).1 ↔
      (∀ it ∈ altChain, it.epoch = n.epoch) ∧
      Undisturbed rules (relocated rules n altChain).1 (disconnected rules (n.logSwitch false) altChain).2 := by
  obtain ⟨hne, -, hmoved, height, hresult⟩ := switchToAlternative_true hok
  rw [hresult]
  generalize (relocated rules n altChain).1 = m at hmoved ⊢
  generalize (disconnected rules (n.logSwitch false) altChain).2 = olds
  have hpushed := later_pushAll (fun n bl => later_handleAlternativeBlock rules (depth + 1) n bl) olds m
  have hof := @pushAll_of_log t rules m depth olds
  have hquiet := @Undisturbed.pushAll t rules m depth olds
  generalize (pushAll (handleAlternativeBlock rules (depth + 1)) m olds).1 = p at hpushed hof hquiet ⊢
  obtain ⟨forks, hfinish⟩ := finishSwitch_spec altChain height p ()
  have herased := later_foldl later_eraseAlternative altChain p
  have hlookup : Keeps m p → ∀ it ∈ altChain, p.base.alternatives.lookup it.info.block.id = some it.info := by
    intro hkeeps it hit
    refine hkeeps.alternatives _ _ ?_
    rw [hmoved.alternatives]
    exact (hits it hit).2
  constructor
  · rintro ⟨-, hlog⟩
    rw [hfinish, ← hmoved.log] at hlog
    have hsame := hpushed.log_eq herased hlog
    obtain ⟨hkeeps, hundisturbed⟩ := hof hsame
    have hall := (foldl_eraseAlternative_log_iff (hlookup hkeeps) hdistinct).1 (hlog.trans hsame.symm)
    -- one iterator is enough to see that there was no rehash
    obtain ⟨it, hit⟩ := exists_mem_of_ne_nil _ hne
    have hepoch : p.epoch = n.epoch :=
      le_antisymm ((hall it hit).symm.trans_le (hits it hit).1) (hmoved.epoch.symm.trans_le hpushed.epoch)
    exact ⟨fun it hit => (hall it hit).trans hepoch, hundisturbed (hepoch.trans hmoved.epoch.symm)⟩
  · rintro ⟨hall, hundisturbed⟩
    obtain ⟨hkeeps, hepoch⟩ := hquiet hundisturbed
    refine ⟨fun it hit => ?_, ?_⟩
    · rw [Base.tailId, finishSwitch_chain, hkeeps.chain]
      exact hmoved.tip it hit
    · rw [hfinish, ← hmoved.log, ← hkeeps.log]
      refine (foldl_eraseAlternative_log_iff (hlookup hkeeps) hdistinct).2 fun it hit => ?_
      rw [hall it hit, hepoch, hmoved.epoch]

/-! ## Where the two difficulty rules agree -/

section
variable {ids : BlockIds} {pre post : Chain}

theorem card_insertAlternative (rules : NodeRules) (n : Node t) (bei : BlockExtendedInfo) :
    (n.insertAlternative rules bei).base.alternatives.keys.card ≤ n.base.alternatives.keys.card + 1 := by
  have hkeys : (n.insertAlternative rules bei).base.alternatives.keys = insert bei.block.id n.base.alternatives.keys := by
    ext id
    rw [insertAlternative_base]
    simp [Finmap.mem_keys, Finmap.mem_insert]
  rw [hkeys]
  exact Finset.card_insert_le _ _

theorem insertAlternative_buckets (rules : NodeRules) (bei : BlockExtendedInfo)
    (h : n.base.alternatives.keys.card < n.buckets) : (n.insertAlternative rules bei).buckets = n.buckets := by
  unfold insertAlternative
  dsimp only
  rw [if_neg (by omega)]

theorem undisturbed_of_light (hrules : rules.Mainnet) (htree : m.Tree ids) (h : m.Weighed ids) {xs : List Block}
    (hxs : ∀ x ∈ xs, Light ids rules m.base.chain.length m.base.topDifficulty x)
    (hroom : m.base.alternatives.keys.card + xs.length ≤ m.buckets) : Undisturbed rules m xs := by
  induction xs generalizing m with
  | nil => trivial
  | cons x rest ih =>
    have hx := hxs x mem_cons_self
    have hrest : ∀ y ∈ rest, Light ids rules m.base.chain.length m.base.topDifficulty y :=
      fun y hy => hxs y (mem_cons_of_mem _ hy)
    rw [length_cons] at hroom
    rcases judged_or_same rules 0 m x with ⟨bei, cp, hjudge⟩ | ⟨-, hiff⟩
    · obtain ⟨⟨pre, post, hangs⟩, hcheckpoint⟩ := judgeAlternative_accepted htree hx.known hjudge
      have hnot := hx.not_prevails hrules htree h hangs
      have htree' : (m.insertAlternative rules bei).Tree ids :=
        htree.insertAlternative (by rw [hangs.block]; exact hx.known) (by rw [hangs.block]; exact hangs.height)
      have hcard := card_insertAlternative rules m bei
      simp only [Undisturbed, hjudge]
      refine ⟨?_, Nat.not_lt.1 (hnot false), by omega, ?_⟩
      · cases cp with
        | true => exact absurd hcheckpoint (hnot true)
        | false => rfl
      · refine ih htree' (h.insertAlternative hrules htree hangs hx.agrees) (by rw [insertAlternative_base]; exact hrest) ?_
        grind [insertAlternative_buckets]
    · rw [hiff]
      exact ih htree h hrest (by omega)

theorem Hangs.iterators_spec (htree : n.Tree ids) (hangs : Hangs ids rules n bl bei pre post) :
    (∀ it ∈ iterators rules n bl bei, it.epoch ≤ (n.insertAlternative rules bei).epoch ∧
      (n.insertAlternative rules bei).base.alternatives.lookup it.info.block.id = some it.info) ∧
    ((iterators rules n bl bei).map (·.info.block.id)).Nodup := by
  constructor
  · intro it hit
    rw [insertAlternative_base, lookup_insert_ite]
    rcases mem_append.1 hit with hit | hit
    · obtain ⟨e, he, rfl⟩ := List.mem_map.1 hit
      have hsome := Hangs.mem_altChain htree he
      refine ⟨(later_insertAlternative rules n bei).epoch, ?_⟩
      rw [if_neg, hsome]
      intro heq
      rw [heq, hangs.block, hangs.new] at hsome
      cases hsome
    · grind
  · have hpath := hangs.path.pairwise
    rw [append_assoc, pairwise_append] at hpath
    have hids : (iterators rules n bl bei).map (·.info.block.id) = ((n.altChain bl).map (·.block) ++ [bl]).map (·.id) := by
      rw [← iterators_blocks rules n hangs.block, List.map_map]
      rfl
    grind

theorem Hangs.relocated_eq (htree : n.Tree ids) (hangs : Hangs ids rules n bl bei pre post)
    (hall : (relocated rules (n.insertAlternative rules bei) (iterators rules n bl bei)).2 = []) :
    ∃ stored popped pool invalid,
      (relocated rules (n.insertAlternative rules bei) (iterators rules n bl bei)).1 =
        connected rules n bei false pre stored popped pool invalid ∧
      (disconnected rules ((n.insertAlternative rules bei).logSwitch false) (iterators rules n bl bei)).2 =
        post.map (·.block) ∧
      stored.map (·.block) = (iterators rules n bl bei).map (·.info.block) ∧ Grows rules pre (pre ++ stored) := by
  obtain ⟨front, rest, hits, htail, hpost⟩ := hangs.split htree
  have hchain : ((n.insertAlternative rules bei).logSwitch false).base.chain = pre ++ post := by
    simpa [logSwitch] using hangs.chain
  obtain ⟨popped, pool, hpop, -⟩ := popUntil_spec rules hchain htail hpost
    (k := ((n.insertAlternative rules bei).logSwitch false).base.chain.length) (by rw [hchain]; simp)
  have hdisconnected : disconnected rules ((n.insertAlternative rules bei).logSwitch false) (iterators rules n bl bei) =
      (((n.insertAlternative rules bei).logSwitch false).set pre popped pool n.base.invalidBlocks n.forks,
        post.map (·.block)) := by
    rw [hits, disconnected, hpop]
    simp [logSwitch]
  obtain ⟨stored, pool', invalid, done, left, hconnect, hsplit, hblocks, -, hgrows, -⟩ :=
    connectAll_spec rules (fun it : AltIterator => it.info.block) (iterators rules n bl bei)
      (((n.insertAlternative rules bei).logSwitch false).set pre popped pool n.base.invalidBlocks n.forks)
  unfold relocated at hall ⊢
  rw [hdisconnected] at hall ⊢
  simp only [hconnect] at hall ⊢
  subst hall
  rw [append_nil] at hsplit
  exact ⟨stored, popped, pool', invalid, rfl, trivial, by rw [hblocks, hsplit], hgrows⟩

/-- **A successful switch ends where it was meant to exactly if it is undisturbed**; if the difficulty rules judge the
blocks alike and there is room, it is. -/
theorem successful_switch_ends_iff (ids : BlockIds) :
    (∀ (n : Node t) (rules : NodeRules) (altChain : List AltIterator) (depth : Nat),
      (∀ it ∈ altChain, it.epoch ≤ n.epoch ∧ n.base.alternatives.lookup it.info.block.id = some it.info) →
      (altChain.map (·.info.block.id)).Nodup →
      (switchToAlternative rules (handleAlternativeBlock rules (depth + 1)) n altChain false).2 = .ok true →
      (Ended n altChain (switchToAlternative rules (handleAlternativeBlock rules (depth + 1)) n altChain false).1 ↔
        (∀ it ∈ altChain, it.epoch = n.epoch) ∧
        Undisturbed rules (relocated rules n altChain).1 (disconnected rules (n.logSwitch false) altChain).2)) ∧
    ∀ (n : Node t) (rules : NodeRules) (bl : Block) (bei : BlockExtendedInfo) (depth : Nat),
      n.Assessed ids → ids.Known bl → rules.Mainnet → judgeAlternative rules n bl = .accepted bei false →
      n.base.topDifficulty < bei.cumulativeDifficulty → Fair ids rules n bl →
      n.base.alternatives.keys.card + 1 + (n.base.chain.length - ids.depth (parentOf (n.altChain bl) bl.prevId)) ≤ n.buckets →
      (switchToAlternative rules (handleAlternativeBlock rules (depth + 1)) (n.insertAlternative rules bei)
        (iterators rules n bl bei) false).2 = .ok true →
      Ended (n.insertAlternative rules bei) (iterators rules n bl bei)
        (switchToAlternative rules (handleAlternativeBlock rules (depth + 1)) (n.insertAlternative rules bei)
          (iterators rules n bl bei) false).1 := by
  refine ⟨fun n rules altChain depth hits hdistinct hok => switchToAlternative_ended_iff depth hits hdistinct hok, ?_⟩
  intro n rules bl bei depth hn hknown hrules hjudge hheavy hfair hroom hok
  obtain ⟨⟨pre, post, hangs⟩, -⟩ := judgeAlternative_accepted hn.inside.tree hknown hjudge
  obtain ⟨hits, hdistinct⟩ := hangs.iterators_spec hn.inside.tree
  have hpost : n.base.chain.length - ids.depth (parentOf (n.altChain bl) bl.prevId) = post.length := by
    rw [hangs.depth_parent, hangs.chain, length_append, Nat.add_sub_cancel_left]
  rw [hpost] at hroom
  have hepoch := (insertAlternative_epoch rules n bei).2 (by omega)
  obtain ⟨stored, popped, pool, invalid, hnode, hold, hstored, hgrows⟩ :=
    hangs.relocated_eq hn.inside.tree (switchToAlternative_true hok).2.1
  refine (switchToAlternative_ended_iff depth hits hdistinct hok).2 ⟨fun it hit => ?_, ?_⟩
  · rcases mem_append.1 hit with hit | hit
    · grind
    · rw [mem_singleton.1 hit]
  · rw [hnode, hold]
    have hweighed := @Weighed.connected rules t ids n bl bei pre post false stored popped pool invalid hrules hn.inside.tree
      hn.weighed hangs hfair.new hgrows
    refine undisturbed_of_light hrules (hangs.connected_tree hn.inside.tree hstored) hweighed
      (fun x hx => hfair.connected_light hrules hn.inside hn.weighed hangs hheavy hstored hweighed hx) ?_
    have hcard := card_insertAlternative rules n bei
    rw [insertAlternative_base] at hcard
    rw [connected_alternatives, length_map]
    refine (Nat.add_le_add_right hcard _).trans (hroom.trans (le_of_eq ?_))
    exact (insertAlternative_buckets rules bei (by omega)).symm

end

/-! A block, two others in its place, and one on top of the first of them. -/

def spareBlocks : List Block :=
  [genesis, plainBlock 2 1 (Env.plainKey 1) 1, plainBlock 3 1 (Env.plainKey 1) 1, plainBlock 5 1 (Env.plainKey 1) 1,
    plainBlock 4 1 (Env.plainKey 3) 2]

def spareIds : BlockIds where
  block id := (spareBlocks.find? (·.id = id)).getD genesis
  depth id := ((spareBlocks.find? (·.id = id)).map (·.height + 1)).getD 0
  depth_root := by decide +kernel

def spareRun : List Arrival := (spareBlocks.take 4).map (⟨·, minedRules (fun _ => 1), 2, ∅⟩)

theorem spareRun_assessed : (run arrive (init .mainnet) spareRun).Assessed spareIds := by
  have hknown : ∀ bl ∈ spareBlocks, spareIds.Known bl := by
    unfold HashTree.Naming.Known
    decide +kernel
  have hmeets : Meets arrive (Weighable spareIds) (init .mainnet) spareRun := by
    refine ⟨?_, ?_, ?_, ?_, trivial⟩ <;> exact weighable_of_short (by decide +kernel) (by decide +kernel) fun _ _ _ => rfl
  have hall : ∀ a ∈ spareRun, spareIds.Known a.block ∧ a.rules.Mainnet := by
    intro a ha
    obtain ⟨bl, hbl, rfl⟩ := List.mem_map.1 ha
    exact ⟨hknown bl (mem_of_mem_take hbl), mainnet_minedRules _⟩
  exact always_iff_initial.1 (always_assessed spareIds hall hmeets) spareRun (prefix_refl _)

theorem spareRun_ends :
    let rules := minedRules fun _ => 1
    let n := run arrive (init .mainnet) spareRun
    let bl := plainBlock 4 1 (Env.plainKey 3) 2
    let bei : BlockExtendedInfo := ⟨bl, 2, 3⟩
    let kept := n.insertAlternative rules bei
    let altChain := iterators rules n bl bei
    let r := switchToAlternative rules (handleAlternativeBlock rules 2) kept altChain false
    r.2 = .ok true ∧ Ended kept altChain r.1 ∧
    Undisturbed rules (relocated rules kept altChain).1 (disconnected rules (kept.logSwitch false) altChain).2 := by
  intro rules n bl bei kept altChain r
  have hok : r.2 = .ok true := by decide +kernel
  have hknown : spareIds.Known bl := ⟨by decide +kernel, by decide +kernel⟩
  have hjudge : judgeAlternative rules n bl = .accepted bei false := by decide +kernel
  have hheavy : n.base.topDifficulty < bei.cumulativeDifficulty := by decide +kernel
  have hdepth : spareIds.depth bl.prevId ≤ 2 := by decide +kernel
  have hlen : n.base.chain.length ≤ 3 := by decide +kernel
  have hprev : bl.prevId ≠ n.base.tailId := by decide +kernel
  have hroom : n.base.alternatives.keys.card + 1 +
      (n.base.chain.length - spareIds.depth (parentOf (n.altChain bl) bl.prevId)) ≤ n.buckets := by decide +kernel
  have hits : ∀ it ∈ altChain, it.epoch ≤ kept.epoch ∧ kept.base.alternatives.lookup it.info.block.id = some it.info := by
    decide +kernel
  have hdistinct : (altChain.map (·.info.block.id)).Nodup := by decide +kernel
  have hassessed : n.Assessed spareIds := spareRun_assessed
  have hmainnet : rules.Mainnet := mainnet_minedRules _
  have hfair : Fair spareIds rules n bl :=
    (@weighable_of_short _ spareIds n ⟨bl, rules, 2, ∅⟩ hdepth hlen fun _ _ _ => rfl).2 hprev
  clear_value n
  have hended := (successful_switch_ends_iff spareIds).2 n rules bl bei 1 hassessed hknown hmainnet hjudge hheavy hfair hroom hok
  exact ⟨hok, hended, (((successful_switch_ends_iff spareIds).1 kept rules altChain 1 hits hdistinct hok).1 hended).2⟩

theorem handleAlternativeBlock_eq_of_heavier (depth : Nat) (hjudge : judgeAlternative rules n bl = .accepted bei false)
    (hheavy : n.base.topDifficulty < bei.cumulativeDifficulty) :
    handleAlternativeBlock rules (depth + 1) n bl = switchToAlternative rules (handleAlternativeBlock rules depth)
      (n.insertAlternative rules bei) (iterators rules n bl bei) false := by
  rw [handleAlternativeBlock, hjudge]
  dsimp only
  rw [if_neg (by decide), if_pos hheavy]
  rfl

theorem finishSwitch_log (its : List AltIterator) (height : Nat) (m : Node t) (u : Unit) :
    (finishSwitch its height (m, .ok u)).1.log = (its.foldl eraseAlternative m).log ∧
    (finishSwitch its height (m, .ok u)).1.epoch = m.epoch := by
  obtain ⟨forks, heq⟩ := finishSwitch_spec its height m u
  rw [heq]
  exact ⟨rfl, @foldl_erase_eq t eraseAlternative _ Node.epoch (fun _ _ => rfl) its m⟩

section
variable {n m : Node .mainnet} {i : Nat} {bl x : Block}

theorem Beside.returns (work : Block → Nat) (hi : i = 307050) (h : Beside i m bl)
    (hchain : m.base.chain = steadyChain i ++ [⟨x, [], steadyWeight i⟩]) (hx : x = steadyBlock i ∨ x = rivalBlock i)
    (hwork : 476 ≤ work bl) (hnew : m.base.alternatives.lookup bl.id = none) (hne : x.id ≠ bl.id)
    (hentry : m.base.alternatives.lookup x.id ≠ none) (depth : Nat) :
    let r := handleAlternativeBlock (minedRules work) (depth + 2) m bl
    r.2 = .ok true ∧ r.1.Sound steadyIds ∧ r.1.base.chain = steadyChain i ++ [⟨bl, [], steadyWeight i⟩] ∧
    r.1.log = m.log ++ [.switchStarted false] ∧
    r.1.epoch = (m.insertAlternative (minedRules work) ⟨bl, i, steadyWeight i + 189⟩).epoch := by
  obtain ⟨popped, pool, hresult, hback⟩ := h.replaces work hi hchain hx hwork hnew (depth + 1)
  have hjudge := hback.judgeAlternative_contest work hi (by simp)
  rw [connected_alternatives, lookup_insert_ite, if_neg hne, if_neg (fun hc => hentry hc.2)] at hjudge
  rw [pushAll_cons [] (handleAlternativeBlock_of_refused depth hjudge), pushAll] at hresult
  generalize hbei : (⟨bl, i, steadyWeight i + 189⟩ : BlockExtendedInfo) = bei at hresult hback ⊢
  obtain ⟨hsound, hok⟩ := hback.sound.finishSwitch (by decide) h.pos
    [⟨bei, (m.insertAlternative (minedRules work) bei).epoch⟩] ()
  obtain ⟨hlog, hepoch⟩ := finishSwitch_log [⟨bei, (m.insertAlternative (minedRules work) bei).epoch⟩] i
    (connected (minedRules work) m bei false (steadyChain i) [⟨bl, [], steadyWeight i⟩] popped pool m.base.invalidBlocks) ()
  intro r
  rw [show r = _ from hresult]
  refine ⟨hok, hsound, by rw [finishSwitch_chain, connected_chain], ?_, hepoch⟩
  -- the entry of the block itself is a valid one
  rw [hlog, (foldl_eraseAlternative_log_iff ?_ (by simp)).2 ?_]
  · show (m.insertAlternative _ _).log ++ _ = _
    rw [insertAlternative_log]
  · intro it hit
    rw [mem_singleton.1 hit, connected_alternatives, lookup_insert_ite, if_pos rfl]
  · intro it hit
    rw [mem_singleton.1 hit]
    rfl

theorem Steady.comes_back {work : Block → Nat} (hi : i = 307050) (hn : n.Steady (i + 1)) (hwork : ∀ bl, 476 ≤ work bl)
    (depth : Nat) :
    let r := handleAlternativeBlock (minedRules work) (depth + 3) n (rivalBlock i)
    r.2 = .ok true ∧ r.1.base.chain = steadyChain i ++ [⟨steadyBlock i, [], steadyWeight i⟩] ∧
    r.1.log = [.switchStarted false, .switchStarted false, .danglingErase (rivalBlock i).id] := by
  have halts : n.base.alternatives = ∅ := by
    rw [hn.base]
    rfl
  have hne : (rivalBlock i).id ≠ (steadyBlock i).id := by
    intro heq
    have := numberHash_injective (by omega) (by omega) heq
    omega
  have hroom : n.base.alternatives.keys.card < n.buckets := by
    rw [halts, hn.buckets]
    decide
  obtain ⟨popped, pool, hresult, hback⟩ := (hn.beside (by omega) (by omega) (by omega)).replaces work hi
    (hn.chain.trans (steadyChain_succ i)) (Or.inl rfl) (hwork (rivalBlock i)) (by rw [halts]; rfl) (depth + 2)
  generalize hbei : (⟨rivalBlock i, i, steadyWeight i + 189⟩ : BlockExtendedInfo) = bei at hresult hback
  have hid : bei.block.id = (rivalBlock i).id := by rw [← hbei]
  generalize hm : connected (minedRules work) n bei false (steadyChain i) [⟨rivalBlock i, [], steadyWeight i⟩] popped pool
    n.base.invalidBlocks = m at hresult hback
  have hentries : m.base.alternatives = (∅ : UMap Hash BlockExtendedInfo).insert (rivalBlock i).id bei := by
    rw [← hm, connected_alternatives, halts, hid]
  have hstarted : m.log = [.switchStarted false] := by
    rw [← hm]
    show (n.insertAlternative _ _).log ++ _ = _
    rw [insertAlternative_log, hn.log]
    rfl
  have hfull : m.buckets = 1 := by
    rw [← hm]
    exact (insertAlternative_buckets _ _ hroom).trans hn.buckets
  have hsame : (n.insertAlternative (minedRules work) bei).epoch = m.epoch := by
    rw [← hm]
    rfl
  obtain ⟨hok, hsound, hchain, hlog, hepoch⟩ := hback.returns work hi (by rw [← hm, connected_chain]) (Or.inr rfl)
    (hwork (steadyBlock i)) (by rw [hentries, lookup_insert_ite, if_neg hne.symm]; rfl) hne
    (by rw [hentries, lookup_insert_ite, if_pos rfl]; simp) depth
  -- with the second entry the map grows
  have hgrown : (m.insertAlternative (minedRules work) ⟨steadyBlock i, i, steadyWeight i + 189⟩).epoch ≠ m.epoch := by
    rw [ne_eq, insertAlternative_epoch, hfull, hentries, Nat.lt_one_iff, Finset.card_eq_zero]
    refine Finset.ne_empty_of_mem (a := (rivalBlock i).id) (Finmap.mem_keys.2 ?_)
    simp [Finmap.mem_insert]
  intro r
  rw [show r = _ from hresult, pushAll]
  generalize handleAlternativeBlock (minedRules work) (depth + 2) m (steadyBlock i) = q at hok hsound hchain hlog hepoch ⊢
  obtain ⟨p, result⟩ := q
  dsimp only at hok hsound hchain hlog hepoch
  subst hok
  obtain ⟨-, hdone⟩ := hsound.finishSwitch (by decide) (show 0 < i by omega)
    [⟨bei, (n.insertAlternative (minedRules work) bei).epoch⟩] ()
  have hinvalid : ¬p.Valid ⟨bei, (n.insertAlternative (minedRules work) bei).epoch⟩ := by
    rintro ⟨heq, -⟩
    exact hgrown (hepoch.symm.trans (heq.symm.trans hsame))
  refine ⟨hdone, (finishSwitch_chain _ _ _).trans hchain, (finishSwitch_log _ _ _ _).1.trans ?_⟩
  show (if p.Valid _ then _ else _) = _
  rw [if_neg hinvalid, hlog, hstarted, hid]
  rfl

end

theorem Steady.switch_comes_back {n : Node .mainnet} {i : Nat} (hi : i = 307050) (hn : n.Steady (i + 1)) :
    let rules := minedRules fun _ => 476
    let bl := rivalBlock i
    let bei : BlockExtendedInfo := ⟨bl, i, steadyWeight i + 189⟩
    let r := switchToAlternative rules (handleAlternativeBlock rules 3) (n.insertAlternative rules bei)
      (iterators rules n bl bei) false
    judgeAlternative rules n bl = .accepted bei false ∧ r.2 = .ok true ∧ r.1.base.tailId = (steadyBlock i).id ∧
    r.1.log = [.switchStarted false, .switchStarted false, .danglingErase bl.id] := by
  intro rules bl bei
  have hjudge := (hn.beside (i := i) (by omega) (by omega) (by omega)).judgeAlternative_contest (fun _ => 476) hi
    (by rw [hn.chain, length_steadyChain])
  rw [if_pos ⟨le_refl _, by rw [hn.base]; rfl⟩] at hjudge
  obtain ⟨hok, hchain, hlog⟩ := @Steady.comes_back n i (fun _ => 476) hi hn (fun _ => le_refl _) 1
  have hheavy : n.base.topDifficulty < steadyWeight i + 189 := by
    rw [topDifficulty_steady hn.chain, if_neg (by omega), Nat.add_sub_cancel]
    omega
  rw [handleAlternativeBlock_eq_of_heavier 3 hjudge hheavy] at hok hchain hlog
  refine ⟨hjudge, hok, ?_, hlog⟩
  rw [tailId_steady (k := i + 1) (by rw [hchain, steadyChain_succ])]
  simp [steadyBlock, Nat.mul_add]

/-- At height 307050 a switch to a block in the place of the tip reports success, and the old tip, handed back, is the tip
again. -/
theorem rival_comes_back :
    let rules := minedRules fun _ => 476
    let n := run arrive (init .mainnet) (steadyArrivals (fun _ => 476) 307051)
    let bl := rivalBlock 307050
    let bei : BlockExtendedInfo := ⟨bl, 307050, steadyWeight 307050 + 189⟩
    let r := switchToAlternative rules (handleAlternativeBlock rules 3) (n.insertAlternative rules bei)
      (iterators rules n bl bei) false
    judgeAlternative rules n bl = .accepted bei false ∧ r.2 = .ok true ∧
    r.1.base.tailId = (steadyBlock 307050).id ∧ (steadyBlock 307050).id ≠ bl.id ∧
    r.1.log = [.switchStarted false, .switchStarted false, .danglingErase bl.id] := by
  have hn := @steady_run (fun _ => 476) (fun _ => by decide) 307051 (by omega)
  have hne : (steadyBlock 307050).id ≠ (rivalBlock 307050).id := by decide +kernel
  obtain ⟨hjudge, hok, htail, hlog⟩ := Steady.switch_comes_back rfl hn
  exact ⟨hjudge, hok, htail, hne, hlog⟩

end Node

end Electronero
