import Electronero.Core.Weights
/-!
# A block a minute

Such a chain has difficulty 1 up to height 306999, and the fixed difficulties after that.
-/
namespace Electronero
open Text FiniteMap Machine List

namespace Difficulty

def Linear (a : Nat) (samples : List Sample) : Prop :=
  ∀ j (s : Sample), samples[j]? = some s → s = ⟨(60 * (a + j)).toUInt64, (a + j + 1).toUInt64⟩

variable {a : Nat} {samples : List Sample}

theorem Linear.take (h : Linear a samples) (k : Nat) : Linear a (samples.take k) := by
  intro j s hs
  rw [getElem?_take] at hs
  split at hs
  · exact h j s hs
  · cases hs

theorem Linear.drop (h : Linear a samples) (k : Nat) : Linear (a + k) (samples.drop k) := by
  intro j s hs
  rw [getElem?_drop] at hs
  rw [h _ s hs, ← Nat.add_assoc a k j]

variable {j : Nat}

theorem Linear.getD_timestamp (h : Linear a samples) (hj : j < samples.length) :
    (samples.map (·.timestamp)).getD j 0 = (60 * (a + j)).toUInt64 := by
  rw [getD_eq_getElem?_getD, getElem?_map, getElem?_eq_getElem hj,
    h j samples[j] (getElem?_eq_getElem hj)]
  rfl

theorem Linear.getD_cumulativeDifficulty (h : Linear a samples) (hj : j < samples.length) :
    (samples.map (·.cumulativeDifficulty)).getD j 0 = (a + j + 1).toUInt64 := by
  rw [getD_eq_getElem?_getD, getElem?_map, getElem?_eq_getElem hj,
    h j samples[j] (getElem?_eq_getElem hj)]
  rfl

theorem Linear.sorted (h : Linear a samples) (hbound : a + samples.length ≤ 1000000) :
    (samples.map (·.timestamp)).Pairwise (· ≤ ·) := by
  rw [pairwise_map, pairwise_iff_getElem]
  intro i j hi hj hij
  rw [h i samples[i] (getElem?_eq_getElem hi), h j samples[j] (getElem?_eq_getElem hj)]
  exact (UInt64.ofNat_le_iff_le (by simp [UInt64.size]; omega) (by simp [UInt64.size]; omega)).2 (by omega)

theorem toUInt64_sub {x y : Nat} (h : y ≤ x) : x.toUInt64 - y.toUInt64 = (x - y).toUInt64 := (UInt64.ofNat_sub h).symm

theorem Linear.spanAndWork_eq (h : Linear a samples) (hbound : a + samples.length ≤ 1000000) (hlen : 2 ≤ samples.length) :
    ∃ d, 0 < d ∧ d ≤ 1000000 ∧ spanAndWork samples = ((60 * d).toUInt64, d.toUInt64) := by
  obtain ⟨hlt, hle⟩ := cut_spec hlen
  generalize hc : cut samples.length = c at hlt hle
  obtain ⟨first, last⟩ := c
  dsimp only at hlt hle
  refine ⟨last - 1 - first, by omega, by omega, ?_⟩
  have hspan : 60 * (a + (last - 1)) - 60 * (a + first) = 60 * (last - 1 - first) := by omega
  have hwork : a + (last - 1) + 1 - (a + first + 1) = last - 1 - first := by omega
  have hne : (60 * (last - 1 - first)).toUInt64 ≠ 0 := by
    intro hzero
    have hmod := (UInt64.ofNat_eq_iff_mod_eq_toNat _ _).1 hzero
    grind
  unfold spanAndWork
  dsimp only
  rw [hc, (h.sorted hbound).insertionSort_eq, h.getD_timestamp (by omega), h.getD_timestamp (by omega),
    h.getD_cumulativeDifficulty (by omega), h.getD_cumulativeDifficulty (by omega), toUInt64_sub (by omega),
    toUInt64_sub (by omega), hspan, hwork, if_neg hne]

theorem Linear.nextDifficulty_eq (h : Linear a samples) (hbound : a + samples.length ≤ 1000000) :
    nextDifficulty samples 60 = 1 := by
  unfold nextDifficulty
  dsimp only
  split
  · rfl
  rename_i hlen
  have hlength : (samples.take 720).length ≤ samples.length := by simp
  obtain ⟨d, hpos, hd, heq⟩ := (h.take 720).spanAndWork_eq (by omega) (by omega)
  have hlow : d.toUInt64 * 60 = (60 * d).toUInt64 := by
    rw [Nat.mul_comm]
    exact (UInt64.ofNat_mul d 60).symm
  have hsum : (60 * d).toUInt64 + (60 * d).toUInt64 - 1 = (60 * d + 60 * d - 1).toUInt64 := by
    rw [← toUInt64_sub (by omega)]
    exact congrArg (· - 1) (UInt64.ofNat_add _ _).symm
  have hquotient : (60 * d + 60 * d - 1).toUInt64 / (60 * d).toUInt64 = ((60 * d + 60 * d - 1) / (60 * d)).toUInt64 :=
    (UInt64.ofNat_div (by omega) (by omega)).symm
  rw [heq]
  dsimp only
  rw [hlow, hsum, hquotient, Nat.div_eq_of_lt_le (k := 1) (by omega) (by omega)]
  rfl

end Difficulty

open Difficulty

def numberHash (k : Nat) : Hash :=
  ⟨k.toUInt8 :: (k / 256).toUInt8 :: (k / 65536).toUInt8 :: (k / 16777216).toUInt8 :: List.replicate 28 0, rfl⟩

def hashNumber (h : Hash) : Nat :=
  match h.bytes with
  | a :: b :: c :: d :: _ => a.toNat + 256 * b.toNat + 65536 * c.toNat + 16777216 * d.toNat
  | _ => 0

variable {k i : Nat} {b : Base} {bl : Block}

theorem hashNumber_numberHash (h : k < 4294967296) : hashNumber (numberHash k) = k := by
  simp only [hashNumber, numberHash, Nat.toUInt8_eq, UInt8.toNat_ofNat']
  omega

theorem numberHash_injective {l : Nat} (hk : k < 4294967296) (hl : l < 4294967296) (h : numberHash k = numberHash l) : k = l := by
  rw [← hashNumber_numberHash hk, h, hashNumber_numberHash hl]

def steadyBlock (i : Nat) : Block :=
  ⟨numberHash (2 * i + 2), ForkTable.mainnet.idealVersion i, ForkTable.mainnet.idealVersion i, (60 * i).toUInt64,
    numberHash (2 * i), i, ⟨numberHash (2 * i + 2), 2, some []⟩, []⟩

def rivalBlock (i : Nat) : Block := { steadyBlock i with id := numberHash (2 * i + 3) }

theorem rivalBlock_prevId (i : Nat) : (rivalBlock i).prevId = numberHash (2 * i) := rfl

def steadyIds : BlockIds where
  block h := if hashNumber h % 2 = 0 then steadyBlock (hashNumber h / 2 - 1) else rivalBlock (hashNumber h / 2 - 1)
  depth h := hashNumber h / 2
  depth_root := by decide

theorem depth_steady (hi : i < 1000000) : steadyIds.depth (steadyBlock i).prevId = i := by
  show hashNumber (numberHash (2 * i)) / 2 = i
  rw [hashNumber_numberHash (by omega)]
  omega

theorem known_steady (hi : i < 1000000) : steadyIds.Known (steadyBlock i) := by
  refine ⟨?_, ?_⟩
  · show (if hashNumber (numberHash (2 * i + 2)) % 2 = 0 then steadyBlock (hashNumber (numberHash (2 * i + 2)) / 2 - 1)
      else rivalBlock (hashNumber (numberHash (2 * i + 2)) / 2 - 1)) = steadyBlock i
    rw [hashNumber_numberHash (by omega), if_pos (by omega), show (2 * i + 2) / 2 - 1 = i by omega]
  · rw [depth_steady hi]
    show hashNumber (numberHash (2 * i + 2)) / 2 = i + 1
    rw [hashNumber_numberHash (by omega)]
    omega

theorem known_rival (hi : i < 1000000) : steadyIds.Known (rivalBlock i) := by
  refine ⟨?_, ?_⟩
  · show (if hashNumber (numberHash (2 * i + 3)) % 2 = 0 then steadyBlock (hashNumber (numberHash (2 * i + 3)) / 2 - 1)
      else rivalBlock (hashNumber (numberHash (2 * i + 3)) / 2 - 1)) = rivalBlock i
    rw [hashNumber_numberHash (by omega), if_neg (by omega), show (2 * i + 3) / 2 - 1 = i by omega]
  · show hashNumber (numberHash (2 * i + 3)) / 2 = steadyIds.depth (steadyBlock i).prevId + 1
    rw [hashNumber_numberHash (by omega), depth_steady hi]
    omega

def steadyWeight (i : Nat) : Nat :=
  if i < 307000 then i + 1
  else if i < 307010 then 307000 + 255 * (i - 306999)
  else 309550 + 287 * (i - 307009)

def steadyChain (k : Nat) : Chain := (List.range k).map fun i => ⟨steadyBlock i, [], steadyWeight i⟩

def steadyDifficulty (k : Nat) : Nat := if k < 307000 then 1 else if k < 307010 then 255 else 287

theorem steadyChain_succ (k : Nat) : steadyChain (k + 1) = steadyChain k ++ [⟨steadyBlock k, [], steadyWeight k⟩] := by
  simp [steadyChain, List.range_succ]

@[simp] theorem length_steadyChain (k : Nat) : (steadyChain k).length = k := by simp [steadyChain]

theorem topDifficulty_steady (h : b.chain = steadyChain k) :
    b.topDifficulty = if k = 0 then 0 else steadyWeight (k - 1) := by
  unfold Base.topDifficulty
  rw [h]
  cases k with
  | zero => rfl
  | succ k =>
    rw [steadyChain_succ]
    simp

theorem steadyWeight_eq (hk : k ≤ 307056) :
    (steadyDifficulty k + if k = 0 then 0 else steadyWeight (k - 1)) % UInt64.size = steadyWeight k := by
  unfold steadyDifficulty steadyWeight
  grind

theorem fixedDifficulty_steady (hlow : 307000 ≤ k) (hhigh : k ≤ 307056) :
    fixedDifficulty k = some (if k < 307010 then 255 else 287) := by
  simp only [fixedDifficulty, hardforkV7Height, hardforkV8Height]
  grind

theorem linear_steady (hk : k ≤ 307000) : Linear 0 ((steadyChain k).map (·.sample)) := by
  intro j s hs
  grind [steadyChain, StoredBlock.sample, steadyBlock, steadyWeight]

theorem demand_era1_steady (hk : k ≤ 307000) : era1.demand ((steadyChain k).map (·.sample)) = 1 := by
  show nextDifficulty (window 735 ((steadyChain k).map (·.sample))) 60 = 1
  refine ((linear_steady hk).drop _).nextDifficulty_eq ?_
  simp only [length_drop, length_map, length_steadyChain, skipGenesis]
  split <;> omega

theorem window_steady {count : Nat} (h : count < k) : window count ((steadyChain k).map (·.sample)) =
    (List.range' (k - count) count).map fun i => ⟨(60 * i).toUInt64, (steadyWeight i).toUInt64⟩ := by
  rw [window, length_map, length_steadyChain, Nat.min_eq_right (by omega), skipGenesis, if_neg (by omega), steadyChain,
    List.map_map, ← map_drop, range_eq_range', drop_range', Nat.zero_add, Nat.mul_one, Nat.sub_sub_self (by omega)]
  rfl

theorem demand_era2_steady (hk : k = 307050) : era2.demand ((steadyChain k).map (·.sample)) = 476 := by
  show nextDifficultyV2 (window 60 ((steadyChain k).map (·.sample))) 120 = 476
  rw [window_steady (by omega), hk]
  decide +kernel

theorem getDifficultyForNextBlock_steady (hk : k ≤ 307056) :
    getDifficultyForNextBlock (steadyChain k) = steadyDifficulty k := by
  unfold getDifficultyForNextBlock forNextBlock steadyDifficulty
  rw [length_map, length_steadyChain]
  by_cases hlow : k < 307000
  · rw [fixedDifficulty_of_short hlow, if_pos hlow, era_of_lt (by omega)]
    exact congrArg UInt64.toNat (demand_era1_steady (by omega))
  · rw [fixedDifficulty_steady (by omega) hk, if_neg hlow]
    dsimp only
    split <;> rfl

def minedRules (work : Block → Nat) : NodeRules where
  base _ := { BaseRules.lenient [] with
    difficultyForNextBlock := getDifficultyForNextBlock
    checkHeader := fun chain bl => decide (getDifficultyForNextBlock chain ≤ work bl)
    alternativeDifficulty := getNextDifficultyForAlternativeChain
    alternativeProof := fun _ bl _ difficulty => decide (difficulty ≤ work bl) }
  growBuckets k := 2 * k

theorem mainnet_minedRules (work : Block → Nat) : (minedRules work).Mainnet := fun _ => ⟨rfl, rfl⟩

def steadyArrivals (work : Block → Nat) (k : Nat) : List Node.Arrival :=
  (List.range k).map fun i => ⟨steadyBlock i, minedRules work, 3, ∅⟩

theorem accepted_minedRules (work : Block → Nat) (v : UInt8) (hprev : bl.prevId = b.tailId)
    (htxs : bl.txHashes = []) (hpos : getDifficultyForNextBlock b.chain ≠ 0) (hwork : getDifficultyForNextBlock b.chain ≤ work bl) :
    b.accepted ((minedRules work).base v) bl = some [] := by
  unfold Base.accepted
  rw [if_pos ⟨hprev, rfl, hpos, by simpa [minedRules] using hwork⟩, htxs]
  rfl

theorem entry_steady (work : Block → Nat) {v : UInt8} (hk : k ≤ 307056)
    (h : b.chain = steadyChain k) : b.entry ((minedRules work).base v) bl [] = ⟨bl, [], steadyWeight k⟩ := by
  show (⟨bl, [], (getDifficultyForNextBlock b.chain + b.topDifficulty) % UInt64.size⟩ : StoredBlock) = _
  rw [topDifficulty_steady h, h, getDifficultyForNextBlock_steady hk, steadyWeight_eq hk]

theorem tailId_steady {b : Base} {k : Nat} (h : b.chain = steadyChain k) : b.tailId = numberHash (2 * k) := by
  unfold Base.tailId
  rw [h]
  cases k with
  | zero => rfl
  | succ k =>
    rw [steadyChain_succ]
    simp [steadyBlock, Nat.mul_add]

namespace Node

structure Steady (k : Nat) (n : Node .mainnet) : Prop where
  base : n.base = .ofChain (steadyChain k)
  buckets : n.buckets = 1
  epoch : n.epoch = 0
  log : n.log = []
  settled : n.Settled steadyIds

theorem demands_steady (i : Nat) : ForkTable.mainnet.Demands i (steadyBlock i) := by
  refine ⟨rfl, ?_⟩
  show ForkTable.mainnet.idealVersion i ≤ if ForkTable.mainnet.idealVersion i = 0 then 1 else ForkTable.mainnet.idealVersion i
  grind

variable {k : Nat} {n : Node .mainnet}

theorem haveBlock_steady {j : Nat} (hk : k ≤ 1000000) (hj : j < 1000000) (hne : ∀ i < k, 2 * i + 2 ≠ j) :
    (Base.ofChain (steadyChain k)).haveBlock (numberHash j) = false := by
  have hnone : (Base.ofChain (steadyChain k)).blockExists (numberHash j) = false := by
    unfold Base.blockExists Base.ofChain steadyChain
    simp only [List.any_map, List.any_eq_false, mem_range, Function.comp, beq_iff_eq]
    intro i hi heq
    exact hne i hi (numberHash_injective (by omega) (by omega) heq)
  unfold Base.haveBlock
  rw [hnone]
  simp [Base.ofChain]

theorem Steady.withPool (h : n.Steady k) : n.withPool ∅ = n := by
  unfold Node.withPool
  have hpool : n.base = { n.base with pool := ∅ } := by
    rw [h.base]
    rfl
  rw [← hpool]

theorem Steady.arrive {work : Block → Nat} (hwork : ∀ i, 287 ≤ work (steadyBlock i)) (hk : k ≤ 307056)
    (h : n.Steady k) : (n.arrive ⟨steadyBlock k, minedRules work, 3, ∅⟩).Steady (k + 1) := by
  have hbase : (n.withPool ∅).base = .ofChain (steadyChain k) := by rw [h.withPool, h.base]
  have hprev : (steadyBlock k).prevId = (n.withPool ∅).base.tailId := by
    rw [hbase, tailId_steady rfl]
    rfl
  have hsettled : (n.arrive ⟨steadyBlock k, minedRules work, 3, ∅⟩).Settled steadyIds := by
    refine h.settled.arrive (by decide) _ (known_steady (by omega)) ⟨?_, fun hne => absurd hprev hne⟩
    rw [depth_steady (by omega)]
    exact demands_steady k
  have hdifficulty : getDifficultyForNextBlock (n.withPool ∅).base.chain = steadyDifficulty k := by
    rw [hbase]
    exact getDifficultyForNextBlock_steady hk
  have hbounds : 0 < steadyDifficulty k ∧ steadyDifficulty k ≤ 287 := by grind [steadyDifficulty]
  have hverdict := accepted_minedRules work (n.withPool ∅).version hprev rfl
    (by rw [hdifficulty]; omega) (by rw [hdifficulty]; exact hbounds.2.trans (hwork k))
  have hentry : (n.withPool ∅).base.entry ((minedRules work).base (n.withPool ∅).version) (steadyBlock k) [] =
      ⟨steadyBlock k, [], steadyWeight k⟩ := entry_steady work hk (by rw [hbase]; rfl)
  have hhave : (n.withPool ∅).base.haveBlock (steadyBlock k).id = false := by
    rw [hbase]
    exact haveBlock_steady (by omega) (by omega) fun i hi => by omega
  have hresult : n.arrive ⟨steadyBlock k, minedRules work, 3, ∅⟩ =
      (n.withPool ∅).set (steadyChain (k + 1)) [] ∅ ∅ (n.forks.addStored k (steadyBlock k)) := by
    unfold Node.arrive addNewBlock
    dsimp only
    rw [hhave, if_neg (by simp), if_neg (not_not.2 hprev), handleBlockToMainChain_of_accepted hverdict, hentry, hbase,
      steadyChain_succ]
    simp only [Base.ofChain, length_steadyChain]
    rfl
  rw [hresult] at hsettled ⊢
  refine ⟨?_, h.buckets, h.epoch, h.log, hsettled⟩
  show (⟨steadyChain (k + 1), n.base.alternatives, ∅, ∅, n.base.badSemantics, []⟩ : Base) = _
  rw [h.base]
  rfl

theorem steady_run {work : Block → Nat} (hwork : ∀ i, 287 ≤ work (steadyBlock i)) {k : Nat} (hk : k ≤ 307057) :
    (run arrive (init .mainnet) (steadyArrivals work k)).Steady k := by
  induction k with
  | zero => exact ⟨rfl, rfl, rfl, rfl, settled_init steadyIds _⟩
  | succ k ih =>
    unfold steadyArrivals
    rw [List.range_succ, map_append, run_append]
    exact (ih (by omega)).arrive hwork (by omega)

section
variable {k i : Nat} {n : Node .mainnet} {bl : Block}

theorem Steady.chain (h : n.Steady k) : n.base.chain = steadyChain k := by
  rw [h.base]
  rfl

theorem Steady.tailId (h : n.Steady k) : n.base.tailId = numberHash (2 * k) := by
  rw [h.base, tailId_steady rfl]

structure Beside (i : Nat) (n : Node .mainnet) (bl : Block) : Prop where
  sound : n.Sound steadyIds
  chain : ∃ post, n.base.chain = steadyChain i ++ post
  below : n.base.alternatives.lookup (numberHash (2 * i)) = none
  block : bl = steadyBlock i ∨ bl = rivalBlock i
  pos : 0 < i
  bound : i < 1000000

theorem steadyChain_take (hk : i ≤ k) : (steadyChain k).take i = steadyChain i := by
  rw [steadyChain, ← map_take, take_range, Nat.min_eq_left hk, steadyChain]

theorem Steady.beside (h : n.Steady k) (hpos : 0 < i) (hk : i ≤ k) (hbound : i < 1000000) : Beside i n (rivalBlock i) where
  sound := h.settled.1
  chain := ⟨(steadyChain k).drop i, by rw [h.chain, ← steadyChain_take hk, take_append_drop]⟩
  below := by
    rw [h.base]
    rfl
  block := Or.inr rfl
  pos := hpos
  bound := hbound

theorem Beside.prevId (h : Beside i n bl) : bl.prevId = numberHash (2 * i) := by
  rcases h.block with rfl | rfl <;> rfl

theorem Beside.altChain (h : Beside i n bl) : n.altChain bl = [] := by
  unfold Node.altChain
  rw [h.prevId]
  cases n.base.alternatives.keys.card with
  | zero => rfl
  | succ k => rw [Base.altChainTo, h.below]

theorem Beside.known (h : Beside i n bl) : steadyIds.Known bl := by
  rcases h.block with rfl | rfl
  · exact known_steady h.bound
  · exact known_rival h.bound

theorem Beside.depth (h : Beside i n bl) : steadyIds.depth bl.prevId = i := by
  rw [h.prevId]
  exact depth_steady h.bound

theorem Beside.demands (h : Beside i n bl) : ForkTable.mainnet.Demands i bl := by
  rcases h.block with rfl | rfl
  · exact demands_steady i
  · exact demands_steady i

theorem Beside.placed (h : Beside i n bl) : ∃ post, Placed steadyIds n bl (steadyChain i) post := by
  obtain ⟨post, hchain⟩ := h.chain
  have htip : steadyIds.tip ((steadyChain i).map (·.block)) = bl.prevId := by
    rw [h.prevId, ← @tailId_steady (.ofChain (steadyChain i)) i rfl, Base.tailId_eq steadyIds]
    rfl
  refine ⟨post, hchain, ?_, by rw [htip, h.altChain]; rfl, ?_⟩
  · rw [← length_pos_iff, length_steadyChain]
    exact h.pos
  · rw [h.altChain, map_nil, append_nil]
    exact HashTree.Naming.path_snoc.2 ⟨h.sound.tree.path_pre hchain, h.known, htip.symm⟩

theorem Beside.connectsToMain (h : Beside i n bl) : n.base.connectsToMain (n.altChain bl) bl = true := by
  obtain ⟨post, hchain⟩ := h.chain
  obtain ⟨i, rfl⟩ : ∃ j, i = j + 1 := ⟨i - 1, by have := h.pos; omega⟩
  rw [h.altChain, Base.connectsToMain, Base.blockExists, hchain, steadyChain_succ, h.prevId]
  simp [steadyBlock, Nat.mul_add]

theorem Beside.mainChainStopOffset_eq (h : Beside i n bl) : mainChainStopOffset n.base.chain (n.altChain bl) bl = i := by
  obtain ⟨post, hplaced⟩ := h.placed
  rw [hplaced.mainChainStopOffset_eq h.sound.tree, length_steadyChain]

theorem Beside.difficulty_eq (h : Beside i n bl) :
    getNextDifficultyForAlternativeChain n.base.chain (n.altChain bl) bl =
      ((era n.base.chain.length).demand ((steadyChain i).map (·.sample))).toNat := by
  obtain ⟨post, hchain⟩ := h.chain
  have htake : (n.base.chain.map (·.sample)).take i = (steadyChain i).map (·.sample) := by simp_all
  rw [getNextDifficultyForAlternativeChain, h.mainChainStopOffset_eq, h.altChain,
    forAlternativeChain_eq h.pos (by simp [hchain]), htake, map_nil, append_nil, length_map]
  rfl

theorem Beside.extendedInfo_eq (h : Beside i n bl) (difficulty : Nat) :
    n.base.extendedInfo (n.altChain bl) bl difficulty =
      ⟨bl, i, (steadyWeight (i - 1) + difficulty) % UInt64.size⟩ := by
  obtain ⟨post, hchain⟩ := h.chain
  have hpos := h.pos
  have hparent := h.mainChainStopOffset_eq
  rw [h.altChain, mainChainStopOffset] at hparent
  obtain ⟨j, rfl⟩ : ∃ j, i = j + 1 := ⟨i - 1, by omega⟩
  have hentry : n.base.chain[j]? = some ⟨steadyBlock j, [], steadyWeight j⟩ := by
    rw [hchain, getElem?_append_left (by simp), steadyChain_succ]
    simp
  rw [h.altChain, Base.extendedInfo]
  grind

theorem Beside.checkForHeight (h : Beside i n bl)
    (hsame : ForkTable.mainnet.idealIndex n.base.chain.length = ForkTable.mainnet.idealIndex i) :
    n.forks.hardFork.checkForHeight bl bl.height = true := by
  have hheight : bl.height = i := by rcases h.block with rfl | rfl <;> rfl
  rw [HardFork.checkForHeight, HardFork.getVotedForkIndex_eq (by decide), h.sound.forks.index, hheight, hsame, max_self]
  simpa [ForkTable.Demands, ForkTable.idealVersion] using h.demands

theorem Beside.judgeAlternative_eq (work : Block → Nat) (h : Beside i n bl)
    (hsame : ForkTable.mainnet.idealIndex n.base.chain.length = ForkTable.mainnet.idealIndex i) {difficulty : Nat}
    (hdifficulty : (era n.base.chain.length).demand ((steadyChain i).map (·.sample)) = difficulty.toUInt64)
    (hpos : 0 < difficulty) (hbound : difficulty < UInt64.size) : judgeAlternative (minedRules work) n bl =
      if difficulty ≤ work bl ∧ n.base.alternatives.lookup bl.id = none then
        .accepted ⟨bl, i, (steadyWeight (i - 1) + difficulty) % UInt64.size⟩ false
      else .refused := by
  have hheight : bl.height ≠ 0 := by
    have := h.pos
    rcases h.block with rfl | rfl <;> exact Nat.ne_of_gt this
  have hasked : getNextDifficultyForAlternativeChain n.base.chain (n.altChain bl) bl = difficulty := by
    rw [h.difficulty_eq, hdifficulty]
    exact Nat.mod_eq_of_lt hbound
  have hexists : n.base.blockExists bl.prevId = true := by
    have := h.connectsToMain
    rwa [h.altChain] at this
  unfold judgeAlternative
  dsimp only
  rw [if_neg (by simpa [minedRules, BaseRules.lenient] using hheight), if_neg (by simp [h.checkForHeight hsame]),
    if_neg (by simp [hexists]), if_neg (by simp [h.connectsToMain]),
    if_neg (by simp [minedRules, BaseRules.lenient])]
  simp only [minedRules, BaseRules.lenient, hasked, h.extendedInfo_eq]
  rw [if_neg (by omega)]
  by_cases hwork : difficulty ≤ work bl
  · cases hlookup : n.base.alternatives.lookup bl.id <;> simp [hwork]
  · simp [hwork]

theorem Beside.judgeAlternative_contest (work : Block → Nat) (hi : i = 307050) (h : Beside i n bl)
    (hlen : n.base.chain.length = i + 1) : judgeAlternative (minedRules work) n bl =
      if 476 ≤ work bl ∧ n.base.alternatives.lookup bl.id = none then .accepted ⟨bl, i, steadyWeight i + 189⟩ false
      else .refused := by
  have hweight : (steadyWeight (i - 1) + 476) % UInt64.size = steadyWeight i + 189 := by
    rw [hi]
    decide
  have hsame : ForkTable.mainnet.idealIndex n.base.chain.length = ForkTable.mainnet.idealIndex i := by
    rw [hlen, hi]
    decide +kernel
  have hera : era n.base.chain.length = era2 := by
    rw [hlen, hi]
    rfl
  have hdifficulty : (era n.base.chain.length).demand ((steadyChain i).map (·.sample)) = (476 : Nat).toUInt64 := by
    rw [hera]
    exact demand_era2_steady hi
  rw [h.judgeAlternative_eq work hsame hdifficulty (by decide) (by decide), hweight]

theorem Beside.replaces (work : Block → Nat) (hi : i = 307050) (h : Beside i n bl) {x : Block}
    (hchain : n.base.chain = steadyChain i ++ [⟨x, [], steadyWeight i⟩]) (hx : x = steadyBlock i ∨ x = rivalBlock i)
    (hwork : 476 ≤ work bl) (hnew : n.base.alternatives.lookup bl.id = none) (depth : Nat) :
    ∃ popped pool,
      let bei : BlockExtendedInfo := ⟨bl, i, steadyWeight i + 189⟩
      let m := connected (minedRules work) n bei false (steadyChain i) [⟨bl, [], steadyWeight i⟩] popped pool n.base.invalidBlocks
      handleAlternativeBlock (minedRules work) (depth + 1) n bl =
        finishSwitch [⟨bei, (n.insertAlternative (minedRules work) bei).epoch⟩] i
          (pushAll (handleAlternativeBlock (minedRules work) depth) m [x]) ∧ Beside i m x := by
  have hjudge := h.judgeAlternative_contest work hi (by rw [hchain]; simp)
  rw [if_pos ⟨hwork, hnew⟩] at hjudge
  obtain ⟨⟨pre, post, hangs⟩, -⟩ := judgeAlternative_accepted h.sound.tree h.known hjudge
  obtain ⟨post', hplaced⟩ := h.placed
  obtain ⟨rfl, rfl⟩ := hangs.toPlaced.unique hplaced
  obtain rfl : post = [⟨x, [], steadyWeight i⟩] := append_cancel_left (hangs.chain.symm.trans hchain)
  have htxs : bl.txHashes = [] := by rcases h.block with rfl | rfl <;> rfl
  have hasked : ∀ b : Base, b.chain = steadyChain i → getDifficultyForNextBlock b.chain = 287 := by
    intro b hb
    rw [hb, getDifficultyForNextBlock_steady (by omega), hi]
    rfl
  have haccepted : ∀ b : Base, b.chain = steadyChain i → b.accepted ((minedRules work).base n.version) bl = some [] := by
    intro b hb
    refine accepted_minedRules work n.version ?_ htxs (by rw [hasked b hb]; decide) (by rw [hasked b hb]; omega)
    rw [h.prevId, tailId_steady hb]
  have hheavier : n.base.topDifficulty < steadyWeight i + 189 := by
    unfold Base.topDifficulty
    rw [hchain]
    simp
  obtain ⟨popped, pool, hresult⟩ := handleAlternativeBlock_single h.sound.tree hangs hjudge hheavier h.altChain haccepted depth
  rw [entry_steady work (by omega) rfl, length_steadyChain, iterators, h.altChain] at hresult
  have hsound : (connected (minedRules work) n ⟨bl, i, steadyWeight i + 189⟩ false (steadyChain i)
      [⟨bl, [], steadyWeight i⟩] popped pool n.base.invalidBlocks).Sound steadyIds := by
    refine h.sound.connected (by decide) hangs (by rw [h.depth]; exact h.demands) ?_ (append_nil _).symm ?_
    · rw [hchain, length_steadyChain, length_append, length_steadyChain, length_singleton, hi]
      decide +kernel
    · rw [iterators, h.altChain]
      rfl
  refine ⟨popped, pool, hresult, hsound, ⟨_, connected_chain ..⟩, ?_, hx, h.pos, h.bound⟩
  rw [connected_alternatives, lookup_insert_ite, if_neg, h.below]
  intro heq
  rcases h.block with rfl | rfl
  · have := numberHash_injective (by omega) (by omega) heq
    omega
  · have := numberHash_injective (by omega) (by omega) heq
    omega

end

end Node

end Electronero
