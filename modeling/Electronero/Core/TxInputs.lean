import Electronero.Core.TxPool
/-!
# The inputs of a transaction (`check_tx_inputs`, src/cryptonote_core/blockchain.cpp:2701-3251)

`m_check_txin_table` is read only under `CACHE_VIN_RESULTS`, which is not defined. The check looks at the smallest ring
only, the one of the pool stops at the first ring of one member.
-/
namespace Electronero.Wire
open Text FiniteMap

structure ExpandedRct where
  rv : RctSig
  message : Hash
  mixRing : List (List CtKey)
  /-- `II` of each of the `MGs` -/
  ii : List (List KeyImage)

def isFull (type : UInt8) : Bool := type = rctTypeFull ∨ type = rctTypeFullBulletproof

def resizeToOne (mgs : List MgSig) : List MgSig := [mgs.headD ⟨[], default⟩]

/-- The ring of a full signature goes by member first, that of a simple one by input first. -/
def expandTransaction2 (tx : Transaction) (txPrefixHash : Hash) (pubkeys : List (List CtKey)) : Option ExpandedRct :=
  let rv := tx.rctSignatures
  let images := tx.toKeys.map TxinToKey.kImage
  if tx.version ≠ 2 then none
  else if (pubkeys.headD []) = [] then none
  else if isFull rv.type then
    if pubkeys.any fun ring => (pubkeys.headD []).length < ring.length then none
    else some
      { rv := { rv with p := { rv.p with MGs := resizeToOne rv.p.MGs } }
        message := txPrefixHash
        mixRing := (List.range (pubkeys.headD []).length).map fun m => pubkeys.filterMap (·[m]?)
        ii := [images] }
  else if isSimple rv.type then
    if rv.p.MGs.length ≠ tx.vin.length then none
    else some { rv, message := txPrefixHash, mixRing := pubkeys, ii := images.map ([·]) }
  else none

structure InputChain where
  hfVersion : UInt8
  db : OutputDb
  scanTable : ScanTable
  isTxSpendtimeUnlocked : UInt64 → Bool
  haveTxKeyimgAsSpent : KeyImage → Bool
  prefixHash : TransactionPrefix → Hash
  threaded : Bool
  checkRingSignature : Hash → KeyImage → List Key → List Signature → Bool
  verRct : ExpandedRct → Bool
  verRctSimple : ExpandedRct → Bool
  height : UInt64
  blocksHashCheckSize : UInt64
  getBlockHashFromHeight : UInt64 → Hash

def TxinToKey.mixin (t : TxinToKey) : UInt64 := UInt64.ofNat t.keyOffsets.length - 1

structure MixinCount where
  nUnmixable : UInt64
  mixin : UInt64

def countInput (db : OutputDb) (c : MixinCount) (t : TxinToKey) : MixinCount where
  nUnmixable :=
    if t.amount = 0 then c.nUnmixable
    else if UInt64.ofNat (db t.amount).length ≤ minMixin then c.nUnmixable + 1
    else c.nUnmixable
  mixin := if t.mixin < c.mixin then t.mixin else c.mixin

def countInputs (db : OutputDb) (tx : Transaction) : MixinCount := tx.toKeys.foldl (countInput db) ⟨0, 0xffffffffffffffff⟩

def imagesSorted : Option KeyImage → List TxinToKey → Bool
  | _, [] => true
  | lastKeyImage, t :: rest => lastKeyImage.all (fun last => t.kImage.bytes < last.bytes) && imagesSorted (some t.kImage) rest

namespace InputChain
variable (chain : InputChain)

def checkMixin (tx : Transaction) (tvc : TxVerificationContext) : Except TxVerificationContext Unit :=
  if chain.hfVersion < 2 then .ok ()
  else
    let c := countInputs chain.db tx
    if maxMixin < c.mixin then .error { tvc with highMixin := true }
    else if 2 < tx.version then .error { tvc with verificationFailed := true }
    else if tx.version < (if 0 < c.nUnmixable then 1 else if 6 ≤ chain.hfVersion then 2 else 1) then
      .error { tvc with verificationFailed := true }
    else .ok ()

def inputLoop (tx : Transaction) (tvc : TxVerificationContext) :
    Nat → List TxIn → Option UInt64 → Except TxVerificationContext (List (List CtKey) × Option UInt64)
  | _, [], pmax => .ok ([], pmax)
  | sigIndex, txin :: vin, pmax =>
    match txin.getToKey with
    | none => .error tvc
    | some inToKey =>
      if inToKey.keyOffsets = [] then .error tvc
      else if chain.haveTxKeyimgAsSpent inToKey.kImage then .error { tvc with doubleSpend := true }
      else if tx.version = 1 ∧ tx.signatures.length ≤ sigIndex then .error tvc
      else
        let txPrefixHash := chain.prefixHash tx.toTransactionPrefix
        let sig := if tx.version = 1 then tx.signatures.getD sigIndex [] else []
        match checkTxInput chain.db chain.scanTable chain.isTxSpendtimeUnlocked tx.version inToKey txPrefixHash sig pmax with
        | none => .error tvc
        | some (pubkeys, pmax) =>
          if tx.version = 1 ∧ chain.threaded = false ∧
              chain.checkRingSignature txPrefixHash inToKey.kImage (pubkeys.map CtKey.dest) sig = false then .error tvc
          else (inputLoop tx tvc (sigIndex + 1) vin pmax).map fun r => (pubkeys :: r.1, r.2)

def ringSignaturesHold (tx : Transaction) (pubkeys : List (List CtKey)) : Bool :=
  (tx.toKeys.zip (pubkeys.zip tx.signatures)).all fun (t, ring, sig) =>
    chain.checkRingSignature (chain.prefixHash tx.toTransactionPrefix) t.kImage (ring.map CtKey.dest) sig

def checkRctSignatures (tx : Transaction) (pubkeys : List (List CtKey)) (e : ExpandedRct) : Bool :=
  let images := tx.toKeys.map TxinToKey.kImage
  if isSimple e.rv.type then
    pubkeys = e.mixRing && e.rv.p.MGs.length = tx.vin.length && e.ii.map List.head? = images.map some &&
      chain.verRctSimple e
  else if isFull e.rv.type then
    pubkeys.all (fun ring => ring.length = e.mixRing.length) && e.mixRing.all (fun row => row.length = pubkeys.length) &&
      pubkeys.zipIdx.all (fun (ring, n) => ring.map some = e.mixRing.map (·[n]?)) &&
      e.rv.p.MGs.length = 1 && e.ii = [images] && chain.verRct e
  else false

def checkTxInputs (tx : Transaction) (tvc : TxVerificationContext) (pmax : Option UInt64) :
    Option (Option UInt64) × TxVerificationContext :=
  match chain.checkMixin tx tvc with
  | .error tvc => (none, tvc)
  | .ok () =>
    if 7 ≤ chain.hfVersion ∧ imagesSorted none tx.toKeys = false then (none, { tvc with verificationFailed := true })
    else match chain.inputLoop tx tvc 0 tx.vin (pmax.map fun _ => 0) with
      | .error tvc => (none, tvc)
      | .ok (pubkeys, pmax) =>
        if tx.version = 1 then
          if chain.threaded = true ∧ chain.ringSignaturesHold tx pubkeys = false then (none, tvc) else (some pmax, tvc)
        else match expandTransaction2 tx (chain.prefixHash tx.toTransactionPrefix) pubkeys with
          | none => (none, tvc)
          | some e => if chain.checkRctSignatures tx pubkeys e then (some pmax, tvc) else (none, tvc)

/-- A transaction that is kept by a block of the area with built-in hashes is not looked at. -/
def checkTxInputsFor (tx : Transaction) (keptByBlock : Bool) (tvc : TxVerificationContext) :
    Option (UInt64 × Hash) × TxVerificationContext :=
  if chain.height < chain.blocksHashCheckSize ∧ keptByBlock = true then (some (0, nullHash), tvc)
  else match chain.checkTxInputs tx tvc (some 0) with
    | (none, tvc) => (none, tvc)
    | (some pmax, tvc) =>
      if pmax.getD 0 < chain.height then (some (pmax.getD 0, chain.getBlockHashFromHeight (pmax.getD 0)), tvc)
      else (none, tvc)

end InputChain

def Transaction.Capped (tx : Transaction) : Prop :=
  ∀ t ∈ tx.toKeys, 1 ≤ t.keyOffsets.length ∧ t.keyOffsets.length ≤ maxMixin.toNat + 1

def Transaction.OnOneSide (tx : Transaction) : Prop :=
  (∀ t ∈ tx.toKeys, t.keyOffsets.length ≤ maxMixin.toNat + 1) ∨ ∀ t ∈ tx.toKeys, maxMixin.toNat + 1 < t.keyOffsets.length

def Transaction.NoneBehindSingle (tx : Transaction) : Prop :=
  tx.toKeys.Pairwise fun a b => a.keyOffsets.length = 1 → b.keyOffsets.length ≤ maxMixin.toNat + 1

def Transaction.SizesFit (tx : Transaction) : Prop := ∀ t ∈ tx.toKeys, t.keyOffsets.length < 2 ^ 64

instance (tx : Transaction) : Decidable tx.Capped := by unfold Transaction.Capped; infer_instance

instance (tx : Transaction) : Decidable tx.SizesFit := by unfold Transaction.SizesFit; infer_instance

section
variable {chain : InputChain} {tx : Transaction} {tvc : TxVerificationContext} {t : TxinToKey}

theorem TxinToKey.toNat_mixin (hfit : t.keyOffsets.length < 2 ^ 64) (hne : t.keyOffsets ≠ []) :
    t.mixin.toNat + 1 = t.keyOffsets.length := by
  have hpos : 0 < t.keyOffsets.length := List.length_pos_iff.2 hne
  rw [TxinToKey.mixin, UInt64.toNat_sub_of_le]
  · rw [UInt64.toNat_ofNat_of_lt' hfit]
    simp
    omega
  · rw [UInt64.le_iff_toNat_le, UInt64.toNat_ofNat_of_lt' hfit]
    simpa using Nat.succ_le_of_lt hpos

theorem countInputs_mixin_le (db : OutputDb) (l : List TxinToKey) (c : MixinCount) (bound : UInt64) :
    (l.foldl (countInput db) c).mixin ≤ bound ↔ c.mixin ≤ bound ∨ ∃ t ∈ l, t.mixin ≤ bound := by
  induction l generalizing c with
  | nil => simp
  | cons t l ih =>
    have hfirst : (countInput db c t).mixin ≤ bound ↔ c.mixin ≤ bound ∨ t.mixin ≤ bound := by
      unfold countInput
      dsimp only
      grind
    grind

theorem InputChain.checkMixin_ok (hversion : 2 ≤ chain.hfVersion) (h : chain.checkMixin tx tvc = .ok ()) :
    ∃ t ∈ tx.toKeys, t.mixin ≤ maxMixin := by
  unfold InputChain.checkMixin at h
  rw [if_neg (UInt8.not_lt.2 hversion)] at h
  dsimp only at h
  by_cases hmixin : maxMixin < (countInputs chain.db tx).mixin
  · rw [if_pos hmixin] at h
    cases h
  have hle := UInt64.not_lt.1 hmixin
  rw [countInputs, countInputs_mixin_le] at hle
  exact hle.resolve_left (by decide)

variable {sigIndex : Nat} {vin : List TxIn} {pmax : Option UInt64} {r : List (List CtKey) × Option UInt64}

theorem InputChain.inputLoop_cons {txin : TxIn} (h : chain.inputLoop tx tvc sigIndex (txin :: vin) pmax = .ok r) :
    ∃ t pmax' r', txin.getToKey = some t ∧ t.keyOffsets ≠ [] ∧
      chain.inputLoop tx tvc (sigIndex + 1) vin pmax' = .ok r' := by
  unfold inputLoop at h
  rcases htokey : txin.getToKey with _ | t <;> rw [htokey] at h <;> dsimp only at h
  · cases h
  by_cases hempty : t.keyOffsets = []
  · rw [if_pos hempty] at h
    cases h
  rw [if_neg hempty] at h
  by_cases hspent : chain.haveTxKeyimgAsSpent t.kImage = true
  · rw [if_pos hspent] at h
    cases h
  rw [if_neg hspent] at h
  by_cases hsigs : tx.version = 1 ∧ tx.signatures.length ≤ sigIndex
  · rw [if_pos hsigs] at h
    cases h
  rw [if_neg hsigs] at h
  generalize checkTxInput chain.db chain.scanTable chain.isTxSpendtimeUnlocked tx.version t _ _ pmax = checked at h
  rcases checked with _ | ⟨pubkeys, pmax'⟩ <;> dsimp only at h
  · cases h
  rcases hrest : chain.inputLoop tx tvc (sigIndex + 1) vin pmax' with _ | r' <;> rw [hrest] at h
  · rw [Except.map] at h
    split_ifs at h
  · exact ⟨t, pmax', r', rfl, hempty, hrest⟩

theorem InputChain.inputLoop_ok (h : chain.inputLoop tx tvc sigIndex vin pmax = .ok r) :
    ∀ t ∈ vin.filterMap TxIn.getToKey, t.keyOffsets ≠ [] := by
  induction vin generalizing sigIndex pmax r with
  | nil => simp
  | cons txin vin ih => grind [InputChain.inputLoop_cons]

theorem InputChain.checkTxInputs_accepts (h : (chain.checkTxInputs tx tvc pmax).1.isSome) :
    chain.checkMixin tx tvc = .ok () ∧ ∀ t ∈ tx.toKeys, t.keyOffsets ≠ [] := by
  unfold InputChain.checkTxInputs at h
  rcases hmixin : chain.checkMixin tx tvc with _ | _ <;> rw [hmixin] at h <;> dsimp only at h
  · simp at h
  by_cases hsorted : 7 ≤ chain.hfVersion ∧ imagesSorted none tx.toKeys = false
  · rw [if_pos hsorted] at h
    simp at h
  rw [if_neg hsorted] at h
  rcases hloop : chain.inputLoop tx tvc 0 tx.vin (pmax.map fun _ => 0) with _ | r <;> rw [hloop] at h
  · simp at h
  · exact ⟨rfl, InputChain.inputLoop_ok hloop⟩

theorem InputChain.checkTxInputsFor_accepts {r : UInt64 × Hash} {tvc' : TxVerificationContext}
    (h : chain.checkTxInputsFor tx false tvc = (some r, tvc')) : (chain.checkTxInputs tx tvc (some 0)).1.isSome := by
  unfold InputChain.checkTxInputsFor at h
  grind

theorem TxinToKey.mixin_le_iff (hfit : t.keyOffsets.length < 2 ^ 64) (hne : t.keyOffsets ≠ []) :
    t.mixin ≤ maxMixin ↔ t.keyOffsets.length ≤ maxMixin.toNat + 1 := by
  rw [UInt64.le_iff_toNat_le, ← toNat_mixin hfit hne, Nat.add_le_add_iff_right]

theorem TxinToKey.mixin_lt_iff (hfit : t.keyOffsets.length < 2 ^ 64) (hne : t.keyOffsets ≠ []) :
    t.mixin < minMixin ↔ t.keyOffsets.length = 1 := by
  rw [UInt64.lt_iff_toNat_lt, ← toNat_mixin hfit hne]
  simp [minMixin]

theorem TxMemoryPool.mixin_le_of_mixinTooHigh (h : TxMemoryPool.mixinTooHigh vin = some false)
    (hpairs : (vin.filterMap TxIn.getToKey).Pairwise fun a b => a.mixin < minMixin → b.mixin ≤ maxMixin) :
    ∀ t ∈ vin.filterMap TxIn.getToKey, t.mixin ≤ maxMixin := by
  induction vin with
  | nil => simp
  | cons txin vin ih =>
    unfold TxMemoryPool.mixinTooHigh at h
    rcases htokey : txin.getToKey with _ | t <;> rw [htokey] at h <;> dsimp only at h
    · cases h
    rw [List.filterMap_cons_some htokey] at hpairs ⊢
    obtain ⟨hfirst, hpairs⟩ := List.pairwise_cons.1 hpairs
    grind [minMixin, TxinToKey.mixin, maxMixin]

end

/-- **Which accepted transactions keep to the limit on rings.** The chain's check is misled by rings on both sides of it,
the pool's by a ring of one member in front. -/
theorem ring_size_cap_iff (chain : InputChain) (tx : Transaction) (tvc : TxVerificationContext)
    (hversion : 2 ≤ chain.hfVersion) (hfit : tx.SizesFit) :
    (∀ pmax, (chain.checkTxInputs tx tvc pmax).1.isSome → (tx.Capped ↔ tx.OnOneSide)) ∧
    ∀ (rules : PoolRules) (m : PoolMoment) (p : TxMemoryPool) (id : Hash) (blobSize : UInt64) (relayed doNotRelay : Bool),
      m.checkTxInputs = chain.checkTxInputsFor →
      (p.addTx rules m tx id blobSize tvc false relayed doNotRelay).1 = true → (tx.Capped ↔ tx.NoneBehindSingle) := by
  refine ⟨fun pmax h => ?_, fun rules m p id blobSize relayed doNotRelay hm h => ?_⟩
  · obtain ⟨hmixin, hne⟩ := InputChain.checkTxInputs_accepts h
    obtain ⟨t, ht, hle⟩ := InputChain.checkMixin_ok hversion hmixin
    rw [TxinToKey.mixin_le_iff (hfit t ht) (hne t ht)] at hle
    constructor
    · intro hcapped
      exact .inl fun t' ht' => (hcapped t' ht').2
    · rintro (hwithin | hbeyond)
      · exact fun t' ht' => ⟨List.length_pos_iff.2 (hne t' ht'), hwithin t' ht'⟩
      · exact absurd (hbeyond t ht) (Nat.not_lt.2 hle)
  · rcases TxMemoryPool.addTx_cases rules m p tx id blobSize tvc false relayed doNotRelay with
      ⟨_, heq⟩ | ⟨_, heq⟩ | ⟨-, ⟨tooHigh, hloop, hlow⟩, -, fee, tvc', heq⟩
    · rw [heq] at h
      cases h
    · rw [heq] at h
      cases h
    · obtain rfl : tooHigh = false := hlow.resolve_left Bool.false_ne_true
      have hne : ∀ t ∈ tx.toKeys, t.keyOffsets ≠ [] := by
        rw [heq] at h
        unfold TxMemoryPool.addChecked at h
        rw [hm] at h
        rcases hcheck : chain.checkTxInputsFor tx false { tvc' with verificationFailed := true } with ⟨_ | r, tvc₁⟩
        · rw [hcheck] at h
          cases h
        · exact (InputChain.checkTxInputs_accepts (InputChain.checkTxInputsFor_accepts hcheck)).2
      constructor
      · intro hcapped
        exact List.pairwise_of_forall_mem_list fun _ _ b hb _ => (hcapped b hb).2
      · intro hpairs t ht
        refine ⟨List.length_pos_iff.2 (hne t ht), (TxinToKey.mixin_le_iff (hfit t ht) (hne t ht)).1 ?_⟩
        refine TxMemoryPool.mixin_le_of_mixinTooHigh hloop ?_ t ht
        refine hpairs.imp_of_mem fun {a b} ha hb hab hsingle => ?_
        rw [TxinToKey.mixin_le_iff (hfit b hb) (hne b hb)]
        exact hab ((TxinToKey.mixin_lt_iff (hfit a ha) (hne a ha)).1 hsingle)

def smallChain : InputChain where
  hfVersion := 8
  db amount := List.replicate (if amount = 7 then 1 else if amount = 8 then 102 else 0) ⟨default, 0, 0, default⟩
  scanTable := ∅
  isTxSpendtimeUnlocked _ := true
  haveTxKeyimgAsSpent _ := false
  prefixHash _ := nullHash
  threaded := false
  checkRingSignature _ _ _ _ := true
  verRct _ := true
  verRctSimple _ := true
  height := 1
  blocksHashCheckSize := 0
  getBlockHashFromHeight _ := nullHash

def twoRings (members : Nat) : Transaction :=
  { version := 1, unlockTime := 0, vout := [], extra := []
    vin := [.toKey 7 [0] (Env.plainKey 2), .toKey 8 (0 :: List.replicate (members - 1) 1) (Env.plainKey 1)]
    signatures := [[default], List.replicate members default] }

theorem small_rings_capped : (smallChain.checkTxInputs (twoRings 101) .init none).1.isSome ∧ (twoRings 101).Capped := by
  have hfit : (twoRings 101).SizesFit := by decide +kernel
  have haccepted : (smallChain.checkTxInputs (twoRings 101) .init none).1.isSome := by decide +kernel
  exact ⟨haccepted, ((ring_size_cap_iff smallChain (twoRings 101) .init (by decide) hfit).1 none haccepted).2
    (.inl (by decide +kernel))⟩

theorem large_ring_accepted :
    (smallChain.checkTxInputs (twoRings 102) .init none).1.isSome ∧
    (TxMemoryPool.new.addTx plainRules { calmMoment with checkTxInputs := smallChain.checkTxInputsFor } (twoRings 102) nullHash
      100 .init false true false).1 = true ∧
    ¬ (twoRings 102).Capped := by
  refine ⟨?_, ?_, ?_⟩ <;> decide +kernel

end Electronero.Wire
