import Electronero.Core.IncomingTxs
import Electronero.Protocol.Rescan
/-!
# Token payloads and the base layer

The token hook runs inside `core::add_new_tx`, behind the pool. An exception of `std::stoull` leaves through it, and the
rest of the batch is never offered to the pool.
-/
namespace Electronero
open Text FiniteMap

def processHook (env : Env) (rand : Transaction → UInt64) : TokenHook :=
  fun s height tx => processTokenTx env s height tx (rand tx)

/-- The transactions of a checked batch for which the hook is called: those the pool takes as new. -/
def hooked (rules : BaseRules) : Base → List (Option Transaction × TxVerificationContext) → List Transaction
  | _, [] => []
  | b, (none, _) :: rest => hooked rules b rest
  | b, (some tx, _) :: rest =>
    if (b.pool.lookup tx.id).isSome || b.haveTx tx.id then hooked rules b rest
    else
      let r := b.poolAdd rules tx true
      if r.2.1 then tx :: hooked rules r.1 rest else hooked rules r.1 rest

def batchVisits (rules : BaseRules) (base : Base) (blobs : List Bytes) : List Visit :=
  let pre := blobs.map (handleIncomingTxPre rules base)
  let post := postAll rules true base pre
  (hooked rules post.1 post.2).map fun tx => (UInt64.ofNat post.1.height, tx)

def Incoming.SameBase (q q' : Incoming) : Prop :=
  q.daemon.base = q'.daemon.base ∧ q.tvcs = q'.tvcs ∧ q.ok = q'.ok

variable {rules : BaseRules} {env : Env} {rand : Transaction → UInt64}

def Base.known (b : Base) (tx : Transaction) : Bool := (b.pool.lookup tx.id).isSome || b.haveTx tx.id

section Offer
variable {hook : TokenHook} {kept : Bool} {base : Base} {tokens : TokenStore} {tx : Transaction}
  {tvc : TxVerificationContext} {rest : List (Option Transaction × TxVerificationContext)}

theorem offerAll_known (h : base.known tx = true) :
    offerAll rules hook kept ⟨base, tokens⟩ ((some tx, tvc) :: rest) =
      let q := offerAll rules hook kept ⟨base, tokens⟩ rest
      { q with tvcs := tvc :: q.tvcs } := by
  have hadd : addNewTx rules hook ⟨base, tokens⟩ tx tvc kept = (⟨base, tokens⟩, tvc, .ok true) := by
    unfold addNewTx
    rcases Bool.or_eq_true_iff.1 h with h | h
    · rw [if_pos h]
    · split <;> rfl
  simp [offerAll, hadd]

theorem offerAll_refused (h : base.known tx = false) (hr : (base.poolAdd rules tx kept).2.1 = false) :
    offerAll rules hook kept ⟨base, tokens⟩ ((some tx, tvc) :: rest) =
      let q := offerAll rules hook kept ⟨(base.poolAdd rules tx kept).1, tokens⟩ rest
      { q with tvcs := (base.poolAdd rules tx kept).2.2 :: q.tvcs, ok := false } := by
  obtain ⟨h1, h2⟩ := Bool.or_eq_false_iff.1 h
  simp [offerAll, addNewTx, h1, h2, hr]

theorem offerAll_hooked (h : base.known tx = false) (hr : (base.poolAdd rules tx true).2.1 = true) :
    offerAll rules hook true ⟨base, tokens⟩ ((some tx, tvc) :: rest) =
      match hook tokens (UInt64.ofNat base.height) tx with
      | .ok tokens' =>
        let q := offerAll rules hook true ⟨(base.poolAdd rules tx true).1, tokens'⟩ rest
        { q with tvcs := (base.poolAdd rules tx true).2.2 :: q.tvcs }
      | .error e =>
        ⟨⟨(base.poolAdd rules tx true).1, tokens⟩, (base.poolAdd rules tx true).2.2 :: rest.map (·.2), false, some e⟩ := by
  obtain ⟨h1, h2⟩ := Bool.or_eq_false_iff.1 h
  grind [offerAll, addNewTx]

theorem hooked_known (h : base.known tx = true) : hooked rules base ((some tx, tvc) :: rest) = hooked rules base rest :=
  if_pos h

theorem hooked_new (h : base.known tx = false) : hooked rules base ((some tx, tvc) :: rest) =
      if (base.poolAdd rules tx true).2.1 then tx :: hooked rules (base.poolAdd rules tx true).1 rest
      else hooked rules (base.poolAdd rules tx true).1 rest := by
  unfold Base.known at h
  simp [hooked, h]

end Offer

theorem offerAll_spec (rs : List (Option Transaction × TxVerificationContext)) (base : Base)
    (tokens tokens₀ : TokenStore) :
    let vs := (hooked rules base rs).map fun tx => (UInt64.ofNat base.height, tx)
    let q := offerAll rules (processHook env rand) true ⟨base, tokens⟩ rs
    (q.escaped = none ↔ NoneThrows env rand tokens vs) ∧
    (q.escaped = none → q.SameBase (offerAll rules noHook true ⟨base, tokens₀⟩ rs) ∧
      q.daemon.tokens = (processAll env rand tokens vs).1) := by
  induction rs generalizing base tokens with
  | nil => exact ⟨⟨fun _ => trivial, fun _ => rfl⟩, fun _ => ⟨⟨rfl, rfl, rfl⟩, rfl⟩⟩
  | cons r rest ih =>
    obtain ⟨_ | tx, tvc⟩ := r
    · obtain ⟨h1, h2⟩ := ih base tokens
      refine ⟨h1, fun he => ?_⟩
      obtain ⟨⟨hbase, htvcs, -⟩, htok⟩ := h2 he
      exact ⟨⟨hbase, congrArg (tvc :: ·) htvcs, rfl⟩, htok⟩
    cases hknown : base.known tx with
    | true =>
      obtain ⟨h1, h2⟩ := ih base tokens
      rw [offerAll_known hknown, offerAll_known hknown, hooked_known hknown]
      refine ⟨h1, fun he => ?_⟩
      obtain ⟨⟨hbase, htvcs, hok⟩, htok⟩ := h2 he
      exact ⟨⟨hbase, congrArg (tvc :: ·) htvcs, hok⟩, htok⟩
    | false =>
      have hheight : (base.poolAdd rules tx true).1.height = base.height :=
        congrArg List.length (base.poolAdd_chain rules tx true)
      cases hr : (base.poolAdd rules tx true).2.1 with
      | false =>
        obtain ⟨h1, h2⟩ := ih (base.poolAdd rules tx true).1 tokens
        rw [offerAll_refused hknown hr, offerAll_refused hknown hr, hooked_new hknown, hr]
        rw [hheight] at h1 h2
        refine ⟨h1, fun he => ?_⟩
        obtain ⟨⟨hbase, htvcs, hok⟩, htok⟩ := h2 he
        exact ⟨⟨hbase, congrArg (_ :: ·) htvcs, rfl⟩, htok⟩
      | true =>
        rw [offerAll_hooked hknown hr, offerAll_hooked hknown hr, hooked_new hknown, if_pos hr, List.map_cons]
        dsimp only
        rw [processAll_cons]
        unfold NoneThrows processHook
        cases hp : processTokenTx env tokens (UInt64.ofNat base.height) tx (rand tx) with
        | ok tokens' =>
          obtain ⟨h1, h2⟩ := ih (base.poolAdd rules tx true).1 tokens'
          rw [hheight] at h1 h2
          have hno := not_throws_of_ok hp
          simp only [hno, true_and, Except.ok.injEq, forall_eq', noHook]
          refine ⟨h1, fun he => ?_⟩
          obtain ⟨⟨hbase, htvcs, hok⟩, htok⟩ := h2 he
          exact ⟨⟨hbase, congrArg (_ :: ·) htvcs, hok⟩, htok⟩
        | error e =>
          have ht : throws env tokens (UInt64.ofNat base.height) tx = true := throws_iff.2 ⟨e, hp⟩
          simp [ht]

/-- **Token payloads and the base layer.** Neither a batch nor a rescan is disturbed exactly if no payload on the way
throws. -/
theorem undisturbed_iff_noneThrows (env : Env) (rand : Transaction → UInt64) :
    (∀ (rules : BaseRules) (base : Base) (tokens : TokenStore) (blobs : List Bytes),
      let q := handleIncomingTxs rules (processHook env rand) ⟨base, tokens⟩ blobs true
      (q.escaped = none ∧ q.SameBase (handleIncomingTxs rules noHook ⟨base, tokens⟩ blobs true)) ↔
        NoneThrows env rand tokens (batchVisits rules base blobs)) ∧
    (∀ (chain : Chain) (fromHeight : Nat),
      (rescanTokenOperations env rand chain fromHeight).scannedBlocks = chain.length - rescanFrom fromHeight ↔
        NoneThrows env rand TokenStore.empty
          (visits (rescanFrom fromHeight) (chain.drop (rescanFrom fromHeight)))) := by
  refine ⟨fun rules base tokens blobs => ?_, fun chain fromHeight => rescan_completes_iff env rand chain fromHeight⟩
  let post := postAll rules true base (blobs.map (handleIncomingTxPre rules base))
  obtain ⟨h1, h2⟩ := @offerAll_spec rules env rand post.2 post.1 tokens tokens
  constructor
  · rintro ⟨he, -⟩
    exact h1.1 he
  · intro hno
    have he := h1.2 hno
    exact ⟨he, (h2 he).1⟩

section Example

def badAmountTx : Transaction :=
  signedTx 1 1 .transfer [ascii "cEVM1", Env.plainAddress 1, Env.plainAddress 2, ascii "x"]

def ordinaryTx : Transaction := ⟨Env.plainKey 2, 2, some []⟩

def twoTxRules : BaseRules := .lenient [(ascii "a", badAmountTx), (ascii "b", ordinaryTx)]

def badAmountBlock : StoredBlock :=
  ⟨⟨Env.plainKey 9, 1, 0, 0, default, 0, ⟨Env.plainKey 8, 2, some []⟩, [badAmountTx.id]⟩, [badAmountTx], 1⟩

/-- The second transaction of the batch never reaches the pool, and a rescan stops at the block. -/
theorem badAmount_stops_batch :
    let d : Daemon := ⟨Base.ofChain [], TokenStore.empty⟩
    let q := handleIncomingTxs twoTxRules (processHook Env.plain fun _ => 0) d [ascii "a", ascii "b"] true
    let q₀ := handleIncomingTxs twoTxRules noHook d [ascii "a", ascii "b"] true
    q.escaped = some .invalidArgument ∧ q.ok = false ∧ q₀.ok = true ∧
    q.daemon.base.pool.lookup ordinaryTx.id = none ∧ q₀.daemon.base.pool.lookup ordinaryTx.id = some ordinaryTx ∧
    (rescanTokenOperations Env.plain (fun _ => 0) [badAmountBlock] 0).scannedBlocks = 0 := by
  decide +kernel

end Example

end Electronero
