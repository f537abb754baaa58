import Electronero.Core.State
import Electronero.Token.Store
/-!
# Transactions on their way into the pool (`cryptonote_core.cpp:597-751`, `:994-1016`)

The checks of a batch run each under its own `try`; `add_new_tx` does not, so an exception of the token hook ends the
whole batch at `CATCH_ENTRY_L0`. `noHook` is the daemon without a token layer.
-/
namespace Electronero
open Text FiniteMap

structure Daemon where
  base : Base
  tokens : TokenStore
deriving DecidableEq

abbrev TokenHook := TokenStore → UInt64 → Transaction → Except StdException TokenStore

def noHook : TokenHook := fun s _ _ => .ok s

def maxTxSize : Nat := 1000000000

def badSemanticsTxesMaxSize : Nat := 100

section
open TxVerificationContext (init)

def handleIncomingTxPre (rules : BaseRules) (base : Base) (blob : Bytes) :
    Option Transaction × TxVerificationContext :=
  if maxTxSize < blob.length then (none, { init with verificationFailed := true, tooBig := true })
  else match rules.parseTx blob with
    | none => (none, { init with verificationFailed := true })
    | some tx =>
      if tx.id ∈ base.badSemantics.1 ∨ tx.id ∈ base.badSemantics.2 then
        (none, { init with verificationFailed := true })
      else
        let maxTxVersion := if rules.hardForkVersion base.chain = 1 then 1 else 2
        if tx.version = 0 ∨ maxTxVersion < tx.version then (none, { init with verificationFailed := true })
        else (some tx, init)

end

def rememberBadSemantics (seen : Finset Hash × Finset Hash) (id : Hash) : Finset Hash × Finset Hash :=
  let first := insert id seen.1
  if badSemanticsTxesMaxSize ≤ first.card then (∅, first) else (first, seen.2)

def handleIncomingTxPost (rules : BaseRules) (base : Base) (tx : Transaction) (tvc : TxVerificationContext)
    (keptByBlock : Bool) : Base × Option Transaction × TxVerificationContext :=
  if !rules.checkTxSyntax tx then (base, none, { tvc with verificationFailed := true })
  else if keptByBlock && rules.isWithinCompiledBlockHashArea base.chain then (base, some tx, tvc)
  else if !rules.checkTxSemantic tx keptByBlock then
    ({ base with badSemantics := rememberBadSemantics base.badSemantics tx.id }, none,
      { tvc with verificationFailed := true })
  else (base, some tx, tvc)

def postAll (rules : BaseRules) (keptByBlock : Bool) : Base → List (Option Transaction × TxVerificationContext) →
    Base × List (Option Transaction × TxVerificationContext)
  | base, [] => (base, [])
  | base, (none, tvc) :: rest =>
    let q := postAll rules keptByBlock base rest
    (q.1, (none, tvc) :: q.2)
  | base, (some tx, tvc) :: rest =>
    if (base.pool.lookup tx.id).isSome || base.haveTx tx.id then
      let q := postAll rules keptByBlock base rest
      (q.1, (some tx, tvc) :: q.2)
    else
      let r := handleIncomingTxPost rules base tx tvc keptByBlock
      let q := postAll rules keptByBlock r.1 rest
      (q.1, r.2 :: q.2)

/-- An exception of the hook is thrown after the pool and the context have been written. -/
def addNewTx (rules : BaseRules) (hook : TokenHook) (d : Daemon) (tx : Transaction) (tvc : TxVerificationContext)
    (keptByBlock : Bool) : Daemon × TxVerificationContext × Except StdException Bool :=
  if (d.base.pool.lookup tx.id).isSome then (d, tvc, .ok true)
  else if d.base.haveTx tx.id then (d, tvc, .ok true)
  else
    let r := d.base.poolAdd rules tx keptByBlock
    if r.2.1 && keptByBlock then
      match hook d.tokens (UInt64.ofNat d.base.height) tx with
      | .ok tokens => (⟨r.1, tokens⟩, r.2.2, .ok true)
      | .error e => (⟨r.1, d.tokens⟩, r.2.2, .error e)
    else (⟨r.1, d.tokens⟩, r.2.2, .ok r.2.1)

/-- What `handle_incoming_txs` leaves behind; `escaped` is the exception it caught at its end. -/
structure Incoming where
  daemon : Daemon
  tvcs : List TxVerificationContext
  ok : Bool
  escaped : Option StdException

def offerAll (rules : BaseRules) (hook : TokenHook) (keptByBlock : Bool) : Daemon →
    List (Option Transaction × TxVerificationContext) → Incoming
  | d, [] => ⟨d, [], true, none⟩
  | d, (none, tvc) :: rest =>
    let q := offerAll rules hook keptByBlock d rest
    { q with tvcs := tvc :: q.tvcs, ok := false }
  | d, (some tx, tvc) :: rest =>
    match addNewTx rules hook d tx tvc keptByBlock with
    | (d, tvc, .ok r) =>
      let q := offerAll rules hook keptByBlock d rest
      { q with tvcs := tvc :: q.tvcs, ok := r && q.ok }
    -- the rest of the batch is not offered any more
    | (d, tvc, .error e) => ⟨d, tvc :: rest.map (·.2), false, some e⟩

def handleIncomingTxs (rules : BaseRules) (hook : TokenHook) (d : Daemon) (blobs : List Bytes) (keptByBlock : Bool) :
    Incoming :=
  let pre := blobs.map (handleIncomingTxPre rules d.base)
  let post := postAll rules keptByBlock d.base pre
  offerAll rules hook keptByBlock { d with base := post.1 } post.2

end Electronero
