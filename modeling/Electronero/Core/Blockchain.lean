import Electronero.Core.State
/-!
# The main chain and its alternatives (`src/cryptonote_core/blockchain.cpp`)

The returned `Bool` is the C++ result. A block holds hashes only: its transactions leave the pool when it is connected and
go back when it is popped or refused.
-/
namespace Electronero
open Text FiniteMap

namespace Base

def returnTxToPool (rules : BaseRules) (b : Base) (txs : List Transaction) : Base :=
  txs.foldl (fun b tx => (b.poolAdd rules tx true).1) b

def popBlock (rules : BaseRules) (b : Base) : Base × Option StoredBlock :=
  match b.chain.getLast? with
  | none => (b, none)
  | some e => (returnTxToPool rules { b with chain := b.chain.dropLast, popped := b.popped ++ [e] } e.txs.reverse, some e)

def takeTxs (rules : BaseRules) (bl : Block) : Base → List Transaction → List Hash → Base × List Transaction × Bool
  | b, txs, [] => (b, txs, true)
  | b, txs, id :: rest =>
    if b.haveTx id then (b, txs, false)
    else match b.pool.lookup id with
      | none => (b, txs, false)
      | some tx =>
        if rules.checkTxInputs b.chain bl tx then takeTxs rules bl { b with pool := b.pool.erase id } (txs ++ [tx]) rest
        else ({ b with pool := b.pool.erase id, invalidBlocks := insert bl.id b.invalidBlocks }, txs ++ [tx], false)

def topDifficulty (b : Base) : Nat := ((b.chain.getLast?).map (·.cumulativeDifficulty)).getD 0

def handleBlockToMainChain (rules : BaseRules) (b : Base) (bl : Block) : Base × Bool :=
  if bl.prevId ≠ b.tailId then (b, false)
  else if !rules.checkBlockTimestamp b.chain bl then (b, false)
  else if rules.difficultyForNextBlock b.chain = 0 then (b, false)
  else if !rules.checkHeader b.chain bl then (b, false)
  else
    let r := takeTxs rules bl b [] bl.txHashes
    if !r.2.2 then (returnTxToPool rules r.1 r.2.1, false)
    else if !rules.validateMinerTransaction b.chain bl r.2.1 then (returnTxToPool rules r.1 r.2.1, false)
    else if !rules.dbAddBlock b.chain bl r.2.1 then (returnTxToPool rules r.1 r.2.1, false)
    else
      let e : StoredBlock := ⟨bl, r.2.1, (rules.difficultyForNextBlock b.chain + b.topDifficulty) % UInt64.size⟩
      ({ r.1 with chain := r.1.chain ++ [e] }, true)

def popN (rules : BaseRules) : Nat → Base → Base
  | 0, b => b
  | n + 1, b => popN rules n (b.popBlock rules).1

def connectAll (rules : BaseRules) : Base → List Block → Base × List Block
  | b, [] => (b, [])
  | b, bl :: rest =>
    match handleBlockToMainChain rules b bl with
    | (b, true) => connectAll rules b rest
    | (b, false) => (b, bl :: rest)

def rollback (rules : BaseRules) (b : Base) (originalChain : List Block) (rollbackHeight : Nat) : Base × Bool :=
  if b.chain.length < rollbackHeight then (b, true)
  else
    let r := connectAll rules (popN rules (b.chain.length - rollbackHeight) b) originalChain
    (r.1, r.2.isEmpty)

def popUntil (rules : BaseRules) (id : Hash) : Nat → Base → Base × List Block
  | 0, b => (b, [])
  | n + 1, b =>
    if b.tailId = id then (b, [])
    else match b.popBlock rules with
      | (b, none) => (b, [])
      | (b, some e) =>
        let r := popUntil rules id n b
        (r.1, r.2 ++ [e.block])

def switchToAlternative (rules : BaseRules) (push : Base → Block → Base) (b : Base) (altChain : List BlockExtendedInfo)
    (discardDisconnectedChain : Bool) : Base × Bool :=
  match altChain with
  | [] => (b, false)
  | front :: _ =>
    if !b.blockExists front.block.prevId then (b, false)
    else
      let r := popUntil rules front.block.prevId b.chain.length b
      let splitHeight := r.1.chain.length
      let c := connectAll rules r.1 (altChain.map (·.block))
      if c.2 ≠ [] then
        -- the block that failed and all after it become invalid
        let back := (rollback rules c.1 r.2 splitHeight).1
        ({ back with
          invalidBlocks := c.2.foldl (fun s bl => insert bl.id s) back.invalidBlocks
          alternatives := c.2.foldl (fun m bl => m.erase bl.id) back.alternatives }, false)
      else
        let b := if discardDisconnectedChain then c.1 else r.2.foldl push c.1
        ({ b with alternatives := altChain.foldl (fun m e => m.erase e.block.id) b.alternatives }, true)

def altChainTo (alternatives : UMap Hash BlockExtendedInfo) : Nat → Hash → List BlockExtendedInfo
  | 0, _ => []
  | n + 1, id =>
    match alternatives.lookup id with
    | none => []
    | some e => altChainTo alternatives n e.block.prevId ++ [e]

def connectsToMain (b : Base) (altChain : List BlockExtendedInfo) (bl : Block) : Bool :=
  match altChain with
  | [] => b.blockExists bl.prevId
  | front :: _ =>
    front.height < b.chain.length && b.blockExists front.block.prevId &&
      ((b.chain[front.height - 1]?).map (·.block.id) == some front.block.prevId)

def extendedInfo (b : Base) (altChain : List BlockExtendedInfo) (bl : Block) (difficulty : Nat) : BlockExtendedInfo :=
  match altChain.getLast? with
  | some prev => ⟨bl, prev.height + 1, (prev.cumulativeDifficulty + difficulty) % UInt64.size⟩
  | none =>
    let parent := b.chain.findIdx (·.block.id == bl.prevId)
    ⟨bl, parent + 1, (((b.chain[parent]?).map (·.cumulativeDifficulty)).getD 0 + difficulty) % UInt64.size⟩

/-- A switch hands the blocks it disconnected back to this function, which could switch again; `depth`
bounds how often. -/
def handleAlternativeBlock (rules : BaseRules) : Nat → Base → Block → Base × Bool
  | 0, b, _ => (b, false)
  | depth + 1, b, bl =>
    if bl.height = 0 || !rules.alternativeAllowed b.chain bl then (b, false)
    -- an orphan is not kept
    else if !(b.alternatives.lookup bl.prevId).isSome && !b.blockExists bl.prevId then (b, true)
    else
      let altChain := altChainTo b.alternatives b.alternatives.keys.card bl.prevId
      if !b.connectsToMain altChain bl then (b, false)
      else if !rules.alternativeTimestamp b.chain altChain bl then (b, false)
      else
        let difficulty := rules.alternativeDifficulty b.chain altChain bl
        let bei := b.extendedInfo altChain bl difficulty
        match rules.checkpoint bei.height bl.id with
        | none => (b, false)
        | some isCheckpoint =>
          if difficulty = 0 then (b, false)
          else if !rules.alternativeProof b.chain bl bei.height difficulty then (b, false)
          else if (b.alternatives.lookup bl.id).isSome then (b, false)
          else
            let kept := { b with alternatives := b.alternatives.insert bl.id bei }
            let push := fun b bl => (handleAlternativeBlock rules depth b bl).1
            if isCheckpoint then switchToAlternative rules push kept (altChain ++ [bei]) true
            else if b.topDifficulty < bei.cumulativeDifficulty then
              switchToAlternative rules push kept (altChain ++ [bei]) false
            else (kept, true)

def addNewBlock (rules : BaseRules) (depth : Nat) (b : Base) (bl : Block) : Base × Bool :=
  if b.haveBlock bl.id then (b, false)
  else if bl.prevId ≠ b.tailId then handleAlternativeBlock rules depth b bl
  else handleBlockToMainChain rules b bl

end Base

end Electronero
