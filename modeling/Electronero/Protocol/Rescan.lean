import Electronero.Core.State
import Electronero.Protocol.ProcessTokenTx
/-!
# Rebuilding the store from the chain (`cryptonote_protocol_handler.inl:1760-1834`)

`rand` gives the draw of `crypto::rand` for a transaction, should it be needed.
-/
namespace Electronero
open Text FiniteMap

abbrev Visit := UInt64 × Transaction

def isCreateTx (tx : Transaction) : Bool :=
  (tx.tokenExtra.bind parseTokenExtra).any (·.op = .create)

def blockVisits (height : UInt64) (b : StoredBlock) : List Visit :=
  (b.block.minerTx :: (b.txs.filter isCreateTx ++ b.txs.filter (!isCreateTx ·))).map fun tx => (height, tx)

def processAll (env : Env) (rand : Transaction → UInt64) : TokenStore → List Visit → TokenStore × Option StdException
  | s, [] => (s, none)
  | s, (height, tx) :: rest =>
    match processTokenTx env s height tx (rand tx) with
    | .ok s' => processAll env rand s' rest
    | .error e => (s, some e)

structure RescanResult where
  tokens : TokenStore
  scannedBlocks : Nat
  escaped : Option StdException
deriving DecidableEq

def scanBlocks (env : Env) (rand : Transaction → UInt64) : TokenStore → Nat → Chain → RescanResult
  | s, _, [] => ⟨s, 0, none⟩
  | s, height, b :: rest =>
    match processAll env rand s (blockVisits (UInt64.ofNat height) b) with
    | (s', none) =>
      let q := scanBlocks env rand s' (height + 1) rest
      { q with scannedBlocks := q.scannedBlocks + 1 }
    | (s', some e) => ⟨s', 0, some e⟩

def rescanFrom (fromHeight : Nat) : Nat :=
  if 0 < fromHeight ∧ fromHeight ≤ tokenSignatureActivationHeight.toNat then tokenSignatureActivationHeight.toNat - 2000
  else fromHeight

def rescanTokenOperations (env : Env) (rand : Transaction → UInt64) (chain : Chain) (fromHeight : Nat) : RescanResult :=
  let first := rescanFrom fromHeight
  if chain.length ≤ first then ⟨TokenStore.empty, 0, none⟩
  else scanBlocks env rand TokenStore.empty first (chain.drop first)

def visits : Nat → Chain → List Visit
  | _, [] => []
  | height, b :: rest => blockVisits (UInt64.ofNat height) b ++ visits (height + 1) rest

theorem visits_append (height : Nat) (c d : Chain) :
    visits height (c ++ d) = visits height c ++ visits (height + c.length) d := by
  induction c generalizing height with
  | nil => rfl
  | cons e c ih =>
    have hlen : height + 1 + c.length = height + (c.length + 1) := by omega
    simp only [List.cons_append, visits, ih, List.append_assoc, List.length_cons, hlen]

def NoneThrows (env : Env) (rand : Transaction → UInt64) : TokenStore → List Visit → Prop
  | _, [] => True
  | s, (height, tx) :: rest => throws env s height tx = false ∧
      ∀ s', processTokenTx env s height tx (rand tx) = .ok s' → NoneThrows env rand s' rest

variable {env : Env} {rand : Transaction → UInt64}

theorem processAll_cons (s : TokenStore) (height : UInt64) (tx : Transaction) (rest : List Visit) :
    processAll env rand s ((height, tx) :: rest) =
      match processTokenTx env s height tx (rand tx) with
      | .ok s' => processAll env rand s' rest
      | .error e => (s, some e) := rfl

variable {s : TokenStore} {vs : List Visit}

theorem processAll_escaped_iff : (processAll env rand s vs).2 = none ↔ NoneThrows env rand s vs := by
  induction vs generalizing s with
  | nil => exact ⟨fun _ => trivial, fun _ => rfl⟩
  | cons v rest ih =>
    obtain ⟨height, tx⟩ := v
    rw [processAll_cons]
    unfold NoneThrows
    cases hp : processTokenTx env s height tx (rand tx) with
    | ok s' => grind [not_throws_of_ok]
    | error e =>
      have ht : throws env s height tx = true := throws_iff.2 ⟨e, hp⟩
      simp [ht]

theorem processAll_append (s : TokenStore) (vs ws : List Visit) : processAll env rand s (vs ++ ws) =
      match processAll env rand s vs with
      | (s', none) => processAll env rand s' ws
      | (s', some e) => (s', some e) := by
  induction vs generalizing s with
  | nil => rfl
  | cons v rest ih => grind [processAll_cons, processTokenTx]

theorem noneThrows_append {ws : List Visit} : NoneThrows env rand s (vs ++ ws) ↔
      NoneThrows env rand s vs ∧ NoneThrows env rand (processAll env rand s vs).1 ws := by
  rw [← processAll_escaped_iff, ← processAll_escaped_iff, ← processAll_escaped_iff, processAll_append]
  grind

theorem scanBlocks_complete_iff {height : Nat} {chain : Chain} :
    (scanBlocks env rand s height chain).scannedBlocks = chain.length ↔
      NoneThrows env rand s (visits height chain) := by
  induction chain generalizing s height with
  | nil => exact ⟨fun _ => trivial, fun _ => rfl⟩
  | cons b rest ih =>
    unfold scanBlocks visits
    grind [noneThrows_append, processAll_escaped_iff, processAll, blockVisits]

theorem rescan_completes_iff (env : Env) (rand : Transaction → UInt64) (chain : Chain) (fromHeight : Nat) :
    (rescanTokenOperations env rand chain fromHeight).scannedBlocks = chain.length - rescanFrom fromHeight ↔
      NoneThrows env rand TokenStore.empty (visits (rescanFrom fromHeight) (chain.drop (rescanFrom fromHeight))) := by
  unfold rescanTokenOperations
  simp only
  split
  · rename_i h
    have hlen : chain.length - rescanFrom fromHeight = 0 := by omega
    simp [List.drop_eq_nil_of_le h, visits, NoneThrows, hlen]
  · rw [← List.length_drop]
    exact scanBlocks_complete_iff

end Electronero
