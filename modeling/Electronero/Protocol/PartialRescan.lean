import Electronero.Protocol.Rescan
import Electronero.Protocol.Creation
/-!
# A rescan from a height on (`cryptonote_protocol_handler.inl:1760-1834`)

The heights from 1 to `TOKEN_SIGNATURE_ACTIVATION_HEIGHT` all stand for 2000 blocks below it.
-/
namespace Electronero
open Text FiniteMap List

variable {env : Env} {rand : Transaction → UInt64}

theorem scanBlocks_tokens (s : TokenStore) (height : Nat) (chain : Chain) :
    (scanBlocks env rand s height chain).tokens = (processAll env rand s (visits height chain)).1 := by
  induction chain generalizing s height with
  | nil => rfl
  | cons b rest ih =>
    unfold scanBlocks visits
    grind [processAll_append, processAll, blockVisits]

theorem rescan_tokens (chain : Chain) (fromHeight : Nat) : (rescanTokenOperations env rand chain fromHeight).tokens =
      (processAll env rand .empty (visits (rescanFrom fromHeight) (chain.drop (rescanFrom fromHeight)))).1 := by
  unfold rescanTokenOperations
  dsimp only
  split
  · rename_i h
    rw [drop_eq_nil_of_le h]
    rfl
  · exact scanBlocks_tokens _ _ _

theorem full_rescan_tokens (chain : Chain) :
    (rescanTokenOperations env rand chain 0).tokens = (processAll env rand .empty (visits 0 chain)).1 :=
  rescan_tokens chain 0

def Idle (env : Env) (rand : Transaction → UInt64) (v : Visit) : Prop :=
  processTokenTx env .empty v.1 v.2 (rand v.2) = .ok .empty

theorem processAll_of_idle {vs : List Visit} (h : ∀ v ∈ vs, Idle env rand v) :
    processAll env rand .empty vs = (.empty, none) := by
  induction vs with
  | nil => rfl
  | cons v rest ih =>
    have hv : processTokenTx env .empty v.1 v.2 (rand v.2) = .ok .empty := h v mem_cons_self
    grind [processAll_cons]

theorem processAll_visits_of_idle {chain : Chain} {first : Nat}
    (h : ∀ v ∈ visits 0 (chain.take first), Idle env rand v) :
    processAll env rand .empty (visits 0 chain) = processAll env rand .empty (visits first (chain.drop first)) := by
  by_cases hle : first ≤ chain.length
  · have hcut : visits 0 chain = visits 0 (chain.take first) ++ visits first (chain.drop first) := by
      rw [← take_append_drop first chain, visits_append, take_append_drop, length_take, Nat.min_eq_left hle,
        Nat.zero_add]
    rw [hcut, processAll_append, processAll_of_idle h]
  · rw [take_of_length_le (by omega)] at h
    rw [drop_eq_nil_of_le (by omega), processAll_of_idle h]
    rfl

/-- **A partial rescan is the replay of the blocks from its start on**, and a full one for every continuation only if the
blocks below have no effect. -/
theorem partial_rescan_replays_from_start (env : Env) (rand : Transaction → UInt64) (chain : Chain) (fromHeight : Nat) :
    (rescanTokenOperations env rand chain fromHeight).tokens =
        (processAll env rand .empty (visits (rescanFrom fromHeight) (chain.drop (rescanFrom fromHeight)))).1 ∧
      ((∀ v ∈ visits 0 (chain.take (rescanFrom fromHeight)), Idle env rand v) →
        (rescanTokenOperations env rand chain fromHeight).tokens = (rescanTokenOperations env rand chain 0).tokens) ∧
      ((∀ above : Chain,
          (rescanTokenOperations env rand (chain.take (rescanFrom fromHeight) ++ above) fromHeight).tokens =
            (rescanTokenOperations env rand (chain.take (rescanFrom fromHeight) ++ above) 0).tokens) →
        (rescanTokenOperations env rand (chain.take (rescanFrom fromHeight)) 0).tokens = .empty) := by
  refine ⟨rescan_tokens chain fromHeight, fun hidle => ?_, fun hall => ?_⟩
  · rw [rescan_tokens, full_rescan_tokens, processAll_visits_of_idle hidle]
  · have hnothing := hall []
    rw [append_nil] at hnothing
    rw [← hnothing, rescan_tokens, drop_eq_nil_of_le (length_take_le _ _)]
    rfl

section Example

def blockWith (id : UInt8) (tx : Transaction) : StoredBlock :=
  ⟨⟨Env.plainKey id, 1, 0, 0, default, 0, ⟨Env.plainKey (id + 100), 2, some []⟩, [tx.id]⟩, [tx], 1⟩

def goldChain : Chain := [blockWith 1 ⟨Env.plainKey 9, 2, some []⟩, blockWith 2 Handler.goldTx]

/-- **A token created below the start is lost**: it is there after a rescan from 0 and gone after one
from 1, which starts 2000 blocks below the activation height. -/
theorem lost_below_start :
    ((rescanTokenOperations Env.plain (fun _ => 0) goldChain 0).tokens.get (ascii "Gold")).map (·.totalSupply) =
        some 10 ∧
      (rescanTokenOperations Env.plain (fun _ => 0) goldChain 1).tokens = .empty ∧
      (rescanTokenOperations Env.plain (fun _ => 0) goldChain 1).tokens ≠
        (rescanTokenOperations Env.plain (fun _ => 0) goldChain 0).tokens := by
  have hfull : ((rescanTokenOperations Env.plain (fun _ => 0) goldChain 0).tokens.get (ascii "Gold")).map
      (·.totalSupply) = some 10 := by
    decide +kernel
  have hpart : (rescanTokenOperations Env.plain (fun _ => 0) goldChain 1).tokens = .empty := by decide +kernel
  refine ⟨hfull, hpart, fun heq => ?_⟩
  rw [← heq, hpart] at hfull
  cases hfull

end Example

end Electronero
