import Electronero.Core.TxPool
import Electronero.Lib.StrictWeak
import Mathlib.Data.Prod.Lex
/-!
# The order of the pool (`txCompare`, src/cryptonote_core/tx_pool.h:59-73)

Over any ordered fee rates and times. Of two entries with the same rate and time each precedes the other (:71).
-/
namespace Electronero.Wire
open OrderDual

abbrev Listed (Rate Time Id : Type) := (Rate × Time) × Id

section
variable {Rate Time Id : Type}

def rank (a : Listed Rate Time Id) : Rateᵒᵈ ×ₗ Time := toLex (toDual a.1.1, a.1.2)

variable {a b : Listed Rate Time Id}

theorem rank_eq : rank a = rank b ↔ a.1 = b.1 := by
  rw [rank, rank, toLex_inj, Prod.mk.injEq, toDual_inj, Prod.ext_iff]

variable [LinearOrder Rate] [LinearOrder Time]

theorem rank_lt : rank a < rank b ↔ b.1.1 < a.1.1 ∨ a.1.1 = b.1.1 ∧ a.1.2 < b.1.2 := by
  rw [rank, rank, Prod.Lex.toLex_lt_toLex]
  exact Iff.rfl

variable [DecidableEq Id]

def precedes (a b : Listed Rate Time Id) : Bool :=
  if b.1.1 < a.1.1 then true
  else if a.1.1 < b.1.1 then false
  else if a.1.2 < b.1.2 then true
  else if b.1.2 < a.1.2 then false
  else if a.2 ≠ b.2 then true
  else false

theorem precedes_iff : precedes a b = true ↔ rank a < rank b ∨ rank a = rank b ∧ a.2 ≠ b.2 := by
  rw [rank_lt, rank_eq, Prod.ext_iff]
  unfold precedes
  grind

def Untied (s : Set (Listed Rate Time Id)) : Prop := ∀ a ∈ s, ∀ b ∈ s, a.1 = b.1 → a.2 = b.2

/-- **The comparison is a strict weak order on the sets without ties**, and on no others. -/
theorem precedes_strictWeakOn_iff (s : Set (Listed Rate Time Id)) :
    StrictWeakOn (fun a b => precedes a b = true) s ↔ Untied s := by
  constructor
  · intro h a ha b hb hsame
    by_contra hne
    have hab : precedes a b = true := precedes_iff.2 (Or.inr ⟨rank_eq.2 hsame, hne⟩)
    have hba : precedes b a = true := precedes_iff.2 (Or.inr ⟨rank_eq.2 hsame.symm, Ne.symm hne⟩)
    exact h.asymm a ha b hb hab hba
  · intro huntied
    refine @StrictWeakOn.of_rank _ _ _ _ _ rank ?_ ?_
    · intro a ha b hb
      rw [precedes_iff, or_iff_left_iff_imp]
      rintro ⟨hsame, hne⟩
      exact absurd (huntied a ha b hb (rank_eq.1 hsame)) hne
    · intro a ha b hb hsame
      exact Prod.ext (rank_eq.1 hsame) (huntied a ha b hb (rank_eq.1 hsame))

end

theorem txCompare_iff (a b : SortedEntry) :
    txCompare a b ↔ precedes ((a.rate, a.receiveTime.toNat), a.txid) ((b.rate, b.receiveTime.toNat), b.txid) = true := by
  rw [precedes_iff, rank_lt, rank_eq, txCompare, Prod.mk.injEq, UInt64.lt_iff_toNat_lt, ← UInt64.toNat_inj]
  tauto

theorem tie_precedes_both : precedes (((1, 5), 0) : Listed Nat Int Nat) ((1, 5), 1) = true ∧
      precedes (((1, 5), 1) : Listed Nat Int Nat) ((1, 5), 0) = true := by
  decide

end Electronero.Wire
