import Mathlib.Algebra.Group.Nat.Defs
import Mathlib.Data.Set.Function
/-!
# Folding a row of leaves in pairs

Two rows of one length that fold to the same pair are equal, as long as `node` tells apart the pairs it was applied to
(`foldedPairs`); elsewhere it may have collisions, as every hash does.
-/
namespace PairTree
variable {α : Type}

def pairs : List α → List (α × α)
  | a :: b :: l => (a, b) :: pairs l
  | _ => []

def level (node : α → α → α) (l : List α) : List α := (pairs l).map fun p => node p.1 p.2

def fold (node : α → α → α) : Nat → Nat → List α → List α
  | 0, _, l => l
  | rounds + 1, width, l => if 2 < width then fold node rounds (width >>> 1) (level node l) else l

def foldedPairs (node : α → α → α) : Nat → Nat → List α → List (α × α)
  | 0, _, _ => []
  | rounds + 1, width, l =>
    if 2 < width then pairs l ++ foldedPairs node rounds (width >>> 1) (level node l) else []

theorem length_pairs (l : List α) : (pairs l).length = l.length / 2 := by
  induction l using pairs.induct with
  | case1 a b l ih => simp only [pairs, List.length_cons, ih]; omega
  | case2 l h =>
    match l with
    | [] => simp [pairs]
    | [a] => simp [pairs]
    | a :: b :: l => exact absurd rfl (h a b l)

theorem length_level (node : α → α → α) (l : List α) : (level node l).length = l.length / 2 := by
  rw [level, List.length_map, length_pairs]

variable {l l' : List α}

/-- Only a leftover element is not told by the pairs. -/
theorem pairs_inj (heven : l.length % 2 = 0) (hlen : l.length = l'.length) (h : pairs l = pairs l') : l = l' := by
  induction l using pairs.induct generalizing l' with
  | case1 a b l ih =>
    match l' with
    | [] => simp at hlen
    | [c] => simp at hlen
    | c :: d :: l' =>
      simp only [List.length_cons] at heven hlen
      simp only [pairs, List.cons.injEq, Prod.mk.injEq] at h
      rw [h.1.1, h.1.2, ih (by omega) (by omega) h.2]
  | case2 l hl =>
    match l with
    | [] => exact (List.eq_nil_of_length_eq_zero hlen.symm).symm
    | [a] => simp at heven
    | a :: b :: l => exact absurd rfl (hl a b l)

theorem map_injOn {β : Type} {f : α → β} {S : Set α} (hf : S.InjOn f) (hl : ∀ a ∈ l, a ∈ S)
    (hl' : ∀ a ∈ l', a ∈ S) (h : l.map f = l'.map f) : l = l' := by
  induction l generalizing l' with
  | nil => simpa using h
  | cons a l ih =>
    cases l' with
    | nil => cases h
    | cons b l' =>
      simp only [List.map_cons, List.cons.injEq] at h
      simp only [List.forall_mem_cons] at hl hl'
      rw [hf hl.1 hl'.1 h.1, ih hl.2 hl'.2 h.2]

section
variable {node : α → α → α} {S : Set (α × α)}

variable {l l' : List α}

theorem level_injOn (hS : S.InjOn fun p => node p.1 p.2) (heven : l.length % 2 = 0)
    (hlen : l.length = l'.length) (hl : ∀ p ∈ pairs l, p ∈ S) (hl' : ∀ p ∈ pairs l', p ∈ S)
    (h : level node l = level node l') : l = l' :=
  pairs_inj heven hlen (map_injOn hS hl hl' h)

theorem fold_injOn (hS : S.InjOn fun p => node p.1 p.2) (rounds k : Nat)
    (hlen : l.length = 2 ^ (k + 1)) (hlen' : l'.length = 2 ^ (k + 1))
    (hl : ∀ p ∈ foldedPairs node rounds (2 ^ (k + 1)) l, p ∈ S)
    (hl' : ∀ p ∈ foldedPairs node rounds (2 ^ (k + 1)) l', p ∈ S)
    (h : fold node rounds (2 ^ (k + 1)) l = fold node rounds (2 ^ (k + 1)) l') : l = l' := by
  induction rounds generalizing k l l' with
  | zero => exact h
  | succ rounds ih =>
    cases k with
    | zero => simpa [fold] using h
    | succ k =>
      have hpow : 2 ^ (k + 1 + 1) = 2 ^ (k + 1) * 2 := Nat.pow_succ ..
      have hpos : 2 ≤ 2 ^ (k + 1) := Nat.le_self_pow (by omega) 2
      have hwidth : 2 < 2 ^ (k + 1 + 1) := by omega
      have hhalf : 2 ^ (k + 1 + 1) >>> 1 = 2 ^ (k + 1) := by
        rw [Nat.shiftRight_eq_div_pow]
        omega
      simp only [foldedPairs, fold, if_pos hwidth, hhalf, List.mem_append] at hl hl' h
      have hlevel : level node l = level node l' :=
        ih k (by rw [length_level]; omega) (by rw [length_level]; omega) (fun p hp => hl p (.inr hp))
          (fun p hp => hl' p (.inr hp)) h
      exact level_injOn hS (by omega) (by omega) (fun p hp => hl p (.inl hp)) (fun p hp => hl' p (.inl hp)) hlevel

theorem length_fold (node : α → α → α) {rounds k : Nat} (hk : k ≤ rounds) (hlen : l.length = 2 ^ (k + 1)) :
    (fold node rounds (2 ^ (k + 1)) l).length = 2 := by
  induction rounds generalizing k l with
  | zero =>
    obtain rfl : k = 0 := by omega
    simpa [fold] using hlen
  | succ rounds ih =>
    cases k with
    | zero => simpa [fold] using hlen
    | succ k =>
      have hpow : 2 ^ (k + 1 + 1) = 2 ^ (k + 1) * 2 := Nat.pow_succ ..
      have hpos : 2 ≤ 2 ^ (k + 1) := Nat.le_self_pow (by omega) 2
      have hhalf : 2 ^ (k + 1 + 1) >>> 1 = 2 ^ (k + 1) := by
        rw [Nat.shiftRight_eq_div_pow]
        omega
      rw [fold, if_pos (by omega), hhalf]
      exact ih (by omega) (by rw [length_level]; omega)

end
end PairTree
