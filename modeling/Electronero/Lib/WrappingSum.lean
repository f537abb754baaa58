import Mathlib.Data.UInt
import Mathlib.Algebra.BigOperators.Group.List.Basic
/-!
# Sums that wrap

The usual test, that no addition makes the sum smaller, passes exactly if nothing wrapped. Running sums repeat a value
exactly if a stretch of the summands adds up to a multiple of `2^64`.
-/
namespace Wrapping

def sum (l : List UInt64) : UInt64 := l.foldl (· + ·) 0

def total (l : List UInt64) : Nat := (l.map UInt64.toNat).sum

/-- `for (x : l) { if (acc > x + acc) return false; acc += x; }` -/
def overflowFree : UInt64 → List UInt64 → Bool
  | _, [] => true
  | acc, x :: xs => if x + acc < acc then false else overflowFree (acc + x) xs

@[simp] theorem total_nil : total [] = 0 := rfl

@[simp] theorem total_cons (x : UInt64) (xs : List UInt64) : total (x :: xs) = x.toNat + total xs := by
  simp [total]

@[simp] theorem total_append (xs ys : List UInt64) : total (xs ++ ys) = total xs + total ys := by
  simp [total]

theorem foldl_eq (acc : UInt64) (l : List UInt64) : l.foldl (· + ·) acc = acc + sum l := by
  unfold sum
  induction l generalizing acc with
  | nil => simp
  | cons x xs ih => rw [List.foldl_cons, List.foldl_cons, ih, ih (0 + x), UInt64.zero_add, UInt64.add_assoc]

@[simp] theorem sum_nil : sum [] = 0 := rfl

@[simp] theorem sum_cons (x : UInt64) (xs : List UInt64) : sum (x :: xs) = x + sum xs := by
  rw [sum, List.foldl_cons, foldl_eq, UInt64.zero_add]

@[simp] theorem sum_append (xs ys : List UInt64) : sum (xs ++ ys) = sum xs + sum ys := by
  induction xs with
  | nil => simp
  | cons x xs ih => rw [List.cons_append, sum_cons, sum_cons, ih, UInt64.add_assoc]

theorem toNat_sum_mod (l : List UInt64) : (sum l).toNat = total l % 2 ^ 64 := by
  induction l with
  | nil => rfl
  | cons x xs ih => rw [sum_cons, total_cons, UInt64.toNat_add, ih, Nat.add_mod_mod]

variable {l : List UInt64}

theorem toNat_sum (h : total l < 2 ^ 64) : (sum l).toNat = total l := by
  rw [toNat_sum_mod, Nat.mod_eq_of_lt h]

theorem overflowFree_iff (acc : UInt64) (l : List UInt64) :
    overflowFree acc l = true ↔ acc.toNat + total l < 2 ^ 64 := by
  induction l generalizing acc with
  | nil => simpa [overflowFree] using acc.toNat_lt
  | cons x xs ih =>
    have hx := x.toNat_lt
    have hacc := acc.toNat_lt
    have hwrap : x + acc < acc ↔ 2 ^ 64 ≤ acc.toNat + x.toNat := by
      rw [UInt64.lt_iff_toNat_lt, UInt64.toNat_add]
      omega
    rw [overflowFree, total_cons]
    split
    · grind
    · rename_i h
      rw [hwrap, not_le] at h
      rw [ih, UInt64.toNat_add, Nat.mod_eq_of_lt h]
      omega

/-- The values `acc` takes in `for (x : l) acc += x`, behind its first one. -/
def running : UInt64 → List UInt64 → List UInt64
  | _, [] => []
  | acc, x :: xs => (x + acc) :: running (x + acc) xs

/-- `x[i] -= x[i-1]`, the last one first. -/
def differences : UInt64 → List UInt64 → List UInt64
  | _, [] => []
  | prev, x :: xs => (x - prev) :: differences x xs

theorem running_differences (prev : UInt64) (l : List UInt64) : running prev (differences prev l) = l := by
  induction l generalizing prev with
  | nil => rfl
  | cons x xs ih => rw [differences, running, UInt64.sub_add_cancel, ih]

theorem sum_eq_zero_iff (l : List UInt64) : sum l = 0 ↔ 2 ^ 64 ∣ total l := by
  rw [← UInt64.toNat_inj, toNat_sum_mod, UInt64.toNat_zero, Nat.dvd_iff_mod_eq_zero]

theorem mem_running_iff {acc y : UInt64} : y ∈ running acc l ↔ ∃ p, p <+: l ∧ p ≠ [] ∧ y = sum p + acc := by
  induction l generalizing acc with
  | nil => simp [running]
  | cons x xs ih =>
    rw [running, List.mem_cons, ih]
    constructor
    · rintro (rfl | ⟨p, hp, -, rfl⟩)
      · exact ⟨[x], by simp, by simp, by simp⟩
      · exact ⟨x :: p, by simpa using hp, by simp, by rw [sum_cons, UInt64.add_comm x (sum p), UInt64.add_assoc]⟩
    · rintro ⟨_ | ⟨z, p⟩, hp, hne, rfl⟩
      · exact absurd rfl hne
      · obtain ⟨rfl, hrest⟩ := List.cons_prefix_cons.1 hp
        rw [sum_cons, UInt64.add_comm z (sum p), UInt64.add_assoc]
        rcases p with _ | ⟨w, p⟩
        · simp
        · exact .inr ⟨w :: p, hrest, by simp, rfl⟩

/-- **The running sums are pairwise different exactly if no stretch of the summands adds up to a multiple of
`2^64`.** -/
theorem nodup_running_iff (acc : UInt64) (l : List UInt64) :
    (acc :: running acc l).Nodup ↔ ∀ s, s <:+: l → s ≠ [] → ¬ 2 ^ 64 ∣ total s := by
  induction l generalizing acc with
  | nil => simp [running]
  | cons x xs ih =>
    rw [List.nodup_cons, show running acc (x :: xs) = (x + acc) :: running (x + acc) xs from rfl, ih,
      show (x + acc) :: running (x + acc) xs = running acc (x :: xs) from rfl, mem_running_iff]
    -- a stretch starts at `x`, and then it is a repetition of `acc`, or it lies further on
    have hstart : ∀ p, acc = sum p + acc ↔ 2 ^ 64 ∣ total p := fun p => by
      rw [← sum_eq_zero_iff, eq_comm, UInt64.add_eq_right]
    constructor
    · rintro ⟨hacc, hrest⟩ s hs hne hdvd
      rcases List.infix_cons_iff.1 hs with hp | hi
      · exact hacc ⟨s, hp, hne, (hstart s).2 hdvd⟩
      · exact hrest s hi hne hdvd
    · intro h
      refine ⟨?_, fun s hs => h s (List.infix_cons_iff.2 (.inr hs))⟩
      rintro ⟨p, hp, hne, heq⟩
      exact h p hp.isInfix hne ((hstart p).1 heq)

end Wrapping
