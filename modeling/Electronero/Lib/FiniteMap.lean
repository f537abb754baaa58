import Mathlib.Data.Finmap
import Mathlib.Algebra.BigOperators.Group.Multiset.Basic
import Mathlib.Algebra.Order.BigOperators.Group.Multiset
/-!
# Unordered maps

Equality is extensional. A loop over the map runs in any order: it is over an enumeration of the keys (`Enumerates`).
-/
namespace FiniteMap

abbrev UMap (K V : Type) := Finmap fun _ : K => V

section
variable {K V : Type} [DecidableEq K]

/-- The value at `k`, a missing one read as `d` (`m[k]` value-initialises). -/
def getD (m : UMap K V) (k : K) (d : V) : V := (m.lookup k).getD d

theorem lookup_insert_ite (m : UMap K V) (k k' : K) (v : V) :
    (m.insert k v).lookup k' = if k' = k then some v else m.lookup k' := by
  by_cases h : k' = k
  · subst h; simp
  · simp [h, Finmap.lookup_insert_of_ne _ h]

variable {m : UMap K V} {k k' : K} {v : V}

theorem lookup_of_lookup_erase (h : (m.erase k).lookup k' = some v) : k' ≠ k ∧ m.lookup k' = some v := by
  by_cases hk : k' = k
  · subst hk
    rw [Finmap.lookup_erase] at h
    cases h
  · simp_all

theorem getD_insert (m : UMap K V) (k k' : K) (v d : V) :
    getD (m.insert k v) k' d = if k' = k then v else getD m k' d := by
  by_cases h : k' = k <;> simp [getD, lookup_insert_ite, h]

theorem getD_of_lookup {d : V} (h : m.lookup k = some v) : getD m k d = v := by
  simp [getD, h]

theorem insert_eq_self_iff : m.insert k v = m ↔ m.lookup k = some v := by
  constructor
  · intro h
    rw [← h, lookup_insert_ite, if_pos rfl]
  · intro h
    refine Finmap.ext_lookup fun k' => ?_
    grind [lookup_insert_ite]

omit [DecidableEq K] in
theorem nodupKeys_filter (p : K → V → Bool) (m : UMap K V) : (m.entries.filter fun e => p e.1 e.2).NodupKeys :=
  Multiset.nodup_keys.1 (Multiset.nodup_of_le (Multiset.map_le_map (Multiset.filter_le _ _))
    (Multiset.nodup_keys.2 m.nodupKeys))

def filter (p : K → V → Bool) (m : UMap K V) : UMap K V := ⟨m.entries.filter fun e => p e.1 e.2, nodupKeys_filter p m⟩

theorem lookup_filter_iff {p : K → V → Bool} : (filter p m).lookup k = some v ↔ m.lookup k = some v ∧ p k v = true := by
  rw [Finmap.lookup_eq_some_iff, Finmap.lookup_eq_some_iff]
  exact Multiset.mem_filter

def Enumerates (order : List K) (m : UMap K V) : Prop := order.Nodup ∧ ∀ k, k ∈ order ↔ k ∈ m

omit [DecidableEq K] in
theorem Enumerates.exists_order (m : UMap K V) : ∃ order : List K, Enumerates order m := by
  refine ⟨m.keys.toList, Finset.nodup_toList _, fun k => ?_⟩
  rw [Finset.mem_toList, Finmap.mem_keys]

theorem Enumerates.exists_last (h : k ∈ m) : ∃ order : List K, Enumerates (order ++ [k]) m := by
  obtain ⟨order, hn, hm⟩ := Enumerates.exists_order m
  refine ⟨order.erase k, ?_, fun k' => ?_⟩
  · grind
  · grind

def total (w : V → ℕ) (m : UMap K V) : ℕ := (m.entries.map fun e => w e.2).sum

omit [DecidableEq K] in
@[simp] theorem total_empty (w : V → ℕ) : total w (∅ : UMap K V) = 0 := rfl

theorem total_insert_fresh (w : V → ℕ) (v : V) (h : k ∉ m) : total w (m.insert k v) = w v + total w m := by
  rw [total, total, Finmap.entries_insert_of_notMem h, Multiset.map_cons, Multiset.sum_cons]

theorem insert_erase_self (m : UMap K V) (k : K) (v : V) : (m.erase k).insert k v = m.insert k v := by
  refine Finmap.ext_lookup fun k' => ?_
  rw [lookup_insert_ite, lookup_insert_ite]
  simp_all

theorem total_erase (w : V → ℕ) (m : UMap K V) (k : K) :
    total w (m.erase k) + ((m.lookup k).map w).getD 0 = total w m := by
  cases h : m.lookup k with
  | none =>
    have he : m.erase k = m := by
      refine Finmap.ext_lookup fun k' => ?_
      by_cases hk : k' = k
      · subst hk; simp [h]
      · rw [Finmap.lookup_erase_ne hk]
    simp [he]
  | some v =>
    have hins := total_insert_fresh w v (Finmap.notMem_erase_self (a := k) (s := m))
    grind [insert_erase_self, insert_eq_self_iff]

theorem total_insert (w : V → ℕ) (m : UMap K V) (k : K) (v : V) :
    total w (m.insert k v) + ((m.lookup k).map w).getD 0 = total w m + w v := by
  have hins := total_insert_fresh w v (Finmap.notMem_erase_self (a := k) (s := m))
  grind [total_erase, insert_erase_self]

theorem le_total (w : V → ℕ) (m : UMap K V) (k : K) : ((m.lookup k).map w).getD 0 ≤ total w m := by
  have := total_erase w m k
  omega

theorem add_le_total (w : V → ℕ) (m : UMap K V) (h : k' ≠ k) :
    ((m.lookup k).map w).getD 0 + ((m.lookup k').map w).getD 0 ≤ total w m := by
  have h1 := total_erase w m k
  have h2 := le_total w (m.erase k) k'
  rw [Finmap.lookup_erase_ne h] at h2
  omega

end

end FiniteMap
