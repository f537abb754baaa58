import Electronero.Lib.ExceptLoop
import Electronero.Lib.FiniteMap
/-!
# A map that indexes a list

`Indexes key m l`: the map leads from each key to the one record with it; records may go without a key.
-/
namespace ListIndex
open FiniteMap ExceptLoop List

section
variable {α : Type} {l : List α} {a b x : α} {i j : Nat}

theorem getElem?_concat_iff : (l ++ [a])[i]? = some x ↔ l[i]? = some x ∨ i = l.length ∧ x = a := by
  rw [getElem?_append]
  grind

theorem getElem?_set_iff (hi : l[i]? = some a) : (l.set i b)[j]? = some x ↔ i = j ∧ x = b ∨ i ≠ j ∧ l[j]? = some x := by
  have hlt : i < l.length := (List.getElem?_eq_some_iff.1 hi).1
  grind

end

section
variable {α κ : Type} [DecidableEq κ] {key : α → Option κ} {m : UMap κ Nat} {l : List α}

structure Indexes (key : α → Option κ) (m : UMap κ Nat) (l : List α) : Prop where
  lookup_iff : ∀ {k : κ} {i : Nat}, m.lookup k = some i ↔ ∃ x, l[i]? = some x ∧ key x = some k

theorem indexes_nil : Indexes key ∅ [] := ⟨by simp⟩

variable {i j : Nat} {k : κ} {x a : α}

theorem Indexes.eq_of_lookup (h : Indexes key m l) (hk : m.lookup k = some i)
    (hx : l[j]? = some x) (hxk : key x = some k) : j = i :=
  Option.some.inj ((h.lookup_iff.2 ⟨x, hx, hxk⟩).symm.trans hk)

theorem Indexes.unique (h : Indexes key m l) {y : α} (hx : l[i]? = some x) (hy : l[j]? = some y)
    (hxk : key x = some k) (hyk : key y = some k) : i = j :=
  h.eq_of_lookup (h.lookup_iff.2 ⟨y, hy, hyk⟩) hx hxk

theorem Indexes.key_of_lookup (h : Indexes key m l) (hk : m.lookup k = some i)
    (hx : l[i]? = some x) : key x = some k := by
  obtain ⟨y, hy, hyk⟩ := h.lookup_iff.1 hk
  rw [hx] at hy
  cases hy
  exact hyk

theorem Indexes.key_ne (h : Indexes key m l) (hk : m.lookup k = none) (hx : l[i]? = some x) : key x ≠ some k := by
  intro hxk
  rw [h.lookup_iff.2 ⟨x, hx, hxk⟩] at hk
  cases hk

theorem Indexes.eq {m' : UMap κ Nat} (h : Indexes key m l) (h' : Indexes key m' l) : m = m' := by
  refine Finmap.ext_lookup fun k => Option.ext fun i => ?_
  rw [h.lookup_iff, h'.lookup_iff]

theorem Indexes.push (h : Indexes key m l) (hk : key a = some k) (hnone : m.lookup k = none) :
    Indexes key (m.insert k l.length) (l ++ [a]) := by
  refine ⟨fun {k' i} => ?_⟩
  simp only [lookup_insert_ite, getElem?_concat_iff, or_and_right, exists_or]
  rw [← h.lookup_iff]
  grind

theorem Indexes.push_none (h : Indexes key m l) (hk : key a = none) : Indexes key m (l ++ [a]) := by
  refine ⟨fun {k i} => ?_⟩
  simp only [getElem?_concat_iff, or_and_right, exists_or]
  rw [← h.lookup_iff]
  simp [hk]

theorem Indexes.set (h : Indexes key m l) {b : α} (hi : l[i]? = some a) (hk : key b = key a) :
    Indexes key m (l.set i b) := by
  refine ⟨fun {k j} => ?_⟩
  rw [h.lookup_iff]
  grind

theorem Indexes.map (h : Indexes key m l) {f : α → α} (hf : ∀ x, key (f x) = key x) : Indexes key m (l.map f) := by
  refine ⟨fun {k i} => ?_⟩
  rw [h.lookup_iff, getElem?_map]
  grind

theorem foldlM_erase {ε : Type} {f : UMap κ Nat → α → Except ε (UMap κ Nat)} {xs : List α}
    (hskip : ∀ x ∈ xs, key x = none → ∀ m, f m x = .ok m)
    (herase : ∀ x ∈ xs, ∀ k, key x = some k → ∀ m i, m.lookup k = some i → f m x = .ok (m.erase k))
    (hdistinct : xs.Pairwise fun x y => ∀ k, key x = some k → key y ≠ some k)
    (hmem : ∀ x ∈ xs, ∀ k, key x = some k → ∃ i, m.lookup k = some i) : ∃ m', xs.foldlM f m = .ok m' ∧
      ∀ k i, m'.lookup k = some i ↔ m.lookup k = some i ∧ ∀ x ∈ xs, key x ≠ some k := by
  induction xs generalizing m with
  | nil => exact ⟨m, rfl, by simp⟩
  | cons x xs ih =>
    have hskip' := fun y hy => hskip y (mem_cons_of_mem x hy)
    have herase' := fun y hy => herase y (mem_cons_of_mem x hy)
    obtain ⟨hx, hxs⟩ := pairwise_cons.1 hdistinct
    cases hkey : key x with
    | none =>
      obtain ⟨m', hloop, hlookup⟩ := ih hskip' herase' hxs (fun y hy => hmem y (mem_cons_of_mem x hy))
      grind [foldlM_cons_ok]
    | some k₀ =>
      obtain ⟨i₀, hi₀⟩ := hmem x mem_cons_self k₀ hkey
      have hrest : ∀ y ∈ xs, ∀ k, key y = some k → ∃ i, (m.erase k₀).lookup k = some i := by
        intro y hy k hyk
        have hne : k ≠ k₀ := fun he => hx y hy k₀ hkey (he ▸ hyk)
        rw [Finmap.lookup_erase_ne hne]
        exact hmem y (mem_cons_of_mem x hy) k hyk
      obtain ⟨m', hloop, hlookup⟩ := ih hskip' herase' hxs hrest
      refine ⟨m', foldlM_cons_ok.2 ⟨m.erase k₀, herase x mem_cons_self k₀ hkey m i₀ hi₀, hloop⟩, fun k i => ?_⟩
      rw [hlookup]
      by_cases hne : k = k₀
      · subst hne
        simp [hkey]
      · have hne' : ¬ k₀ = k := fun he => hne he.symm
        simp [hkey, Finmap.lookup_erase_ne hne, hne']

theorem Indexes.erase_drop {ε : Type} {f : UMap κ Nat → α → Except ε (UMap κ Nat)} (h : Indexes key m l) (n : Nat)
    (hskip : ∀ x ∈ l, key x = none → ∀ m, f m x = .ok m)
    (herase : ∀ x ∈ l, ∀ k, key x = some k → ∀ m i, m.lookup k = some i → f m x = .ok (m.erase k)) :
    ∃ m', (l.drop n).foldlM f m = .ok m' ∧ Indexes key m' (l.take n) := by
  have hdistinct : (l.drop n).Pairwise fun x y => ∀ k, key x = some k → key y ≠ some k := by
    refine Pairwise.sublist (drop_sublist n l) (pairwise_iff_getElem.2 ?_)
    intro i j hi hj hij k hik hjk
    have heq := h.unique (getElem?_eq_getElem hi) (getElem?_eq_getElem hj) hik hjk
    omega
  have hmem : ∀ x ∈ l.drop n, ∀ k, key x = some k → ∃ i, m.lookup k = some i := by
    intro x hx k hk
    obtain ⟨i, hi⟩ := mem_iff_getElem?.1 (mem_of_mem_drop hx)
    exact ⟨i, h.lookup_iff.2 ⟨x, hi, hk⟩⟩
  obtain ⟨m', hloop, hlookup⟩ := foldlM_erase (fun x hx => hskip x (mem_of_mem_drop hx))
    (fun x hx => herase x (mem_of_mem_drop hx)) hdistinct hmem
  refine ⟨m', hloop, ⟨fun {k i} => ?_⟩⟩
  rw [hlookup, h.lookup_iff]
  constructor
  · rintro ⟨⟨x, hx, hk⟩, hnot⟩
    have hlt : i < n := by
      by_contra hge
      refine hnot x (mem_iff_getElem?.2 ⟨i - n, ?_⟩) hk
      grind
    grind
  · rintro ⟨x, hx, hk⟩
    rw [getElem?_take] at hx
    split at hx
    · rename_i hlt
      refine ⟨⟨x, hx, hk⟩, fun y hy hyk => ?_⟩
      obtain ⟨j, hj⟩ := mem_iff_getElem?.1 hy
      rw [getElem?_drop] at hj
      have heq := h.unique hx hj hk hyk
      omega
    · cases hx

end
end ListIndex
