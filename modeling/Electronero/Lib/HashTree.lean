import Mathlib.Data.List.Induction
import Mathlib.Data.List.Basic
import Mathlib.Order.Nat
/-!
# Paths in a hash-linked tree

A `Naming` is what a collision-free hash provides. A `Path` is a list of blocks from the root on, each naming the one
before it; the hash it ends in determines it.
-/
namespace HashTree
open List

structure Naming {B H : Type} (id prev : B → H) (root : H) where
  block : H → B
  depth : H → Nat
  depth_root : depth root = 0

namespace Naming
variable {B H : Type} {id prev : B → H} {root : H} (N : Naming id prev root)

def Known (b : B) : Prop := N.block (id b) = b ∧ N.depth (id b) = N.depth (prev b) + 1

def tip (_ : Naming id prev root) (c : List B) : H := (c.getLast?.map id).getD root

def Path (l : List B) : Prop := ∀ i b, l[i]? = some b → N.Known b ∧ prev b = N.tip (l.take i)

@[simp] theorem tip_nil : N.tip [] = root := rfl

@[simp] theorem tip_snoc (c : List B) (b : B) : N.tip (c ++ [b]) = id b := by simp [tip]

variable {N}

theorem path_nil : N.Path [] := by
  intro i b h
  simp at h

variable {c d : List B} {b : B}

theorem path_snoc : N.Path (c ++ [b]) ↔ N.Path c ∧ N.Known b ∧ prev b = N.tip c := by
  constructor
  · intro h
    refine ⟨fun i x hx => ?_, ?_⟩
    · obtain ⟨hi, -⟩ := List.getElem?_eq_some_iff.1 hx
      have hfull := h i x (by rw [getElem?_append_left hi, hx])
      grind
    · have hlast := h c.length b (by simp)
      rwa [take_left] at hlast
  · rintro ⟨hc, hb⟩ i x hx
    rcases lt_trichotomy i c.length with hi | rfl | hi
    · rw [getElem?_append_left hi] at hx
      rw [take_append_of_le_length (le_of_lt hi)]
      exact hc i x hx
    · grind
    · grind

theorem Path.known (h : N.Path c) (hb : b ∈ c) : N.Known b := by
  obtain ⟨i, hi⟩ := mem_iff_getElem?.1 hb
  exact (h i b hi).1

theorem Path.of_append (h : N.Path (c ++ d)) : N.Path c := by
  induction d using List.reverseRecOn with
  | nil => simpa using h
  | append_singleton d b ih => exact ih (path_snoc.1 (by simpa using h)).1

theorem Path.take (h : N.Path c) (k : Nat) : N.Path (c.take k) := by
  rw [← take_append_drop k c] at h
  exact h.of_append

theorem Path.depth_tip (h : N.Path c) : N.depth (N.tip c) = c.length := by
  induction c using List.reverseRecOn with
  | nil => exact N.depth_root
  | append_singleton c b ih =>
    obtain ⟨hc, hb, hprev⟩ := path_snoc.1 h
    rw [tip_snoc, hb.2, hprev, ih hc, length_append, length_singleton]

theorem Path.depth {l : List B} (h : N.Path l) {i : Nat} (hb : l[i]? = some b) : N.depth (id b) = i + 1 := by
  obtain ⟨hi, -⟩ := List.getElem?_eq_some_iff.1 hb
  obtain ⟨hknown, hprev⟩ := h i b hb
  rw [hknown.2, hprev, (h.take i).depth_tip, length_take, min_eq_left (le_of_lt hi)]

theorem Path.pairwise (h : N.Path c) : c.Pairwise fun a b => id a ≠ id b := by
  refine pairwise_iff_getElem.2 fun i j hi hj hij heq => ?_
  have hdi := h.depth (getElem?_eq_getElem hi)
  have hdj := h.depth (getElem?_eq_getElem hj)
  rw [heq] at hdi
  omega

theorem Known.eq_of_id {a : B} (ha : N.Known a) (hb : N.Known b) (h : id a = id b) : a = b := by
  rw [← ha.1, ← hb.1, h]

theorem Path.unique (hc : N.Path c) (hd : N.Path d) (h : N.tip c = N.tip d) : c = d := by
  have hlen : c.length = d.length := by rw [← hc.depth_tip, ← hd.depth_tip, h]
  induction c using List.reverseRecOn generalizing d with
  | nil => exact (length_eq_zero_iff.1 hlen.symm).symm
  | append_singleton c b ih =>
    have hne : d ≠ [] := by
      rintro rfl
      simp at hlen
    obtain ⟨d', b', rfl⟩ := (eq_nil_or_concat' d).resolve_left hne
    obtain ⟨hc', hb, hprev⟩ := path_snoc.1 hc
    obtain ⟨hd', hb', hprev'⟩ := path_snoc.1 hd
    rw [tip_snoc, tip_snoc] at h
    obtain rfl : b = b' := hb.eq_of_id hb' h
    grind

/-- **Paths that share a hash agree up to it.** -/
theorem Path.agree {l : List B} (hl : N.Path l) (hd : N.Path d) {a : B} {i j : Nat} (ha : l[i]? = some a)
    (hb : d[j]? = some b) (h : id a = id b) : i = j ∧ l.take (i + 1) = d.take (i + 1) := by
  have hdepth := hl.depth ha
  rw [h, hd.depth hb] at hdepth
  obtain rfl : i = j := by omega
  refine ⟨rfl, (hl.take _).unique (hd.take _) ?_⟩
  rw [take_add_one, take_add_one, ha, hb]
  simpa using h

theorem Path.id_ne_tip (h : N.Path (c ++ d)) (hb : b ∈ d) : id b ≠ N.tip c := by
  intro heq
  obtain ⟨i, hi⟩ := mem_iff_getElem?.1 hb
  have hdepth := h.depth (i := c.length + i) (b := b) (by rw [getElem?_append_right (by omega)]; simpa using hi)
  rw [heq, h.of_append.depth_tip] at hdepth
  omega

end Naming

end HashTree
