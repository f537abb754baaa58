import Mathlib.Data.List.Sort
/-!
# Sets ordered by a key

A `std::set` whose comparison looks at a key only: an insertion is refused if the key is there already.
-/

structure KeyedSet {α κ : Type} [LinearOrder κ] (key : α → κ) where
  elems : List α
  sorted : elems.Pairwise (key · < key ·)

namespace KeyedSet
variable {α κ : Type} [LinearOrder κ] {key : α → κ} {s : KeyedSet key} {a b : α}

instance : Membership α (KeyedSet key) := ⟨fun s a => a ∈ s.elems⟩

theorem mem_def : a ∈ s ↔ a ∈ s.elems := Iff.rfl

instance : EmptyCollection (KeyedSet key) := ⟨⟨[], .nil⟩⟩

@[simp] theorem not_mem_empty : a ∉ (∅ : KeyedSet key) := List.not_mem_nil

def insertInto (key : α → κ) (a : α) : List α → List α
  | [] => [a]
  | b :: l => if key a < key b then a :: b :: l else if key b < key a then b :: insertInto key a l else b :: l

variable {l : List α}

theorem mem_insertInto (h : l.Pairwise (key · < key ·)) :
    b ∈ insertInto key a l ↔ b ∈ l ∨ b = a ∧ ∀ c ∈ l, key c ≠ key a := by
  induction l with
  | nil => simp [insertInto]
  | cons d l ih =>
    obtain ⟨hd, hl⟩ := List.pairwise_cons.1 h
    rw [insertInto]
    split_ifs with hlt hgt
    · grind
    · grind
    · grind

theorem pairwise_insertInto (h : l.Pairwise (key · < key ·)) : (insertInto key a l).Pairwise (key · < key ·) := by
  induction l with
  | nil => simp [insertInto]
  | cons d l ih =>
    obtain ⟨hd, hl⟩ := List.pairwise_cons.1 h
    rw [insertInto]
    split_ifs with hlt hgt
    · grind
    · refine List.pairwise_cons.2 ⟨?_, ih hl⟩
      grind [mem_insertInto]
    · exact h

def insert (s : KeyedSet key) (a : α) : KeyedSet key := ⟨insertInto key a s.elems, pairwise_insertInto s.sorted⟩

theorem mem_insert : b ∈ s.insert a ↔ b ∈ s ∨ b = a ∧ ∀ c ∈ s, key c ≠ key a := mem_insertInto s.sorted

theorem insertInto_of_taken (h : l.Pairwise (key · < key ·)) (hb : b ∈ l) (hkey : key b = key a) :
    insertInto key a l = l := by
  induction l with
  | nil => simp at hb
  | cons d l ih =>
    obtain ⟨hd, hl⟩ := List.pairwise_cons.1 h
    grind [insertInto]

theorem insert_of_taken (hb : b ∈ s) (hkey : key b = key a) : s.insert a = s := by
  have helems := insertInto_of_taken s.sorted hb hkey
  cases s
  simpa only [insert, mk.injEq] using helems

def filter (s : KeyedSet key) (p : α → Bool) : KeyedSet key := ⟨s.elems.filter p, s.sorted.filter p⟩

theorem mem_filter {p : α → Bool} : b ∈ s.filter p ↔ b ∈ s ∧ p b = true := List.mem_filter

def erase (s : KeyedSet key) (a : α) : KeyedSet key := s.filter fun b => key b ≠ key a

theorem eq_of_key_eq (ha : a ∈ s) (hb : b ∈ s) (h : key a = key b) : a = b := by
  have hnodup : (s.elems.map key).Nodup := (List.pairwise_map.2 s.sorted).imp fun hlt => hlt.ne
  exact List.inj_on_of_nodup_map hnodup ha hb h

theorem mem_erase (ha : a ∈ s) : b ∈ s.erase a ↔ b ∈ s ∧ b ≠ a := by
  rw [erase, mem_filter, decide_eq_true_eq]
  refine and_congr_right fun hb => not_congr ?_
  exact ⟨eq_of_key_eq hb ha, congrArg key⟩

end KeyedSet
