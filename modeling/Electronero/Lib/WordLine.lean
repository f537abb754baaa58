import Mathlib.Data.List.Basic
/-!
# Words in a line

`splitRuns` cuts at every run of a separator; a run at either end leaves an empty word there.
-/
namespace Text
open List
variable {α : Type} {sep : α}

def joinWords (sep : α) : List (List α) → List α
  | [] => []
  | [w] => w
  | w :: ws => w ++ sep :: joinWords sep ws

def splitRuns [DecidableEq α] (sep : α) : List α → List (List α)
  | [] => [[]]
  | c :: s =>
    if c = sep then if s.head? = some sep then splitRuns sep s else [] :: splitRuns sep s
    else
      match splitRuns sep s with
      | [] => [[c]]
      | w :: ws => (c :: w) :: ws

variable {w : List α} {ws vs : List (List α)}

theorem joinWords_cons (h : ws ≠ []) : joinWords sep (w :: ws) = w ++ sep :: joinWords sep ws := by
  cases ws with
  | nil => exact absurd rfl h
  | cons => rfl

theorem head?_joinWords_ne (h : ∀ w ∈ ws, w ≠ [] ∧ sep ∉ w) : (joinWords sep ws).head? ≠ some sep := by
  cases ws with
  | nil => simp [joinWords]
  | cons w ws =>
    obtain ⟨hne, hw⟩ := h w mem_cons_self
    obtain ⟨c, w, rfl⟩ := exists_cons_of_ne_nil hne
    have hc : c ≠ sep := fun hc => hw (hc ▸ mem_cons_self)
    cases ws <;> simpa [joinWords] using hc

theorem head?_joinWords (ws : List (List α)) (hw : w ≠ []) : (joinWords sep (w :: ws)).head? = w.head? := by
  cases ws with
  | nil => rfl
  | cons v ws => rw [joinWords_cons (cons_ne_nil v ws), head?_append_of_ne_nil _ hw]

theorem getLast?_joinWords (ws : List (List α)) (hw : w ≠ []) : (joinWords sep (ws ++ [w])).getLast? = w.getLast? := by
  induction ws with
  | nil => rfl
  | cons v ws ih =>
    rw [cons_append, joinWords_cons (by simp), getLast?_append, getLast?_cons, ih]
    obtain ⟨c, hc⟩ : ∃ c, w.getLast? = some c := Option.isSome_iff_exists.1 (by simpa using hw)
    simp [hc]

theorem flatMap_append_sep (h : ws ≠ []) : ws.flatMap (· ++ [sep]) = joinWords sep ws ++ [sep] := by
  induction ws with
  | nil => exact absurd rfl h
  | cons w ws ih =>
    by_cases hlast : ws = []
    · subst hlast
      simp [joinWords]
    · grind [joinWords_cons]

theorem joinWords_append (hws : ws ≠ []) (hvs : vs ≠ []) :
    joinWords sep (ws ++ vs) = joinWords sep ws ++ sep :: joinWords sep vs := by
  induction ws with
  | nil => exact absurd rfl hws
  | cons w ws ih =>
    by_cases hlast : ws = []
    · subst hlast
      rw [cons_append, nil_append, joinWords_cons hvs]
      rfl
    · rw [cons_append, joinWords_cons (by simp [hlast]), ih hlast, joinWords_cons hlast]
      simp

variable [DecidableEq α]

theorem splitRuns_append (hw : sep ∉ w) {s v : List α}
    (h : splitRuns sep s = v :: vs) : splitRuns sep (w ++ s) = (w ++ v) :: vs := by
  induction w with
  | nil => exact h
  | cons c w ih => grind [splitRuns]

theorem splitRuns_joinWords (hne : ws ≠ []) (h : ∀ w ∈ ws, w ≠ [] ∧ sep ∉ w) :
    splitRuns sep (joinWords sep ws) = ws := by
  induction ws with
  | nil => exact absurd rfl hne
  | cons w ws ih =>
    have hw := (h w mem_cons_self).2
    have hws : ∀ v ∈ ws, v ≠ [] ∧ sep ∉ v := fun v hv => h v (mem_cons_of_mem w hv)
    by_cases hlast : ws = []
    · subst hlast
      have := splitRuns_append hw (show splitRuns sep [] = [] :: [] from rfl)
      simpa [joinWords] using this
    · have hrest : splitRuns sep (sep :: joinWords sep ws) = [] :: ws := by
        rw [splitRuns, if_pos rfl, if_neg (head?_joinWords_ne hws), ih hlast hws]
      rw [joinWords_cons hlast, splitRuns_append hw hrest, append_nil]

end Text
