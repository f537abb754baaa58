import Mathlib.Data.List.Forall2
/-! # A partial function over a list: `mapM` in `Option` -/
namespace PartialMap
variable {α β : Type} {f : α → Option β} {l : List α} {r : List β}

theorem mapM_eq_some_iff_of {R : α → β → Prop} (h : ∀ a ∈ l, ∀ b, f a = some b ↔ R a b) :
    l.mapM f = some r ↔ List.Forall₂ R l r := by
  induction l generalizing r with
  | nil => simp [eq_comm]
  | cons a l ih =>
    have hl := fun {r} => ih (r := r) fun a' ha' => h a' (List.mem_cons_of_mem a ha')
    simp only [List.mapM_cons, Option.pure_def, Option.bind_eq_bind, Option.bind_eq_some_iff, Option.some.injEq,
      List.forall₂_cons_left_iff, hl, h a List.mem_cons_self]
    grind

theorem mapM_eq_some_iff : l.mapM f = some r ↔ List.Forall₂ (fun a b => f a = some b) l r :=
  mapM_eq_some_iff_of fun _ _ _ => Iff.rfl

theorem isSome_mapM : (l.mapM f).isSome = true ↔ ∀ a ∈ l, (f a).isSome = true := by
  induction l with
  | nil => simp
  | cons a l ih =>
    rw [List.mapM_cons, List.forall_mem_cons, ← ih]
    cases f a with
    | none => simp
    | some b => cases l.mapM f <;> simp

theorem filterMap_of_mapM (h : l.mapM f = some r) : l.filterMap f = r := by
  induction mapM_eq_some_iff.1 h with
  | nil => rfl
  | cons hb hbs ih => rw [List.filterMap_cons_some hb, ih (mapM_eq_some_iff.2 hbs)]

end PartialMap
