import Mathlib.Data.List.Basic
/-!
# Loops that can be left early

A `foldlM` in `Except`: `.ok` goes on, `.error` carries what the function ends with.
-/
namespace ExceptLoop
variable {α β ε : Type} {f : α → β → Except ε α}

variable {x : Except ε α} {a a' : α} {xs ys : List β} {e : ε} {allows : α → β → Prop} {P : α → Prop} {Q : ε → Prop}

theorem map_ok_iff {g : α → β} {b : β} : x.map g = .ok b ↔ ∃ a, x = .ok a ∧ g a = b := by
  cases x with
  | error e => exact ⟨fun h => by (cases h), fun ⟨_, h, _⟩ => by (cases h)⟩
  | ok a =>
    refine ⟨fun h => ⟨a, rfl, Except.ok.inj h⟩, ?_⟩
    rintro ⟨_, heq, rfl⟩
    cases heq
    rfl

theorem foldlM_cons_ok {x : β} : (x :: xs).foldlM f a = .ok a' ↔ ∃ a₁, f a x = .ok a₁ ∧ xs.foldlM f a₁ = .ok a' := by
  rw [List.foldlM_cons]
  cases h : f a x with
  | error e => exact ⟨fun h => by (cases h), fun ⟨_, h, _⟩ => by (cases h)⟩
  | ok a₁ =>
    refine ⟨fun h => ⟨a₁, rfl, h⟩, ?_⟩
    rintro ⟨_, heq, h⟩
    cases heq
    exact h

theorem foldlM_cons_error {x : β} :
    (x :: xs).foldlM f a = .error e ↔ f a x = .error e ∨ ∃ a₁, f a x = .ok a₁ ∧ xs.foldlM f a₁ = .error e := by
  rw [List.foldlM_cons]
  cases h : f a x with
  | error e' =>
    refine ⟨fun h => .inl (by cases h; rfl), ?_⟩
    rintro (heq | ⟨_, heq, _⟩) <;> cases heq
    rfl
  | ok a₁ =>
    refine ⟨fun h => .inr ⟨a₁, rfl, h⟩, ?_⟩
    rintro (heq | ⟨_, heq, h⟩) <;> cases heq
    exact h

theorem foldlM_append_ok : (xs ++ ys).foldlM f a = .ok a' ↔ ∃ a₁, xs.foldlM f a = .ok a₁ ∧ ys.foldlM f a₁ = .ok a' := by
  induction xs generalizing a with
  | nil => exact ⟨fun h => ⟨a, rfl, h⟩, fun ⟨_, heq, h⟩ => by cases heq; exact h⟩
  | cons x xs ih => grind [foldlM_cons_ok]

def Meets (f : α → β → Except ε α) (allows : α → β → Prop) : α → List β → Prop
  | _, [] => True
  | a, x :: xs => allows a x ∧ ∀ a', f a x = .ok a' → Meets f allows a' xs

instance decidableMeets (f : α → β → Except ε α) (allows : α → β → Prop) [∀ a x, Decidable (allows a x)] :
    (a : α) → (xs : List β) → Decidable (Meets f allows a xs)
  | _, [] => isTrue trivial
  | a, x :: xs =>
    match hx : f a x with
    | .error _ => decidable_of_iff (allows a x) ⟨fun h => ⟨h, fun _ heq => by (rw [hx] at heq; cases heq)⟩, And.left⟩
    | .ok a₁ =>
      have := decidableMeets f allows a₁ xs
      decidable_of_iff (allows a x ∧ Meets f allows a₁ xs)
        ⟨fun h => ⟨h.1, fun _ heq => by rw [hx] at heq; cases heq; exact h.2⟩, fun h => ⟨h.1, h.2 a₁ hx⟩⟩

theorem Meets.append (h : Meets f allows a (xs ++ ys)) :
    Meets f allows a xs ∧ ∀ a', xs.foldlM f a = .ok a' → Meets f allows a' ys := by
  induction xs generalizing a with
  | nil => exact ⟨trivial, fun a' heq => by cases heq; exact h⟩
  | cons x xs ih =>
    refine ⟨⟨h.1, fun a₁ hx => (ih (h.2 a₁ hx)).1⟩, fun a' hloop => ?_⟩
    obtain ⟨a₁, hx, hxs⟩ := foldlM_cons_ok.1 hloop
    exact (ih (h.2 a₁ hx)).2 a' hxs

theorem Meets.preserves (hok : ∀ a x a', P a → allows a x → f a x = .ok a' → P a') (ha : P a)
    (hmeets : Meets f allows a xs) (h : xs.foldlM f a = .ok a') : P a' := by
  induction xs generalizing a with
  | nil =>
    cases h
    exact ha
  | cons x xs ih =>
    obtain ⟨a₁, hx, hxs⟩ := foldlM_cons_ok.1 h
    exact ih (hok a x a₁ ha hmeets.1 hx) (hmeets.2 a₁ hx) hxs

/-- What every round keeps holds at the end, and what is true of each way out follows from it. -/
theorem foldlM_invariant (hok : ∀ x ∈ xs, ∀ a a', P a → f a x = .ok a' → P a')
    (herror : ∀ x ∈ xs, ∀ a e, P a → f a x = .error e → Q e) (ha : P a) :
    (∀ a', xs.foldlM f a = .ok a' → P a') ∧ ∀ e, xs.foldlM f a = .error e → Q e := by
  induction xs generalizing a with
  | nil => exact ⟨fun a' h => by cases h; exact ha, fun e h => by (cases h)⟩
  | cons x xs ih => grind [foldlM_cons_ok, foldlM_cons_error]

theorem foldlM_preserves (hok : ∀ x ∈ xs, ∀ a a', P a → f a x = .ok a' → P a')
    (ha : P a) (h : xs.foldlM f a = .ok a') : P a' :=
  (foldlM_invariant (Q := fun _ => True) hok (fun _ _ _ _ _ _ => trivial) ha).1 a' h

theorem foldlM_each {R : β → α → Prop} (hdone : ∀ a x a', f a x = .ok a' → R x a')
    (hkeep : ∀ a x a' y, R y a → f a x = .ok a' → R y a') (h : xs.foldlM f a = .ok a') :
    (∀ x ∈ xs, R x a') ∧ ∀ y, R y a → R y a' := by
  induction xs generalizing a with
  | nil =>
    cases h
    simp
  | cons x xs ih => grind [foldlM_cons_ok]

/-- A loop that was left went through the elements before some element, and left there. -/
theorem foldlM_error_iff : xs.foldlM f a = .error e ↔
      ∃ before x after a₁, xs = before ++ x :: after ∧ before.foldlM f a = .ok a₁ ∧ f a₁ x = .error e := by
  induction xs generalizing a with
  | nil => exact ⟨fun h => by (cases h), fun ⟨before, x, after, _, h, _⟩ => by simp at h⟩
  | cons x xs ih =>
    rw [foldlM_cons_error]
    constructor
    · rintro (hx | ⟨a₁, hx, hxs⟩)
      · exact ⟨[], x, xs, a, rfl, rfl, hx⟩
      · grind [foldlM_cons_ok]
    · rintro ⟨_ | ⟨z, before⟩, y, after, a₁, heq, hbefore, hy⟩
      · cases heq
        cases hbefore
        exact .inl hy
      · grind [foldlM_cons_ok]

theorem foldlM_range' {f : α → Nat → Except ε α} {I : Nat → α → Prop} {n k : Nat}
    (hround : ∀ i a, n ≤ i → i < n + k → I i a → (∃ a', f a i = .ok a' ∧ I (i + 1) a') ∨ ∃ e, f a i = .error e ∧ Q e)
    (ha : I n a) :
    (∃ a', (List.range' n k).foldlM f a = .ok a' ∧ I (n + k) a') ∨ ∃ e, (List.range' n k).foldlM f a = .error e ∧ Q e := by
  induction k generalizing n a with
  | zero => exact .inl ⟨a, rfl, ha⟩
  | succ k ih =>
    rw [List.range'_succ]
    rcases hround n a (Nat.le_refl n) (by omega) ha with ⟨a₁, hok, ha₁⟩ | ⟨e, herror, he⟩
    · have hrest := ih (n := n + 1) (fun i a hi hik => hround i a (by omega) (by omega)) ha₁
      rcases hrest with ⟨a', hloop, ha'⟩ | ⟨e, hloop, he⟩
      · refine .inl ⟨a', foldlM_cons_ok.2 ⟨a₁, hok, hloop⟩, ?_⟩
        rwa [Nat.add_right_comm] at ha'
      · exact .inr ⟨e, foldlM_cons_error.2 (.inr ⟨a₁, hok, hloop⟩), he⟩
    · exact .inr ⟨e, foldlM_cons_error.2 (.inl herror), he⟩

def Outcome (P : α → Prop) (Q : ε → Prop) : Except ε α → Prop
  | .ok a => P a
  | .error e => Q e

theorem Outcome.imp {P' : α → Prop} (h : Outcome P Q x) (hP : ∀ a, P a → P' a) : Outcome P' Q x := by
  cases x with
  | ok a => exact hP a h
  | error e => exact h

theorem Outcome.map {γ : Type} {P : γ → Prop} {g : α → γ}
    (h : Outcome (fun a => P (g a)) Q x) : Outcome P Q (x.map g) := by
  cases x with
  | ok a => exact h
  | error e => exact h

/-- **An invariant of what remains.** If every round brings it from the rest with its element to the rest without, it
holds after the loop for no rest. -/
theorem Outcome.foldlM {I : List β → α → Prop}
    (hround : ∀ x xs a, I (x :: xs) a → Outcome (I xs) Q (f a x)) (ha : I xs a) : Outcome (I []) Q (xs.foldlM f a) := by
  induction xs generalizing a with
  | nil => exact ha
  | cons x xs ih =>
    have hx := hround x xs a ha
    rw [List.foldlM_cons]
    cases h : f a x with
    | ok a₁ =>
      rw [h] at hx
      exact ih hx
    | error e =>
      rw [h] at hx
      exact hx

end ExceptLoop
