import Mathlib.Data.Nat.Basic
/-!
# Loops that need not end

From a state the body goes on with the next one, or leaves with a result. `Visits` are the states a run passes through.
-/
namespace WhileLoop
variable {σ ρ : Type} {body : σ → σ ⊕ ρ}

def runFor (body : σ → σ ⊕ ρ) : Nat → σ → Option ρ
  | 0, _ => none
  | n + 1, s =>
    match body s with
    | .inl s' => runFor body n s'
    | .inr r => some r

def Returns (body : σ → σ ⊕ ρ) (s : σ) (r : ρ) : Prop := ∃ n, runFor body n s = some r

def Diverges (body : σ → σ ⊕ ρ) (s : σ) : Prop := ∀ n, runFor body n s = none

variable {s : σ} {r : ρ} {I : σ → Prop}

theorem Returns.of_leave (h : body s = .inr r) : Returns body s r :=
  ⟨1, by rw [runFor, h]⟩

theorem Returns.of_step {s' : σ} (h : body s = .inl s') (hr : Returns body s' r) : Returns body s r := by
  obtain ⟨n, hn⟩ := hr
  exact ⟨n + 1, by rw [runFor, h]; exact hn⟩

theorem Diverges.not_returns (h : Diverges body s) (r : ρ) : ¬Returns body s r := by
  rintro ⟨n, hn⟩
  rw [h n] at hn
  cases hn

/-- **Termination.** The invariant holds in every round, the measure falls, and the result is as wanted. -/
theorem returns_of_measure {Q : ρ → Prop} (measure : σ → Nat)
    (hstep : ∀ s s', I s → body s = .inl s' → I s' ∧ measure s' < measure s)
    (hleave : ∀ s r, I s → body s = .inr r → Q r) (h : I s) : ∃ r, Returns body s r ∧ Q r := by
  induction hn : measure s using Nat.strong_induction_on generalizing s with
  | _ n ih =>
    cases hbody : body s with
    | inl s' =>
      obtain ⟨hinv, hlt⟩ := hstep s s' h hbody
      obtain ⟨r, hr, hq⟩ := ih (measure s') (hn ▸ hlt) hinv rfl
      exact ⟨r, hr.of_step hbody, hq⟩
    | inr r => exact ⟨r, .of_leave hbody, hleave s r h hbody⟩

theorem diverges_of_stays (hstays : ∀ s, I s → ∃ s', body s = .inl s' ∧ I s') (h : I s) : Diverges body s := by
  intro n
  induction n generalizing s with
  | zero => rfl
  | succ n ih => grind [runFor]

theorem runFor_mono {n m : Nat} (h : runFor body n s = some r) (hm : n ≤ m) : runFor body m s = some r := by
  induction n generalizing m s with
  | zero => cases h
  | succ n ih =>
    obtain ⟨m, rfl⟩ : ∃ k, m = k + 1 := ⟨m - 1, by omega⟩
    grind [runFor]

def stateAfter (body : σ → σ ⊕ ρ) : Nat → σ → Option σ
  | 0, s => some s
  | n + 1, s =>
    match body s with
    | .inl s' => stateAfter body n s'
    | .inr _ => none

def Visits (body : σ → σ ⊕ ρ) (s t : σ) : Prop := ∃ n, stateAfter body n s = some t

theorem Visits.invariant (hstep : ∀ s s', I s → body s = .inl s' → I s') {t : σ}
    (h : Visits body s t) (hs : I s) : I t := by
  obtain ⟨n, hn⟩ := h
  induction n generalizing s with
  | zero =>
    cases hn
    exact hs
  | succ n ih => grind [stateAfter]

end WhileLoop
