import Mathlib.Data.List.Basic
/-!
# Runs of a state machine

`Meets`: each action was allowed in the state it was taken in. `Always`: every state passed through has a property.
-/
namespace Machine
variable {S A : Type} (step : S → A → S)

def run (s : S) (as : List A) : S := as.foldl step s

def Meets (ok : S → A → Prop) : S → List A → Prop
  | _, [] => True
  | s, a :: as => ok s a ∧ Meets ok (step s a) as

def Always (P : S → Prop) : S → List A → Prop
  | s, [] => P s
  | s, a :: as => P s ∧ Always P (step s a) as

instance decidableMeets (ok : S → A → Prop) [∀ s a, Decidable (ok s a)] :
    (s : S) → (as : List A) → Decidable (Meets step ok s as)
  | _, [] => isTrue trivial
  | s, a :: as => @instDecidableAnd _ _ _ (decidableMeets ok (step s a) as)

variable {step}

@[simp] theorem run_cons (s : S) (a : A) (as : List A) : run step s (a :: as) = run step (step s a) as := rfl

variable {ok ok' : S → A → Prop} {P Inv : S → Prop}

theorem Meets.and : ∀ {as : List A} {s : S}, Meets step ok s as → Meets step ok' s as →
    Meets step (fun s a => ok s a ∧ ok' s a) s as
  | [], _, _, _ => trivial
  | _ :: _, _, h, h' => ⟨⟨h.1, h'.1⟩, Meets.and h.2 h'.2⟩

theorem Meets.mono (himp : ∀ s a, ok s a → ok' s a) : ∀ {as : List A} {s : S}, Meets step ok s as → Meets step ok' s as
  | [], _, _ => trivial
  | a :: _, s, h => ⟨himp s a h.1, Meets.mono himp h.2⟩

theorem meets_of_forall {step : S → A → S} :
    ∀ {as : List A}, (∀ a ∈ as, ∀ s, ok s a) → ∀ s, Meets step ok s as
  | [], _, _ => trivial
  | a :: _, h, s => ⟨h a List.mem_cons_self s, meets_of_forall (fun b hb => h b (List.mem_cons_of_mem _ hb)) (step s a)⟩

theorem run_append (s : S) (as bs : List A) : run step s (as ++ bs) = run step (run step s as) bs :=
  List.foldl_append

theorem meets_append : ∀ {as bs : List A} {s : S},
    Meets step ok s (as ++ bs) ↔ Meets step ok s as ∧ Meets step ok (run step s as) bs
  | [], _, _ => ⟨fun h => ⟨trivial, h⟩, fun h => h.2⟩
  | _ :: _, _, _ => ⟨fun h => ⟨⟨h.1, (meets_append.1 h.2).1⟩, (meets_append.1 h.2).2⟩,
      fun h => ⟨h.1.1, meets_append.2 ⟨h.1.2, h.2⟩⟩⟩

variable {s : S}

theorem Always.head : ∀ {as : List A}, Always step P s as → P s
  | [], h => h
  | _ :: _, h => h.1

theorem always_iff_initial {as : List A} : Always step P s as ↔ ∀ pre, pre <+: as → P (run step s pre) := by
  induction as generalizing s with
  | nil =>
    constructor
    · intro h pre hp
      rw [List.prefix_nil.1 hp]
      exact h
    · intro h
      exact h [] (List.prefix_refl _)
  | cons a as ih =>
    constructor
    · rintro ⟨h0, h⟩ pre hp
      rcases pre with _ | ⟨b, pre⟩
      · exact h0
      · simp_all
    · intro h
      refine ⟨h [] List.nil_prefix, ih.2 fun pre hp => ?_⟩
      exact h (a :: pre) (List.cons_prefix_cons.2 ⟨rfl, hp⟩)

theorem run_invariant (hstep : ∀ s a, Inv s → ok s a → Inv (step s a)) :
    ∀ {as : List A} {s : S}, Inv s → Meets step ok s as → Inv (run step s as)
  | [], _, hi, _ => hi
  | a :: _, s, hi, hm => by
    rw [run_cons]
    exact run_invariant hstep (hstep s a hi hm.1) hm.2

theorem always_of_invariant (hstep : ∀ s a, Inv s → ok s a → Inv (step s a)) (hP : ∀ s, Inv s → P s) :
    ∀ {as : List A} {s : S}, Inv s → Meets step ok s as → Always step P s as
  | [], s, hi, _ => hP s hi
  | a :: _, s, hi, hm => ⟨hP s hi, always_of_invariant hstep hP (hstep s a hi hm.1) hm.2⟩

theorem meets_of_invariant (hstep : ∀ s a, Inv s → ok s a → Inv (step s a) ∧ ok' s a) :
    ∀ {as : List A} {s : S}, Inv s → Meets step ok s as → Meets step ok' s as
  | [], _, _, _ => trivial
  | a :: _, s, hi, hm =>
    have hnext := hstep s a hi hm.1
    ⟨hnext.2, meets_of_invariant hstep hnext.1 hm.2⟩

theorem meets_congr {I : S → Prop} (hiff : ∀ s a, I s → (ok s a ↔ ok' s a)) (hstep : ∀ s a, I s → ok s a → I (step s a)) :
    ∀ {as : List A} {s : S}, I s → (Meets step ok s as ↔ Meets step ok' s as)
  | [], _, _ => Iff.rfl
  | a :: _, s, hi => by
    constructor
    · rintro ⟨hok, hm⟩
      exact ⟨(hiff s a hi).1 hok, (meets_congr hiff hstep (hstep s a hi hok)).1 hm⟩
    · rintro ⟨hok', hm⟩
      have hok := (hiff s a hi).2 hok'
      exact ⟨hok, (meets_congr hiff hstep (hstep s a hi hok)).2 hm⟩

theorem always_of_step (hstep : ∀ s a, Inv s → Inv (step s a)) :
    ∀ (as : List A) {s : S}, Inv s → Always step Inv s as
  | [], _, hi => hi
  | a :: as, s, hi => ⟨hi, always_of_step hstep as (hstep s a hi)⟩

theorem always_congr {Q : S → Prop} (h : ∀ s, Inv s → (P s ↔ Q s)) :
    ∀ {as : List A} {s : S}, Always step Inv s as → (Always step P s as ↔ Always step Q s as)
  | [], s, hi => h s hi
  | _ :: _, s, hi => and_congr (h s hi.1) (always_congr h hi.2)

theorem meets_of_always (h : ∀ s a, P s → P (step s a) → ok s a) :
    ∀ {as : List A} {s : S}, Always step P s as → Meets step ok s as
  | [], _, _ => trivial
  | a :: _, s, ha => ⟨h s a ha.1 ha.2.head, meets_of_always h ha.2⟩

/-- If each step a run may take leads to a good state exactly when it is allowed, the run stays in good states exactly
when all its steps are. -/
theorem always_iff_meets {may : S → A → Prop} (h : ∀ s a, P s → may s a → (P (step s a) ↔ ok s a)) :
    ∀ {as : List A} {s : S}, P s → Meets step may s as → (Always step P s as ↔ Meets step ok s as)
  | [], _, hs, _ => iff_of_true hs trivial
  | a :: as, s, hs, hm => by
    refine ⟨fun ha => ?_, fun hok => ⟨hs, ?_⟩⟩
    · have hnext : P (step s a) := ha.2.head
      exact ⟨(h s a hs hm.1).1 hnext, (always_iff_meets h hnext hm.2).1 ha.2⟩
    · have hnext : P (step s a) := (h s a hs hm.1).2 hok.1
      exact (always_iff_meets h hnext hm.2).2 hok.2

/-- Two machines that stay related over every allowed step are related after every allowed run. -/
theorem run_simulation {T : Type} {step : S → A → S} {step' : T → A → T} {R : S → T → Prop} {ok : A → Prop}
    (hstep : ∀ s t a, R s t → ok a → R (step s a) (step' t a)) :
    ∀ {as : List A} {s : S} {t : T}, (∀ a ∈ as, ok a) → R s t → R (run step s as) (run step' t as)
  | [], _, _, _, h => h
  | a :: _, s, t, has, h => by
    rw [run_cons, run_cons]
    exact run_simulation hstep (fun b hb => has b (List.mem_cons_of_mem _ hb)) (hstep s t a h (has a List.mem_cons_self))

end Machine
