import Electronero.Lib.Codec
import Mathlib.Data.List.Infix
/-!
# Formats read one after another up to the end of the data

* `Trims`: a read takes symbols from the front, `Shortens`: at least one. `Rewritable`: whatever is read can be written.
* `Settled`: the word at the front of `s` is read the same whatever is put behind `s`.
* `within`: a value inside a word of its own, which it has to fill.
-/
namespace Codec
open List
variable {σ α β γ τ : Type}

namespace Format

/-- The word of `inner` as the content of `outer`, with nothing behind it there. -/
def within (outer : Format σ (List σ)) (inner : Format σ α) : Format σ α where
  write a := (inner.write a).bind outer.write
  read s := (outer.read s).bind fun r => (inner.read r.1).bind fun q => if q.2.isEmpty then some (q.1, r.2) else none

def Trims (f : Format σ α) : Prop := ∀ ⦃s a rest⦄, f.read s = some (a, rest) → rest <:+ s

def Shortens (f : Format σ α) : Prop := ∀ ⦃s a rest⦄, f.read s = some (a, rest) → rest.length < s.length

def Rewritable (f : Format σ α) : Prop := ∀ ⦃s a rest⦄, f.read s = some (a, rest) → ∃ w, f.write a = some w

def Settled (f : Format σ α) (s : List σ) : Prop :=
  ∀ a rest, f.read s = some (a, rest) → ∀ x, f.read (s ++ x) = some (a, rest ++ x)

end Format

open Format

variable {outer : Format σ (List σ)} {inner f : Format σ α} {nf : α → α} {count : Format σ Nat} {s rest : List σ}
  {l : List α}

theorem Lawful.within (ho : Lawful outer id) (hi : Lawful inner id) :
    Lawful (outer.within inner) id where
  canonical {s a rest} h := by
    obtain ⟨⟨u, s₁⟩, hr, h⟩ := Option.bind_eq_some_iff.1 h
    obtain ⟨⟨b, s₂⟩, hq, h⟩ := Option.bind_eq_some_iff.1 h
    obtain ⟨hempty, h⟩ := Option.ite_none_right_eq_some.1 h
    cases h
    obtain ⟨-, w, hw, rfl⟩ := ho.canonical hr
    obtain ⟨-, v, hv, hu⟩ := hi.canonical hq
    obtain rfl : s₂ = [] := List.isEmpty_iff.1 hempty
    obtain rfl : u = v := by simpa using hu
    exact ⟨rfl, w, by simp [Format.within, hv, hw], rfl⟩
  complete {a w} h rest := by
    obtain ⟨v, hv, hw⟩ := Option.bind_eq_some_iff.1 h
    have hinner := hi.complete hv []
    rw [append_nil] at hinner
    simp [Format.within, ho.complete hw rest, hinner]

theorem Format.Le.within {outer' : Format σ (List σ)} {inner' : Format σ α} (ho : outer.Le outer')
    (hi : inner.Le inner') : (outer.within inner).Le (outer'.within inner') where
  write_eq a := by simp only [Format.within, hi.write_eq, funext ho.write_eq]
  read_le {s r} h := by
    obtain ⟨⟨u, s₁⟩, hr, h⟩ := Option.bind_eq_some_iff.1 h
    obtain ⟨q, hq, h⟩ := Option.bind_eq_some_iff.1 h
    simpa [Format.within, ho.read_le hr, hi.read_le hq] using h

theorem Lawful.trims (hf : Lawful f nf) : f.Trims := by
  intro s a rest h
  obtain ⟨-, w, -, rfl⟩ := hf.canonical h
  exact suffix_append w rest

namespace Format

theorem trims_fail : (fail : Format σ α).Trims := fun _ _ _ h => nomatch h

theorem Trims.part {f : Format σ β} (hf : f.Trims) (get : γ → Option β) (put : β → γ) : (f.part get put).Trims := by
  intro s c rest h
  obtain ⟨⟨b, s₁⟩, hr, h⟩ := Option.map_eq_some_iff.1 h
  cases h
  exact hf hr

variable {f : Format σ α} {outer : Format σ (List σ)}

theorem Trims.guard (hf : f.Trims) (p : α → Bool) : (f.guard p).Trims := by
  intro s a rest h
  obtain ⟨r, hr, h⟩ := Option.bind_eq_some_iff.1 h
  obtain ⟨-, h⟩ := Option.ite_none_right_eq_some.1 h
  cases h
  exact hf hr

theorem Trims.counted {count : Format σ Nat} (hc : count.Trims) (hf : Lawful f id) : (counted count f).Trims := by
  intro s l rest h
  obtain ⟨⟨n, s₁⟩, hr, h⟩ := Option.bind_eq_some_iff.1 h
  obtain ⟨-, h⟩ := Option.ite_none_left_eq_some.1 h
  exact ((hf.times_id n).trims h).trans (hc hr)

theorem Trims.within (ho : outer.Trims) (inner : Format σ α) : (outer.within inner).Trims := by
  intro s a rest h
  obtain ⟨⟨u, s₁⟩, hr, h⟩ := Option.bind_eq_some_iff.1 h
  obtain ⟨q, -, h⟩ := Option.bind_eq_some_iff.1 h
  obtain ⟨-, h⟩ := Option.ite_none_right_eq_some.1 h
  cases h
  exact ho hr

theorem read_tagged_symbol (tag : α → σ) (body : σ → Format σ α) (t : σ) (s : List σ) :
    (tagged (symbol σ) tag body).read (t :: s) = (body t).read s := rfl

theorem Trims.shortens_tagged {tag : α → σ} {body : σ → Format σ α} (hb : ∀ t, (body t).Trims) :
    (tagged (symbol σ) tag body).Shortens := by
  intro s a rest h
  cases s with
  | nil => cases h
  | cons t s =>
    rw [read_tagged_symbol] at h
    have := (hb t h).length_le
    rw [length_cons]
    omega

theorem Rewritable.part {f : Format σ β} (hf : f.Rewritable) {get : γ → Option β} {put : β → γ}
    (hget : ∀ b, get (put b) = some b) : (f.part get put).Rewritable := by
  intro s c rest h
  obtain ⟨⟨b, s₁⟩, hr, h⟩ := Option.map_eq_some_iff.1 h
  cases h
  simpa [Format.part, hget] using hf hr

theorem Rewritable.guard (hf : f.Rewritable) (p : α → Bool) : (f.guard p).Rewritable := by
  intro s a rest h
  obtain ⟨r, hr, h⟩ := Option.bind_eq_some_iff.1 h
  obtain ⟨hp, h⟩ := Option.ite_none_right_eq_some.1 h
  cases h
  simpa [Format.guard, hp] using hf hr

theorem Rewritable.seq {g : α → Format σ β} (hf : f.Rewritable) (hg : ∀ a, (g a).Rewritable) :
    (f.seq g).Rewritable := by
  intro s p rest h
  obtain ⟨⟨a, s₁⟩, hr, h⟩ := Option.bind_eq_some_iff.1 h
  obtain ⟨⟨b, s₂⟩, hq, h⟩ := Option.map_eq_some_iff.1 h
  cases h
  obtain ⟨u, hu⟩ := hf hr
  obtain ⟨v, hv⟩ := hg a hq
  exact ⟨u ++ v, by simp [Format.seq, hu, hv]⟩

theorem Rewritable.within {inner : Format σ α} (hi : inner.Rewritable)
    (ho : ∀ a v, inner.write a = some v → ∃ w, outer.write v = some w) : (outer.within inner).Rewritable := by
  intro s a rest h
  obtain ⟨⟨u, s₁⟩, -, h⟩ := Option.bind_eq_some_iff.1 h
  obtain ⟨⟨b, s₂⟩, hq, h⟩ := Option.bind_eq_some_iff.1 h
  obtain ⟨-, h⟩ := Option.ite_none_right_eq_some.1 h
  cases h
  obtain ⟨v, hv⟩ := hi hq
  obtain ⟨w, hw⟩ := ho b v hv
  exact ⟨w, by simp [Format.within, hv, hw]⟩

end Format

theorem Lawful.rewritable (hf : Lawful f nf) : f.Rewritable := by
  intro s a rest h
  obtain ⟨-, w, hw, -⟩ := hf.canonical h
  exact ⟨w, hw⟩

theorem counted_read (hf : Lawful f id) (h : (counted count f).read s = some (l, rest)) :
    ∃ s₁ v, count.read s = some (l.length, s₁) ∧ l.length ≤ s₁.length ∧ (f.times l.length).write l = some v ∧
      s₁ = v ++ rest := by
  obtain ⟨⟨n, s₁⟩, hr, h⟩ := Option.bind_eq_some_iff.1 h
  obtain ⟨hle, h⟩ := Option.ite_none_left_eq_some.1 h
  obtain ⟨-, v, hv, hs⟩ := (hf.times_id n).canonical h
  grind [length_of_write_times]

theorem counted_read_rest (hf : Lawful f id) {s₁ : List σ}
    {n : Nat} (h : (counted count f).read s = some (l, rest)) (hcount : count.read s = some (n, s₁)) :
    l.length = n ∧ n ≤ s₁.length ∧ rest <:+ s₁ ∧ (n = 0 → rest = s₁) := by
  obtain ⟨s₂, v, hr, hle, hv, rfl⟩ := counted_read hf h
  obtain ⟨rfl, rfl⟩ : l.length = n ∧ v ++ rest = s₁ := by simpa [hr] using hcount
  refine ⟨rfl, hle, suffix_append v rest, fun h0 => ?_⟩
  obtain rfl := eq_nil_of_length_eq_zero h0
  obtain rfl : [] = v := Option.some.inj hv
  rfl

theorem Format.Rewritable.counted (hc : count.Rewritable) (hf : Lawful f id) : (counted count f).Rewritable := by
  intro s l rest h
  obtain ⟨s₁, v, hr, -, hv, -⟩ := counted_read hf h
  obtain ⟨u, hu⟩ := hc hr
  exact ⟨u ++ v, by simp [Format.counted, hu, hv]⟩

theorem write_times_symbol (l : List σ) : ((symbol σ).times l.length).write l = some l := by
  induction l with
  | nil => rfl
  | cons a l ih =>
    rw [Format.times, length_cons, replicate_succ, write_each_cons, ← Format.times, ih]
    rfl

theorem Lawful.settled (hf : Lawful f id) (s : List σ) : f.Settled s := by
  intro a rest h x
  obtain ⟨-, w, hw, rfl⟩ := hf.canonical h
  rw [append_assoc]
  exact hf.complete hw (rest ++ x)

namespace Format

variable {f : Format σ α} {s : List σ}

theorem Settled.part {f : Format σ β} (hf : f.Settled s) (get : γ → Option β) (put : β → γ) :
    (f.part get put).Settled s := by
  intro c rest h x
  obtain ⟨⟨b, s₁⟩, hr, h⟩ := Option.map_eq_some_iff.1 h
  cases h
  simp [Format.part, hf b s₁ hr x]

theorem Settled.guard (hf : f.Settled s) (p : α → Bool) : (f.guard p).Settled s := by
  intro a rest h x
  obtain ⟨r, hr, h⟩ := Option.bind_eq_some_iff.1 h
  obtain ⟨hp, h⟩ := Option.ite_none_right_eq_some.1 h
  cases h
  simp [Format.guard, hf a rest hr x, hp]

theorem Settled.counted {count : Format σ Nat} (hc : count.Settled s)
    (hf : Lawful f id) : (counted count f).Settled s := by
  intro l rest h x
  obtain ⟨⟨n, s₁⟩, hr, h⟩ := Option.bind_eq_some_iff.1 h
  obtain ⟨hle, h⟩ := Option.ite_none_left_eq_some.1 h
  have hlonger : ¬ (s₁ ++ x).length < n := by grind
  simp only [Format.counted, hc n s₁ hr x, Option.bind_some, if_neg hlonger]
  exact (hf.times_id n).settled s₁ l rest h x

theorem Settled.within {outer : Format σ (List σ)} (ho : outer.Settled s) (inner : Format σ α) :
    (outer.within inner).Settled s := by
  intro a rest h x
  obtain ⟨⟨u, s₁⟩, hr, h⟩ := Option.bind_eq_some_iff.1 h
  obtain ⟨q, hq, h⟩ := Option.bind_eq_some_iff.1 h
  obtain ⟨hempty, h⟩ := Option.ite_none_right_eq_some.1 h
  cases h
  simp [Format.within, ho u s₁ hr x, hq, List.isEmpty_iff.1 hempty]

theorem Settled.tagged {tag : α → σ} {body : σ → Format σ α} {t : σ} (hb : (body t).Settled s) :
    (tagged (symbol σ) tag body).Settled (t :: s) := by
  intro a rest h x
  rw [read_tagged_symbol] at h
  exact hb a rest h x

def readLoop (f : Format σ α) : Nat → List σ → Option (List α)
  | _, [] => some []
  | 0, _ :: _ => none
  | n + 1, b :: s => (f.read (b :: s)).bind fun r => (readLoop f n r.2).map (r.1 :: ·)

def toEnd (f : Format σ α) (s : List σ) : Option (List α) := f.readLoop s.length s

def lastLoop (f : Format σ α) : Nat → List σ → List σ
  | 0, s => s
  | n + 1, s =>
    match f.read s with
    | some (_, b :: rest) => lastLoop f n (b :: rest)
    | _ => s

def lastWord (f : Format σ α) (s : List σ) : List σ := f.lastLoop s.length s

inductive Reads (f : Format σ α) : List σ → List α → Prop where
  | nil : Reads f [] []
  | cons {s rest a l} : f.read s = some (a, rest) → Reads f rest l → Reads f s (a :: l)

section
variable {f : Format σ α}

variable {n m : Nat} {s rest : List σ} {a : α} {l : List α}

theorem readLoop_congr (hf : f.Shortens) (hn : s.length ≤ n) (hm : s.length ≤ m) : f.readLoop n s = f.readLoop m s := by
  induction n generalizing m s with
  | zero =>
    obtain rfl : s = [] := by simpa using hn
    cases m <;> rfl
  | succ n ih =>
    cases s with
    | nil => cases m <;> rfl
    | cons b s =>
      obtain ⟨m, rfl⟩ : ∃ m', m = m' + 1 := ⟨m - 1, by rw [length_cons] at hm; omega⟩
      rw [readLoop, readLoop]
      refine Option.bind_congr fun r hr => ?_
      have hlt := hf hr
      grind

theorem toEnd_nil : f.toEnd [] = some [] := rfl

theorem toEnd_of_ne_nil (hf : f.Shortens) (hs : s ≠ []) :
    f.toEnd s = (f.read s).bind fun r => (f.toEnd r.2).map (r.1 :: ·) := by
  obtain ⟨b, s, rfl⟩ := exists_cons_of_ne_nil hs
  rw [toEnd, length_cons, readLoop]
  refine Option.bind_congr fun r hr => ?_
  have hlt := hf hr
  grind [toEnd, readLoop_congr]

theorem ne_nil_of_read (hf : f.Shortens) (h : f.read s = some (a, rest)) : s ≠ [] := by
  rintro rfl
  exact absurd (hf h) (by simp)

theorem toEnd_of_read (hf : f.Shortens) (h : f.read s = some (a, rest)) : f.toEnd s = (f.toEnd rest).map (a :: ·) := by
  rw [toEnd_of_ne_nil hf (ne_nil_of_read hf h), h, Option.bind_some]

theorem toEnd_iff (hf : f.Shortens) : f.toEnd s = some l ↔ f.Reads s l := by
  constructor
  · intro h
    induction hn : s.length using Nat.strong_induction_on generalizing s l with
    | _ n ih =>
      by_cases hs : s = []
      · subst hs
        obtain rfl : [] = l := by simpa [toEnd_nil] using h
        exact .nil
      · rw [toEnd_of_ne_nil hf hs] at h
        obtain ⟨⟨a, rest⟩, hr, h⟩ := Option.bind_eq_some_iff.1 h
        obtain ⟨l, hl, rfl⟩ := Option.map_eq_some_iff.1 h
        exact .cons hr (ih rest.length (hn ▸ hf hr) hl rfl)
  · intro h
    induction h with
    | nil => rfl
    | cons hr _ ih => rw [toEnd_of_read hf hr, ih, Option.map_some]

theorem Reads.eq_nil (hf : f.Shortens) (h : f.Reads [] l) : l = [] := by
  cases h with
  | nil => rfl
  | cons hr _ => exact absurd rfl (ne_nil_of_read hf hr)

theorem lastLoop_nil (hf : f.Shortens) (n : Nat) : f.lastLoop n [] = [] := by
  cases n with
  | zero => rfl
  | succ n => grind [ne_nil_of_read, lastLoop]

theorem lastLoop_congr (hf : f.Shortens) (hn : s.length ≤ n) (hm : s.length ≤ m) : f.lastLoop n s = f.lastLoop m s := by
  induction n generalizing m s with
  | zero => grind [lastLoop_nil]
  | succ n ih =>
    cases m with
    | zero => grind
    | succ m =>
      rw [lastLoop, lastLoop]
      split
      · next a b rest hr =>
        have hlt := hf hr
        exact ih (by omega) (by omega)
      · rfl

theorem lastWord_of_last (h : f.read s = some (a, [])) : f.lastWord s = s := by
  rw [lastWord]
  cases s.length <;> simp [lastLoop, h]

theorem lastWord_of_more (hf : f.Shortens) (h : f.read s = some (a, rest))
    (hrest : rest ≠ []) : f.lastWord s = f.lastWord rest := by
  obtain ⟨b, rest, rfl⟩ := exists_cons_of_ne_nil hrest
  have hlt := hf h
  obtain ⟨n, hn⟩ : ∃ n, s.length = n + 1 := ⟨s.length - 1, by omega⟩
  grind [lastWord, lastLoop, lastLoop_congr]

/-- **What is put behind a stream meets its last field.** Up to there the fields are read as before, since each leaves
something behind. -/
theorem Reads.append_last (hf : f.Shortens) (hinner : ∀ {s a rest}, f.read s = some (a, rest) → rest ≠ [] → f.Settled s)
    (h : f.Reads s l) (hl : l ≠ []) : ∃ init a, l = init ++ [a] ∧ f.read (f.lastWord s) = some (a, []) ∧
      ∀ x, f.toEnd (s ++ x) = (f.toEnd (f.lastWord s ++ x)).map (init ++ ·) := by
  induction h with
  | nil => exact absurd rfl hl
  | @cons s rest a l hr hrest ih =>
    cases hrest with
    | nil => exact ⟨[], a, rfl, by rwa [lastWord_of_last hr], fun x => by simp [lastWord_of_last hr]⟩
    | @cons _ rest' b l' hr' hrest' =>
      have hne := ne_nil_of_read hf hr'
      obtain ⟨init, c, hl', hlast, hx⟩ := ih (cons_ne_nil b l')
      rw [lastWord_of_more hf hr hne]
      refine ⟨a :: init, c, by rw [hl', cons_append], hlast, fun x => ?_⟩
      rw [toEnd_of_read hf (hinner hr hne a rest hr x), hx, Option.map_map]
      rfl

end

end Format
end Codec
