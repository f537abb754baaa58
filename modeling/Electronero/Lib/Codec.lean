import Mathlib.Data.List.Basic
/-!
# Formats: a writer and a reader kept in step

* `Lawful f nf`: whatever `f` reads is what it writes for the value read, and whatever it writes reads back, up to the
  normal form `nf`. Every combinator keeps it.
* `Format.Le`: the second format reads all that the first one does. Every combinator is monotone.
-/
namespace Codec
open List
variable {σ α β γ τ : Type}

structure Format (σ α : Type) where
  write : α → Option (List σ)
  read : List σ → Option (α × List σ)

structure Lawful (f : Format σ α) (nf : α → α) : Prop where
  canonical : ∀ {s a rest}, f.read s = some (a, rest) → nf a = a ∧ ∃ w, f.write a = some w ∧ s = w ++ rest
  complete : ∀ {a w}, f.write a = some w → ∀ rest, f.read (w ++ rest) = some (nf a, rest)

variable {f : Format σ α} {nf : α → α} {g : α → Format σ β} {get : γ → Option β} {put : β → γ}
  {fs : List (Format σ α)} {l : List α} {w : List σ} {n : Nat} {count : Format σ Nat}

theorem Lawful.congr {nf' : α → α} (h : Lawful f nf) (e : ∀ a, nf a = nf' a) : Lawful f nf' :=
  funext e ▸ h

namespace Format

def Positive (f : Format σ α) : Prop := ∀ a w, f.write a = some w → 0 < w.length

/-- `g` reads whatever `f` reads, to the same value, and the two write alike. -/
structure Le (f g : Format σ α) : Prop where
  write_eq : ∀ a, f.write a = g.write a
  read_le : ∀ {s r}, f.read s = some r → g.read s = some r

theorem Le.rfl {f : Format σ α} : f.Le f := ⟨fun _ => Eq.refl _, fun h => h⟩

def symbol (σ : Type) : Format σ σ where
  write a := some [a]
  read
    | [] => none
    | a :: s => some (a, s)

def absent (d : α) : Format σ α where
  write _ := some []
  read s := some (d, s)

def fail : Format σ α where
  write _ := none
  read _ := none

/-- `f` and then `g`, whose shape may depend on the first value. -/
def seq (f : Format σ α) (g : α → Format σ β) : Format σ (α × β) where
  write p := (f.write p.1).bind fun u => ((g p.1).write p.2).map fun v => u ++ v
  read s := (f.read s).bind fun r => ((g r.1).read r.2).map fun q => ((r.1, q.1), q.2)

/-- The part `get` of a larger value, or nothing where it has no such part. -/
def part (f : Format σ β) (get : γ → Option β) (put : β → γ) : Format σ γ where
  write c := (get c).bind f.write
  read s := (f.read s).map fun r => (put r.1, r.2)

def guard (p : α → Bool) (f : Format σ α) : Format σ α where
  write a := if p a then f.write a else none
  read s := (f.read s).bind fun r => if p r.1 then some r else none

def each : List (Format σ α) → Format σ (List α)
  | [] => (absent ()).part (fun l => if l.isEmpty then some () else none) fun _ => []
  | f :: fs =>
    (f.seq fun _ => each fs).part (fun l => l.head?.map fun a => (a, l.tail)) fun p => p.1 :: p.2

def times (n : Nat) (f : Format σ α) : Format σ (List α) := each (List.replicate n f)

def counted (count : Format σ Nat) (f : Format σ α) : Format σ (List α) where
  write l := (count.write l.length).bind fun u => ((f.times l.length).write l).map fun v => u ++ v
  read s := (count.read s).bind fun r => if r.2.length < r.1 then none else (f.times r.1).read r.2

def tagged (tagFormat : Format σ τ) (tag : α → τ) (body : τ → Format σ α) : Format σ α where
  write a := (tagFormat.write (tag a)).bind fun u => ((body (tag a)).write a).map fun v => u ++ v
  read s := (tagFormat.read s).bind fun r => (body r.1).read r.2

end Format

open Format

namespace Format

theorem positive_symbol : (symbol σ).Positive := by
  intro a w h
  obtain rfl : [a] = w := by simpa [symbol] using h
  simp

theorem Positive.seq {f : Format σ α} (hf : f.Positive) (g : α → Format σ β) : (f.seq g).Positive := by
  intro p w h
  obtain ⟨u, hu, h⟩ := Option.bind_eq_some_iff.1 h
  obtain ⟨v, -, rfl⟩ := Option.map_eq_some_iff.1 h
  have := hf _ u hu
  rw [length_append]
  omega

theorem Positive.part {f : Format σ β} (hf : f.Positive) (get : γ → Option β) (put : β → γ) :
    (f.part get put).Positive := by
  intro c w h
  obtain ⟨b, -, hw⟩ := Option.bind_eq_some_iff.1 h
  exact hf b w hw

theorem Positive.tagged {tagFormat : Format σ τ} (ht : tagFormat.Positive) (tag : α → τ) (body : τ → Format σ α) :
    (Format.tagged tagFormat tag body).Positive := by
  intro a w h
  obtain ⟨u, hu, h⟩ := Option.bind_eq_some_iff.1 h
  obtain ⟨v, -, rfl⟩ := Option.map_eq_some_iff.1 h
  have := ht _ u hu
  rw [length_append]
  omega

end Format

theorem lawful_symbol : Lawful (symbol σ) id where
  canonical {s a rest} h := by
    cases s with
    | nil => cases h
    | cons b s =>
      obtain ⟨rfl, rfl⟩ : b = a ∧ s = rest := by simpa [symbol] using h
      exact ⟨rfl, [b], rfl, rfl⟩
  complete {a w} h rest := by
    obtain rfl : [a] = w := by simpa [symbol] using h
    rfl

theorem lawful_absent (d : α) : Lawful (absent d : Format σ α) fun _ => d where
  canonical {s a rest} h := by
    obtain ⟨rfl, rfl⟩ : d = a ∧ s = rest := by simpa [absent] using h
    exact ⟨rfl, [], rfl, rfl⟩
  complete {a w} h rest := by
    obtain rfl : [] = w := by simpa [absent] using h
    rfl

theorem lawful_fail (nf : α → α) : Lawful (fail : Format σ α) nf where
  canonical h := by cases h
  complete h := by cases h

theorem lawful_ite_id {p : Prop} [Decidable p] {g : Format σ α} (hf : Lawful f id) (hg : Lawful g id) :
    Lawful (if p then f else g) id := by
  split
  · exact hf
  · exact hg

theorem Lawful.seq {nf' : α → β → β} (hf : Lawful f nf)
    (hg : ∀ a, Lawful (g a) (nf' a)) (hindep : ∀ a, g (nf a) = g a) :
    Lawful (f.seq g) fun p => (nf p.1, nf' p.1 p.2) where
  canonical {s p rest} h := by
    obtain ⟨⟨a, s₁⟩, hr, h⟩ := Option.bind_eq_some_iff.1 h
    obtain ⟨⟨b, s₂⟩, hq, h⟩ := Option.map_eq_some_iff.1 h
    cases h
    obtain ⟨ha, u, hu, rfl⟩ := hf.canonical hr
    obtain ⟨hb, v, hv, rfl⟩ := (hg a).canonical hq
    refine ⟨by simp [ha, hb], u ++ v, ?_, by simp⟩
    simp [Format.seq, hu, hv]
  complete {p w} h rest := by
    obtain ⟨u, hu, h⟩ := Option.bind_eq_some_iff.1 h
    obtain ⟨v, hv, rfl⟩ := Option.map_eq_some_iff.1 h
    have h₁ := hf.complete hu (v ++ rest)
    have h₂ := (hg p.1).complete hv rest
    simp [Format.seq, h₁, hindep, h₂]

theorem Lawful.seq_id (hf : Lawful f id) (hg : ∀ a, Lawful (g a) id) : Lawful (f.seq g) id :=
  hf.seq hg fun _ => rfl

theorem Lawful.part {f : Format σ β} {nf : β → β} (hf : Lawful f nf) {nf' : γ → γ}
    (hget : ∀ b w, f.write b = some w → get (put b) = some b) (hnf : ∀ c b, get c = some b → nf' c = put (nf b)) :
    Lawful (f.part get put) nf' where
  canonical {s c rest} h := by
    obtain ⟨⟨b, s₁⟩, hr, h⟩ := Option.map_eq_some_iff.1 h
    cases h
    obtain ⟨hb, w, hw, rfl⟩ := hf.canonical hr
    have hput := hget b w hw
    refine ⟨by rw [hnf _ b hput, hb], w, ?_, rfl⟩
    simp [Format.part, hput, hw]
  complete {c w} h rest := by
    obtain ⟨b, hb, hw⟩ := Option.bind_eq_some_iff.1 h
    simp [Format.part, hf.complete hw rest, hnf c b hb]

theorem Lawful.part_id {f : Format σ β} (hf : Lawful f id)
    (hget : ∀ b, get (put b) = some b) (hput : ∀ c b, get c = some b → c = put b) : Lawful (f.part get put) id :=
  hf.part (fun b _ _ => hget b) hput

theorem Lawful.guard (hf : Lawful f nf) {p : α → Bool} (hp : ∀ a, p (nf a) = p a) :
    Lawful (f.guard p) nf where
  canonical {s a rest} h := by
    obtain ⟨⟨b, s₁⟩, hr, h⟩ := Option.bind_eq_some_iff.1 h
    obtain ⟨hpb, h⟩ := Option.ite_none_right_eq_some.1 h
    cases h
    obtain ⟨hb, w, hw, rfl⟩ := hf.canonical hr
    exact ⟨hb, w, by simpa [Format.guard, hpb] using hw, rfl⟩
  complete {a w} h rest := by
    obtain ⟨hpa, hw⟩ := Option.ite_none_right_eq_some.1 h
    simp [Format.guard, hf.complete hw rest, hp, hpa]

theorem lawful_each (hfs : ∀ f ∈ fs, Lawful f nf) : Lawful (each fs) (List.map nf) := by
  induction fs with
  | nil =>
    refine (lawful_absent ()).part (fun _ _ _ => rfl) fun l b hl => ?_
    grind
  | cons f fs ih =>
    have hf := hfs f mem_cons_self
    have hrest := ih fun g hg => hfs g (mem_cons_of_mem f hg)
    refine (hf.seq (fun _ => hrest) fun _ => rfl).part (fun _ _ _ => rfl) fun l p hl => ?_
    cases l with
    | nil => simp at hl
    | cons a l =>
      obtain rfl : (a, l) = p := by simpa using hl
      rfl

theorem Lawful.times (hf : Lawful f nf) (n : Nat) : Lawful (f.times n) (List.map nf) :=
  lawful_each fun _ hg => eq_of_mem_replicate hg ▸ hf

theorem Lawful.times_id (hf : Lawful f id) (n : Nat) : Lawful (f.times n) id := by
  have h := hf.times n
  rwa [List.map_id_fun] at h

theorem write_each_cons (f : Format σ α) (fs : List (Format σ α)) (a : α) (l : List α) :
    (each (f :: fs)).write (a :: l) = (f.write a).bind fun u => ((each fs).write l).map fun v => u ++ v := rfl

theorem length_of_write_each (h : (each fs).write l = some w) : l.length = fs.length := by
  induction fs generalizing l w with
  | nil =>
    cases l with
    | nil => rfl
    | cons a l => simp [each, Format.part] at h
  | cons f fs ih =>
    cases l with
    | nil => simp [each, Format.part] at h
    | cons a l =>
      rw [write_each_cons] at h
      obtain ⟨u, -, h⟩ := Option.bind_eq_some_iff.1 h
      obtain ⟨v, hv, -⟩ := Option.map_eq_some_iff.1 h
      rw [length_cons, ih hv, length_cons]

theorem length_of_write_times (h : (f.times n).write l = some w) : l.length = n := by
  rw [length_of_write_each h, length_replicate]

theorem length_le_write_times (hpos : f.Positive) (h : (f.times n).write l = some w) : n ≤ w.length := by
  induction n generalizing l w with
  | zero => exact Nat.zero_le _
  | succ n ih =>
    cases l with
    | nil => cases length_of_write_times h
    | cons a l =>
      rw [Format.times, replicate_succ, write_each_cons] at h
      obtain ⟨u, hu, h⟩ := Option.bind_eq_some_iff.1 h
      obtain ⟨v, hv, rfl⟩ := Option.map_eq_some_iff.1 h
      have h₁ := hpos a u hu
      have h₂ := ih hv
      rw [length_append]
      omega

/-- The refusal of a count beyond what is left loses nothing as long as no element is empty. -/
theorem Lawful.counted (hc : Lawful count id) (hf : Lawful f nf)
    (hpos : f.Positive) : Lawful (counted count f) (List.map nf) where
  canonical {s l rest} h := by
    obtain ⟨⟨n, s₁⟩, hr, hq⟩ := Option.bind_eq_some_iff.1 h
    obtain ⟨-, hq⟩ := Option.ite_none_left_eq_some.1 hq
    obtain ⟨-, u, hu, rfl⟩ := hc.canonical hr
    obtain ⟨hl, v, hv, hs⟩ := (hf.times n).canonical hq
    obtain rfl := length_of_write_times hv
    dsimp only at hs
    refine ⟨hl, u ++ v, ?_, by simp [hs]⟩
    simp [Format.counted, hu, hv]
  complete {l w} h rest := by
    obtain ⟨u, hu, h⟩ := Option.bind_eq_some_iff.1 h
    obtain ⟨v, hv, rfl⟩ := Option.map_eq_some_iff.1 h
    have hlen := length_le_write_times hpos hv
    have hle : ¬ (v ++ rest).length < l.length := by
      rw [length_append]
      omega
    have hcount := hc.complete hu (v ++ rest)
    simp only [id] at hcount
    simp only [Format.counted, append_assoc, hcount, Option.bind_some, if_neg hle]
    exact (hf.times l.length).complete hv rest

theorem Lawful.counted_id (hc : Lawful count id) (hf : Lawful f id)
    (hpos : f.Positive) : Lawful (Format.counted count f) id := by
  have h := hc.counted hf hpos
  rwa [List.map_id_fun] at h

theorem Lawful.tagged {tagFormat : Format σ τ} {tag : α → τ} {body : τ → Format σ α}
    (ht : Lawful tagFormat id) (hb : ∀ t, Lawful (body t) nf)
    (htag : ∀ t a w, (body t).write a = some w → tag a = t) : Lawful (tagged tagFormat tag body) nf where
  canonical {s a rest} h := by
    obtain ⟨⟨t, s₁⟩, hr, hq⟩ := Option.bind_eq_some_iff.1 h
    obtain ⟨-, u, hu, rfl⟩ := ht.canonical hr
    obtain ⟨ha, v, hv, hs⟩ := (hb t).canonical hq
    dsimp only at hs
    obtain rfl := htag t a v hv
    refine ⟨ha, u ++ v, ?_, by simp [hs]⟩
    simp [Format.tagged, hu, hv]
  complete {a w} h rest := by
    obtain ⟨u, hu, h⟩ := Option.bind_eq_some_iff.1 h
    obtain ⟨v, hv, rfl⟩ := Option.map_eq_some_iff.1 h
    have htagRead := ht.complete hu (v ++ rest)
    simp only [id] at htagRead
    simp only [Format.tagged, append_assoc, htagRead, Option.bind_some]
    exact (hb (tag a)).complete hv rest

section
variable {f : Format σ α} {nf : α → α}

variable {a : α}

theorem Lawful.write_nf (hf : Lawful f nf) {w : List σ} (h : f.write a = some w) :
    f.write (nf a) = some w ∧ nf (nf a) = nf a := by
  have hread := hf.complete h []
  obtain ⟨hn, w', hw', hww⟩ := hf.canonical hread
  grind

/-- **No word of a format runs on into another**: two words that agree up to what follows them are the same, and were
written for one value. -/
theorem Lawful.write_inj (hf : Lawful f nf) {b : α} {u v r r' : List σ} (ha : f.write a = some u)
    (hb : f.write b = some v) (h : u ++ r = v ++ r') : nf a = nf b ∧ u = v ∧ r = r' := by
  have h₁ := hf.complete ha r
  have h₂ := hf.complete hb r'
  simp_all

end

namespace Format

variable {f f' g : Format σ α}

theorem Le.ite {p : Prop} [Decidable p] {g' : Format σ α} (hf : f.Le f') (hg : g.Le g') :
    (if p then f else g).Le (if p then f' else g') := by
  split
  · exact hf
  · exact hg

theorem Le.seq {g g' : α → Format σ β} (hf : f.Le f') (hg : ∀ a, (g a).Le (g' a)) :
    (f.seq g).Le (f'.seq g') where
  write_eq p := by simp only [Format.seq, hf.write_eq, (hg p.1).write_eq]
  read_le {s r} h := by
    obtain ⟨⟨a, s₁⟩, hr, h⟩ := Option.bind_eq_some_iff.1 h
    obtain ⟨q, hq, rfl⟩ := Option.map_eq_some_iff.1 h
    simp [Format.seq, hf.read_le hr, (hg a).read_le hq]

theorem Le.part {f f' : Format σ β} (hf : f.Le f') (get : γ → Option β) (put : β → γ) :
    (f.part get put).Le (f'.part get put) where
  write_eq c := by simp only [Format.part, funext hf.write_eq]
  read_le {s r} h := by
    obtain ⟨q, hq, rfl⟩ := Option.map_eq_some_iff.1 h
    simp [Format.part, hf.read_le hq]

theorem Le.guard (hf : f.Le f') (p : α → Bool) : (f.guard p).Le (f'.guard p) where
  write_eq a := by simp only [Format.guard, hf.write_eq]
  read_le {s r} h := by
    obtain ⟨q, hq, h⟩ := Option.bind_eq_some_iff.1 h
    simpa [Format.guard, hf.read_le hq] using h

theorem Le.each {fs gs : List (Format σ α)} (h : List.Forall₂ Le fs gs) : (each fs).Le (each gs) := by
  induction h with
  | nil => exact Le.rfl
  | cons hf _ ih => exact (hf.seq fun _ => ih).part _ _

theorem Le.times (hf : f.Le f') (n : Nat) : (f.times n).Le (f'.times n) := by
  refine Le.each ?_
  induction n with
  | zero => exact .nil
  | succ n ih => exact .cons hf ih

theorem Le.counted {count count' : Format σ Nat} (hc : count.Le count') (hf : f.Le f') :
    (counted count f).Le (counted count' f') where
  write_eq l := by simp only [Format.counted, hc.write_eq, (hf.times l.length).write_eq]
  read_le {s r} h := by
    obtain ⟨⟨n, s₁⟩, hr, h⟩ := Option.bind_eq_some_iff.1 h
    obtain ⟨hle, h⟩ := Option.ite_none_left_eq_some.1 h
    dsimp only at hle h
    simp [Format.counted, hc.read_le hr, hle, (hf.times n).read_le h]

theorem Le.tagged {tagFormat tagFormat' : Format σ τ} {tag : α → τ} {body body' : τ → Format σ α}
    (ht : tagFormat.Le tagFormat') (hb : ∀ t, (body t).Le (body' t)) :
    (Format.tagged tagFormat tag body).Le (Format.tagged tagFormat' tag body') where
  write_eq a := by simp only [Format.tagged, ht.write_eq, (hb (tag a)).write_eq]
  read_le {s r} h := by
    obtain ⟨⟨t, s₁⟩, hr, h⟩ := Option.bind_eq_some_iff.1 h
    simpa [Format.tagged, ht.read_le hr] using (hb t).read_le h

/-- **Where a lax format reads on past a fault, its word is not the one that was read.** `f` is lawful and `g` reads
more than `f` does: of the words `g` reads to the end, exactly those of `f` are written again as they were. -/
theorem Le.write_eq_iff {nf : α → α} (hle : f.Le g) (hf : Lawful f nf) {s : List σ} {a : α}
    (h : g.read s = some (a, [])) : g.write a = some s ↔ f.read s = some (a, []) := by
  constructor
  · intro hw
    have hread := hf.complete ((hle.write_eq a).trans hw) []
    rw [append_nil] at hread
    have hnf := hle.read_le hread
    rw [h] at hnf
    rwa [← hnf] at hread
  · intro hr
    obtain ⟨-, w, hw, hs⟩ := hf.canonical hr
    rw [← hle.write_eq, hw, hs, append_nil]

end Format
end Codec
