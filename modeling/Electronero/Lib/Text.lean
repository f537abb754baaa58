import Mathlib.Algebra.Group.Int.Defs
import Mathlib.Algebra.Group.Nat.Defs
import Mathlib.Data.List.Basic
/-!
# Byte strings: numerals and separated fields

A decimal numeral is what `strtoull` and `istream >> int` have in common; fields are cut as a `getline` loop cuts them.
-/
namespace Text
open List

abbrev Bytes := List UInt8

def ascii (s : String) : Bytes := s.toList.map fun c => c.toNat.toUInt8

def tab : UInt8 := 9

def isSpace (c : UInt8) : Bool := c == 32 || (9 ≤ c && c ≤ 13)

def isDigit (c : UInt8) : Bool := 48 ≤ c && c ≤ 57

def decimal (n : Nat) : Bytes := (Nat.toDigits 10 n).map fun c => c.toNat.toUInt8

def digitsVal (ds : Bytes) : Nat := ds.foldl (fun acc c => 10 * acc + (c.toNat - 48)) 0

def takeSign : Bytes → Bool × Bytes
  | c :: cs => if c = 45 then (true, cs) else if c = 43 then (false, cs) else (false, c :: cs)
  | [] => (false, [])

/-- Blanks, a sign, and as many digits as there are: sign, magnitude and what follows.
`none` = there was no digit. -/
def numeral (s : Bytes) : Option (Bool × Nat × Bytes) :=
  let t := takeSign (s.dropWhile isSpace)
  let ds := t.2.takeWhile isDigit
  if ds = [] then none else some (t.1, digitsVal ds, t.2.dropWhile isDigit)

inductive StdException where
  | invalidArgument
  | outOfRange
deriving DecidableEq, Repr

/-- `std::stoull`: whatever follows the digits is ignored, and a minus sign negates modulo 2^64
(`strtoull` only reports a magnitude beyond `ULLONG_MAX`). -/
def stoull (s : Bytes) : Except StdException UInt64 :=
  match numeral s with
  | none => .error .invalidArgument
  | some (neg, n, _) =>
    if 2 ^ 64 ≤ n then .error .outOfRange
    else .ok (if neg then - UInt64.ofNat n else UInt64.ofNat n)

/-- `istream >> int`: the value and the unread rest; `none` = the stream's failbit (no digit, or
the value does not fit an `int`). -/
def readInt (s : Bytes) : Option (Int × Bytes) :=
  match numeral s with
  | none => none
  | some (neg, n, rest) =>
    let v : Int := if neg then - (n : Int) else n
    if v < - 2 ^ 31 ∨ 2 ^ 31 ≤ v then none else some (v, rest)

def joinFields {α : Type} (sep : α) (fs : List (List α)) : List α := fs.flatMap fun f => sep :: f

/-- `while (getline(in, field, sep)) fields.push_back(field)`: the last `getline` fails when it
finds nothing at all, so an empty last field is never delivered. -/
def splitFields {α : Type} [DecidableEq α] (sep : α) : List α → List (List α)
  | [] => []
  | c :: cs =>
    if c = sep then [] :: splitFields sep cs
    else match splitFields sep cs with
      | [] => [[c]]
      | f :: fs => (c :: f) :: fs

theorem isDigit_iff (c : UInt8) : isDigit c = true ↔ 48 ≤ c.toNat ∧ c.toNat ≤ 57 := by
  simp [isDigit, UInt8.le_iff_toNat_le]

theorem charByte_digit {c : Char} (h : c.isDigit = true) :
    (c.toNat.toUInt8).toNat = c.toNat ∧ 48 ≤ c.toNat ∧ c.toNat ≤ 57 := by
  have hb : 48 ≤ c.toNat ∧ c.toNat ≤ 57 := by
    simp only [Char.isDigit, ge_iff_le, Bool.and_eq_true, decide_eq_true_eq] at h
    exact ⟨UInt32.le_iff_toNat_le.1 h.1, UInt32.le_iff_toNat_le.1 h.2⟩
  refine ⟨?_, hb⟩
  have hlt : c.toNat < 256 := by omega
  simp [Nat.toUInt8, Nat.mod_eq_of_lt hlt]

theorem isDigit_of_mem_decimal {n : Nat} {b : UInt8} (h : b ∈ decimal n) : isDigit b = true := by
  obtain ⟨c, hc, rfl⟩ := List.mem_map.1 h
  have hd := charByte_digit (Nat.isDigit_of_mem_toDigits (by omega) (by omega) hc)
  rw [isDigit_iff, hd.1]
  exact hd.2

theorem decimal_ne_nil (n : Nat) : decimal n ≠ [] := by
  simp [decimal, Nat.toDigits_ne_nil]

theorem digitsVal_map_digits (cs : List Char) (h : ∀ c ∈ cs, c.isDigit = true) (acc : Nat) :
    (cs.map fun c => c.toNat.toUInt8).foldl (fun a b => 10 * a + (b.toNat - 48)) acc
      = Nat.ofDigitChars 10 cs acc := by
  induction cs generalizing acc with
  | nil => simp [Nat.ofDigitChars]
  | cons c cs ih =>
    have hc := charByte_digit (h c mem_cons_self)
    rw [map_cons, foldl_cons, ih (fun x hx => h x (mem_cons_of_mem _ hx)), hc.1]
    simp [Nat.ofDigitChars]

theorem digitsVal_decimal (n : Nat) : digitsVal (decimal n) = n := by
  have hd : ∀ c ∈ Nat.toDigits 10 n, c.isDigit = true :=
    fun c hc => Nat.isDigit_of_mem_toDigits (by omega) (by omega) hc
  rw [digitsVal, decimal, digitsVal_map_digits _ hd, Nat.ofDigitChars_ten_toDigits]

theorem decimal_injective : Function.Injective decimal := by
  intro m n h
  grind [digitsVal, digitsVal_decimal]

theorem takeSign_decimal (n : Nat) (rest : Bytes) :
    takeSign ((decimal n ++ rest).dropWhile isSpace) = (false, decimal n ++ rest) := by
  cases hd : decimal n with
  | nil => exact absurd hd (decimal_ne_nil n)
  | cons c cs =>
    have hc := (isDigit_iff c).1 (isDigit_of_mem_decimal (n := n) (by simp [hd]))
    have hsp : isSpace c = false := by
      simp [isSpace, UInt8.le_iff_toNat_le, ← UInt8.toNat_inj]
      omega
    have h45 : c ≠ 45 := by rintro rfl; simp at hc
    have h43 : c ≠ 43 := by rintro rfl; simp at hc
    simp [hsp, takeSign, h45, h43]

theorem numeral_decimal (n : Nat) (rest : Bytes) (h : ∀ c ∈ rest.head?, isDigit c = false) :
    numeral (decimal n ++ rest) = some (false, n, rest) := by
  have hall : ∀ b ∈ decimal n, isDigit b = true := fun b hb => isDigit_of_mem_decimal hb
  have htake : (decimal n ++ rest).takeWhile isDigit = decimal n := by
    rw [takeWhile_append_of_pos hall]
    cases rest with
    | nil => simp
    | cons c cs => simp [h c (by simp)]
  have hdrop : (decimal n ++ rest).dropWhile isDigit = rest := by
    rw [dropWhile_append_of_pos hall]
    cases rest with
    | nil => simp
    | cons c cs => simp [h c (by simp)]
  simp only [numeral, takeSign_decimal, htake, hdrop, decimal_ne_nil, if_false, digitsVal_decimal]

theorem stoull_decimal (n : UInt64) : stoull (decimal n.toNat) = .ok n := by
  have h := numeral_decimal n.toNat [] (by simp)
  rw [append_nil] at h
  have hlt : ¬ 2 ^ 64 ≤ n.toNat := Nat.not_le.2 n.toNat_lt
  unfold stoull
  rw [h]
  dsimp only
  rw [if_neg hlt]
  simp

theorem readInt_decimal (n : Nat) (hn : n < 2 ^ 31) (rest : Bytes)
    (h : ∀ c ∈ rest.head?, isDigit c = false) : readInt (decimal n ++ rest) = some ((n : Int), rest) := by
  have hr : ¬ ((n : Int) < - 2 ^ 31 ∨ 2 ^ 31 ≤ (n : Int)) := by omega
  simp only [readInt, numeral_decimal n rest h, Bool.false_eq_true, if_false, hr]

section Join
variable {α : Type} {sep : α}

@[simp] theorem joinFields_nil : joinFields sep [] = [] := rfl

@[simp] theorem joinFields_cons (f : List α) (fs : List (List α)) :
    joinFields sep (f :: fs) = sep :: (f ++ joinFields sep fs) := by simp [joinFields]

theorem joinFields_append (fs gs : List (List α)) :
    joinFields sep (fs ++ gs) = joinFields sep fs ++ joinFields sep gs := by simp [joinFields]

end Join

section Fields
variable {α : Type} [DecidableEq α] {sep : α}

theorem sep_not_mem_splitFields : ∀ (l : List α), ∀ f ∈ splitFields sep l, sep ∉ f
  | [], f, hf => by simp [splitFields] at hf
  | c :: cs, f, hf => by
    have ih := sep_not_mem_splitFields cs
    by_cases hc : c = sep
    · simp only [splitFields, hc, if_true, mem_cons] at hf
      rcases hf with rfl | hf
      · simp
      · exact ih f hf
    · simp only [splitFields, hc, if_false] at hf
      cases hs : splitFields sep cs with
      | nil =>
        simp only [hs, mem_singleton] at hf
        subst hf
        simpa using fun h => hc h.symm
      | cons g gs =>
        rw [hs] at ih
        simp only [hs, mem_cons] at hf
        rcases hf with rfl | hf
        · simp only [mem_cons, not_or]
          exact ⟨fun h => hc h.symm, ih g mem_cons_self⟩
        · exact ih f (mem_cons_of_mem _ hf)

theorem splitFields_append_sep (f l : List α) (hf : sep ∉ f) :
    splitFields sep (f ++ sep :: l) = f :: splitFields sep l := by
  induction f with
  | nil => simp [splitFields]
  | cons c cs ih =>
    simp only [mem_cons, not_or] at hf
    rw [cons_append, splitFields, if_neg (fun h => hf.1 h.symm), ih hf.2]

theorem splitFields_last (f : List α) (hf : sep ∉ f) (hne : f ≠ []) : splitFields sep f = [f] := by
  induction f with
  | nil => exact absurd rfl hne
  | cons c cs ih =>
    simp only [mem_cons, not_or] at hf
    rw [splitFields, if_neg (fun h => hf.1 h.symm)]
    cases cs with
    | nil => simp [splitFields]
    | cons d ds => rw [ih hf.2 (by simp)]

theorem splitFields_joinFields_last : ∀ (fs : List (List α)) (last : List α), (∀ f ∈ fs, sep ∉ f) →
    splitFields sep (joinFields sep (fs ++ [last])).tail = fs ++ splitFields sep last
  | [], last, _ => by simp
  | f :: fs, last, hfs => by
    have ih := splitFields_joinFields_last fs last fun g hg => hfs g (mem_cons_of_mem _ hg)
    -- what follows the first field starts with the separator in front of the second
    obtain ⟨l, hlr⟩ : ∃ l, joinFields sep (fs ++ [last]) = sep :: l := by
      cases fs <;> simp
    rw [hlr] at ih
    rw [cons_append, joinFields_cons, tail_cons, hlr,
      splitFields_append_sep f l (hfs f mem_cons_self)]
    exact congrArg (f :: ·) ih

theorem splitFields_joinFields (fs : List (List α)) (last : List α) (hfs : ∀ f ∈ fs, sep ∉ f) (hl : sep ∉ last)
    (hne : last ≠ []) : splitFields sep (joinFields sep (fs ++ [last])).tail = fs ++ [last] := by
  rw [splitFields_joinFields_last fs last hfs, splitFields_last last hl hne]

theorem exists_pieces (f : List α) :
    ∃ ps : List (List α), joinFields sep ps = sep :: f ∧ (∀ p ∈ ps, sep ∉ p) ∧ ps.length = f.count sep + 1 := by
  induction f with
  | nil => exact ⟨[[]], by simp, by simp, by simp⟩
  | cons c cs ih =>
    obtain ⟨ps, hjoin, hfree, hlen⟩ := ih
    by_cases hc : c = sep
    · subst hc
      refine ⟨[] :: ps, by simp [hjoin], ?_, by simp [hlen]⟩
      intro p hp
      rcases mem_cons.1 hp with rfl | hp
      · simp
      · exact hfree p hp
    · obtain _ | ⟨p, ps⟩ := ps
      · simp at hlen
      · rw [joinFields_cons, cons.injEq] at hjoin
        refine ⟨(c :: p) :: ps, by simp [hjoin.2], ?_, by simp [← hlen, count_cons_of_ne hc]⟩
        intro q hq
        rcases mem_cons.1 hq with rfl | hq
        · have hp := hfree p mem_cons_self
          simp only [mem_cons, not_or]
          exact ⟨fun h => hc h.symm, hp⟩
        · exact hfree q (mem_cons_of_mem _ hq)

theorem exists_recut (fs : List (List α)) :
    ∃ gs : List (List α), joinFields sep gs = joinFields sep fs ∧ (∀ g ∈ gs, sep ∉ g) ∧
      gs.length = fs.length + fs.flatten.count sep := by
  induction fs with
  | nil => exact ⟨[], rfl, by simp, rfl⟩
  | cons f fs ih =>
    obtain ⟨gs, hjoin, hfree, hlen⟩ := ih
    obtain ⟨ps, hpjoin, hpfree, hplen⟩ := @exists_pieces α _ sep f
    refine ⟨ps ++ gs, by rw [joinFields_append, hpjoin, hjoin, joinFields_cons, cons_append], ?_, ?_⟩
    · intro g hg
      rcases mem_append.1 hg with hg | hg
      · exact hpfree g hg
      · exact hfree g hg
    · simp only [length_append, hplen, hlen, length_cons, flatten_cons, count_append]
      omega

theorem joinFields_injective : ∀ {fs gs : List (List α)}, (∀ f ∈ fs, sep ∉ f) → (∀ g ∈ gs, sep ∉ g) →
    joinFields sep fs = joinFields sep gs → fs = gs
  | [], [], _, _, _ => rfl
  | [], g :: gs, _, _, h => by simp at h
  | f :: fs, [], _, _, h => by simp at h
  | f :: fs, g :: gs, hf, hg, h => by
    have hfs : ∀ x ∈ fs, sep ∉ x := fun x hx => hf x (mem_cons_of_mem _ hx)
    have hgs : ∀ x ∈ gs, sep ∉ x := fun x hx => hg x (mem_cons_of_mem _ hx)
    simp only [joinFields_cons, cons.injEq, true_and] at h
    -- the field ends where the first separator stands
    have key : ∀ (a : List α) (xs : List (List α)), sep ∉ a →
        (a ++ joinFields sep xs).takeWhile (· ≠ sep) = a := by
      intro a xs ha
      have hpos : ∀ x ∈ a, decide (x ≠ sep) = true := by
        intro x hx
        simpa using fun e : x = sep => ha (e ▸ hx)
      rw [takeWhile_append_of_pos hpos]
      cases xs <;> simp
    have hfg : f = g := by
      have := congrArg (List.takeWhile (· ≠ sep)) h
      rwa [key f fs (hf f mem_cons_self), key g gs (hg g mem_cons_self)] at this
    subst hfg
    rw [joinFields_injective hfs hgs (append_cancel_left h)]

end Fields

end Text
