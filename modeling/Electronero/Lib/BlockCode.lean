import Mathlib.Data.Nat.Digits.Lemmas
/-!
# Codes that work block by block

A `BlockCode` encodes blocks of `width` symbols and a shorter last one, whose length the length of the encoded text tells.
If the code of a single block is a bijection onto what its decoder accepts, so is the code of whole texts.
-/
namespace BlockCode

def fixedDigits (b : ℕ) : ℕ → ℕ → List ℕ
  | 0, _ => []
  | k + 1, n => n % b :: fixedDigits b k (n / b)

@[simp] theorem length_fixedDigits (b k n : ℕ) : (fixedDigits b k n).length = k := by
  induction k generalizing n with
  | zero => rfl
  | succ k ih => rw [fixedDigits, List.length_cons, ih]

theorem fixedDigits_zero (b k : ℕ) : fixedDigits b k 0 = List.replicate k 0 := by
  induction k with
  | zero => rfl
  | succ k ih => rw [fixedDigits, Nat.zero_mod, Nat.zero_div, ih, List.replicate_succ]

variable {b k n : ℕ}

theorem lt_of_mem_fixedDigits {d : ℕ} (hb : 0 < b) (h : d ∈ fixedDigits b k n) : d < b := by
  induction k generalizing n with
  | zero => cases h
  | succ k ih =>
    rcases List.mem_cons.1 h with rfl | h
    · exact Nat.mod_lt _ hb
    · exact ih h

theorem getElem?_fixedDigits {i : ℕ} (h : i < k) : (fixedDigits b k n)[i]? = some (n / b ^ i % b) := by
  induction k generalizing n i with
  | zero => omega
  | succ k ih =>
    cases i with
    | zero => simp [fixedDigits]
    | succ i =>
      rw [fixedDigits, List.getElem?_cons_succ, ih (by omega), Nat.div_div_eq_div_mul, pow_succ, Nat.mul_comm (b ^ i)]

theorem ofDigits_fixedDigits (h : n < b ^ k) : Nat.ofDigits b (fixedDigits b k n) = n := by
  induction k generalizing n with
  | zero =>
    rw [pow_zero, Nat.lt_one_iff] at h
    subst h
    rfl
  | succ k ih =>
    have hdiv : n / b < b ^ k := Nat.div_lt_of_lt_mul (by rwa [pow_succ, Nat.mul_comm] at h)
    rw [fixedDigits, Nat.ofDigits_cons, ih hdiv]
    exact Nat.mod_add_div n b

theorem fixedDigits_ofDigits {ds : List ℕ} (h : ∀ d ∈ ds, d < b) :
    fixedDigits b ds.length (Nat.ofDigits b ds) = ds := by
  induction ds with
  | nil => rfl
  | cons d ds ih =>
    have hd : d < b := h d List.mem_cons_self
    have hpos : 0 < b := Nat.lt_of_le_of_lt (Nat.zero_le _) hd
    rw [Nat.ofDigits_cons, List.length_cons, fixedDigits, Nat.add_mul_mod_self_left, Nat.mod_eq_of_lt hd,
      Nat.add_mul_div_left _ _ hpos, Nat.div_eq_of_lt hd, Nat.zero_add,
      ih fun x hx => h x (List.mem_cons_of_mem _ hx)]

section Slices
variable {α β : Type}

def slices (w n : ℕ) (l : List α) : List (List α) := (List.range n).map fun i => (l.drop (i * w)).take w

theorem slices_succ (w n : ℕ) (l : List α) : slices w (n + 1) l = l.take w :: slices w n (l.drop w) := by
  unfold slices
  rw [List.range_succ_eq_map, List.map_cons, List.map_map, Nat.zero_mul, List.drop_zero]
  congr 1
  refine List.map_congr_left fun i _ => ?_
  rw [Function.comp_apply, List.drop_drop, Nat.succ_mul, Nat.add_comm]

theorem flatten_slices (w n : ℕ) (l : List α) : (slices w n l).flatten = l.take (n * w) := by
  induction n generalizing l with
  | zero => simp [slices]
  | succ n ih =>
    rw [slices_succ, List.flatten_cons, ih, Nat.succ_mul, Nat.add_comm (n * w) w, List.take_add]

variable {w : ℕ} {blocks : List (List α)}

theorem length_of_mem_slices {n : ℕ} {l s : List α} (hle : n * w ≤ l.length) (h : s ∈ slices w n l) : s.length = w := by
  induction n generalizing l with
  | zero => simp [slices] at h
  | succ n ih => grind [slices_succ]

theorem slices_flatten (h : ∀ b ∈ blocks, b.length = w) (rest : List α) :
    slices w blocks.length (blocks.flatten ++ rest) = blocks := by
  induction blocks with
  | nil => rfl
  | cons b blocks ih => grind [slices_succ]

theorem length_flatten_const (h : ∀ b ∈ blocks, b.length = w) : blocks.flatten.length = blocks.length * w := by
  rw [List.length_flatten, List.map_congr_left h, List.map_const', List.sum_replicate_nat]

end Slices

end BlockCode

structure BlockCode (α β : Type) where
  width : ℕ
  encodedSize : ℕ → ℕ
  decodedSize : ℕ → Option ℕ
  encodeBlock : List α → List β
  decodeBlock : List β → Option (List α)

namespace BlockCode
variable {α β : Type}

def encode (c : BlockCode α β) (data : List α) : List β :=
  let count := data.length / c.width
  let last := data.length % c.width
  ((slices c.width count data).map c.encodeBlock).flatten ++
    if 0 < last then c.encodeBlock (data.drop (count * c.width)) else []

def decode (c : BlockCode α β) (text : List β) : Option (List α) :=
  let full := c.encodedSize c.width
  let count := text.length / full
  let last := text.length % full
  (c.decodedSize last).bind fun _ =>
    ((slices full count text).mapM c.decodeBlock).bind fun blocks =>
      if 0 < last then (c.decodeBlock (text.drop (count * full))).map (blocks.flatten ++ ·)
      else some blocks.flatten

/-- The code of a single block is a bijection, and the sizes of the encoded blocks tell those of the blocks. -/
structure Lawful (c : BlockCode α β) : Prop where
  width_pos : 0 < c.width
  encodedSize_zero : c.encodedSize 0 = 0
  encodedSize_pos : ∀ {s}, 0 < s → s ≤ c.width → 0 < c.encodedSize s
  encodedSize_lt : ∀ {s}, s < c.width → c.encodedSize s < c.encodedSize c.width
  decodedSize_encodedSize : ∀ {s}, s ≤ c.width → c.decodedSize (c.encodedSize s) = some s
  length_encodeBlock : ∀ {b}, 0 < b.length → b.length ≤ c.width → (c.encodeBlock b).length = c.encodedSize b.length
  decode_encodeBlock : ∀ {b}, 0 < b.length → b.length ≤ c.width → c.decodeBlock (c.encodeBlock b) = some b
  encode_decodeBlock : ∀ {e b}, c.decodeBlock e = some b →
    0 < b.length ∧ b.length ≤ c.width ∧ e.length = c.encodedSize b.length ∧ c.encodeBlock b = e

namespace Lawful
variable {c : BlockCode α β}

variable {blocks : List (List α)} {texts : List (List β)}

theorem mapM_decodeBlock (h : c.Lawful) (hb : ∀ b ∈ blocks, b.length = c.width) :
    (blocks.map c.encodeBlock).mapM c.decodeBlock = some blocks := by
  induction blocks with
  | nil => rfl
  | cons b blocks ih =>
    have hlen := hb b List.mem_cons_self
    have hpos := h.width_pos
    rw [List.map_cons, List.mapM_cons, h.decode_encodeBlock (by omega) (by omega),
      ih fun x hx => hb x (List.mem_cons_of_mem _ hx)]
    rfl

theorem of_mapM_decodeBlock (h : c.Lawful)
    (hw : ∀ e ∈ texts, e.length = c.encodedSize c.width) (hm : texts.mapM c.decodeBlock = some blocks) :
    blocks.map c.encodeBlock = texts ∧ ∀ b ∈ blocks, b.length = c.width := by
  induction texts generalizing blocks with
  | nil => grind
  | cons e texts ih =>
    rw [List.mapM_cons] at hm
    obtain ⟨b, hb, hm⟩ := Option.bind_eq_some_iff.1 hm
    obtain ⟨bs, hbs, hm⟩ := Option.bind_eq_some_iff.1 hm
    obtain rfl := Option.some.inj hm
    obtain ⟨-, hle, hsize, henc⟩ := h.encode_decodeBlock hb
    obtain ⟨hmap, hlen⟩ := ih (fun x hx => hw x (List.mem_cons_of_mem _ hx)) hbs
    refine ⟨by rw [List.map_cons, henc, hmap], fun x hx => ?_⟩
    rcases List.mem_cons.1 hx with rfl | hx
    · have hfull := h.decodedSize_encodedSize (Nat.le_refl c.width)
      rw [← hw e List.mem_cons_self, hsize, h.decodedSize_encodedSize hle] at hfull
      exact Option.some.inj hfull
    · exact hlen x hx

theorem encode_append (h : c.Lawful) {last : List α} (hb : ∀ b ∈ blocks, b.length = c.width)
    (hlast : last.length < c.width) : c.encode (blocks.flatten ++ last) =
      (blocks.map c.encodeBlock).flatten ++ if 0 < last.length then c.encodeBlock last else [] := by
  have hlen : (blocks.flatten ++ last).length = last.length + blocks.length * c.width := by
    rw [List.length_append, length_flatten_const hb, Nat.add_comm]
  have hcount : (blocks.flatten ++ last).length / c.width = blocks.length := by
    rw [hlen, Nat.add_mul_div_right _ _ h.width_pos, Nat.div_eq_of_lt hlast, Nat.zero_add]
  have hrest : (blocks.flatten ++ last).length % c.width = last.length := by
    rw [hlen, Nat.add_mul_mod_self_right, Nat.mod_eq_of_lt hlast]
  unfold encode
  simp only [hcount, hrest]
  rw [slices_flatten hb, ← length_flatten_const hb, List.drop_left]

theorem decode_append (h : c.Lawful) {last : List β}
    (hw : ∀ e ∈ texts, e.length = c.encodedSize c.width) (hlast : last.length < c.encodedSize c.width) :
    c.decode (texts.flatten ++ last) =
      (c.decodedSize last.length).bind fun _ =>
        (texts.mapM c.decodeBlock).bind fun blocks =>
          if 0 < last.length then (c.decodeBlock last).map (blocks.flatten ++ ·) else some blocks.flatten := by
  have hpos := h.encodedSize_pos h.width_pos (Nat.le_refl _)
  have hlen : (texts.flatten ++ last).length = last.length + texts.length * c.encodedSize c.width := by
    rw [List.length_append, length_flatten_const hw, Nat.add_comm]
  have hcount : (texts.flatten ++ last).length / c.encodedSize c.width = texts.length := by
    rw [hlen, Nat.add_mul_div_right _ _ hpos, Nat.div_eq_of_lt hlast, Nat.zero_add]
  have hrest : (texts.flatten ++ last).length % c.encodedSize c.width = last.length := by
    rw [hlen, Nat.add_mul_mod_self_right, Nat.mod_eq_of_lt hlast]
  unfold decode
  simp only [hcount, hrest]
  rw [slices_flatten hw, ← length_flatten_const hw, List.drop_left]

theorem exists_blocks {γ : Type} {w : ℕ} (hw : 0 < w) (l : List γ) :
    ∃ (blocks : List (List γ)) (last : List γ), l = blocks.flatten ++ last ∧ (∀ b ∈ blocks, b.length = w) ∧
      last.length < w := by
  have hle : l.length / w * w ≤ l.length := Nat.div_mul_le_self _ _
  have hsplit := Nat.mod_add_div l.length w
  have hmod := Nat.mod_lt l.length hw
  rw [Nat.mul_comm] at hsplit
  refine ⟨slices w (l.length / w) l, l.drop (l.length / w * w), ?_, fun b hb => length_of_mem_slices hle hb, ?_⟩
  · rw [flatten_slices, List.take_append_drop]
  · rw [List.length_drop]
    omega

theorem decode_encode (h : c.Lawful) (data : List α) : c.decode (c.encode data) = some data := by
  obtain ⟨blocks, last, rfl, hb, hlast⟩ := exists_blocks h.width_pos data
  have hfull : ∀ e ∈ blocks.map c.encodeBlock, e.length = c.encodedSize c.width := by
    intro e he
    obtain ⟨b, hmem, rfl⟩ := List.mem_map.1 he
    have hpos := h.width_pos
    have hlen := hb b hmem
    rw [h.length_encodeBlock (by omega) (by omega), hlen]
  have hsize : (if 0 < last.length then c.encodeBlock last else []).length = c.encodedSize last.length := by
    by_cases hpos : 0 < last.length
    · rw [if_pos hpos, h.length_encodeBlock hpos (by omega)]
    · have hzero : last.length = 0 := by omega
      rw [if_neg hpos, hzero, h.encodedSize_zero, List.length_nil]
  rw [h.encode_append hb hlast, h.decode_append hfull (by rw [hsize]; exact h.encodedSize_lt hlast), hsize,
    h.decodedSize_encodedSize (by omega), h.mapM_decodeBlock hb, Option.bind_some, Option.bind_some]
  by_cases hpos : 0 < last.length
  · simp only [if_pos hpos, if_pos (h.encodedSize_pos hpos (Nat.le_of_lt hlast)),
      h.decode_encodeBlock hpos (Nat.le_of_lt hlast),
      Option.map_some]
  · grind

theorem encode_of_decode (h : c.Lawful) {text : List β} {data : List α} (hd : c.decode text = some data) :
    c.encode data = text := by
  obtain ⟨texts, last, rfl, hw, hlast⟩ := exists_blocks (h.encodedSize_pos h.width_pos (Nat.le_refl _)) text
  rw [h.decode_append hw hlast] at hd
  obtain ⟨s, -, hd⟩ := Option.bind_eq_some_iff.1 hd
  obtain ⟨blocks, hm, hd⟩ := Option.bind_eq_some_iff.1 hd
  obtain ⟨hmap, hb⟩ := h.of_mapM_decodeBlock hw hm
  by_cases hpos : 0 < last.length
  · rw [if_pos hpos] at hd
    obtain ⟨b, hblock, rfl⟩ := Option.map_eq_some_iff.1 hd
    obtain ⟨hbpos, hble, hsize, henc⟩ := h.encode_decodeBlock hblock
    -- a block of full width would have had the full size
    have hlt : b.length < c.width := by
      rcases Nat.lt_or_eq_of_le hble with hlt | heq
      · exact hlt
      · rw [hsize, heq] at hlast
        exact absurd hlast (Nat.lt_irrefl _)
    rw [h.encode_append hb hlt, if_pos hbpos, hmap, henc]
  · rw [if_neg hpos] at hd
    obtain rfl := Option.some.inj hd
    obtain rfl : last = [] := List.length_eq_zero_iff.1 (by omega)
    have hnil : c.encode (blocks.flatten ++ []) = (blocks.map c.encodeBlock).flatten ++ [] :=
      h.encode_append hb h.width_pos
    rwa [List.append_nil, hmap] at hnil

end Lawful

end BlockCode
