import Electronero.Lib.Text
/-!
# Hex strings (`contrib/epee/include/string_tools.h`, `contrib/epee/src/hex.cpp`)

The parser reads each pair with `strtoul`, so a blank or a sign in front of one hex digit also passes for a byte.
-/
namespace Electronero
open Text List

structure Pod (n : Nat) where
  bytes : Bytes
  size : bytes.length = n
deriving DecidableEq

instance (n : Nat) : Inhabited (Pod n) := ⟨⟨List.replicate n 0, length_replicate⟩⟩

abbrev Hash := Pod 32
instance : LawfulBEq Hash := inferInstance
abbrev PublicKey := Pod 32
abbrev SecretKey := Pod 32
abbrev Signature := Pod 64

def hexDigit (x : UInt8) : UInt8 := if x < 10 then 48 + x else 87 + x

def writeHex (bs : Bytes) : Bytes := bs.flatMap fun b : UInt8 => [hexDigit (b >>> 4), hexDigit (b &&& 0x0F)]

def podToHex {n : Nat} (p : Pod n) : Bytes := writeHex p.bytes

def hexValue (c : UInt8) : Option Nat :=
  if 48 ≤ c && c ≤ 57 then some (c.toNat - 48)
  else if 97 ≤ c && c ≤ 102 then some (c.toNat - 87)
  else if 65 ≤ c && c ≤ 70 then some (c.toNat - 55)
  else none

/-- The value (as the `long` it is stored in) and how many bytes were used. A `0x` prefix needs
three characters, so on two it reads as the digit `0`. -/
def strtoul16 (s : Bytes) : Int × Nat :=
  let t := takeSign (s.dropWhile isSpace)
  let ds := t.2.takeWhile fun c => (hexValue c).isSome
  if ds = [] then (0, 0)
  else
    let v := ds.foldl (fun acc c => 16 * acc + (hexValue c).getD 0) 0
    (if t.1 then - (v : Int) else v, s.length - (t.2.dropWhile fun c => (hexValue c).isSome).length)

def parseHexstrToBinbuff : Bytes → Option Bytes
  | [] => some []
  | [_] => none
  | a :: b :: rest =>
    let r := strtoul16 [a, b]
    if r.1 < 0 ∨ 0xFF < r.1 ∨ r.2 ≠ 2 then none
    else (parseHexstrToBinbuff rest).map (UInt8.ofNat r.1.toNat :: ·)

def trim (s : Bytes) : Bytes := ((s.dropWhile isSpace).reverse.dropWhile isSpace).reverse

def hexToPod (n : Nat) (hex : Bytes) : Option (Pod n) :=
  if 2 * n ≠ hex.length then none
  else match parseHexstrToBinbuff (trim hex) with
    | none => none
    | some bin => if h : bin.length = n then some ⟨bin, h⟩ else none

theorem hexPair_spec : ∀ k : Fin 256,
    strtoul16 [hexDigit (UInt8.ofNat k >>> 4), hexDigit (UInt8.ofNat k &&& 0x0F)] = ((k : Int), 2) ∧
    isSpace (hexDigit (UInt8.ofNat k >>> 4)) = false ∧ isSpace (hexDigit (UInt8.ofNat k &&& 0x0F)) = false ∧
    hexDigit (UInt8.ofNat k >>> 4) ≠ tab ∧ hexDigit (UInt8.ofNat k &&& 0x0F) ≠ tab := by
  decide +kernel

theorem hexPair_byte (b : UInt8) : strtoul16 [hexDigit (b >>> 4), hexDigit (b &&& 0x0F)] = ((b.toNat : Int), 2) ∧
    isSpace (hexDigit (b >>> 4)) = false ∧ isSpace (hexDigit (b &&& 0x0F)) = false ∧
    hexDigit (b >>> 4) ≠ tab ∧ hexDigit (b &&& 0x0F) ≠ tab := by
  have h := hexPair_spec ⟨b.toNat, b.toNat_lt⟩
  simpa using h

theorem writeHex_cons (b : UInt8) (bs : Bytes) :
    writeHex (b :: bs) = hexDigit (b >>> 4) :: hexDigit (b &&& 0x0F) :: writeHex bs := rfl

theorem length_writeHex (bs : Bytes) : (writeHex bs).length = 2 * bs.length := by
  induction bs with
  | nil => rfl
  | cons b bs ih => rw [writeHex_cons, length_cons, length_cons, ih, length_cons]; omega

variable {c a b : UInt8} {s : Bytes} {n : Nat}

theorem not_isSpace_of_mem_writeHex {bs : Bytes} (h : c ∈ writeHex bs) : isSpace c = false ∧ c ≠ tab := by
  obtain ⟨b, _, hc⟩ := mem_flatMap.1 h
  grind [hexPair_byte]

theorem parseHexstrToBinbuff_writeHex (bs : Bytes) : parseHexstrToBinbuff (writeHex bs) = some bs := by
  induction bs with
  | nil => rfl
  | cons b bs ih =>
    have hr : ¬ ((b.toNat : Int) < 0 ∨ 0xFF < (b.toNat : Int) ∨ (2 : Nat) ≠ 2) := by
      have := b.toNat_lt
      omega
    rw [writeHex_cons, parseHexstrToBinbuff, (hexPair_byte b).1, if_neg hr, ih]
    simp

theorem dropWhile_isSpace_eq_self (h : ∀ c ∈ s, isSpace c = false) : s.dropWhile isSpace = s := by
  cases s with
  | nil => rfl
  | cons c cs => simp [h c mem_cons_self]

theorem trim_eq_self (h : ∀ c ∈ s, isSpace c = false) : trim s = s := by
  have hr : ∀ c ∈ s.reverse, isSpace c = false := fun c hc => h c (mem_reverse.1 hc)
  rw [trim, dropWhile_isSpace_eq_self h, dropWhile_isSpace_eq_self hr, reverse_reverse]

theorem hexToPod_podToHex (p : Pod n) : hexToPod n (podToHex p) = some p := by
  have hlen : ¬ 2 * n ≠ (writeHex p.bytes).length := by rw [length_writeHex, p.size]; simp
  have htrim : trim (writeHex p.bytes) = writeHex p.bytes :=
    trim_eq_self fun c hc => (not_isSpace_of_mem_writeHex hc).1
  simp only [hexToPod, podToHex, hlen, if_false, htrim, parseHexstrToBinbuff_writeHex, p.size, dite_true]

theorem length_podToHex (p : Pod n) : (podToHex p).length = 2 * n := by
  rw [podToHex, length_writeHex, p.size]

theorem tab_not_mem_podToHex (p : Pod n) : tab ∉ podToHex p := fun h =>
  (not_isSpace_of_mem_writeHex h).2 rfl

/-- Two characters `strtoul` reads to their end as a byte: two hex digits, or one behind a blank or a plus, or `-0`. -/
def hexPair (a b : UInt8) : Bool :=
  (hexValue b).isSome && ((hexValue a).isSome || isSpace a || a == 43 || a == 45 && b == 48)

def hexPairs : Bytes → Bool
  | [] => true
  | [_] => false
  | a :: b :: rest => hexPair a b && hexPairs rest

def readsAsPod (n : Nat) (s : Bytes) : Bool :=
  decide (s.length = 2 * n) && s.head?.all (!isSpace ·) && hexPairs s

theorem hexValue_bounds {v : Nat} (h : hexValue c = some v) : v < 16 ∧ 48 ≤ c.toNat := by
  unfold hexValue at h
  simp only [Bool.and_eq_true, decide_eq_true_eq, UInt8.le_iff_toNat_le, UInt8.reduceToNat] at h
  grind

theorem not_isSpace_of_hexValue (h : (hexValue c).isSome = true) : isSpace c = false := by
  obtain ⟨v, hv⟩ := Option.isSome_iff_exists.1 h
  have hc := (hexValue_bounds hv).2
  simp only [isSpace, Bool.or_eq_false_iff, beq_eq_false_iff_ne, ne_eq, Bool.and_eq_false_iff, decide_eq_false_iff_not,
    UInt8.le_iff_toNat_le, ← UInt8.toNat_inj, UInt8.reduceToNat]
  omega

theorem hexValue_eq_zero_iff : hexValue c = some 0 ↔ c = 48 := by
  constructor
  · intro h
    unfold hexValue at h
    simp only [Bool.and_eq_true, decide_eq_true_eq, UInt8.le_iff_toNat_le, UInt8.reduceToNat] at h
    refine UInt8.toNat_inj.1 ?_
    simp only [UInt8.reduceToNat]
    split at h
    · have := Option.some.inj h
      omega
    · grind
  · rintro rfl
    rfl

theorem strtoul16_digit (neg : Bool) (h : takeSign ([a, b].dropWhile isSpace) = (neg, [b])) :
    strtoul16 [a, b] = match hexValue b with
      | none => (0, 0)
      | some v => (if neg then - (v : Int) else v, 2) := by
  unfold strtoul16
  rw [h]
  cases hb : hexValue b with
  | none => simp [hb]
  | some v => simp [hb]

theorem takeSign_suffix (s : Bytes) : (takeSign s).2 <:+ s := by
  cases s with
  | nil => exact suffix_refl _
  | cons c cs => grind [takeSign]

theorem strtoul16_no_digit (ha : hexValue a = none) (hb : hexValue b = none) : strtoul16 [a, b] = (0, 0) := by
  have hmem : ∀ c ∈ (takeSign ([a, b].dropWhile isSpace)).2, hexValue c = none := by
    intro c hc
    have hab := (dropWhile_sublist isSpace).subset ((takeSign_suffix _).subset hc)
    grind
  have hds : (takeSign ([a, b].dropWhile isSpace)).2.takeWhile (fun c => (hexValue c).isSome) = [] := by
    cases hl : (takeSign ([a, b].dropWhile isSpace)).2 with
    | nil => rfl
    | cons c cs => simp [hmem c (by simp [hl])]
  unfold strtoul16
  simp only [hds, if_true]

theorem hexPair_iff (a b : UInt8) : hexPair a b = true ↔
    ¬ ((strtoul16 [a, b]).1 < 0 ∨ 0xFF < (strtoul16 [a, b]).1 ∨ (strtoul16 [a, b]).2 ≠ 2) := by
  by_cases ha : (hexValue a).isSome = true
  · -- two digits, or one digit and something else
    obtain ⟨v, hv⟩ := Option.isSome_iff_exists.1 ha
    have hsign : takeSign ([a, b].dropWhile isSpace) = (false, [a, b]) := by
      have hge := (hexValue_bounds hv).2
      have h45 : a ≠ 45 := by rintro rfl; simp at hge
      have h43 : a ≠ 43 := by rintro rfl; simp at hge
      simp [not_isSpace_of_hexValue ha, takeSign, h45, h43]
    unfold hexPair strtoul16
    rw [hsign]
    cases hb : hexValue b with
    | none => simp [hv, hb]
    | some w =>
      have hva := (hexValue_bounds hv).1
      have hvb := (hexValue_bounds hb).1
      simp [hv, hb]
      omega
  · replace ha : hexValue a = none := by simpa using ha
    cases hb : hexValue b with
    | none => simp [hexPair, hb, strtoul16_no_digit ha hb]
    | some v =>
      have hbd := hexValue_bounds hb
      have hsp : isSpace b = false := not_isSpace_of_hexValue (by simp [hb])
      have h45 : b ≠ 45 := by rintro rfl; simp at hbd
      have h43 : b ≠ 43 := by rintro rfl; simp at hbd
      by_cases hblank : isSpace a = true
      · have hsign : takeSign ([a, b].dropWhile isSpace) = (false, [b]) := by simp [hblank, hsp, takeSign, h45, h43]
        grind [strtoul16_digit, hexPair]
      · by_cases hplus : a = 43
        · subst hplus
          rw [strtoul16_digit false rfl]
          simp [hexPair, hb]
          omega
        · by_cases hminus : a = 45
          · subst hminus
            rw [strtoul16_digit true rfl]
            grind [hexValue_eq_zero_iff, hexPair]
          · simp [hexPair, hb, ha, hblank, hplus, hminus, strtoul16, takeSign]

theorem parseHexstrToBinbuff_isSome : ∀ s : Bytes, (parseHexstrToBinbuff s).isSome = hexPairs s
  | [] => rfl
  | [_] => rfl
  | a :: b :: rest => by
    unfold parseHexstrToBinbuff hexPairs
    by_cases h : hexPair a b = true
    · simp only [if_neg ((hexPair_iff a b).1 h), Option.isSome_map, parseHexstrToBinbuff_isSome rest, h, Bool.true_and]
    · rw [hexPair_iff, not_not] at h
      have hf : hexPair a b = false := by rwa [← Bool.not_eq_true, hexPair_iff, not_not]
      simp only [if_pos h, hf, Bool.false_and, Option.isSome_none]

theorem length_parseHexstrToBinbuff : ∀ (s bin : Bytes), parseHexstrToBinbuff s = some bin → s.length = 2 * bin.length
  | [], bin, h => by
    obtain rfl := Option.some.inj h
    rfl
  | [_], _, h => by cases h
  | a :: b :: rest, bin, h => by
    unfold parseHexstrToBinbuff at h
    dsimp only at h
    split at h
    · cases h
    · obtain ⟨bin', hrest, rfl⟩ := Option.map_eq_some_iff.1 h
      have ih := length_parseHexstrToBinbuff rest bin' hrest
      simp only [length_cons]
      omega

theorem hexValue_of_getLast? : ∀ {s : Bytes} {c : UInt8}, hexPairs s = true → s.getLast? = some c →
    (hexValue c).isSome = true
  | [], _, _, hc => by cases hc
  | [_], _, h, _ => by cases h
  | [a, b], c, h, hc => by
    obtain rfl : b = c := by simpa using hc
    simp only [hexPairs, hexPair, Bool.and_eq_true] at h
    exact h.1.1
  | a :: b :: d :: rest, c, h, hc => by
    simp only [hexPairs, Bool.and_eq_true] at h
    rw [getLast?_cons_cons, getLast?_cons_cons] at hc
    exact hexValue_of_getLast? h.2 hc

theorem trim_sublist (s : Bytes) : (trim s).Sublist s := by
  unfold trim
  have h := dropWhile_sublist isSpace (l := (s.dropWhile isSpace).reverse)
  have h' := h.reverse
  rw [reverse_reverse] at h'
  exact h'.trans (dropWhile_sublist isSpace)

theorem dropWhile_isSpace_of_head (h : s.head?.all (!isSpace ·) = true) : s.dropWhile isSpace = s := by
  cases s with
  | nil => rfl
  | cons c cs => simp_all

theorem trim_of_ends (hhead : s.head?.all (!isSpace ·) = true)
    (hlast : s.getLast?.all (!isSpace ·) = true) : trim s = s := by
  have hrev : s.reverse.head?.all (!isSpace ·) = true := by rwa [head?_reverse]
  rw [trim, dropWhile_isSpace_of_head hhead, dropWhile_isSpace_of_head hrev, reverse_reverse]

theorem head_of_trim_eq_self (h : trim s = s) : s.head?.all (!isSpace ·) = true := by
  cases s with
  | nil => rfl
  | cons c cs =>
    by_contra hblank
    have hc : isSpace c = true := by simpa using hblank
    -- what is left is no longer than the rest behind the blank
    have hle : (trim (c :: cs)).length ≤ cs.length := by
      unfold trim
      rw [dropWhile_cons_of_pos hc, length_reverse]
      have h1 := (dropWhile_sublist isSpace (l := (cs.dropWhile isSpace).reverse)).length_le
      have h2 := (dropWhile_sublist isSpace (l := cs)).length_le
      rw [length_reverse] at h1
      omega
    rw [h, length_cons] at hle
    omega

theorem hexToPod_isSome_iff (n : Nat) (s : Bytes) : (hexToPod n s).isSome = true ↔ readsAsPod n s = true := by
  have hreads : readsAsPod n s = true ↔ s.length = 2 * n ∧ s.head?.all (!isSpace ·) = true ∧ hexPairs s = true := by
    simp only [readsAsPod, Bool.and_eq_true, decide_eq_true_eq, and_assoc]
  rw [hreads]
  constructor
  · intro h
    unfold hexToPod at h
    split at h
    · cases h
    · rename_i hlen
      split at h
      · cases h
      · grind [length_parseHexstrToBinbuff, trim_sublist, head_of_trim_eq_self, parseHexstrToBinbuff_isSome]
  · rintro ⟨hlen, hhead, hpairs⟩
    have hlast : s.getLast?.all (!isSpace ·) = true := by grind [not_isSpace_of_hexValue, hexValue_of_getLast?]
    grind [parseHexstrToBinbuff_isSome, length_parseHexstrToBinbuff, hexToPod, trim_of_ends]

end Electronero
