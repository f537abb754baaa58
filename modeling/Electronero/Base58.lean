import Electronero.Lib.BlockCode
import Electronero.Lib.Text
import Electronero.IntUtil
/-!
# Base58 (`src/common/base58.cpp`)

A block of eight bytes is a big-endian number, and its code the `fixedDigits` of that number in base 58.
-/
namespace Electronero
open Text List

namespace Base58

def alphabet : Bytes := ascii "123456789ABCDEFGHJKLMNPQRSTUVWXYZabcdefghijkmnopqrstuvwxyz"

def alphabetSize : UInt64 := 58

def encodedBlockSizes : List Nat := [0, 2, 3, 5, 6, 7, 9, 10, 11]

def fullBlockSize : Nat := 8

def fullEncodedBlockSize : Nat := 11

def letter (i : Nat) : UInt8 := alphabet.getD i 0

def encodedBlockSize (i : Nat) : Nat := encodedBlockSizes.getD i 0

/-- The constructor of `reverse_alphabet`: from the distance to the first letter to the position, `none` = -1. -/
def reverseData : List (Option Nat) :=
  (List.range 58).foldl (fun data i => data.set ((letter i).toNat - (letter 0).toNat) (some i))
    (List.replicate ((letter 57).toNat - (letter 0).toNat + 1) none)

def reverseAlphabet (c : UInt8) : Option Nat :=
  if c.toNat < (letter 0).toNat then none else (reverseData[c.toNat - (letter 0).toNat]?).join

def decodedData : List (Option Nat) :=
  (List.range (fullBlockSize + 1)).foldl (fun data i => data.set (encodedBlockSize i) (some i))
    (List.replicate (encodedBlockSize fullBlockSize + 1) none)

def decodedBlockSizes (encodedBlockSize : Nat) : Option Nat := (decodedData[encodedBlockSize]?).join

def uint8beTo64 (data : Bytes) : UInt64 := data.foldl (fun res b => (res <<< 8) ||| b.toUInt64) 0

def uint64To8be (num : UInt64) (size : Nat) : Bytes :=
  ((List.range 8).map fun i => (num >>> UInt64.ofNat (8 * (7 - i))).toUInt8).drop (8 - size)

def encodeLoop : Nat → UInt64 → Bytes → Bytes
  | 0, _, res => res
  | i + 1, num, res =>
    if 0 < num then encodeLoop i (num / alphabetSize) (res.set i (letter (num % alphabetSize).toNat)) else res

def encodeBlock (block : Bytes) : Bytes :=
  encodeLoop (encodedBlockSize block.length) (uint8beTo64 block)
    (List.replicate (encodedBlockSize block.length) (letter 0))

def decodeLoop : Bytes → UInt64 → UInt64 → Option UInt64
  | [], resNum, _ => some resNum
  | c :: rest, resNum, order =>
    match reverseAlphabet c with
    | none => none
    | some digit =>
      let product := IntUtil.mul128 order (UInt64.ofNat digit)
      let tmp := resNum + product.2
      if tmp < resNum ∨ 0 ≠ product.1 then none else decodeLoop rest tmp (order * alphabetSize)

def decodeBlock (block : Bytes) : Option Bytes :=
  match decodedBlockSizes block.length with
  | none => none
  | some resSize =>
    if resSize = 0 then none
    else match decodeLoop block.reverse 0 1 with
      | none => none
      | some resNum =>
        if resSize < fullBlockSize ∧ 1 <<< UInt64.ofNat (8 * resSize) ≤ resNum then none
        else some (uint64To8be resNum resSize)

def encode (data : Bytes) : Bytes :=
  if data = [] then []
  else
    let fullBlockCount := data.length / fullBlockSize
    let lastBlockSize := data.length % fullBlockSize
    ((List.range fullBlockCount).map fun i => encodeBlock ((data.drop (i * fullBlockSize)).take fullBlockSize)).flatten ++
      if 0 < lastBlockSize then encodeBlock (data.drop (fullBlockCount * fullBlockSize)) else []

def decode (enc : Bytes) : Option Bytes :=
  if enc = [] then some []
  else
    let fullBlockCount := enc.length / fullEncodedBlockSize
    let lastBlockSize := enc.length % fullEncodedBlockSize
    (decodedBlockSizes lastBlockSize).bind fun _ =>
      ((List.range fullBlockCount).mapM fun i =>
          decodeBlock ((enc.drop (i * fullEncodedBlockSize)).take fullEncodedBlockSize)).bind fun blocks =>
        if 0 < lastBlockSize then
          (decodeBlock (enc.drop (fullBlockCount * fullEncodedBlockSize))).map (blocks.flatten ++ ·)
        else some blocks.flatten

theorem reverseAlphabet_letter : ∀ i < 58, reverseAlphabet (letter i) = some i := by decide +kernel

theorem reverseAlphabet_fin : ∀ k : Fin 256, ∀ i ∈ reverseAlphabet (UInt8.ofNat k), i < 58 ∧ letter i = UInt8.ofNat k := by
  decide +kernel

variable {c : UInt8} {i s size digit : Nat} {block : Bytes}

theorem reverseAlphabet_eq_some_iff : reverseAlphabet c = some i ↔ i < 58 ∧ letter i = c := by
  constructor
  · intro h
    have hfin := reverseAlphabet_fin ⟨c.toNat, c.toNat_lt⟩ i (by simpa using h)
    simpa using hfin
  · rintro ⟨hi, rfl⟩
    exact reverseAlphabet_letter i hi

theorem decodedBlockSizes_table : ∀ s ≤ 8, decodedBlockSizes (encodedBlockSize s) = some s := by decide +kernel

theorem decodedBlockSizes_lt : ∀ e < 12, ∀ s ∈ decodedBlockSizes e, s ≤ 8 ∧ encodedBlockSize s = e := by decide +kernel

theorem decodedBlockSizes_eq_some {e : Nat} (h : decodedBlockSizes e = some s) : s ≤ 8 ∧ encodedBlockSize s = e := by
  have hlt : e < 12 := by
    unfold decodedBlockSizes at h
    have hv := Option.join_eq_some_iff.1 h
    have hlen : decodedData.length = 12 := by decide +kernel
    exact hlen ▸ (List.getElem?_eq_some_iff.1 hv).1
  exact decodedBlockSizes_lt e hlt s h

theorem pow_le_pow_encodedBlockSize : ∀ s ≤ 8, 256 ^ s ≤ 58 ^ encodedBlockSize s := by decide +kernel

theorem toNat_shiftLeft_or (res : UInt64) (b : UInt8) (h : res.toNat < 2 ^ 56) :
    ((res <<< 8) ||| b.toUInt64).toNat = b.toNat + 256 * res.toNat := by
  have hb : b.toNat < 2 ^ 8 := b.toNat_lt
  have hshift : (res <<< 8).toNat = res.toNat <<< 8 := by
    rw [UInt64.toNat_shiftLeft, Nat.shiftLeft_eq]
    show res.toNat * 2 ^ 8 % 2 ^ 64 = _
    rw [Nat.shiftLeft_eq]
    omega
  rw [UInt64.toNat_or, hshift, UInt8.toNat_toUInt64, ← Nat.shiftLeft_add_eq_or_of_lt hb, Nat.shiftLeft_eq]
  omega

def value (block : Bytes) : Nat := Nat.ofDigits 256 (block.reverse.map (·.toNat))

theorem value_lt (block : Bytes) : value block < 256 ^ block.length := by
  have h : ∀ d ∈ block.reverse.map (·.toNat), d < 256 := by
    intro d hd
    obtain ⟨b, -, rfl⟩ := List.mem_map.1 hd
    exact b.toNat_lt
  have hlt := Nat.ofDigits_lt_base_pow_length (by decide : 1 < 256) h
  rwa [length_map, length_reverse] at hlt

theorem toNat_uint8beTo64 (h : block.length ≤ 8) : (uint8beTo64 block).toNat = value block := by
  induction block using List.reverseRecOn with
  | nil => rfl
  | append_singleton init b ih =>
    rw [length_append, length_singleton] at h
    have hinit := ih (by omega)
    have hlt : (uint8beTo64 init).toNat < 2 ^ 56 := by
      rw [hinit]
      calc value init < 256 ^ init.length := value_lt init
        _ ≤ 256 ^ 7 := Nat.pow_le_pow_right (by decide) (by omega)
        _ = 2 ^ 56 := by decide
    have hstep : uint8beTo64 (init ++ [b]) = (uint8beTo64 init <<< 8) ||| b.toUInt64 := by
      simp [uint8beTo64]
    rw [hstep, toNat_shiftLeft_or _ _ hlt, hinit]
    simp [value, Nat.ofDigits_cons]

theorem shiftRight_toUInt8 (num : UInt64) (h : i ≤ 7) :
    (num >>> UInt64.ofNat (8 * i)).toUInt8 = UInt8.ofNat (num.toNat / 256 ^ i % 256) := by
  have hi : (UInt64.ofNat (8 * i)).toNat = 8 * i := UInt64.toNat_ofNat_of_lt' (by show 8 * i < 2 ^ 64; omega)
  have hpow : 2 ^ (8 * i) = 256 ^ i := pow_mul 2 8 i
  rw [← UInt8.toNat_inj, UInt64.toNat_toUInt8, UInt64.toNat_shiftRight, hi, Nat.mod_eq_of_lt (by omega : 8 * i < 64),
    Nat.shiftRight_eq_div_pow, hpow, UInt8.toNat_ofNat', Nat.mod_mod]

theorem uint64To8be_eq (num : UInt64) (h : size ≤ 8) :
    uint64To8be num size = ((BlockCode.fixedDigits 256 size num.toNat).map UInt8.ofNat).reverse := by
  refine ext_getElem? fun j => ?_
  grind [uint64To8be, BlockCode.length_fixedDigits, BlockCode.getElem?_fixedDigits, shiftRight_toUInt8]

theorem length_uint64To8be (num : UInt64) (h : size ≤ 8) : (uint64To8be num size).length = size := by
  rw [uint64To8be_eq num h]
  simp

theorem value_uint64To8be {num : UInt64} (h : size ≤ 8) (hlt : num.toNat < 256 ^ size) :
    value (uint64To8be num size) = num.toNat := by
  have hbyte : ∀ d ∈ BlockCode.fixedDigits 256 size num.toNat, ((·.toNat) ∘ UInt8.ofNat) d = id d := by
    intro d hd
    have := BlockCode.lt_of_mem_fixedDigits (by decide) hd
    exact UInt8.toNat_ofNat_of_lt' this
  rw [value, uint64To8be_eq num h, reverse_reverse, List.map_map, map_congr_left hbyte, List.map_id,
    BlockCode.ofDigits_fixedDigits hlt]

theorem uint64To8be_value (h : block.length ≤ 8) : uint64To8be (uint8beTo64 block) block.length = block := by
  have hdigits : ∀ d ∈ block.reverse.map (·.toNat), d < 256 := by
    intro d hd
    obtain ⟨b, -, rfl⟩ := List.mem_map.1 hd
    exact b.toNat_lt
  have hfixed := BlockCode.fixedDigits_ofDigits hdigits
  rw [length_map, length_reverse] at hfixed
  have hback : ∀ b ∈ block.reverse, (UInt8.ofNat ∘ (·.toNat)) b = id b := fun b _ => by simp
  rw [uint64To8be_eq _ h, toNat_uint8beTo64 h, value, hfixed, List.map_map, map_congr_left hback, List.map_id,
    reverse_reverse]

theorem encodeLoop_eq (i : Nat) (num : UInt64) (res : Bytes) (hlen : i ≤ res.length)
    (hblank : res.take i = List.replicate i (letter 0)) :
    encodeLoop i num res = ((BlockCode.fixedDigits 58 i num.toNat).map letter).reverse ++ res.drop i := by
  induction i generalizing num res with
  | zero => rfl
  | succ i ih =>
    unfold encodeLoop
    split
    · have htake : (res.set i (letter (num % alphabetSize).toNat)).take i = List.replicate i (letter 0) := by
        rw [take_set_of_le (Nat.le_refl i)]
        have := congrArg (List.take i) hblank
        grind
      have hdrop : (res.set i (letter (num % alphabetSize).toNat)).drop i =
          letter (num.toNat % 58) :: res.drop (i + 1) := by
        rw [drop_eq_getElem_cons (by rw [length_set]; omega), getElem_set_self,
          drop_set_of_lt (Nat.lt_succ_self i)]
        rfl
      rw [ih _ _ (by rw [length_set]; omega) htake, hdrop, BlockCode.fixedDigits]
      simp [alphabetSize]
    · have hzero : num.toNat = 0 := by simp_all
      rw [hzero, BlockCode.fixedDigits_zero, map_replicate, reverse_replicate, ← hblank,
        take_append_drop]

theorem encodeBlock_eq (h : block.length ≤ 8) : encodeBlock block =
    ((BlockCode.fixedDigits 58 (encodedBlockSize block.length) (value block)).map letter).reverse := by
  unfold encodeBlock
  rw [encodeLoop_eq _ _ _ (by simp) (by simp), toNat_uint8beTo64 h, drop_of_length_le (by simp), append_nil]

theorem length_encodeBlock (h : block.length ≤ 8) : (encodeBlock block).length = encodedBlockSize block.length := by
  rw [encodeBlock_eq h]
  simp

theorem overflow_iff (resNum order : UInt64) (hd : digit < 58) :
    (resNum + (IntUtil.mul128 order (UInt64.ofNat digit)).2 < resNum ∨
        0 ≠ (IntUtil.mul128 order (UInt64.ofNat digit)).1) ↔
      2 ^ 64 ≤ resNum.toNat + order.toNat * digit := by
  have hdigit : (UInt64.ofNat digit).toNat = digit := UInt64.toNat_ofNat_of_lt' (hd.trans (by decide))
  have hproduct := IntUtil.mul128_eq order (UInt64.ofNat digit)
  rw [hdigit] at hproduct
  generalize IntUtil.mul128 order (UInt64.ofNat digit) = product at hproduct
  have hlo := product.2.toNat_lt
  have hres := resNum.toNat_lt
  have hzero : 0 ≠ product.1 ↔ product.1.toNat ≠ 0 := by
    rw [ne_eq, ← UInt64.toNat_inj, UInt64.toNat_zero, eq_comm]
  rw [hzero, UInt64.lt_iff_toNat_lt, UInt64.toNat_add, ← hproduct]
  grind

theorem toNat_digit_sum (resNum order : UInt64) (hd : digit < 58)
    (hfits : resNum.toNat + order.toNat * digit < 2 ^ 64) :
    (resNum + (IntUtil.mul128 order (UInt64.ofNat digit)).2).toNat = resNum.toNat + order.toNat * digit := by
  have hdigit : (UInt64.ofNat digit).toNat = digit := UInt64.toNat_ofNat_of_lt' (hd.trans (by decide))
  have hproduct := IntUtil.mul128_eq order (UInt64.ofNat digit)
  rw [hdigit] at hproduct
  rw [UInt64.toNat_add]
  omega

theorem exists_digits_cons_iff {rest : Bytes} {k n r : Nat} (hc : reverseAlphabet c = some digit) :
    (∃ ds : List Nat, c :: rest = ds.map letter ∧ (∀ d ∈ ds, d < 58) ∧ n + 58 ^ k * Nat.ofDigits 58 ds = r) ↔
      ∃ ds : List Nat, rest = ds.map letter ∧ (∀ d ∈ ds, d < 58) ∧
        n + 58 ^ k * digit + 58 ^ (k + 1) * Nat.ofDigits 58 ds = r := by
  obtain ⟨hd, hletter⟩ := reverseAlphabet_eq_some_iff.1 hc
  have hsum : ∀ ds : List Nat, n + 58 ^ k * Nat.ofDigits 58 (digit :: ds) =
      n + 58 ^ k * digit + 58 ^ (k + 1) * Nat.ofDigits 58 ds := by
    intro ds
    rw [Nat.ofDigits_cons]
    ring
  constructor
  · rintro ⟨ds, hds, hlt, hr⟩
    obtain ⟨d, ds', rfl, hl, hrest⟩ := map_eq_cons_iff.1 hds.symm
    have hsame := reverseAlphabet_eq_some_iff.2 ⟨hlt d mem_cons_self, hl⟩
    grind
  · grind

theorem decodeLoop_iff (cs : Bytes) (resNum order r : UInt64) (k : Nat) (hk : k + cs.length ≤ 11)
    (horder : cs ≠ [] → order.toNat = 58 ^ k) : decodeLoop cs resNum order = some r ↔
      ∃ ds : List Nat, cs = ds.map letter ∧ (∀ d ∈ ds, d < 58) ∧
        resNum.toNat + 58 ^ k * Nat.ofDigits 58 ds = r.toNat := by
  induction cs generalizing resNum order k with
  | nil =>
    rw [decodeLoop, Option.some.injEq, ← UInt64.toNat_inj]
    simp_all
  | cons c rest ih =>
    have hpow := horder (cons_ne_nil c rest)
    rw [length_cons] at hk
    cases hc : reverseAlphabet c with
    | none =>
      refine iff_of_false (by simp [decodeLoop, hc]) ?_
      rintro ⟨ds, hds, hlt, -⟩
      obtain ⟨d, ds', rfl, hletter, -⟩ := map_eq_cons_iff.1 hds.symm
      have := reverseAlphabet_eq_some_iff.2 ⟨hlt d mem_cons_self, hletter⟩
      rw [hc] at this
      cases this
    | some digit =>
      have hd := (reverseAlphabet_eq_some_iff.1 hc).1
      rw [exists_digits_cons_iff hc]
      unfold decodeLoop
      simp only [hc]
      by_cases hover : 2 ^ 64 ≤ resNum.toNat + 58 ^ k * digit
      · rw [if_pos ((overflow_iff resNum order hd).2 (by rwa [hpow]))]
        refine iff_of_false (by simp) ?_
        rintro ⟨ds, -, -, hr⟩
        have := r.toNat_lt
        omega
      · rw [if_neg (fun h => hover (by rw [← hpow]; exact (overflow_iff resNum order hd).1 h))]
        have hnext := toNat_digit_sum resNum order hd (by rw [hpow]; omega)
        rw [hpow] at hnext
        rw [ih _ _ (k + 1) (by omega) ?_, hnext]
        intro hne
        -- a digit is left, so this is at most the tenth power
        have hlen : 1 ≤ rest.length := length_pos_iff.2 hne
        have hle : 58 ^ (k + 1) ≤ 58 ^ 10 := Nat.pow_le_pow_right (by decide) (by omega)
        rw [UInt64.toNat_mul, hpow]
        show 58 ^ k * 58 % 2 ^ 64 = _
        rw [← pow_succ, Nat.mod_eq_of_lt (lt_of_le_of_lt hle (by decide))]

theorem encodedBlockSize_le : ∀ s ≤ 8, encodedBlockSize s ≤ 11 := by decide

theorem tooLarge_iff (hs : s ≤ 8) (r : UInt64) :
    (s < fullBlockSize ∧ 1 <<< UInt64.ofNat (8 * s) ≤ r) ↔ 256 ^ s ≤ r.toNat := by
  rcases Nat.lt_or_eq_of_le hs with hlt | rfl
  · have hshift : (UInt64.ofNat (8 * s)).toNat = 8 * s := UInt64.toNat_ofNat_of_lt' (by show 8 * s < 2 ^ 64; omega)
    have hpow : 2 ^ (8 * s) = 256 ^ s := pow_mul 2 8 s
    have hfits : 2 ^ (8 * s) < 2 ^ 64 := Nat.pow_lt_pow_right (by decide) (by omega)
    rw [UInt64.le_iff_toNat_le, UInt64.toNat_shiftLeft, hshift, Nat.mod_eq_of_lt (by omega : 8 * s < 64), UInt64.toNat_one,
      Nat.one_shiftLeft, Nat.mod_eq_of_lt hfits, hpow]
    exact and_iff_right hlt
  · have := r.toNat_lt
    refine iff_of_false (fun h => absurd h.1 (by decide)) ?_
    rw [Nat.not_le]
    exact this

theorem decodeBlock_iff (e b : Bytes) : decodeBlock e = some b ↔
    ∃ (s : Nat) (ds : List Nat) (r : UInt64), 1 ≤ s ∧ s ≤ 8 ∧ ds.length = encodedBlockSize s ∧ e = (ds.map letter).reverse ∧
      (∀ d ∈ ds, d < 58) ∧ Nat.ofDigits 58 ds = r.toNat ∧ r.toNat < 256 ^ s ∧ b = uint64To8be r s := by
  constructor
  · intro h
    unfold decodeBlock at h
    cases hsize : decodedBlockSizes e.length with
    | none => simp [hsize] at h
    | some s =>
      obtain ⟨hs, hlen⟩ := decodedBlockSizes_eq_some hsize
      simp only [hsize] at h
      rcases ite_eq_iff.1 h with ⟨-, h⟩ | ⟨hpos, h⟩
      · cases h
      cases hloop : decodeLoop e.reverse 0 1 with
      | none => simp [hloop] at h
      | some r =>
        have hle := encodedBlockSize_le s hs
        obtain ⟨ds, hds, hlt, hsum⟩ := (decodeLoop_iff e.reverse 0 1 r 0 (by rw [length_reverse]; omega)
          (fun _ => rfl)).1 hloop
        grind [tooLarge_iff]
  · rintro ⟨s, ds, r, hpos, hs, hlen, rfl, hlt, hsum, hfits, rfl⟩
    have hlength : (ds.map letter).reverse.length = encodedBlockSize s := by simpa using hlen
    have hle := encodedBlockSize_le s hs
    have hloop : decodeLoop (ds.map letter).reverse.reverse 0 1 = some r := by
      refine (decodeLoop_iff _ 0 1 r 0 (by rw [length_reverse]; omega) (fun _ => rfl)).2 ⟨ds, ?_, hlt, ?_⟩
      · rw [reverse_reverse]
      · simpa using hsum
    grind [fullBlockSize, tooLarge_iff, decodeBlock, decodedBlockSizes_table]

def code : BlockCode UInt8 UInt8 where
  width := fullBlockSize
  encodedSize := encodedBlockSize
  decodedSize := decodedBlockSizes
  encodeBlock := encodeBlock
  decodeBlock := decodeBlock

theorem encode_eq (data : Bytes) : encode data = code.encode data := by
  unfold encode BlockCode.encode BlockCode.slices
  by_cases h : data = []
  · subst h
    rfl
  · rw [if_neg h]
    simp only [List.map_map]
    rfl

theorem decode_eq (enc : Bytes) : decode enc = code.decode enc := by
  unfold decode BlockCode.decode BlockCode.slices
  by_cases h : enc = []
  · subst h
    rfl
  · have hfull : code.encodedSize code.width = fullEncodedBlockSize := rfl
    rw [if_neg h]
    simp only [mapM_map, hfull]
    rfl

theorem code_lawful : code.Lawful where
  width_pos := by decide
  encodedSize_zero := rfl
  encodedSize_pos {s} hpos hle := by
    have htable : ∀ s ≤ 8, 0 < s → 0 < encodedBlockSize s := by decide
    exact htable s hle hpos
  encodedSize_lt {s} hlt := by
    have htable : ∀ s < 8, encodedBlockSize s < encodedBlockSize 8 := by decide
    exact htable s hlt
  decodedSize_encodedSize {s} hle := decodedBlockSizes_table s hle
  length_encodeBlock _ hle := length_encodeBlock hle
  decode_encodeBlock {b} hpos hle := by
    have hroom := lt_of_lt_of_le (value_lt b) (pow_le_pow_encodedBlockSize b.length hle)
    refine (decodeBlock_iff _ _).2 ⟨b.length, BlockCode.fixedDigits 58 (encodedBlockSize b.length) (value b),
      uint8beTo64 b, hpos, hle, BlockCode.length_fixedDigits _ _ _, encodeBlock_eq hle,
      fun d hd => BlockCode.lt_of_mem_fixedDigits (by decide) hd, ?_, ?_, (uint64To8be_value hle).symm⟩
    · rw [BlockCode.ofDigits_fixedDigits hroom, toNat_uint8beTo64 hle]
    · rw [toNat_uint8beTo64 hle]
      exact value_lt b
  encode_decodeBlock {e b} h := by
    obtain ⟨s, ds, r, hpos, hs, hlen, rfl, hlt, hsum, hfits, rfl⟩ := (decodeBlock_iff e b).1 h
    have hlength := length_uint64To8be r hs
    show 0 < (uint64To8be r s).length ∧ (uint64To8be r s).length ≤ 8 ∧
      (ds.map letter).reverse.length = encodedBlockSize (uint64To8be r s).length ∧
      encodeBlock (uint64To8be r s) = (ds.map letter).reverse
    rw [encodeBlock_eq (by omega), hlength, value_uint64To8be hs hfits, ← hsum, ← hlen, BlockCode.fixedDigits_ofDigits hlt]
    exact ⟨hpos, hs, by simp, rfl⟩

/-- **Base58 is a bijection on its image**: every byte string is decoded from its encoding, and a text that is
decoded at all is the encoding of the result. -/
theorem base58_round_trip (data enc : Bytes) :
    decode (encode data) = some data ∧ ∀ d, decode enc = some d → encode d = enc := by
  refine ⟨?_, fun d h => ?_⟩
  · rw [encode_eq, decode_eq]
    exact code_lawful.decode_encode data
  · rw [decode_eq] at h
    rw [encode_eq]
    exact code_lawful.encode_of_decode h

end Base58

end Electronero
