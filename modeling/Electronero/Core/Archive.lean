import Electronero.Epee
import Electronero.Lib.FieldStream
/-!
# The binary archive (`src/serialization/binary_archive.h`, `src/common/varint.h`)

Writing and reading run through one template, so each piece is one `Codec.Format`; a bad bit of the stream is `none`.

The reading archive drops what `read_varint` returns (`// XXX handle failure`): that is `checked = false`. Only the
checked archive is lawful.
-/
namespace Electronero
open Text Codec List

/-- How `read_varint` comes to an end: at the byte without the continuation bit, at the end of the data, or with one of
its two error codes. -/
inductive VarintEnd where
  | complete
  | endOfData
  | overflow
  | represent
deriving DecidableEq, Repr

structure VarintRead where
  ended : VarintEnd
  /-- the number of bytes taken -/
  read : Nat
  value : Nat
  rest : Bytes
deriving DecidableEq

/-- The `int` that `read_varint` returns: data that ends inside a number is no error to it. -/
def VarintRead.code (r : VarintRead) : Int :=
  match r.ended with
  | .complete | .endOfData => r.read
  | .overflow => -1
  | .represent => -2

def writeVarint : Nat → Nat → Bytes
  | 0, i => [UInt8.ofNat i]
  | bits + 1, i =>
    if 0x80 ≤ i then ((UInt8.ofNat i &&& 0x7f) ||| 0x80) :: writeVarint bits (i >>> 7) else [UInt8.ofNat i]

def readVarintFrom (bits : Nat) : (shift read write : Nat) → Bytes → VarintRead
  | _, read, write, [] => ⟨.endOfData, read, write, []⟩
  | shift, read, write, byte :: s =>
    if bits ≤ shift + 7 ∧ 1 <<< (bits - shift) ≤ byte.toNat then ⟨.overflow, read + 1, write, s⟩
    else if byte = 0 ∧ shift ≠ 0 then ⟨.represent, read + 1, write, s⟩
    else if byte &&& 0x80 = 0 then ⟨.complete, read + 1, write ||| (byte &&& 0x7f).toNat <<< shift, s⟩
    else readVarintFrom bits (shift + 7) (read + 1) (write ||| (byte &&& 0x7f).toNat <<< shift) s

def readVarint (bits : Nat) (s : Bytes) : VarintRead := readVarintFrom bits 0 0 0 s

theorem byte_bits : ∀ k : Fin 256,
    (UInt8.ofNat k &&& 0x80 = 0 ↔ k.val < 128) ∧ (UInt8.ofNat k &&& 0x7f).toNat = k.val % 128 ∧
    ((UInt8.ofNat k &&& 0x7f) ||| 0x80).toNat = k.val % 128 + 128 := by
  decide +kernel

theorem continues_iff (b : UInt8) : b &&& 0x80 = 0 ↔ b.toNat < 128 := by
  simpa using (byte_bits ⟨b.toNat, b.toNat_lt⟩).1

theorem payload_eq (b : UInt8) : (b &&& 0x7f).toNat = b.toNat % 128 := by
  simpa using (byte_bits ⟨b.toNat, b.toNat_lt⟩).2.1

theorem continued_eq (b : UInt8) : ((b &&& 0x7f) ||| 0x80).toNat = b.toNat % 128 + 128 := by
  simpa using (byte_bits ⟨b.toNat, b.toNat_lt⟩).2.2

theorem toNat_ofNat_of_lt {n : Nat} (h : n < 256) : (UInt8.ofNat n).toNat = n := by
  rw [UInt8.toNat_ofNat']
  omega

variable {acc shift bits read : Nat} {s : Bytes} {b : UInt8}

theorem or_shiftLeft (h : acc < 2 ^ shift) (x : Nat) : acc ||| x <<< shift = acc + 2 ^ shift * x := by
  rw [Nat.or_comm, ← Nat.shiftLeft_add_eq_or_of_lt h, Nat.shiftLeft_eq, Nat.mul_comm, Nat.add_comm]

theorem writeVarint_of_lt {i : Nat} (h : i < 0x80) : writeVarint bits i = [UInt8.ofNat i] := by
  cases bits with
  | zero => rfl
  | succ bits => rw [writeVarint, if_neg (by omega)]

theorem writeVarint_ne_nil (bits i : Nat) : writeVarint bits i ≠ [] := by
  cases bits with
  | zero => simp [writeVarint]
  | succ bits =>
    rw [writeVarint]
    split <;> simp

section
variable {bits : Nat}

variable {shift v read acc k value : Nat} {s rest : Bytes}

theorem not_overflow {b : Nat} (hv : v < 2 ^ (bits - shift)) (hb : b = v ∨ 128 ≤ v) :
    ¬ (bits ≤ shift + 7 ∧ 1 <<< (bits - shift) ≤ b) := by
  rintro ⟨hbits, hle⟩
  have hpow : 2 ^ (bits - shift) ≤ 2 ^ 7 := Nat.pow_le_pow_right (by omega) (by omega)
  rw [Nat.shiftLeft_eq, Nat.one_mul] at hle
  omega

theorem readVarintFrom_last (rest : Bytes) (h : v < 128) (hv : v < 2 ^ (bits - shift))
    (hacc : acc < 2 ^ shift) (hz : shift = 0 ∨ v ≠ 0) :
    readVarintFrom bits shift read acc (UInt8.ofNat v :: rest) = ⟨.complete, read + 1, acc + 2 ^ shift * v, rest⟩ := by
  have hbyte := toNat_ofNat_of_lt (show v < 256 by omega)
  have hzero : ¬ (UInt8.ofNat v = 0 ∧ shift ≠ 0) := by
    rintro ⟨h0, hs⟩
    simp_all
  have hlast : UInt8.ofNat v &&& 0x80 = 0 := (continues_iff _).2 (by omega)
  rw [readVarintFrom, if_neg (not_overflow hv (.inl hbyte)), if_neg hzero, if_pos hlast, payload_eq, hbyte,
    Nat.mod_eq_of_lt h, or_shiftLeft hacc]

theorem readVarintFrom_more (s : Bytes) (h : 128 ≤ v) (hv : v < 2 ^ (bits - shift)) (hacc : acc < 2 ^ shift) :
    readVarintFrom bits shift read acc (((UInt8.ofNat v &&& 0x7f) ||| 0x80) :: s) =
      readVarintFrom bits (shift + 7) (read + 1) (acc + 2 ^ shift * (v % 128)) s := by
  have hbyte : ((UInt8.ofNat v &&& 0x7f) ||| 0x80).toNat = v % 128 + 128 := by
    rw [continued_eq, UInt8.toNat_ofNat']
    omega
  have hzero : ¬ ((UInt8.ofNat v &&& 0x7f) ||| 0x80 = 0 ∧ shift ≠ 0) := by grind
  have hmore : ¬ ((UInt8.ofNat v &&& 0x7f) ||| 0x80) &&& 0x80 = 0 := by
    rw [continues_iff, hbyte]
    omega
  have hmod : (v % 128 + 128) % 128 = v % 128 := by omega
  rw [readVarintFrom, if_neg (not_overflow hv (.inr h)), if_neg hzero, if_neg hmore, payload_eq, hbyte, hmod,
    or_shiftLeft hacc]

theorem lt_pow_shift_add {x : Nat} (hacc : acc < 2 ^ shift) (hx : x < 128) : acc + 2 ^ shift * x < 2 ^ (shift + 7) := by
  rw [Nat.pow_add]
  have : 2 ^ shift * x ≤ 2 ^ shift * 127 := Nat.mul_le_mul_left _ (by omega)
  omega

theorem pow_shift_split (shift v : Nat) : 2 ^ shift * (v % 128) + 2 ^ (shift + 7) * (v / 128) = 2 ^ shift * v := by
  rw [Nat.pow_add, Nat.mul_assoc, ← Nat.mul_add]
  congr 1
  omega

/-- From the middle of a number on: `v` is what is left of it, and only a first byte may be zero. -/
theorem readVarintFrom_writeVarint (n : Nat) {shift read acc v : Nat} (rest : Bytes) (hn : v < 128 ^ (n + 1))
    (hv : v < 2 ^ (bits - shift)) (hacc : acc < 2 ^ shift) (hz : shift = 0 ∨ v ≠ 0) :
    ∃ k, readVarintFrom bits shift read acc (writeVarint n v ++ rest) = ⟨.complete, k, acc + 2 ^ shift * v, rest⟩ := by
  induction n generalizing shift read acc v with
  | zero => exact ⟨_, readVarintFrom_last rest (by omega) hv hacc hz⟩
  | succ n ih =>
    by_cases h : 0x80 ≤ v
    · have hshift : bits - shift = bits - (shift + 7) + 7 := by
        by_contra hle
        have : 2 ^ (bits - shift) ≤ 2 ^ 7 := Nat.pow_le_pow_right (by omega) (by omega)
        omega
      have hdiv : v >>> 7 = v / 128 := by rw [Nat.shiftRight_eq_div_pow]
      have hn' : v / 128 < 128 ^ (n + 1) := by
        rw [Nat.pow_succ] at hn
        omega
      have hv' : v / 128 < 2 ^ (bits - (shift + 7)) := by
        rw [hshift, Nat.pow_add] at hv
        omega
      rw [writeVarint, if_pos h, cons_append, readVarintFrom_more _ h hv hacc, hdiv, ← pow_shift_split shift v,
        ← Nat.add_assoc]
      exact ih hn' hv' (lt_pow_shift_add hacc (by omega)) (.inr (by omega))
    · rw [writeVarint_of_lt (by omega)]
      exact ⟨_, readVarintFrom_last rest (by omega) hv hacc hz⟩

theorem readVarintFrom_cons {b : UInt8} (hacc : acc < 2 ^ shift)
    (h : readVarintFrom bits shift read acc (b :: s) = ⟨.complete, k, value, rest⟩) :
    (bits ≤ shift + 7 → b.toNat < 2 ^ (bits - shift)) ∧ (shift = 0 ∨ b.toNat ≠ 0) ∧
    (b.toNat < 128 ∧ value = acc + 2 ^ shift * b.toNat ∧ s = rest ∨
      128 ≤ b.toNat ∧ readVarintFrom bits (shift + 7) (read + 1) (acc + 2 ^ shift * (b.toNat % 128)) s =
        ⟨.complete, k, value, rest⟩) := by
  rw [readVarintFrom, payload_eq, or_shiftLeft hacc] at h
  split_ifs at h with hover hzero hlast
  · cases h
  · cases h
  · have hb := (continues_iff b).1 hlast
    rw [Nat.mod_eq_of_lt hb] at h
    cases h
    refine ⟨?_, ?_, .inl ⟨hb, rfl, rfl⟩⟩
    · intro hbits
      rw [Nat.shiftLeft_eq, Nat.one_mul] at hover
      omega
    · by_contra hz
      push Not at hz
      exact hzero ⟨UInt8.toNat_inj.1 hz.2, hz.1⟩
  · have hb : 128 ≤ b.toNat := Nat.le_of_not_lt fun hb => hlast ((continues_iff b).2 hb)
    refine ⟨?_, .inr (by omega), .inr ⟨hb, h⟩⟩
    intro hbits
    rw [Nat.shiftLeft_eq, Nat.one_mul] at hover
    omega

theorem readVarintFrom_complete (n : Nat) (hn : bits ≤ shift + 7 * (n + 1)) (hacc : acc < 2 ^ shift)
    (h : readVarintFrom bits shift read acc s = ⟨.complete, k, value, rest⟩) :
    ∃ v, v < 2 ^ (bits - shift) ∧ (shift = 0 ∨ v ≠ 0) ∧ value = acc + 2 ^ shift * v ∧
      s = writeVarint n v ++ rest := by
  induction s generalizing shift read acc n with
  | nil => cases h
  | cons b s ih =>
    obtain ⟨hover, hzero, ⟨hb, rfl, rfl⟩ | ⟨hb, h⟩⟩ := readVarintFrom_cons hacc h
    · refine ⟨b.toNat, ?_, hzero, rfl, ?_⟩
      · by_contra hle
        have : 2 ^ 7 < 2 ^ (bits - shift) := Nat.pow_lt_pow_right (by omega) (by omega)
        omega
      · rw [writeVarint_of_lt hb, UInt8.ofNat_toNat]
        rfl
    · -- a byte that continues leaves room for seven bits more
      have hshift : shift + 7 < bits := by
        by_contra hle
        have : 2 ^ (bits - shift) ≤ 2 ^ 7 := Nat.pow_le_pow_right (by omega) (by omega)
        have := hover (by omega)
        omega
      obtain ⟨n, rfl⟩ : ∃ m, n = m + 1 := ⟨n - 1, by omega⟩
      obtain ⟨v, hv, hz, rfl, rfl⟩ := ih n (by omega) (lt_pow_shift_add hacc (by omega)) h
      have hmod : (b.toNat % 128 + 128 * v) % 128 = b.toNat % 128 := by omega
      have hdiv : (b.toNat % 128 + 128 * v) / 128 = v := by omega
      refine ⟨b.toNat % 128 + 128 * v, ?_, .inr (by omega), ?_, ?_⟩
      · rw [show bits - shift = bits - (shift + 7) + 7 by omega, Nat.pow_add]
        omega
      · grind
      · have hbyte : (UInt8.ofNat (b.toNat % 128 + 128 * v) &&& 0x7f) ||| 0x80 = b := by
          apply UInt8.toNat_inj.1
          have := b.toNat_lt
          rw [continued_eq, UInt8.toNat_ofNat']
          omega
        rw [writeVarint, if_pos (by omega), hbyte, Nat.shiftRight_eq_div_pow, hdiv]
        rfl

end

theorem readVarint_complete_iff {v : Nat} {rest : Bytes} :
    (∃ k, readVarint bits s = ⟨.complete, k, v, rest⟩) ↔ v < 2 ^ bits ∧ s = writeVarint bits v ++ rest := by
  constructor
  · rintro ⟨k, h⟩
    obtain ⟨w, hw, -, rfl, rfl⟩ := readVarintFrom_complete bits (by omega) (by simp) h
    simpa using hw
  · rintro ⟨hv, rfl⟩
    have hn : v < 128 ^ (bits + 1) := by
      have h1 : 2 ^ bits ≤ 128 ^ bits := Nat.pow_le_pow_left (by omega) bits
      grind
    obtain ⟨k, hk⟩ := @readVarintFrom_writeVarint bits bits 0 0 0 v rest hn hv (by simp) (.inl rfl)
    exact ⟨k, by simpa [readVarint] using hk⟩

theorem writeVarint_inj {bits v v' : Nat} {r r' : Bytes} (hv : v < 2 ^ bits) (hv' : v' < 2 ^ bits)
    (h : writeVarint bits v ++ r = writeVarint bits v' ++ r') : v = v' ∧ r = r' := by
  obtain ⟨k, hk⟩ := readVarint_complete_iff.2 ⟨hv, h.symm⟩
  obtain ⟨k', hk'⟩ := readVarint_complete_iff.2 ⟨hv', Eq.refl (writeVarint bits v' ++ r')⟩
  grind

theorem length_writeVarint_le (bits i : Nat) : (writeVarint bits i).length ≤ bits + 1 := by
  induction bits generalizing i with
  | zero => simp [writeVarint]
  | succ bits ih => grind [writeVarint]

theorem readVarintFrom_taken (bits shift read acc : Nat) (s : Bytes) :
    ∃ k ≤ s.length, (readVarintFrom bits shift read acc s).read = read + k ∧
      (readVarintFrom bits shift read acc s).rest = s.drop k := by
  induction s generalizing shift read acc with
  | nil => exact ⟨0, by simp, rfl, rfl⟩
  | cons b s ih =>
    rw [readVarintFrom]
    split_ifs
    · exact ⟨1, by simp, rfl, rfl⟩
    · exact ⟨1, by simp, rfl, rfl⟩
    · exact ⟨1, by simp, rfl, rfl⟩
    · obtain ⟨k, hk, hread, hrest⟩ := ih (shift + 7) (read + 1) (acc ||| (b &&& 0x7f).toNat <<< shift)
      exact ⟨k + 1, by simpa using hk, by rw [hread, Nat.add_assoc, Nat.add_comm 1], by simpa using hrest⟩

theorem readVarint_rest (bits : Nat) (s : Bytes) : (readVarint bits s).rest = s.drop (readVarint bits s).read := by
  obtain ⟨k, -, hread, hrest⟩ := readVarintFrom_taken bits 0 0 0 s
  rw [readVarint, hrest, hread, Nat.zero_add]

theorem readVarintFrom_rest_of_endOfData (h : (readVarintFrom bits shift read acc s).ended = .endOfData) :
    (readVarintFrom bits shift read acc s).rest = [] := by
  induction s generalizing shift read acc with
  | nil => rfl
  | cons b s ih => grind [readVarintFrom]

theorem overflow_iff_of_continues (hb : 128 ≤ b.toNat) :
    (bits ≤ shift + 7 ∧ 1 <<< (bits - shift) ≤ b.toNat) ↔ bits ≤ shift + 7 := by
  refine ⟨fun h => h.1, fun h => ⟨h, ?_⟩⟩
  have : 2 ^ (bits - shift) ≤ 2 ^ 7 := Nat.pow_le_pow_right (by omega) (by omega)
  rw [Nat.shiftLeft_eq, Nat.one_mul]
  omega

theorem readVarintFrom_endOfData_iff (bits shift read acc : Nat) (s : Bytes) :
    (readVarintFrom bits shift read acc s).ended = .endOfData ↔
      (∀ b ∈ s, 128 ≤ b.toNat) ∧ (s = [] ∨ shift + 7 * s.length < bits) := by
  induction s generalizing shift read acc with
  | nil => simp [readVarintFrom]
  | cons b s ih =>
    rw [forall_mem_cons, length_cons]
    by_cases hb : b.toNat < 128
    · grind [readVarintFrom, continues_iff]
    · have hmore : ¬ b &&& 0x80 = 0 := fun h => hb ((continues_iff b).1 h)
      have hzero : ¬ (b = 0 ∧ shift ≠ 0) := by
        rintro ⟨rfl, -⟩
        exact hb (by decide)
      grind [readVarintFrom, overflow_iff_of_continues]

theorem readVarint_endOfData_iff (s : Bytes) :
    (readVarint 64 s).ended = .endOfData ↔ (∀ b ∈ s, 128 ≤ b.toNat) ∧ s.length ≤ 9 := by
  rw [readVarint, readVarintFrom_endOfData_iff]
  grind

theorem readVarint_complete (h : (readVarint bits s).ended = .complete) : (readVarint bits s).value < 2 ^ bits ∧
    s.take (readVarint bits s).read = writeVarint bits (readVarint bits s).value := by
  obtain ⟨hv, hs⟩ := readVarint_complete_iff.1 ⟨(readVarint bits s).read, show readVarint bits s = _ by rw [← h]⟩
  rw [readVarint_rest] at hs
  exact ⟨hv, append_cancel_right ((take_append_drop _ s).trans hs)⟩

/-- **A varint ends where it ends, and there is one for each number.** -/
theorem varint_self_delimiting (bits : Nat) :
    (∀ v suffix, v < 2 ^ bits → let r := readVarint bits (writeVarint bits v ++ suffix)
      r.code = (writeVarint bits v).length ∧ r.value = v ∧ r.rest = suffix) ∧
    ∀ s last, 0 ≤ (readVarint bits s).code → (s.take (readVarint bits s).read).getLast? = some last → last < 0x80 →
      (readVarint bits s).value < 2 ^ bits ∧
        s.take (readVarint bits s).read = writeVarint bits (readVarint bits s).value := by
  refine ⟨fun v suffix hv => ?_, fun s last hcode hlast hbyte => ?_⟩
  · obtain ⟨k, hread⟩ := readVarint_complete_iff.2 ⟨hv, Eq.refl (writeVarint bits v ++ suffix)⟩
    have htaken := (readVarint_complete (by rw [hread])).2
    obtain ⟨k', hle, hcount, -⟩ := readVarintFrom_taken bits 0 0 0 (writeVarint bits v ++ suffix)
    rw [← readVarint, hread] at hcount
    rw [hread] at htaken ⊢
    have hlength := congrArg length htaken
    dsimp only at hcount hlength
    rw [length_take] at hlength
    refine ⟨?_, rfl, rfl⟩
    show (k : Int) = _
    omega
  · cases hended : (readVarint bits s).ended with
    | complete => exact readVarint_complete hended
    | endOfData =>
      -- then every byte announces another one, the last one too
      have hmem := mem_of_mem_take (mem_of_getLast? hlast)
      have hmore := ((readVarintFrom_endOfData_iff bits 0 0 0 s).1 hended).1 last hmem
      exact absurd (UInt8.lt_iff_toNat_lt.1 hbyte) (Nat.not_lt.2 hmore)
    | overflow => simp [VarintRead.code, hended] at hcode
    | represent => simp [VarintRead.code, hended] at hcode

theorem varint_self_delimiting_300 : (readVarint 16 (writeVarint 16 300 ++ [7])).code = 2 ∧
    [0xac, 0x02] = writeVarint 16 (readVarint 16 [0xac, 0x02, 7]).value :=
  ⟨((varint_self_delimiting 16).1 300 [7] (by decide)).1.trans (by decide),
    ((varint_self_delimiting 16).2 [0xac, 0x02, 7] 2 (by decide) (by decide) (by decide)).2⟩

theorem readVarintFrom_append (h : (readVarintFrom bits shift read acc s).ended ≠ .endOfData) (x : Bytes) :
    readVarintFrom bits shift read acc (s ++ x) =
      { readVarintFrom bits shift read acc s with rest := (readVarintFrom bits shift read acc s).rest ++ x } := by
  induction s generalizing shift read acc with
  | nil => exact absurd rfl h
  | cons b s ih => grind [readVarintFrom]

theorem readVarintFrom_append_cut (h : (readVarintFrom bits shift read acc s).ended = .endOfData) (x : Bytes) :
    readVarintFrom bits shift read acc (s ++ x) =
      readVarintFrom bits (shift + 7 * s.length) (read + s.length) (readVarintFrom bits shift read acc s).value x := by
  induction s generalizing shift read acc with
  | nil => rfl
  | cons b s ih => grind [readVarintFrom]

theorem length_readVarintFrom_rest (bits shift read acc : Nat) (h : s ≠ []) :
    (readVarintFrom bits shift read acc s).rest.length < s.length := by
  obtain ⟨b, s, rfl⟩ := exists_cons_of_ne_nil h
  rw [readVarintFrom]
  split_ifs
  · simp
  · simp
  · simp
  · obtain ⟨k, -, -, hrest⟩ := readVarintFrom_taken bits (shift + 7) (read + 1)
      (acc ||| (b &&& 0x7f).toNat <<< shift) s
    grind

theorem length_readVarint_rest_of_continues (hb : 128 ≤ b.toNat) (hs : s ≠ []) :
    (readVarint 64 (b :: s)).rest.length < s.length := by
  have hmore : ¬ b &&& 0x80 = 0 := fun h => absurd ((continues_iff b).1 h) (by omega)
  rw [readVarint, readVarintFrom, if_neg (by omega), if_neg (by simp), if_neg hmore]
  exact length_readVarintFrom_rest 64 _ _ _ hs

theorem readVarint_rest_append_cut {x : Bytes} (h : (readVarint 64 s).ended = .endOfData) (hb0 : b ≠ 0)
    (hb : b.toNat < 128) : (readVarint 64 (s ++ b :: x)).rest = x := by
  rw [readVarint, readVarintFrom_append_cut h, readVarintFrom, if_pos ((continues_iff b).2 hb),
    if_neg (show ¬ (b = 0 ∧ _) from fun h => hb0 h.1)]
  split <;> rfl

namespace Archive
open Format

def uvarint (checked : Bool) (bits : Nat) : Format UInt8 (BitVec bits) where
  write v := some (writeVarint bits v.toNat)
  read s :=
    let r := readVarint bits s
    if checked ∧ r.ended ≠ .complete then none else some (BitVec.ofNat bits r.value, r.rest)

def varint64 (checked : Bool) : Format UInt8 UInt64 :=
  (uvarint checked 64).part (fun v => some v.toBitVec) UInt64.ofBitVec

def varint8 (checked : Bool) : Format UInt8 UInt8 :=
  (uvarint checked 8).part (fun v => some v.toBitVec) UInt8.ofBitVec

/-- `begin_array(size)`. A `std::vector` has fewer than 2^64 elements. -/
def count (checked : Bool) : Format UInt8 Nat :=
  (uvarint checked 64).part (fun n => if n < 2 ^ 64 then some (BitVec.ofNat 64 n) else none) BitVec.toNat

def container {α : Type} (checked : Bool) (f : Format UInt8 α) : Format UInt8 (List α) := counted (count checked) f

def byte : Format UInt8 UInt8 := symbol UInt8

/-- A `std::string`: its size and its characters, where a size beyond what remains is refused. -/
def string (checked : Bool) : Format UInt8 Bytes := container checked byte

def blob (n : Nat) : Format UInt8 (Pod n) where
  write p := some p.bytes
  read s := if h : n ≤ s.length then some (⟨s.take n, by simp [h]⟩, s.drop n) else none

def putUint : Nat → Nat → Bytes
  | 0, _ => []
  | width + 1, v => UInt8.ofNat v :: putUint width (v >>> 8)

def getUint : Nat → Bytes → Option (Nat × Bytes)
  | 0, s => some (0, s)
  | _ + 1, [] => none
  | width + 1, b :: s => (getUint width s).map fun r => (b.toNat + r.1 <<< 8, r.2)

def uint32 : Format UInt8 UInt32 where
  write v := some (putUint 4 v.toNat)
  read s := (getUint 4 s).map fun r => (UInt32.ofNat r.1, r.2)

theorem lawful_uvarint (bits : Nat) : Lawful (uvarint true bits) id where
  canonical {s v rest} h := by
    obtain ⟨hended, h⟩ := Option.ite_none_left_eq_some.1 h
    obtain ⟨rfl, hrest⟩ : BitVec.ofNat bits (readVarint bits s).value = v ∧ (readVarint bits s).rest = rest := by
      simpa using h
    have hread : readVarint bits s = ⟨.complete, (readVarint bits s).read, (readVarint bits s).value, rest⟩ := by
      rw [← hrest, ← show (readVarint bits s).ended = .complete by simpa using hended]
    obtain ⟨hlt, hs⟩ := readVarint_complete_iff.1 ⟨_, hread⟩
    exact ⟨rfl, _, rfl, by rwa [BitVec.toNat_ofNat, Nat.mod_eq_of_lt hlt]⟩
  complete {v w} h rest := by
    obtain rfl : writeVarint bits v.toNat = w := by simpa [uvarint] using h
    obtain ⟨k, hk⟩ := readVarint_complete_iff.2 ⟨v.isLt, Eq.refl (writeVarint bits v.toNat ++ rest)⟩
    simp [uvarint, hk]

theorem le_uvarint (bits : Nat) : (uvarint true bits).Le (uvarint false bits) where
  write_eq _ := rfl
  read_le h := by simpa [uvarint] using (Option.ite_none_left_eq_some.1 h).2

theorem lawful_varint64 : Lawful (varint64 true) id :=
  (lawful_uvarint 64).part_id (fun _ => rfl) fun _ _ h => by cases h; rfl

theorem lawful_varint8 : Lawful (varint8 true) id :=
  (lawful_uvarint 8).part_id (fun _ => rfl) fun _ _ h => by cases h; rfl

theorem lawful_count : Lawful (count true) id := by
  refine (lawful_uvarint 64).part_id (fun v => ?_) fun n v h => ?_
  · simp [v.isLt]
  · grind

theorem le_varint64 : (varint64 true).Le (varint64 false) := (le_uvarint 64).part _ _

theorem le_varint8 : (varint8 true).Le (varint8 false) := (le_uvarint 8).part _ _

theorem le_count : (count true).Le (count false) := (le_uvarint 64).part _ _

theorem lawful_byte : Lawful byte id := lawful_symbol

theorem lawful_blob (n : Nat) : Lawful (blob n) id where
  canonical {s p rest} h := by
    obtain ⟨hn, h⟩ := Option.dite_none_right_eq_some.1 h
    cases h
    exact ⟨rfl, _, rfl, (take_append_drop n s).symm⟩
  complete {p w} h rest := by
    obtain rfl : p.bytes = w := by simpa [blob] using h
    obtain ⟨bytes, rfl⟩ := p
    simp [blob]

theorem length_putUint (n v : Nat) : (putUint n v).length = n := by
  induction n generalizing v with
  | zero => rfl
  | succ n ih => rw [putUint, length_cons, ih]

variable {v n : Nat} {s : Bytes}

theorem getUint_putUint (width : Nat) (hv : v < 256 ^ width) (rest : Bytes) :
    getUint width (putUint width v ++ rest) = some (v, rest) := by
  induction width generalizing v with
  | zero =>
    obtain rfl : v = 0 := by simpa using hv
    rfl
  | succ width ih =>
    have hlt : v >>> 8 < 256 ^ width := by
      rw [Nat.shiftRight_eq_div_pow]
      rw [Nat.pow_succ] at hv
      omega
    simp only [putUint, cons_append, getUint, ih hlt, Option.map_some, Option.some.injEq, Prod.mk.injEq, and_true]
    rw [Nat.shiftRight_eq_div_pow, Nat.shiftLeft_eq, UInt8.toNat_ofNat']
    omega

theorem putUint_of_getUint (width : Nat) {rest : Bytes} (h : getUint width s = some (v, rest)) :
    v < 256 ^ width ∧ s = putUint width v ++ rest := by
  induction width generalizing s v with
  | zero =>
    cases h
    simp [putUint]
  | succ width ih =>
    cases s with
    | nil => cases h
    | cons b s =>
      obtain ⟨⟨u, s'⟩, hu, h⟩ := Option.map_eq_some_iff.1 h
      cases h
      obtain ⟨hlt, rfl⟩ := ih hu
      have hb := b.toNat_lt
      have hbyte : UInt8.ofNat (b.toNat + u <<< 8) = b := by
        apply UInt8.toNat_inj.1
        rw [UInt8.toNat_ofNat', Nat.shiftLeft_eq]
        omega
      have hrest : (b.toNat + u <<< 8) >>> 8 = u := by
        rw [Nat.shiftRight_eq_div_pow, Nat.shiftLeft_eq]
        omega
      refine ⟨?_, by simp only [putUint, hbyte, hrest, cons_append]⟩
      rw [Nat.shiftLeft_eq, Nat.pow_succ]
      omega

theorem lawful_uint32 : Lawful uint32 id where
  canonical {s v rest} h := by
    obtain ⟨⟨n, s'⟩, hn, h⟩ := Option.map_eq_some_iff.1 h
    cases h
    obtain ⟨hlt, rfl⟩ := putUint_of_getUint 4 hn
    have hmod : (UInt32.ofNat n).toNat = n := by
      rw [UInt32.toNat_ofNat']
      omega
    exact ⟨rfl, _, rfl, by rw [hmod]⟩
  complete {v w} h rest := by
    obtain rfl : putUint 4 v.toNat = w := by simpa [uint32] using h
    simp [uint32, getUint_putUint 4 v.toNat_lt]

theorem positive_varint64 {checked : Bool} : (varint64 checked).Positive := by
  intro v w h
  obtain rfl : writeVarint 64 v.toBitVec.toNat = w := by simpa [varint64, uvarint, Format.part] using h
  exact length_pos_of_ne_nil (writeVarint_ne_nil 64 _)

theorem positive_byte : byte.Positive := positive_symbol

theorem positive_blob (hn : 0 < n) : (blob n).Positive := by
  intro p w h
  obtain rfl : p.bytes = w := by simpa [blob] using h
  rwa [p.size]

theorem lawful_container {α : Type} {f : Format UInt8 α} (hf : Lawful f id)
    (hpos : f.Positive) : Lawful (container true f) id :=
  lawful_count.counted_id hf hpos

theorem le_container {α : Type} {f f' : Format UInt8 α} (hf : f.Le f') : (container true f).Le (container false f') :=
  le_count.counted hf

theorem lawful_string : Lawful (string true) id := lawful_container lawful_byte positive_byte

theorem le_string : (string true).Le (string false) := le_container Le.rfl

theorem write_count (checked : Bool) (h : n < 2 ^ 64) : (count checked).write n = some (writeVarint 64 n) := by
  have hn : (BitVec.ofNat 64 n).toNat = n := by rw [BitVec.toNat_ofNat, Nat.mod_eq_of_lt h]
  simp only [count, Format.part, if_pos h, Option.bind_some, uvarint, hn]

theorem write_string (checked : Bool) {data : Bytes} (h : data.length < 2 ^ 64) :
    (string checked).write data = some (writeVarint 64 data.length ++ data) := by
  simp [string, container, counted, write_count checked h, byte, write_times_symbol]

theorem read_count (s : Bytes) :
    (count false).read s = some ((readVarint 64 s).value % 2 ^ 64, (readVarint 64 s).rest) := by
  simp [count, Format.part, uvarint]

theorem trims_count : (count false).Trims := by
  intro s n rest h
  rw [read_count] at h
  cases h
  rw [readVarint_rest]
  exact drop_suffix _ s

theorem rewritable_count : (count false).Rewritable := by
  intro s n rest h
  rw [read_count] at h
  cases h
  exact ⟨_, write_count false (Nat.mod_lt _ (by decide))⟩

theorem settled_count (h : (readVarint 64 s).ended ≠ .endOfData) : (count false).Settled s := by
  intro n rest hr x
  grind [read_count, readVarint, readVarintFrom_append]

end Archive
end Electronero
