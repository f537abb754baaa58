import Electronero.Base58
import Electronero.Core.Archive
/-!
# Textual addresses (src/common/base58.cpp:240, 250)

`read_varint` returns what it has when the bytes run out inside a number (varint.h:99), so `decode_addr` also takes a
payload in which every byte announces another one.
-/
namespace Electronero
open Text

section
variable (cnFastHash : Bytes → Hash)

def addrChecksumSize : Nat := 4

def addrChecksum (buf : Bytes) : Bytes := (cnFastHash buf).bytes.take addrChecksumSize

def encodeAddr (tag : UInt64) (data : Bytes) : Bytes :=
  let buf := writeVarint 64 tag.toNat ++ data
  Base58.encode (buf ++ addrChecksum cnFastHash buf)

def addrPayload (addr : Bytes) : Option Bytes :=
  (Base58.decode addr).bind fun addrData =>
    if addrData.length ≤ addrChecksumSize then none
    else
      let checksum := addrData.drop (addrData.length - addrChecksumSize)
      let addrData := addrData.take (addrData.length - addrChecksumSize)
      if addrChecksum cnFastHash addrData ≠ checksum then none else some addrData

def decodeAddr (addr : Bytes) : Option (UInt64 × Bytes) :=
  (addrPayload cnFastHash addr).bind fun addrData =>
    let r := readVarint 64 addrData
    if r.code ≤ 0 then none else some (UInt64.ofNat r.value, addrData.drop r.code.toNat)

end

namespace Address
variable {cnFastHash : Bytes → Hash}

theorem length_addrChecksum (buf : Bytes) : (addrChecksum cnFastHash buf).length = addrChecksumSize := by
  rw [addrChecksum, List.length_take, (cnFastHash buf).size]
  rfl

variable {addr payload data : Bytes} {tag : UInt64}

theorem addrPayload_iff : addrPayload cnFastHash addr = some payload ↔
      payload ≠ [] ∧ addr = Base58.encode (payload ++ addrChecksum cnFastHash payload) := by
  rw [addrPayload, Option.bind_eq_some_iff]
  constructor
  · rintro ⟨addrData, hdecode, h⟩
    obtain ⟨hlong, h⟩ := Option.ite_none_left_eq_some.1 h
    obtain ⟨hchecksum, h⟩ := Option.ite_none_left_eq_some.1 h
    cases h
    refine ⟨?_, ?_⟩
    · apply List.ne_nil_of_length_pos
      rw [List.length_take]
      omega
    · rw [not_not.1 hchecksum, List.take_append_drop]
      exact ((Base58.base58_round_trip [] addr).2 _ hdecode).symm
  · rintro ⟨hne, rfl⟩
    refine ⟨_, (Base58.base58_round_trip _ []).1, ?_⟩
    have hpos := List.length_pos_of_ne_nil hne
    have hlength : (payload ++ addrChecksum cnFastHash payload).length = payload.length + addrChecksumSize := by
      rw [List.length_append, length_addrChecksum]
    simp_all

theorem encode_payload_inj {p q : Bytes}
    (h : Base58.encode (p ++ addrChecksum cnFastHash p) = Base58.encode (q ++ addrChecksum cnFastHash q)) : p = q := by
  have hdecoded := congrArg Base58.decode h
  rw [(Base58.base58_round_trip _ []).1, (Base58.base58_round_trip _ []).1, Option.some.injEq] at hdecoded
  exact (List.append_inj' hdecoded (by rw [length_addrChecksum, length_addrChecksum])).1

theorem readVarint_tag (tag : UInt64) (data : Bytes) :
    ∃ k > 0, readVarint 64 (writeVarint 64 tag.toNat ++ data) = ⟨.complete, k, tag.toNat, data⟩ := by
  obtain ⟨k, hk⟩ := readVarint_complete_iff.2 ⟨tag.toNat_lt, Eq.refl (writeVarint 64 tag.toNat ++ data)⟩
  refine ⟨k, Nat.pos_of_ne_zero ?_, hk⟩
  rintro rfl
  have hrest := readVarint_rest 64 (writeVarint 64 tag.toNat ++ data)
  simp [hk, writeVarint_ne_nil] at hrest

theorem readVarint_cut (hne : payload ≠ []) (h : (readVarint 64 payload).ended = .endOfData) :
    0 < (readVarint 64 payload).read ∧ payload.drop (readVarint 64 payload).read = [] := by
  have hrest : payload.drop (readVarint 64 payload).read = [] := by
    rw [← readVarint_rest]
    exact readVarintFrom_rest_of_endOfData h
  grind

theorem decodeAddr_iff : decodeAddr cnFastHash addr = some (tag, data) ↔
      ∃ payload, addrPayload cnFastHash addr = some payload ∧ (payload = writeVarint 64 tag.toNat ++ data ∨
        (readVarint 64 payload).ended = .endOfData ∧ UInt64.ofNat (readVarint 64 payload).value = tag ∧ data = []) := by
  rw [decodeAddr, Option.bind_eq_some_iff]
  refine exists_congr fun payload => and_congr_right fun hpayload => ?_
  have hne := (addrPayload_iff.1 hpayload).1
  simp only [Option.ite_none_left_eq_some, Option.some.injEq, Prod.mk.injEq]
  constructor
  · rintro ⟨hcode, rfl, rfl⟩
    cases hended : (readVarint 64 payload).ended with
    | complete =>
      obtain ⟨hlt, hs⟩ := readVarint_complete_iff.1
        ⟨_, show readVarint 64 payload = ⟨.complete, _, _, (readVarint 64 payload).rest⟩ by rw [← hended]⟩
      left
      have hread : (readVarint 64 payload).code.toNat = (readVarint 64 payload).read := by simp [VarintRead.code, hended]
      rw [hread, ← readVarint_rest, UInt64.toNat_ofNat', Nat.mod_eq_of_lt hlt]
      exact hs
    | endOfData => grind [VarintRead.code, readVarint_cut]
    | overflow => simp [VarintRead.code, hended] at hcode
    | represent => simp [VarintRead.code, hended] at hcode
  · rintro (rfl | ⟨hended, rfl, rfl⟩)
    · obtain ⟨k, hk, hread⟩ := readVarint_tag tag data
      have hrest := readVarint_rest 64 (writeVarint 64 tag.toNat ++ data)
      rw [hread] at hrest ⊢
      exact ⟨by simpa [VarintRead.code] using hk.ne', UInt64.ofNat_toNat, by simpa [VarintRead.code] using hrest.symm⟩
    · grind [readVarint_cut, VarintRead.code]

theorem decodeAddr_encodeAddr (tag : UInt64) (data : Bytes) :
    decodeAddr cnFastHash (encodeAddr cnFastHash tag data) = some (tag, data) := by
  refine decodeAddr_iff.2 ⟨writeVarint 64 tag.toNat ++ data, addrPayload_iff.2 ⟨?_, rfl⟩, .inl rfl⟩
  simp [writeVarint_ne_nil]

theorem encodeAddr_ne_of_cut
    (hpayload : addrPayload cnFastHash addr = some payload) (hcut : (readVarint 64 payload).ended = .endOfData) :
    encodeAddr cnFastHash tag data ≠ addr := by
  rintro h
  obtain ⟨-, rfl⟩ := addrPayload_iff.1 hpayload
  obtain rfl := encode_payload_inj h
  obtain ⟨k, -, hread⟩ := readVarint_tag tag data
  simp [hread] at hcut

/-- The payload of `addr` is one to nine bytes that all carry the continuation bit. -/
def EndsInTag (cnFastHash : Bytes → Hash) (addr : Bytes) : Prop :=
  ∃ payload, addrPayload cnFastHash addr = some payload ∧ (∀ b ∈ payload, 128 ≤ b.toNat) ∧ payload.length ≤ 9

/-- **An address has one textual form, unless its payload ends inside the tag**; what is encoded is always decoded. -/
theorem address_one_form_iff (cnFastHash : Bytes → Hash) (addr : Bytes) :
    ((∀ tag data, decodeAddr cnFastHash addr = some (tag, data) → encodeAddr cnFastHash tag data = addr) ∧
      ∀ tag data, decodeAddr cnFastHash (encodeAddr cnFastHash tag data) = some (tag, data)) ↔
    ¬ EndsInTag cnFastHash addr := by
  rw [and_iff_left fun tag data => decodeAddr_encodeAddr tag data]
  constructor
  · rintro hone ⟨payload, hpayload, hcut⟩
    have hended := (readVarint_endOfData_iff payload).2 hcut
    have hdecoded := decodeAddr_iff.2 ⟨payload, hpayload, .inr ⟨hended, rfl, rfl⟩⟩
    exact encodeAddr_ne_of_cut hpayload hended (hone _ _ hdecoded)
  · intro hends tag data h
    obtain ⟨payload, hpayload, rfl | ⟨hended, -⟩⟩ := decodeAddr_iff.1 h
    · exact (addrPayload_iff.1 hpayload).2.symm
    · exact absurd ⟨payload, hpayload, (readVarint_endOfData_iff payload).1 hended⟩ hends

theorem continued_tag_has_second_form :
    let addr := Base58.encode ([0x80] ++ addrChecksum (fun _ => default) [0x80])
    decodeAddr (fun _ => default) addr = some (0, []) ∧ encodeAddr (fun _ => default) 0 [] ≠ addr := by
  decide +kernel

end Address
end Electronero
