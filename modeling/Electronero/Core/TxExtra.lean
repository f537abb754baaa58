import Electronero.Core.Archive
import Electronero.Core.BlockTemplate
/-!
# The extra field of a transaction (`src/cryptonote_basic/tx_extra.h`, `cryptonote_format_utils.cpp:402-563`)

A stream of fields, each a tag (variant.h:64, 105, 128) and a key, zeros up to the end, or something that starts with a
count. A count is taken as it is when the data ends inside it (`Archive.count false`); what is put behind such a field is
lost. `add_extra_nonce_to_tx_extra` puts the length as one byte, which is a varint only up to 127.
-/
namespace Electronero
open Text Codec Format List

inductive FieldType where
  | padding
  | pubKey
  | nonce
  | mergeMiningTag
  | additionalPubKeys
  | mysteriousMinergate
  | tokenData
deriving DecidableEq, Repr

namespace FieldType

def tag : FieldType → UInt8
  | padding => 0x00
  | pubKey => 0x01
  | nonce => 0x02
  | mergeMiningTag => 0x03
  | additionalPubKeys => 0x04
  | mysteriousMinergate => 0xDE
  | tokenData => 0x60

def all : List FieldType :=
  [padding, pubKey, nonce, mergeMiningTag, additionalPubKeys, mysteriousMinergate, tokenData]

def ofTag (t : UInt8) : Option FieldType := all.find? fun type => type.tag = t

def counted : FieldType → Bool
  | nonce | additionalPubKeys | mysteriousMinergate | tokenData => true
  | padding | pubKey | mergeMiningTag => false

theorem ofTag_tag (type : FieldType) : ofTag type.tag = some type := by cases type <;> rfl

theorem tag_of_ofTag {t : UInt8} {type : FieldType} (h : ofTag t = some type) : type.tag = t := by
  simpa using find?_some h

end FieldType

def TxExtraField.type : TxExtraField → FieldType
  | .padding _ => .padding
  | .pubKey _ => .pubKey
  | .nonce _ => .nonce
  | .mergeMiningTag _ _ => .mergeMiningTag
  | .additionalPubKeys _ => .additionalPubKeys
  | .mysteriousMinergate _ => .mysteriousMinergate
  | .tokenData _ => .tokenData

def TxExtraField.size : TxExtraField → Nat
  | .nonce data | .mysteriousMinergate data | .tokenData data => data.length
  | .additionalPubKeys keys => keys.length
  | .padding _ | .pubKey _ | .mergeMiningTag _ _ => 0

namespace TxExtra

def paddingMaxCount : Nat := 255

def nonceMaxCount : Nat := 255

/-- The loop of the loading `do_serialize`: `size` counts the tag and the zeros, and the data has to end. -/
def readPadding : Nat → Bytes → Option Nat
  | size, [] => if size ≤ paddingMaxCount then some size else none
  | size, zero :: s => if paddingMaxCount < size then none else if zero ≠ 0 then none else readPadding (size + 1) s

def padding : Format UInt8 TxExtraField where
  write
    | .padding size => if paddingMaxCount < size then none else some (List.replicate (size - 1) 0)
    | _ => none
  read s := (readPadding 1 s).map fun size => (.padding size, [])

def mergeMining (checked : Bool) : Format UInt8 (Nat × Hash) := (Archive.count checked).seq fun _ => Archive.blob 32

def body (checked : Bool) : FieldType → Format UInt8 TxExtraField
  | .padding => padding
  | .pubKey => (Archive.blob 32).part (fun | .pubKey key => some key | _ => none) .pubKey
  | .nonce =>
    ((Archive.string checked).guard fun nonce => nonce.length ≤ nonceMaxCount).part
      (fun | .nonce nonce => some nonce | _ => none) .nonce
  | .mergeMiningTag =>
    ((Archive.string checked).within (mergeMining checked)).part
      (fun | .mergeMiningTag depth merkleRoot => some (depth, merkleRoot) | _ => none) fun p => .mergeMiningTag p.1 p.2
  | .additionalPubKeys =>
    (Archive.container checked (Archive.blob 32)).part (fun | .additionalPubKeys data => some data | _ => none)
      .additionalPubKeys
  | .mysteriousMinergate =>
    (Archive.string checked).part (fun | .mysteriousMinergate data => some data | _ => none) .mysteriousMinergate
  | .tokenData => (Archive.string checked).part (fun | .tokenData data => some data | _ => none) .tokenData

def field (checked : Bool) : Format UInt8 TxExtraField :=
  tagged Archive.byte (fun f => f.type.tag) fun t => (FieldType.ofTag t).elim fail (body checked)

end TxExtra

open TxExtra

def parseTxExtra (txExtra : Bytes) : Option (List TxExtraField) := (field false).toEnd txExtra

namespace TxExtra

/-- The word of a field; nothing is lost where `do_serialize` fails, see `writeField_of_read`. -/
def writeField (f : TxExtraField) : Bytes := ((field false).write f).getD []

def removeLoop (type : FieldType) : Nat → Bytes → Bytes → Option Bytes
  | 0, _, _ => none
  | n + 1, iss, oss =>
    ((field false).read iss).bind fun r =>
      let oss := if r.1.type ≠ type then oss ++ writeField r.1 else oss
      if r.2 = [] then some oss else removeLoop type n r.2 oss

end TxExtra

def removeFieldFromTxExtra (txExtra : Bytes) (type : FieldType) : Bool × Bytes :=
  if txExtra = [] then (true, txExtra)
  else
    match removeLoop type txExtra.length txExtra [] with
    | some oss => (true, oss)
    | none => (false, txExtra)

def addExtraNonceToTxExtra (txExtra extraNonce : Bytes) : Bool × Bytes :=
  if extraNonce.length ≤ nonceMaxCount then
    (true, txExtra ++ [FieldType.nonce.tag, UInt8.ofNat extraNonce.length] ++ extraNonce)
  else (false, txExtra)

def addTokenDataToTxExtra (txExtra data : Bytes) : Bool × Bytes :=
  match (field false).write (.tokenData data) with
  | some txExtraStr => (true, txExtra ++ txExtraStr)
  | none => (false, txExtra)

namespace TxExtra

variable {s rest w txExtra nonce : Bytes} {f : TxExtraField} {type : FieldType} {fields : List TxExtraField}

theorem readPadding_iff {size k : Nat} :
    readPadding size s = some k ↔ size ≤ k ∧ k ≤ paddingMaxCount ∧ s = List.replicate (k - size) 0 := by
  induction s generalizing size with
  | nil =>
    simp only [readPadding, Option.ite_none_right_eq_some, Option.some.injEq]
    constructor
    · rintro ⟨h, rfl⟩
      simp [h]
    · rintro ⟨hle, hmax, h⟩
      have : k - size = 0 := by simpa using h.symm
      omega
  | cons zero s ih =>
    simp only [readPadding, Option.ite_none_left_eq_some, ih, not_lt, ne_eq, not_not]
    constructor
    · rintro ⟨-, rfl, hle, hmax, rfl⟩
      refine ⟨by omega, hmax, ?_⟩
      rw [← replicate_succ, show k - (size + 1) + 1 = k - size by omega]
    · rintro ⟨hle, hmax, h⟩
      obtain ⟨n, hn⟩ : ∃ n, k - size = n + 1 := by
        refine ⟨k - size - 1, ?_⟩
        have := congrArg List.length h
        rw [length_cons, length_replicate] at this
        omega
      grind

theorem padding_read (h : padding.read s = some (f, rest)) :
    rest = [] ∧ ∃ size, f = .padding size ∧ 1 ≤ size ∧ size ≤ paddingMaxCount ∧ s = List.replicate (size - 1) 0 := by
  obtain ⟨size, hsize, h⟩ := Option.map_eq_some_iff.1 h
  grind [readPadding_iff]

theorem lawful_mergeMining : Lawful (mergeMining true) id :=
  Archive.lawful_count.seq_id fun _ => Archive.lawful_blob 32

theorem le_mergeMining : (mergeMining true).Le (mergeMining false) := Archive.le_count.seq fun _ => Le.rfl

theorem lawful_keys : Lawful (Archive.container true (Archive.blob 32)) id :=
  Archive.lawful_container (Archive.lawful_blob 32) (Archive.positive_blob (by omega))

theorem lawful_body (h : type ≠ .padding) : Lawful (body true type) id := by
  cases type with
  | padding => exact absurd rfl h
  | pubKey =>
    refine (Archive.lawful_blob 32).part_id (fun _ => rfl) fun f b hb => ?_
    cases f <;> cases hb
    rfl
  | nonce =>
    refine (Archive.lawful_string.guard fun _ => rfl).part_id (fun _ => rfl) fun f b hb => ?_
    cases f <;> cases hb
    rfl
  | mergeMiningTag =>
    rw [body]
    refine (Archive.lawful_string.within lawful_mergeMining).part_id (fun _ => rfl) fun f b hb => ?_
    cases f <;> cases hb
    rfl
  | additionalPubKeys =>
    refine lawful_keys.part_id (fun _ => rfl) fun f b hb => ?_
    cases f <;> cases hb
    rfl
  | mysteriousMinergate =>
    refine Archive.lawful_string.part_id (fun _ => rfl) fun f b hb => ?_
    cases f <;> cases hb
    rfl
  | tokenData =>
    refine Archive.lawful_string.part_id (fun _ => rfl) fun f b hb => ?_
    cases f <;> cases hb
    rfl

theorem le_body (type : FieldType) : (body true type).Le (body false type) := by
  have hstring := Archive.le_string
  cases type with
  | padding => exact Le.rfl
  | pubKey => exact Le.rfl
  | nonce => exact (hstring.guard _).part _ _
  | mergeMiningTag =>
    rw [body, body]
    exact (hstring.within le_mergeMining).part _ _
  | additionalPubKeys => exact (Archive.le_container Le.rfl).part _ _
  | mysteriousMinergate => exact hstring.part _ _
  | tokenData => exact hstring.part _ _

theorem trims_string : (Archive.string false).Trims := Archive.trims_count.counted Archive.lawful_byte

theorem trims_body (type : FieldType) : (body false type).Trims := by
  cases type with
  | padding =>
    intro s f rest h
    rw [(padding_read h).1]
    exact nil_suffix
  | pubKey => exact (Archive.lawful_blob 32).trims.part _ _
  | nonce => exact (trims_string.guard _).part _ _
  | mergeMiningTag =>
    rw [body]
    exact (trims_string.within _).part _ _
  | additionalPubKeys => exact (Archive.trims_count.counted (Archive.lawful_blob 32)).part _ _
  | mysteriousMinergate => exact trims_string.part _ _
  | tokenData => exact trims_string.part _ _

theorem shortens_field : (field false).Shortens := by
  refine Trims.shortens_tagged fun t => ?_
  cases FieldType.ofTag t with
  | none => exact trims_fail
  | some type => exact trims_body type

theorem read_field (type : FieldType) (s : Bytes) : (field false).read (type.tag :: s) = (body false type).read s := by
  rw [field, Archive.byte, read_tagged_symbol, FieldType.ofTag_tag]
  rfl

theorem read_field_iff : (field false).read s = some (f, rest) ↔
      ∃ type s', s = type.tag :: s' ∧ (body false type).read s' = some (f, rest) := by
  cases s with
  | nil => exact iff_of_false (by rintro ⟨⟩) (by rintro ⟨_, _, ⟨⟩, _⟩)
  | cons t s =>
    constructor
    · intro h
      cases htype : FieldType.ofTag t with
      | none =>
        rw [field, Archive.byte, read_tagged_symbol, htype] at h
        cases h
      | some type =>
        rw [field, Archive.byte, read_tagged_symbol, htype] at h
        exact ⟨type, s, by rw [FieldType.tag_of_ofTag htype], h⟩
    · grind [read_field]

theorem rewritable_string : (Archive.string false).Rewritable := Archive.rewritable_count.counted Archive.lawful_byte

theorem rewritable_mergeMining : (mergeMining false).Rewritable :=
  Archive.rewritable_count.seq fun _ => (Archive.lawful_blob 32).rewritable

theorem length_write_mergeMining {p : Nat × Hash} (h : (mergeMining false).write p = some w) : w.length < 2 ^ 64 := by
  obtain ⟨u, hu, h⟩ := Option.bind_eq_some_iff.1 h
  obtain ⟨v, hv, rfl⟩ := Option.map_eq_some_iff.1 h
  obtain ⟨n, -, hn⟩ := Option.bind_eq_some_iff.1 hu
  have hdepth : writeVarint 64 n.toNat = u := by simpa [Archive.uvarint] using hn
  have hroot : p.2.bytes = v := by simpa [Archive.blob] using hv
  have := length_writeVarint_le 64 n.toNat
  rw [length_append, ← hroot, p.2.size, ← hdepth]
  omega

theorem rewritable_body (type : FieldType) : (body false type).Rewritable := by
  cases type with
  | padding =>
    intro s f rest h
    obtain ⟨-, size, rfl, -, hmax, -⟩ := padding_read h
    exact ⟨_, if_neg (by omega)⟩
  | pubKey => exact (Archive.lawful_blob 32).rewritable.part fun _ => rfl
  | nonce => exact (rewritable_string.guard _).part fun _ => rfl
  | mergeMiningTag =>
    rw [body]
    refine (rewritable_mergeMining.within fun p v hv => ?_).part fun _ => rfl
    exact ⟨_, Archive.write_string false (length_write_mergeMining hv)⟩
  | additionalPubKeys => exact (Archive.rewritable_count.counted (Archive.lawful_blob 32)).part fun _ => rfl
  | mysteriousMinergate => exact rewritable_string.part fun _ => rfl
  | tokenData => exact rewritable_string.part fun _ => rfl

theorem write_field (f : TxExtraField) :
    (field false).write f = ((body false f.type).write f).map (f.type.tag :: ·) := by
  simp only [field, Format.tagged, FieldType.ofTag_tag, Archive.byte, Format.symbol]
  rfl

theorem type_of_read (h : (body false type).read s = some (f, rest)) : f.type = type := by
  cases type
  all_goals
    obtain ⟨r, -, h⟩ := Option.map_eq_some_iff.1 h
    cases h
    rfl

theorem writeField_of_read (h : (field false).read s = some (f, rest)) (x : Bytes)
    (hx : f.type = .padding → x = []) : (field false).read (writeField f ++ x) = some (f, x) := by
  obtain ⟨type, s, rfl, hread⟩ := read_field_iff.1 h
  obtain rfl := type_of_read hread
  obtain ⟨w, hw⟩ := rewritable_body f.type hread
  rw [writeField, write_field, hw, Option.map_some, Option.getD_some, cons_append]
  refine read_field_iff.2 ⟨_, _, rfl, ?_⟩
  by_cases hpad : f.type = .padding
  · obtain rfl := hx hpad
    rw [hpad] at hread hw ⊢
    obtain ⟨-, size, rfl, hpos, hmax, -⟩ := padding_read hread
    obtain ⟨-, hw⟩ := Option.ite_none_left_eq_some.1 hw
    obtain rfl : List.replicate (size - 1) 0 = w := by simpa using hw
    simp [body, padding, readPadding_iff.2 ⟨hpos, hmax, rfl⟩]
  · have hchecked : (body true f.type).write f = some w := ((le_body f.type).write_eq f).trans hw
    exact (le_body f.type).read_le ((lawful_body hpad).complete hchecked x)

theorem rest_of_padding (h : (field false).read s = some (f, rest)) (hpad : f.type = .padding) : rest = [] := by
  obtain ⟨type, s, rfl, hread⟩ := read_field_iff.1 h
  obtain rfl := (type_of_read hread).symm.trans hpad
  exact (padding_read hread).1

theorem removeLoop_of_reads (type : FieldType) {n : Nat}
    (h : (field false).Reads s fields) (hs : s ≠ []) (hn : s.length ≤ n) (oss : Bytes) :
    removeLoop type n s oss = some (oss ++ (fields.filter (·.type ≠ type)).flatMap writeField) := by
  induction h generalizing n oss with
  | nil => exact absurd rfl hs
  | @cons s rest f fields hr hrest ih =>
    have hlt := shortens_field hr
    obtain ⟨n, rfl⟩ : ∃ m, n = m + 1 := ⟨n - 1, by omega⟩
    have hoss : (if f.type ≠ type then oss ++ writeField f else oss) ++
        (fields.filter (·.type ≠ type)).flatMap writeField =
        oss ++ ((f :: fields).filter (·.type ≠ type)).flatMap writeField := by
      by_cases hf : f.type = type <;> simp [hf]
    rw [removeLoop, hr, Option.bind_some, ← hoss]
    by_cases hnil : rest = []
    · subst hnil
      simp [hrest.eq_nil shortens_field]
    · rw [if_neg hnil]
      exact ih hnil (by omega) _

theorem parse_filtered (h : (field false).Reads s fields)
    (p : TxExtraField → Bool) : parseTxExtra ((fields.filter p).flatMap writeField) = some (fields.filter p) := by
  induction h with
  | nil => rfl
  | @cons s rest f fields hr hrest ih =>
    cases hp : p f with
    | false => simpa [hp] using ih
    | true =>
      have hlast : f.type = .padding → (fields.filter p).flatMap writeField = [] := by
        intro hpad
        obtain rfl := rest_of_padding hr hpad
        simp [hrest.eq_nil shortens_field]
      rw [filter_cons_of_pos hp, flatMap_cons, parseTxExtra,
        toEnd_of_read shortens_field (writeField_of_read hr _ hlast), ← parseTxExtra, ih, Option.map_some]

/-- **Removing a field touches nothing else**: an extra that parses is left with the fields of the other types, in
their order, and one that does not parse is left as it is. -/
theorem remove_field_keeps_others (txExtra : Bytes) (type : FieldType) : (∀ fields, parseTxExtra txExtra = some fields →
      (removeFieldFromTxExtra txExtra type).1 = true ∧
      parseTxExtra (removeFieldFromTxExtra txExtra type).2 = some (fields.filter (·.type ≠ type))) ∧
    ((removeFieldFromTxExtra txExtra type).1 = false → (removeFieldFromTxExtra txExtra type).2 = txExtra) := by
  constructor
  · intro fields h
    by_cases hempty : txExtra = []
    · subst hempty
      cases h
      exact ⟨rfl, rfl⟩
    · have hreads := (toEnd_iff shortens_field).1 h
      grind [removeLoop_of_reads, removeFieldFromTxExtra, parse_filtered]
  · grind [removeFieldFromTxExtra]

theorem remove_token_data :
    parseTxExtra [0x02, 1, 7, 0x60, 0x81, 0, 9, 0, 0] = some [.nonce [7], .tokenData [9], .padding 2] ∧
    parseTxExtra (removeFieldFromTxExtra [0x02, 1, 7, 0x60, 0x81, 0, 9, 0, 0] .tokenData).2 =
      some [.nonce [7], .padding 2] := by
  have h : parseTxExtra [0x02, 1, 7, 0x60, 0x81, 0, 9, 0, 0] = some [.nonce [7], .tokenData [9], .padding 2] := by
    decide +kernel
  exact ⟨h, ((remove_field_keeps_others _ _).1 _ h).2⟩

theorem read_container {α : Type} {f : Format UInt8 α} (hf : Lawful f id) {l : List α}
    (h : (Archive.container false f).read s = some (l, rest)) :
    l.length ≤ (readVarint 64 s).rest.length ∧ rest <:+ (readVarint 64 s).rest ∧
      (l.length = 0 → rest = (readVarint 64 s).rest) := by
  obtain ⟨hlength, h⟩ := counted_read_rest hf h (Archive.read_count s)
  rwa [← hlength] at h

theorem read_counted (hc : type.counted = true) (h : (body false type).read s = some (f, rest)) :
    f.size ≤ (readVarint 64 s).rest.length ∧ rest <:+ (readVarint 64 s).rest ∧
      (f.size = 0 → rest = (readVarint 64 s).rest) := by
  cases type with
  | padding | pubKey | mergeMiningTag => cases hc
  | nonce =>
    obtain ⟨⟨data, rest'⟩, hr, hf⟩ := Option.map_eq_some_iff.1 h
    obtain ⟨r, hr, hg⟩ := Option.bind_eq_some_iff.1 hr
    obtain ⟨-, hg⟩ := Option.ite_none_right_eq_some.1 hg
    cases hg
    cases hf
    exact read_container Archive.lawful_byte hr
  | additionalPubKeys =>
    obtain ⟨r, hr, hf⟩ := Option.map_eq_some_iff.1 h
    cases hf
    exact read_container (Archive.lawful_blob 32) hr
  | mysteriousMinergate | tokenData =>
    obtain ⟨r, hr, hf⟩ := Option.map_eq_some_iff.1 h
    cases hf
    exact read_container Archive.lawful_byte hr

theorem read_counted_of_cut (hc : type.counted = true)
    (hcut : (readVarint 64 s).ended = .endOfData) (h : (body false type).read s = some (f, rest)) :
    f.size = 0 ∧ rest = [] := by
  obtain ⟨hsize, hrest, -⟩ := read_counted hc h
  grind [readVarint, readVarintFrom_rest_of_endOfData]

def CutInCount (word : Bytes) : Prop :=
  ∃ type s, word = FieldType.tag type :: s ∧ type.counted = true ∧ (∀ b ∈ s, 128 ≤ b.toNat) ∧ s.length ≤ 9

theorem settled_string (h : (readVarint 64 s).ended ≠ .endOfData) : (Archive.string false).Settled s :=
  (Archive.settled_count h).counted Archive.lawful_byte

theorem string_of_cut {data : Bytes} (h : (readVarint 64 s).ended = .endOfData)
    (hread : (Archive.string false).read s = some (data, rest)) : data = [] := by
  have hle := (read_container Archive.lawful_byte hread).1
  rw [readVarint, readVarintFrom_rest_of_endOfData h] at hle
  simp_all

theorem settled_body (hpad : type ≠ .padding)
    (h : type.counted = true → (readVarint 64 s).ended ≠ .endOfData) : (body false type).Settled s := by
  cases type with
  | padding => exact absurd rfl hpad
  | pubKey => exact ((Archive.lawful_blob 32).settled s).part _ _
  | nonce => exact ((settled_string (h rfl)).guard _).part _ _
  | mergeMiningTag =>
    rw [body]
    refine Settled.part ?_ _ _
    by_cases hcut : (readVarint 64 s).ended = .endOfData
    · -- an empty string holds no merge mining tag
      intro p rest hread
      obtain ⟨⟨data, s₁⟩, hdata, hread⟩ := Option.bind_eq_some_iff.1 hread
      obtain rfl := string_of_cut hcut hdata
      cases hread
    · exact (settled_string hcut).within _
  | additionalPubKeys => exact ((Archive.settled_count (h rfl)).counted (Archive.lawful_blob 32)).part _ _
  | mysteriousMinergate => exact (settled_string (h rfl)).part _ _
  | tokenData => exact (settled_string (h rfl)).part _ _

theorem settled_field (h : (field false).read s = some (f, rest))
    (hpad : f.type ≠ .padding) (hcut : ¬ CutInCount s) : (field false).Settled s := by
  obtain ⟨type, s, rfl, hread⟩ := read_field_iff.1 h
  obtain rfl := type_of_read hread
  refine Settled.tagged ?_
  rw [FieldType.ofTag_tag]
  refine settled_body hpad fun hc hended => hcut ?_
  exact ⟨f.type, s, rfl, hc, (readVarint_endOfData_iff s).1 hended⟩

theorem settled_of_more (h : (field false).read s = some (f, rest)) (hrest : rest ≠ []) : (field false).Settled s := by
  refine settled_field h (fun hpad => hrest (rest_of_padding h hpad)) ?_
  rintro ⟨type, s, rfl, hc, hcut⟩
  rw [read_field] at h
  exact hrest (read_counted_of_cut hc ((readVarint_endOfData_iff s).2 hcut) h).2

def lastField (txExtra : Bytes) : Bytes := (field false).lastWord txExtra

/-- **What is put behind an extra is read behind its fields**, unless these end in padding or in a count. -/
theorem parse_append (h : parseTxExtra txExtra = some fields)
    (hpad : ∀ f ∈ fields, f.type ≠ .padding) (hcut : ¬ CutInCount (lastField txExtra)) (x : Bytes) :
    parseTxExtra (txExtra ++ x) = (parseTxExtra x).map (fields ++ ·) := by
  have hreads := (toEnd_iff shortens_field).1 h
  by_cases hne : fields = []
  · subst hne
    cases hreads
    simp
  · obtain ⟨init, f, rfl, hlast, happend⟩ := hreads.append_last shortens_field settled_of_more hne
    have hsettled := settled_field hlast (hpad f (by simp)) hcut f [] hlast x
    rw [parseTxExtra, happend, toEnd_of_read shortens_field hsettled, Option.map_map, nil_append, ← parseTxExtra]
    congr 1
    funext l
    simp

theorem parse_word (hpad : f.type ≠ .padding) (hw : (body true f.type).write f = some w) :
    parseTxExtra (f.type.tag :: w) = some [f] := by
  have hread := (le_body f.type).read_le ((lawful_body hpad).complete hw [])
  rw [append_nil, ← read_field] at hread
  rw [parseTxExtra, toEnd_of_read shortens_field hread]
  rfl

theorem nonce_room (h : parseTxExtra s = some [.nonce nonce]) :
    ∃ s', s = FieldType.nonce.tag :: s' ∧ nonce.length ≤ (readVarint 64 s').rest.length := by
  cases (toEnd_iff shortens_field).1 h with
  | cons hr _ =>
    obtain ⟨type, s', rfl, hread⟩ := read_field_iff.1 hr
    obtain rfl := type_of_read hread
    exact ⟨s', rfl, (read_counted rfl hread).1⟩

def nonceWord (nonce : Bytes) : Bytes := FieldType.nonce.tag :: UInt8.ofNat nonce.length :: nonce

theorem parse_nonceWord_iff (hmax : nonce.length ≤ nonceMaxCount) :
    parseTxExtra (nonceWord nonce) = some [.nonce nonce] ↔ nonce.length ≤ 127 := by
  have hmax' : nonce.length ≤ 255 := hmax
  constructor
  · intro h
    obtain ⟨s', hs, hroom⟩ := nonce_room h
    cases hs
    by_contra hlong
    have hne : nonce ≠ [] := by
      rintro rfl
      simp at hlong
    have hbyte : 128 ≤ (UInt8.ofNat nonce.length).toNat := by
      rw [toNat_ofNat_of_lt (by omega)]
      omega
    exact absurd (length_readVarint_rest_of_continues hbyte hne) (by omega)
  · intro hshort
    have hwrite : (body true .nonce).write (.nonce nonce) = some (UInt8.ofNat nonce.length :: nonce) := by
      have hbytes : (Archive.string true).write nonce = some (UInt8.ofNat nonce.length :: nonce) := by
        grind [Archive.write_string, writeVarint_of_lt]
      simpa [body, Format.part, Format.guard, hmax] using hbytes
    exact parse_word (f := .nonce nonce) (by simp [TxExtraField.type]) hwrite

theorem parse_of_cut (h : parseTxExtra txExtra = some fields)
    (hcut : CutInCount (lastField txExtra)) (hmax : nonce.length ≤ nonceMaxCount) :
    parseTxExtra (txExtra ++ nonceWord nonce) ≠ some (fields ++ [.nonce nonce]) := by
  intro hparse
  have hmax' : nonce.length ≤ 255 := hmax
  obtain ⟨type, s, hword, hc, hs⟩ := hcut
  have hended := (readVarint_endOfData_iff s).2 hs
  have hreads := (toEnd_iff shortens_field).1 h
  have hne : fields ≠ [] := by
    rintro rfl
    cases hreads
    cases hword
  obtain ⟨init, f, rfl, hlast, happend⟩ := hreads.append_last shortens_field settled_of_more hne
  rw [show (field false).lastWord txExtra = type.tag :: s from hword] at hlast happend
  rw [read_field] at hlast
  rw [parseTxExtra, happend, append_assoc] at hparse
  obtain ⟨l, hl, happ⟩ := Option.map_eq_some_iff.1 hparse
  obtain rfl := append_cancel_left happ
  cases (toEnd_iff shortens_field).1 hl with
  | @cons _ rest _ _ hr hrest =>
    rw [cons_append, read_field] at hr
    have hempty := (read_counted_of_cut hc hended hlast).1
    have hafter := (read_counted hc hr).2.2 hempty
    rw [nonceWord, readVarint_rest_append_cut hended (by decide) (by decide)] at hafter
    obtain ⟨s', hs', hroom⟩ := nonce_room ((toEnd_iff shortens_field).2 hrest)
    rw [hafter, cons.injEq] at hs'
    obtain ⟨htag, rfl⟩ := hs'
    -- the length stands where a tag has to be, so the nonce has two bytes
    have hlength : nonce.length = 2 := by
      have := congrArg UInt8.toNat htag
      rwa [toNat_ofNat_of_lt (by omega)] at this
    have hne : nonce ≠ [] := ne_nil_of_length_pos (by omega)
    exact absurd (length_readVarintFrom_rest 64 0 0 0 hne) (Nat.not_lt.2 hroom)

theorem parse_nonceWord_append_iff (h : parseTxExtra txExtra = some fields) (hpad : ∀ f ∈ fields, f.type ≠ .padding)
    (hmax : nonce.length ≤ nonceMaxCount) :
    parseTxExtra (txExtra ++ nonceWord nonce) = some (fields ++ [.nonce nonce]) ↔
      nonce.length ≤ 127 ∧ ¬ CutInCount (lastField txExtra) := by
  by_cases hcut : CutInCount (lastField txExtra)
  · simp [hcut, parse_of_cut h hcut hmax]
  · rw [parse_append h hpad hcut, and_iff_left hcut, ← parse_nonceWord_iff hmax]
    simp

/-- **An extra nonce survives** exactly if its length fits seven bits and the extra does not end inside a count. -/
theorem nonce_survives_iff (txExtra nonce txExtra' : Bytes) (fields : List TxExtraField)
    (h : parseTxExtra txExtra = some fields) (hpad : ∀ f ∈ fields, f.type ≠ .padding)
    (hadd : addExtraNonceToTxExtra txExtra nonce = (true, txExtra')) :
    parseTxExtra txExtra' = some (fields ++ [.nonce nonce]) ↔
      nonce.length ≤ 127 ∧ ¬ CutInCount (lastField txExtra) := by
  have hmax : nonce.length ≤ nonceMaxCount := by grind [addExtraNonceToTxExtra]
  obtain rfl : txExtra ++ nonceWord nonce = txExtra' := by
    rw [addExtraNonceToTxExtra, if_pos hmax] at hadd
    rw [← (Prod.mk.inj hadd).2, nonceWord]
    simp
  exact parse_nonceWord_append_iff h hpad hmax

theorem nonce_survives_iff_behind_token_data :
    parseTxExtra [0x60, 1, 9, 0x02, 2, 5, 6] = some [.tokenData [9], .nonce [5, 6]] ↔
      [5, 6].length ≤ 127 ∧ ¬ CutInCount (lastField [0x60, 1, 9]) :=
  nonce_survives_iff [0x60, 1, 9] [5, 6] [0x60, 1, 9, 0x02, 2, 5, 6] [.tokenData [9]] (by decide +kernel) (by decide)
    (by decide)

theorem nonce_of_128_bytes_is_lost :
    parseTxExtra [] = some [] ∧ (addExtraNonceToTxExtra [] (List.replicate 128 0)).1 = true ∧
    parseTxExtra (addExtraNonceToTxExtra [] (List.replicate 128 0)).2 = some [.nonce [], .padding 127] := by
  decide +kernel

/-- Behind a count that is cut off, a nonce is lost at any length: the tag of an empty nonce is its count. -/
example : parseTxExtra [0x02] = some [.nonce []] ∧ parseTxExtra (addExtraNonceToTxExtra [0x02] []).2 = none := by
  decide +kernel

/-- **Token data put into an extra is found behind its fields**, unless these end in padding or inside a count. -/
theorem token_data_survives {txExtra data : Bytes} {fields : List TxExtraField}
    (h : parseTxExtra txExtra = some fields) (hpad : ∀ f ∈ fields, f.type ≠ .padding)
    (hcut : ¬ CutInCount (lastField txExtra)) (hdata : data.length < 2 ^ 64) :
    ∃ txExtra', addTokenDataToTxExtra txExtra data = (true, txExtra') ∧
      parseTxExtra txExtra' = some (fields ++ [.tokenData data]) := by
  have hwrite : (body true .tokenData).write (.tokenData data) = some (writeVarint 64 data.length ++ data) :=
    Archive.write_string true hdata
  have hfield : (field false).write (.tokenData data) =
      some (FieldType.tokenData.tag :: (writeVarint 64 data.length ++ data)) := by
    rw [write_field, ← (le_body _).write_eq]
    exact congrArg (Option.map _) hwrite
  have hparse : parseTxExtra (FieldType.tokenData.tag :: (writeVarint 64 data.length ++ data)) = some [.tokenData data] :=
    parse_word (f := .tokenData data) (by simp [TxExtraField.type]) hwrite
  exact ⟨_, by rw [addTokenDataToTxExtra, hfield], by rw [parse_append h hpad hcut, hparse, Option.map_some]⟩

theorem token_data_survives_nonce : ∃ txExtra', addTokenDataToTxExtra [2, 1, 5] [7, 8] = (true, txExtra') ∧
    parseTxExtra txExtra' = some [.nonce [5], .tokenData [7, 8]] := by
  have hcut : ¬ CutInCount (lastField [2, 1, 5]) := by
    rw [show lastField [2, 1, 5] = [2, 1, 5] by decide +kernel]
    rintro ⟨type, s, hs, -, hbytes, -⟩
    obtain ⟨-, rfl⟩ := List.cons.inj hs
    exact absurd (hbytes 1 (by decide)) (by decide)
  exact token_data_survives (by decide +kernel : parseTxExtra [2, 1, 5] = some [.nonce [5]]) (by decide) hcut (by decide)

end TxExtra
end Electronero
