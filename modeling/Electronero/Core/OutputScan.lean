import Electronero.Core.TxFormat
import Electronero.Lib.FiniteMap
import Electronero.Lib.WrappingSum
import Mathlib.Data.List.Sort
/-!
# Ring members and the outputs they stand for

A ring is an index and the distances to the next ones. A distance of zero is refused (cryptonote_core.cpp:952), but the
indexes are sums in 64 bits, and a few distances can lead once around.
-/
namespace Electronero.Wire
open Text FiniteMap List

structure TxinToKey where
  amount : UInt64
  keyOffsets : List UInt64
  kImage : KeyImage
deriving DecidableEq

/-- `boost::get<txin_to_key>`; `none` is another alternative of the variant. -/
def TxIn.getToKey : TxIn → Option TxinToKey
  | .toKey amount keyOffsets kImage => some ⟨amount, keyOffsets, kImage⟩
  | _ => none

def Transaction.toKeys (tx : Transaction) : List TxinToKey := tx.vin.filterMap TxIn.getToKey

def relativeOutputOffsetsToAbsolute : List UInt64 → List UInt64
  | [] => []
  | off :: rest => off :: Wrapping.running off rest

def absoluteOutputOffsetsToRelative (off : List UInt64) : List UInt64 :=
  match off.insertionSort (· ≤ ·) with
  | [] => []
  | first :: rest => first :: Wrapping.differences first rest

/-- **There and back**, the indexes are sorted. -/
theorem absolute_relative_absolute (off : List UInt64) :
    (relativeOutputOffsetsToAbsolute (absoluteOutputOffsetsToRelative off)).Pairwise (· ≤ ·) ∧
      (relativeOutputOffsetsToAbsolute (absoluteOutputOffsetsToRelative off)).Perm off := by
  have hres : relativeOutputOffsetsToAbsolute (absoluteOutputOffsetsToRelative off) = off.insertionSort (· ≤ ·) := by
    unfold absoluteOutputOffsetsToRelative
    cases off.insertionSort (· ≤ ·) with
    | nil => rfl
    | cons first rest => rw [relativeOutputOffsetsToAbsolute, Wrapping.running_differences]
  rw [hres]
  exact ⟨pairwise_insertionSort _ off, perm_insertionSort _ off⟩

def checkTxInputsRingMembersDiff (version : UInt8) (tx : Transaction) : Bool :=
  if 6 ≤ version then
    tx.vin.all fun txin =>
      match txin.getToKey with
      | some tokeyIn => tokeyIn.keyOffsets.tail.all (· ≠ 0)
      | none => false
  else true

theorem nodup_relativeOutputOffsetsToAbsolute_iff (off : List UInt64) : (relativeOutputOffsetsToAbsolute off).Nodup ↔
      ∀ s, s <:+: off.tail → s ≠ [] → ¬ 2 ^ 64 ∣ Wrapping.total s := by
  cases off with
  | nil => simp [relativeOutputOffsetsToAbsolute]
  | cons o rest => exact Wrapping.nodup_running_iff o rest

/-- **In an accepted transaction the members of a ring are pairwise different exactly if no two or more neighbouring
distances add up to a multiple of `2^64`.** -/
theorem ring_members_distinct_iff {version : UInt8} {tx : Transaction} {txin : TxIn} {tokeyIn : TxinToKey}
    (hv : 6 ≤ version) (h : checkTxInputsRingMembersDiff version tx = true) (hin : txin ∈ tx.vin)
    (hget : txin.getToKey = some tokeyIn) : (relativeOutputOffsetsToAbsolute tokeyIn.keyOffsets).Nodup ↔
      ∀ s, s <:+: tokeyIn.keyOffsets.tail → 2 ≤ s.length → ¬ 2 ^ 64 ∣ Wrapping.total s := by
  rw [nodup_relativeOutputOffsetsToAbsolute_iff]
  constructor
  · grind
  · intro hlong s hs hne hdvd
    rcases s with _ | ⟨x, _ | ⟨y, s⟩⟩
    · exact hne rfl
    · -- a single distance: this is what the check is for
      rw [checkTxInputsRingMembersDiff, if_pos hv, List.all_eq_true] at h
      have hall := h txin hin
      rw [hget] at hall
      have hx := List.all_eq_true.1 hall x (hs.subset (mem_singleton.2 rfl))
      refine (decide_eq_true_iff.1 hx) ?_
      rw [← Wrapping.sum_eq_zero_iff] at hdvd
      simpa using hdvd
    · exact hlong _ hs (by simp) hdvd

def ringOf (keyOffsets : List UInt64) : Transaction :=
  { version := 2, unlockTime := 0, vin := [.toKey 0 keyOffsets default], vout := [], extra := [] }

theorem near_ring_distinct : (relativeOutputOffsetsToAbsolute [5, 1, 2]).Nodup := by
  refine (@ring_members_distinct_iff 6 (ringOf [5, 1, 2]) _ ⟨0, [5, 1, 2], default⟩ (by decide) (by decide)
    mem_cons_self rfl).2 ?_
  intro s hs hlen
  obtain rfl : s = [1, 2] := hs.eq_of_length (le_antisymm hs.length_le hlen)
  decide

theorem ring_leads_around : checkTxInputsRingMembersDiff 6 (ringOf [5, 1, 0xffffffffffffffff]) = true ∧
    relativeOutputOffsetsToAbsolute [5, 1, 0xffffffffffffffff] = [5, 6, 5] ∧
    ¬ (relativeOutputOffsetsToAbsolute [5, 1, 0xffffffffffffffff]).Nodup := by
  decide +kernel

structure OutputData where
  pubkey : PublicKey
  unlockTime : UInt64
  height : UInt64
  commitment : Key
deriving DecidableEq

abbrev OutputDb := UInt64 → List OutputData

def OutputDb.getOutputKey (db : OutputDb) (amount index : UInt64) : Option OutputData := (db amount)[index.toNat]?

def OutputDb.getOutputKeys (db : OutputDb) (amount : UInt64) : List UInt64 → List OutputData
  | [] => []
  | index :: offsets =>
    match db.getOutputKey amount index with
    | none => []
    | some data => data :: OutputDb.getOutputKeys db amount offsets

abbrev ScanTable := UMap Hash (UMap KeyImage (List OutputData))

def ScanTable.find (table : ScanTable) (txPrefixHash : Hash) (kImage : KeyImage) : Option (List OutputData) :=
  (table.lookup txPrefixHash).bind (·.lookup kImage)

section
variable {σ : Type}

abbrev Visitor (σ : Type) := σ → UInt64 → PublicKey → Key → Bool × σ

/-- The loop over the ring. `outputs` are those at hand from this member on, and beyond them the database is asked;
`pmax` is the height that the last member may raise. -/
def scanLoop (db : OutputDb) (vis : Visitor σ) (amount : UInt64) :
    List UInt64 → List OutputData → Option UInt64 → σ → Bool × σ × Option UInt64
  | [], _, pmax, s => (true, s, pmax)
  | i :: rest, outputs, pmax, s =>
    match outputs.head?.or (db.getOutputKey amount i) with
    | none => (false, s, pmax)
    | some output =>
      match vis s output.unlockTime output.pubkey output.commitment with
      | (false, s) => (false, s, pmax)
      | (true, s) =>
        scanLoop db vis amount rest outputs.tail
          (if rest = [] then pmax.map fun h => if h < output.height then output.height else h else pmax) s

def outputsAtHand (db : OutputDb) (found : Option (List OutputData)) (amount : UInt64) (absoluteOffsets : List UInt64) :
    Option (List OutputData) :=
  match found with
  | none =>
    let outputs := db.getOutputKeys amount absoluteOffsets
    if absoluteOffsets.length ≠ outputs.length then none else some outputs
  | some outputs =>
    if outputs.length < absoluteOffsets.length ∧ 0 < outputs.length then
      let addOffsets := absoluteOffsets.drop outputs.length
      let addOutputs := db.getOutputKeys amount addOffsets
      if addOffsets.length ≠ addOutputs.length then none else some (outputs ++ addOutputs)
    else some outputs

def scanOutputkeysForIndexes (db : OutputDb) (scanTable : ScanTable) (txinToKey : TxinToKey) (vis : Visitor σ)
    (txPrefixHash : Hash) (pmax : Option UInt64) (s : σ) : Bool × σ × Option UInt64 :=
  if txinToKey.keyOffsets = [] then (false, s, pmax)
  else
    let absoluteOffsets := relativeOutputOffsetsToAbsolute txinToKey.keyOffsets
    match outputsAtHand db (scanTable.find txPrefixHash txinToKey.kImage) txinToKey.amount absoluteOffsets with
    | none => (false, s, pmax)
    | some outputs => scanLoop db vis txinToKey.amount absoluteOffsets outputs pmax s

end

structure CtKey where
  dest : Key
  mask : Key
deriving DecidableEq

def outputsVisitor (isTxSpendtimeUnlocked : UInt64 → Bool) : Visitor (List CtKey) := fun outputKeys unlockTime pubkey commitment =>
  if isTxSpendtimeUnlocked unlockTime then (true, outputKeys ++ [⟨pubkey, commitment⟩]) else (false, outputKeys)

def checkTxInput (db : OutputDb) (scanTable : ScanTable) (isTxSpendtimeUnlocked : UInt64 → Bool) (txVersion : UInt64)
    (txin : TxinToKey) (txPrefixHash : Hash) (sig : List Signature) (pmax : Option UInt64) :
    Option (List CtKey × Option UInt64) :=
  match scanOutputkeysForIndexes db scanTable txin (outputsVisitor isTxSpendtimeUnlocked) txPrefixHash pmax [] with
  | (false, _, _) => none
  | (true, outputKeys, pmax) =>
    if txin.keyOffsets.length ≠ outputKeys.length then none
    else if txVersion = 1 ∧ sig.length ≠ outputKeys.length then none
    else some (outputKeys, pmax)

namespace OutputDb
variable {db db' : OutputDb} {amount : UInt64}

def Has (db : OutputDb) (amount : UInt64) (offsets : List UInt64) : Prop :=
  ∀ i ∈ offsets, (db.getOutputKey amount i).isSome

instance (db : OutputDb) (amount : UInt64) (offsets : List UInt64) : Decidable (db.Has amount offsets) :=
  inferInstanceAs (Decidable (∀ i ∈ offsets, _))

variable {i : UInt64} {offsets : List UInt64} {data : OutputData}

theorem has_cons : db.Has amount (i :: offsets) ↔ (db.getOutputKey amount i).isSome ∧ db.Has amount offsets := by
  simp [Has]

theorem getOutputKeys_cons_some (h : db.getOutputKey amount i = some data)
    (offsets : List UInt64) : db.getOutputKeys amount (i :: offsets) = data :: db.getOutputKeys amount offsets := by
  rw [getOutputKeys, h]

theorem getOutputKeys_cons_none (h : db.getOutputKey amount i = none) (offsets : List UInt64) :
    db.getOutputKeys amount (i :: offsets) = [] := by
  rw [getOutputKeys, h]

theorem length_getOutputKeys_le (db : OutputDb) (amount : UInt64) (offsets : List UInt64) :
    (db.getOutputKeys amount offsets).length ≤ offsets.length := by
  induction offsets with
  | nil => simp [getOutputKeys]
  | cons i rest ih =>
    cases h : db.getOutputKey amount i with
    | none => simp [getOutputKeys_cons_none h]
    | some data => simpa [getOutputKeys_cons_some h] using ih

theorem length_getOutputKeys_eq_iff :
    (db.getOutputKeys amount offsets).length = offsets.length ↔ db.Has amount offsets := by
  induction offsets with
  | nil => simp [getOutputKeys, Has]
  | cons i rest ih =>
    rw [has_cons]
    cases h : db.getOutputKey amount i with
    | none => simp [getOutputKeys_cons_none h]
    | some data => simpa [getOutputKeys_cons_some h] using ih

theorem getOutputKeys_split {outputs : List OutputData} (h : outputs <+: db.getOutputKeys amount offsets) :
    db.getOutputKeys amount offsets = outputs ++ db.getOutputKeys amount (offsets.drop outputs.length) := by
  induction outputs generalizing offsets with
  | nil => rfl
  | cons o rest ih =>
    rcases offsets with _ | ⟨i, offsets⟩
    · simp [getOutputKeys] at h
    · cases hi : db.getOutputKey amount i with
      | none => simp [getOutputKeys_cons_none hi] at h
      | some data =>
        rw [getOutputKeys_cons_some hi] at h ⊢
        grind

def Le (db db' : OutputDb) : Prop := ∀ amount, db amount <+: db' amount

theorem Le.getOutputKey (h : db.Le db') (hi : db.getOutputKey amount i = some data) :
    db'.getOutputKey amount i = some data := by
  obtain ⟨rest, hrest⟩ := h amount
  grind [OutputDb.getOutputKey]

theorem Le.getOutputKeys (h : db.Le db') (offsets : List UInt64) :
    db.getOutputKeys amount offsets <+: db'.getOutputKeys amount offsets := by
  induction offsets with
  | nil => simp [OutputDb.getOutputKeys]
  | cons i rest ih =>
    cases hi : db.getOutputKey amount i with
    | none => simp [getOutputKeys_cons_none hi]
    | some data =>
      rw [getOutputKeys_cons_some hi, getOutputKeys_cons_some (h.getOutputKey hi)]
      exact cons_prefix_cons.2 ⟨rfl, ih⟩

theorem Le.getOutputKeys_eq (h : db.Le db') (hall : db.Has amount offsets) :
    db'.getOutputKeys amount offsets = db.getOutputKeys amount offsets := by
  refine ((h.getOutputKeys offsets).eq_of_length_le ?_).symm
  grind [length_getOutputKeys_eq_iff, length_getOutputKeys_le]

end OutputDb

/-! ## One call with an entry of the table and without -/

section
variable {σ : Type} {db : OutputDb} {amount : UInt64}

theorem scanLoop_getOutputKeys (vis : Visitor σ) (offsets : List UInt64) (pmax : Option UInt64) (s : σ) :
    scanLoop db vis amount offsets (db.getOutputKeys amount offsets) pmax s = scanLoop db vis amount offsets [] pmax s := by
  induction offsets generalizing pmax s with
  | nil => rfl
  | cons i rest ih =>
    cases hi : db.getOutputKey amount i with
    | none => rw [OutputDb.getOutputKeys_cons_none hi]
    | some data =>
      rw [OutputDb.getOutputKeys_cons_some hi]
      simp only [scanLoop, head?_cons, head?_nil, Option.some_or, Option.none_or, hi, tail_cons,
        tail_nil, ih]

variable {offsets : List UInt64}

theorem scanLoop_of_not_has (h : ¬ db.Has amount offsets) (vis : Visitor σ) (pmax : Option UInt64) (s : σ) :
    (scanLoop db vis amount offsets [] pmax s).1 = false ∧ (scanLoop db vis amount offsets [] pmax s).2.2 = pmax := by
  induction offsets generalizing pmax s with
  | nil => simp [OutputDb.Has] at h
  | cons i rest ih =>
    rw [OutputDb.has_cons, not_and_or] at h
    cases hi : db.getOutputKey amount i with
    | none => simp [scanLoop, hi]
    | some data =>
      have hrest : ¬ db.Has amount rest := by simpa [hi] using h
      have hne : rest ≠ [] := by
        rintro rfl
        simp [OutputDb.Has] at hrest
      simp only [scanLoop, head?_nil, Option.none_or, hi, tail_nil, if_neg hne]
      split
      · exact ⟨rfl, rfl⟩
      · exact ih hrest _ _

theorem outputsAtHand_entry {entry : List OutputData} (hne : entry ≠ [])
    (h : entry <+: db.getOutputKeys amount offsets) :
    outputsAtHand db (some entry) amount offsets = outputsAtHand db none amount offsets := by
  have hsplit := OutputDb.getOutputKeys_split h
  have hle := OutputDb.length_getOutputKeys_le db amount offsets
  have hpos : 0 < entry.length := length_pos_of_ne_nil hne
  have hlen : (db.getOutputKeys amount offsets).length =
      entry.length + (db.getOutputKeys amount (offsets.drop entry.length)).length := by
    rw [← length_append, ← hsplit]
  simp only [outputsAtHand, length_drop]
  by_cases hpart : entry.length < offsets.length
  · rw [if_pos ⟨hpart, hpos⟩, ← hsplit]
    by_cases hall : offsets.length = (db.getOutputKeys amount offsets).length
    · rw [if_neg (by omega), if_neg (by omega)]
    · rw [if_pos (by omega), if_pos (by omega)]
  · have hfull : db.getOutputKeys amount offsets = entry := (h.eq_of_length_le (by omega)).symm
    rw [if_neg (by simp [hpart]), hfull, if_neg (by rw [hfull] at hle; omega)]

end

def Transparent (db : OutputDb) (scanTable : ScanTable) (txPrefixHash : Hash) (txin : TxinToKey) : Prop :=
  ∀ (σ : Type) (vis : Visitor σ) (pmax : Option UInt64) (s : σ),
    scanOutputkeysForIndexes db scanTable txin vis txPrefixHash pmax s =
      scanOutputkeysForIndexes db ∅ txin vis txPrefixHash pmax s

def SameVerdict (db : OutputDb) (scanTable : ScanTable) (txPrefixHash : Hash) (txin : TxinToKey) : Prop :=
  ∀ (σ : Type) (vis : Visitor σ) (pmax : Option UInt64) (s : σ),
    let r := scanOutputkeysForIndexes db scanTable txin vis txPrefixHash pmax s
    let r' := scanOutputkeysForIndexes db ∅ txin vis txPrefixHash pmax s
    r.1 = r'.1 ∧ r.2.2 = r'.2.2 ∧ (r.1 = true → r = r')

def TxinToKey.ring (txin : TxinToKey) : List UInt64 := relativeOutputOffsetsToAbsolute txin.keyOffsets

def ComesLate (db₀ db : OutputDb) (txin : TxinToKey) : Prop :=
  db₀.getOutputKeys txin.amount txin.ring = [] ∧ db.getOutputKeys txin.amount txin.ring ≠ [] ∧
    ¬ db.Has txin.amount txin.ring

section
variable {db db₀ : OutputDb} {scanTable : ScanTable} {txPrefixHash : Hash} {txin : TxinToKey}

theorem ScanTable.find_empty (txPrefixHash : Hash) (kImage : KeyImage) :
    ScanTable.find ∅ txPrefixHash kImage = none := by
  simp [ScanTable.find]

theorem scan_eq {σ : Type} (hne : txin.keyOffsets ≠ []) (vis : Visitor σ) (pmax : Option UInt64) (s : σ) :
    scanOutputkeysForIndexes db scanTable txin vis txPrefixHash pmax s =
      match outputsAtHand db (scanTable.find txPrefixHash txin.kImage) txin.amount txin.ring with
      | none => (false, s, pmax)
      | some outputs => scanLoop db vis txin.amount txin.ring outputs pmax s := by
  rw [scanOutputkeysForIndexes, if_neg hne]
  rfl

theorem transparent_of_no_ring (hne : txin.keyOffsets = []) : Transparent db scanTable txPrefixHash txin := by
  intro σ vis pmax s
  simp [scanOutputkeysForIndexes, hne]

theorem transparent_of_find_none (h : scanTable.find txPrefixHash txin.kImage = none) :
    Transparent db scanTable txPrefixHash txin := by
  intro σ vis pmax s
  simp only [scanOutputkeysForIndexes, h, ScanTable.find_empty]

variable {entry : List OutputData}

theorem transparent_of_entry (h : scanTable.find txPrefixHash txin.kImage = some entry)
    (hne : entry ≠ []) (hpre : entry <+: db.getOutputKeys txin.amount txin.ring) :
    Transparent db scanTable txPrefixHash txin := by
  by_cases hring : txin.keyOffsets = []
  · exact transparent_of_no_ring hring
  · intro σ vis pmax s
    rw [scan_eq hring, scan_eq hring, h, ScanTable.find_empty, outputsAtHand_entry hne hpre]

theorem scan_of_empty_entry {σ : Type} (h : scanTable.find txPrefixHash txin.kImage = some [])
    (hring : txin.keyOffsets ≠ []) (vis : Visitor σ) (pmax : Option UInt64) (s : σ) :
    scanOutputkeysForIndexes db scanTable txin vis txPrefixHash pmax s =
      scanLoop db vis txin.amount txin.ring [] pmax s := by
  rw [scan_eq hring, h]
  simp [outputsAtHand]

theorem scan_of_empty_table {σ : Type} (hring : txin.keyOffsets ≠ []) (vis : Visitor σ) (pmax : Option UInt64) (s : σ) :
    scanOutputkeysForIndexes db ∅ txin vis txPrefixHash pmax s =
      if db.Has txin.amount txin.ring then scanLoop db vis txin.amount txin.ring [] pmax s else (false, s, pmax) := by
  rw [scan_eq hring, ScanTable.find_empty]
  have hlen := @OutputDb.length_getOutputKeys_eq_iff db txin.amount txin.ring
  by_cases hall : db.Has txin.amount txin.ring
  · simp [outputsAtHand, hlen.2 hall, hall, scanLoop_getOutputKeys]
  · simp [outputsAtHand, Ne.symm (mt hlen.1 hall), hall]

theorem transparent_of_has (h : scanTable.find txPrefixHash txin.kImage = some entry)
    (hpre : entry <+: db.getOutputKeys txin.amount txin.ring) (hall : db.Has txin.amount txin.ring) :
    Transparent db scanTable txPrefixHash txin := by
  by_cases hne : entry = []
  · subst hne
    by_cases hring : txin.keyOffsets = []
    · exact transparent_of_no_ring hring
    · intro σ vis pmax s
      rw [scan_of_empty_entry h hring, scan_of_empty_table hring, if_pos hall]
  · exact transparent_of_entry h hne hpre

theorem Transparent.sameVerdict (h : Transparent db scanTable txPrefixHash txin) :
    SameVerdict db scanTable txPrefixHash txin := by
  intro σ vis pmax s
  simp [h σ vis pmax s]

theorem sameVerdict_of_empty_entry (h : scanTable.find txPrefixHash txin.kImage = some [])
    (hall : ¬ db.Has txin.amount txin.ring) : SameVerdict db scanTable txPrefixHash txin := by
  by_cases hring : txin.keyOffsets = []
  · exact (transparent_of_no_ring hring).sameVerdict
  · intro σ vis pmax s
    have hrefused := scanLoop_of_not_has hall vis pmax s
    simp [scan_of_empty_entry h hring, scan_of_empty_table hring, hall, hrefused.1, hrefused.2]

theorem scan_of_earlier_entry (hle : db₀.Le db)
    (h : scanTable.find txPrefixHash txin.kImage = some (db₀.getOutputKeys txin.amount txin.ring)) :
    SameVerdict db scanTable txPrefixHash txin ∧
      (Transparent db scanTable txPrefixHash txin ↔ ¬ ComesLate db₀ db txin) := by
  have hpre : db₀.getOutputKeys txin.amount txin.ring <+: db.getOutputKeys txin.amount txin.ring := hle.getOutputKeys _
  by_cases hnone : db₀.getOutputKeys txin.amount txin.ring = []
  · by_cases hall : db.Has txin.amount txin.ring
    · have ht := transparent_of_has h hpre hall
      exact ⟨ht.sameVerdict, fun _ hlate => hlate.2.2 hall, fun _ => ht⟩
    · have h' := h
      rw [hnone] at h'
      refine ⟨sameVerdict_of_empty_entry h' hall, fun ht hlate => ?_, fun hlate => ?_⟩
      · -- a visitor that notes the first output and refuses it
        have hring : txin.keyOffsets ≠ [] := by
          intro hempty
          exact hlate.2.1 (by simp [TxinToKey.ring, hempty, relativeOutputOffsetsToAbsolute, OutputDb.getOutputKeys])
        have heq := ht Bool (fun _ _ _ _ => (false, true)) none false
        rw [scan_of_empty_entry h' hring, scan_of_empty_table hring, if_neg hall, ← scanLoop_getOutputKeys] at heq
        obtain ⟨first, rest, hcons⟩ := exists_cons_of_ne_nil hlate.2.1
        rcases hoff : txin.ring with _ | ⟨i, is⟩
        · simp [hoff, OutputDb.getOutputKeys] at hcons
        · rw [hcons, hoff] at heq
          simp [scanLoop] at heq
      · have hnow : db.getOutputKeys txin.amount txin.ring = [] := by
          by_contra hsome
          exact hlate ⟨hnone, hsome, hall⟩
        intro σ vis pmax s
        by_cases hring : txin.keyOffsets = []
        · exact transparent_of_no_ring hring σ vis pmax s
        · rw [scan_of_empty_entry h' hring, scan_of_empty_table hring, if_neg hall]
          rcases hoff : txin.ring with _ | ⟨i, is⟩
          · simp [hoff, OutputDb.Has] at hall
          · cases hi : db.getOutputKey txin.amount i with
            | none => simp [scanLoop, hi]
            | some data => simp [hoff, OutputDb.getOutputKeys_cons_some hi] at hnow
  · have ht := transparent_of_entry h hnone hpre
    exact ⟨ht.sameVerdict, fun _ hlate => hnone hlate.1, fun _ => ht⟩

end

end Electronero.Wire
