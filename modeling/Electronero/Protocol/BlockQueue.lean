import Electronero.Epee
import Electronero.Lib.KeyedSet
import Electronero.Lib.Run
/-!
# The queue of spans (`src/cryptonote_protocol/block_queue.cpp`)

`operator<` (block_queue.h:65) compares the start heights only. An insertion that finds the height taken does nothing, and
`reserve_span` then returns a span that is not in the queue.
-/
namespace Electronero.FastSync
open Text

abbrev Uuid := Pod 16

def nilUuid : Uuid := ⟨List.replicate 16 0, rfl⟩

structure BlockCompleteEntry where
  block : Bytes
  txs : List Bytes
deriving DecidableEq

structure Span where
  startBlockHeight : UInt64
  hashes : List Hash
  blocks : List BlockCompleteEntry
  connectionId : Uuid
  nblocks : UInt64
  /-- the bits of the `float` -/
  rate : UInt32
  size : UInt64
  /-- `none` is `not_a_date_time` -/
  time : Option Int
deriving DecidableEq

namespace Span

def height (s : Span) : Nat := s.startBlockHeight.toNat

theorem height_eq_iff {s t : Span} : s.height = t.height ↔ s.startBlockHeight = t.startBlockHeight := UInt64.toNat_inj

def filled (height : UInt64) (blocks : List BlockCompleteEntry) (connectionId : Uuid) (rate : UInt32) (size : UInt64) :
    Span :=
  ⟨height, [], blocks, connectionId, .ofNat blocks.length, rate, size, none⟩

def scheduled (height nblocks : UInt64) (connectionId : Uuid) (time : Option Int) : Span :=
  ⟨height, [], [], connectionId, nblocks, 0, 0, time⟩

def isBlockchainPlaceholder (s : Span) : Bool := s.connectionId = nilUuid

end Span

abbrev BlockQueue := KeyedSet Span.height

namespace BlockQueue

def removeSpan (q : BlockQueue) (start : UInt64) : BlockQueue × Option (List Hash) :=
  match q.elems.find? fun s => s.startBlockHeight = start with
  | some s => (q.erase s, some s.hashes)
  | none => (q, none)

def setSpanHashes (q : BlockQueue) (start : UInt64) (connectionId : Uuid) (hashes : List Hash) : BlockQueue :=
  match q.elems.find? fun s => s.startBlockHeight = start ∧ s.connectionId = connectionId with
  | some s => (q.erase s).insert { s with hashes }
  | none => q

def addFilled (q : BlockQueue) (height : UInt64) (bcel : List BlockCompleteEntry) (connectionId : Uuid) (rate : UInt32)
    (size : UInt64) : BlockQueue :=
  let removed := q.removeSpan height
  let q := KeyedSet.insert removed.1 (.filled height bcel connectionId rate size)
  match removed.2 with
  | some hashes => setSpanHashes q height connectionId hashes
  | none => q

def addScheduled (q : BlockQueue) (height nblocks : UInt64) (connectionId : Uuid) (time : Option Int) : BlockQueue :=
  if nblocks = 0 then q else KeyedSet.insert q (.scheduled height nblocks connectionId time)

def flushSpans (q : BlockQueue) (connectionId : Uuid) (all : Bool) : BlockQueue :=
  KeyedSet.filter q fun s => ¬(s.connectionId = connectionId ∧ (all = true ∨ s.blocks = []))

def flushStaleSpans (q : BlockQueue) (live : List Uuid) : BlockQueue :=
  KeyedSet.filter q fun s =>
    q.elems.head? = some s ∧ s.isBlockchainPlaceholder = true ∨ ¬(s.connectionId ∉ live ∧ s.blocks = [])

def removeSpans (q : BlockQueue) (connectionId : Uuid) (start : UInt64) : BlockQueue :=
  KeyedSet.filter q fun s => ¬(s.connectionId = connectionId ∧ s.startBlockHeight ≤ start)

def requested (q : BlockQueue) (hash : Hash) : Bool := q.elems.any fun s => hash ∈ s.hashes

def skipRequested (q : BlockQueue) : List Hash → UInt64 → List Hash × UInt64
  | [], start => ([], start)
  | hash :: rest, start => if q.requested hash then skipRequested q rest (start + 1) else (hash :: rest, start)

def takeSpan (maxBlocks : UInt64) : List Hash → UInt64 → List Hash × UInt64
  | [], length => ([], length)
  | hash :: rest, length =>
    if length < maxBlocks then
      let (hashes, length) := takeSpan maxBlocks rest (length + 1)
      (hash :: hashes, length)
    else ([], length)

end BlockQueue

structure SpanRequest where
  firstBlockHeight : UInt64
  lastBlockHeight : UInt64
  maxBlocks : UInt64
  connectionId : Uuid
  blockHashes : List Hash
  time : Option Int

namespace BlockQueue

def reserveSpan (q : BlockQueue) (r : SpanRequest) : BlockQueue × UInt64 × UInt64 :=
  if r.lastBlockHeight < r.firstBlockHeight ∨ r.maxBlocks = 0 then (q, 0, 0)
  else
    let (rest, start) := q.skipRequested r.blockHashes (r.lastBlockHeight - .ofNat r.blockHashes.length + 1)
    let (hashes, length) := takeSpan r.maxBlocks rest 0
    if length = 0 then (q, 0, 0)
    else ((q.addScheduled start length r.connectionId r.time).setSpanHashes start r.connectionId hashes, start, length)

inductive Call where
  | addFilled (height : UInt64) (bcel : List BlockCompleteEntry) (connectionId : Uuid) (rate : UInt32) (size : UInt64)
  | addScheduled (height nblocks : UInt64) (connectionId : Uuid) (time : Option Int)
  | flushSpans (connectionId : Uuid) (all : Bool)
  | flushStaleSpans (live : List Uuid)
  | removeSpan (start : UInt64)
  | removeSpans (connectionId : Uuid) (start : UInt64)
  | reserveSpan (r : SpanRequest)
  | setSpanHashes (start : UInt64) (connectionId : Uuid) (hashes : List Hash)

def call (q : BlockQueue) : Call → BlockQueue
  | .addFilled height bcel connectionId rate size => q.addFilled height bcel connectionId rate size
  | .addScheduled height nblocks connectionId time => q.addScheduled height nblocks connectionId time
  | .flushSpans connectionId all => q.flushSpans connectionId all
  | .flushStaleSpans live => q.flushStaleSpans live
  | .removeSpan start => (q.removeSpan start).1
  | .removeSpans connectionId start => q.removeSpans connectionId start
  | .reserveSpan r => (q.reserveSpan r).1
  | .setSpanHashes start connectionId hashes => q.setSpanHashes start connectionId hashes

section
variable {q q' : BlockQueue} {r : SpanRequest} {s t : Span} {start n : UInt64} {connectionId : Uuid} {hashes : List Hash}

theorem requested_iff {hash : Hash} : q.requested hash = true ↔ ∃ s ∈ q, hash ∈ s.hashes := by
  simp [requested, KeyedSet.mem_def]

theorem skipRequested_eq (hashes : List Hash) (start : UInt64) : q.skipRequested hashes start =
      (hashes.dropWhile q.requested, start + .ofNat (hashes.takeWhile q.requested).length) := by
  induction hashes generalizing start with
  | nil => simp [skipRequested]
  | cons hash rest ih =>
    rw [skipRequested]
    cases hreq : q.requested hash with
    | true =>
      have hcount : start + .ofNat ((rest.takeWhile q.requested).length + 1) =
          start + 1 + .ofNat (rest.takeWhile q.requested).length := by
        rw [UInt64.ofNat_add, UInt64.add_assoc, UInt64.add_comm (.ofNat _)]
        rfl
      simp_all
    | false => simp_all

theorem takeSpan_spec {maxBlocks : UInt64} (hashes : List Hash) {length : UInt64} (hle : length ≤ maxBlocks) :
    (takeSpan maxBlocks hashes length).1 = hashes.take (maxBlocks.toNat - length.toNat) ∧
    (takeSpan maxBlocks hashes length).2.toNat =
      length.toNat + (hashes.take (maxBlocks.toNat - length.toNat)).length := by
  induction hashes generalizing length with
  | nil => simp [takeSpan]
  | cons hash rest ih =>
    rw [takeSpan]
    by_cases hlt : length < maxBlocks
    · have hlt' : length.toNat < maxBlocks.toNat := UInt64.lt_iff_toNat_lt.1 hlt
      have hnext : (length + 1).toNat = length.toNat + 1 := by
        have := maxBlocks.toNat_lt
        rw [UInt64.toNat_add]
        simp only [UInt64.reduceToNat]
        omega
      have hle' : length + 1 ≤ maxBlocks := UInt64.le_iff_toNat_le.2 (by omega)
      obtain ⟨htaken, hcount⟩ := ih hle'
      have hsplit : maxBlocks.toNat - length.toNat = maxBlocks.toNat - (length + 1).toNat + 1 := by omega
      grind
    · grind

theorem setSpanHashes_eq (hs : s ∈ q) (hstart : s.startBlockHeight = start) (hid : s.connectionId = connectionId) :
    q.setSpanHashes start connectionId hashes = (q.erase s).insert { s with hashes } := by
  rw [setSpanHashes]
  cases hfind : q.elems.find? fun s => s.startBlockHeight = start ∧ s.connectionId = connectionId with
  | none =>
    have hnone := List.find?_eq_none.1 hfind s hs
    simp [hstart, hid] at hnone
  | some s' =>
    have hs' : s' ∈ q := List.mem_of_find?_eq_some hfind
    grind [KeyedSet.eq_of_key_eq, Span.height_eq_iff]

theorem mem_setSpanHashes (hs : s ∈ q) (hstart : s.startBlockHeight = start) (hid : s.connectionId = connectionId) :
    t ∈ q.setSpanHashes start connectionId hashes ↔ t = { s with hashes } ∨ t ∈ q ∧ t ≠ s := by
  have hfree : ∀ u ∈ q.erase s, Span.height u ≠ Span.height { s with hashes } := by
    intro u hu hkey
    obtain ⟨hmem, hne⟩ := (KeyedSet.mem_erase hs).1 hu
    exact hne (KeyedSet.eq_of_key_eq hmem hs hkey)
  rw [setSpanHashes_eq hs hstart hid, KeyedSet.mem_insert, KeyedSet.mem_erase hs, and_iff_left hfree, or_comm]

theorem setSpanHashes_of_foreign (h : ∀ s ∈ q, s.startBlockHeight = start → s.connectionId ≠ connectionId) :
    q.setSpanHashes start connectionId hashes = q := by
  have hfind : q.elems.find? (fun s => s.startBlockHeight = start ∧ s.connectionId = connectionId) = none := by
    refine List.find?_eq_none.2 fun s hs => ?_
    simp only [decide_eq_true_eq, not_and]
    exact h s hs
  rw [setSpanHashes, hfind]

def chosenHashes (q : BlockQueue) (r : SpanRequest) : List Hash :=
  (r.blockHashes.dropWhile q.requested).take r.maxBlocks.toNat

def chosenHeight (q : BlockQueue) (r : SpanRequest) : UInt64 :=
  r.lastBlockHeight - .ofNat r.blockHashes.length + 1 + .ofNat (r.blockHashes.takeWhile q.requested).length

theorem reserveSpan_eq (h : q.reserveSpan r = (q', start, n)) (hn : n ≠ 0) :
    start = q.chosenHeight r ∧ n.toNat = (q.chosenHashes r).length ∧ q.chosenHashes r ≠ [] ∧
    q' = setSpanHashes (KeyedSet.insert q (.scheduled start n r.connectionId r.time)) start r.connectionId
      (q.chosenHashes r) := by
  rw [reserveSpan, skipRequested_eq] at h
  split_ifs at h with hout
  · cases h
    exact absurd rfl hn
  obtain ⟨htaken, hcount⟩ := @takeSpan_spec r.maxBlocks (r.blockHashes.dropWhile q.requested) 0 (by simp)
  simp only [UInt64.toNat_zero, Nat.sub_zero, Nat.zero_add] at htaken hcount
  dsimp only at h
  split_ifs at h with hzero
  · cases h
    exact absurd rfl hn
  · rw [addScheduled, if_neg hzero, htaken] at h
    cases h
    refine ⟨rfl, hcount, fun hnil => hn ?_, rfl⟩
    rw [chosenHashes] at hnil
    rw [hnil] at hcount
    exact UInt64.toNat_inj.1 hcount

theorem hashes_ne_chosen (hs : s ∈ q) (hne : q.chosenHashes r ≠ []) : s.hashes ≠ q.chosenHashes r := by
  intro heq
  obtain ⟨hash, rest, hcons⟩ := List.exists_cons_of_ne_nil hne
  have hhead : (r.blockHashes.dropWhile q.requested).head? = some hash := by
    rw [chosenHashes] at hcons
    cases hdrop : r.blockHashes.dropWhile q.requested with
    | nil => simp [hdrop] at hcons
    | cons first others =>
      rw [hdrop] at hcons
      cases hmax : r.maxBlocks.toNat with
      | zero => simp [hmax] at hcons
      | succ m => grind
  have hnot : q.requested hash = false := by
    have := List.head?_dropWhile_not q.requested r.blockHashes
    rw [hhead] at this
    simpa using this
  grind [requested_iff]

def Kept (q q' : BlockQueue) (start n : UInt64) (connectionId : Uuid) (hashes : List Hash) : Prop :=
  ∃ s ∈ q', s.startBlockHeight = start ∧ s.nblocks = n ∧ s.hashes.length = n.toNat ∧ s.connectionId = connectionId ∧
    s.hashes = hashes ∧ ∀ t, t ≠ s → (t ∈ q' ↔ t ∈ q)

variable {time : Option Int}

theorem kept_of_free (hlen : n.toNat = hashes.length) (hfree : ∀ t ∈ q, t.startBlockHeight ≠ start) :
    Kept q (setSpanHashes (KeyedSet.insert q (.scheduled start n connectionId time)) start connectionId hashes) start n
      connectionId hashes := by
  have hheights : ∀ t ∈ q, Span.height t ≠ Span.height (.scheduled start n connectionId time) :=
    fun t ht heq => hfree t ht (Span.height_eq_iff.1 heq)
  have hmem : Span.scheduled start n connectionId time ∈
      KeyedSet.insert q (Span.scheduled start n connectionId time) := KeyedSet.mem_insert.2 (.inr ⟨rfl, hheights⟩)
  refine ⟨{ Span.scheduled start n connectionId time with hashes }, (mem_setSpanHashes hmem rfl rfl).2 (.inl rfl), rfl,
    rfl, hlen.symm, rfl, rfl, ?_⟩
  intro t ht
  have hset : t ∈ setSpanHashes (KeyedSet.insert q (.scheduled start n connectionId time)) start connectionId hashes ↔ _ :=
    mem_setSpanHashes hmem rfl rfl
  grind [KeyedSet.mem_insert]

theorem not_kept_of_taken (hs : s ∈ q) (hstart : s.startBlockHeight = start) (hne : s.hashes ≠ hashes) :
    ¬Kept q (setSpanHashes (KeyedSet.insert q (.scheduled start n connectionId time)) start connectionId hashes) start n
      connectionId hashes := by
  rintro ⟨kept, hkept, hkstart, -, -, hkid, hkhashes, hother⟩
  have hrefused : KeyedSet.insert q (.scheduled start n connectionId time) = q :=
    KeyedSet.insert_of_taken hs (Span.height_eq_iff.2 hstart)
  rw [hrefused] at hkept hother
  by_cases hown : s.connectionId = connectionId
  · grind [mem_setSpanHashes]
  · grind [KeyedSet.eq_of_key_eq, Span.height_eq_iff, setSpanHashes_of_foreign]

/-- **A reservation is kept exactly if its height is free**, in every queue that any calls lead to. -/
theorem reserveSpan_kept_iff (calls : List Call) (r : SpanRequest) (q' : BlockQueue) (start n : UInt64)
    (h : (Machine.run call ∅ calls).reserveSpan r = (q', start, n)) (hn : n ≠ 0) :
    Kept (Machine.run call ∅ calls) q' start n r.connectionId (chosenHashes (Machine.run call ∅ calls) r) ↔
      ∀ t ∈ Machine.run call ∅ calls, t.startBlockHeight ≠ chosenHeight (Machine.run call ∅ calls) r := by
  generalize Machine.run call ∅ calls = q at h ⊢
  obtain ⟨rfl, hlen, hne, rfl⟩ := reserveSpan_eq h hn
  grind [not_kept_of_taken, hashes_ne_chosen, kept_of_free]

end

/-! Two connections, one block each. -/

def askFor (connection hash : UInt8) : SpanRequest where
  firstBlockHeight := 1
  lastBlockHeight := 1
  maxBlocks := 20
  connectionId := ⟨List.replicate 16 connection, rfl⟩
  blockHashes := [⟨List.replicate 32 hash, rfl⟩]
  time := none

theorem reserveSpan_kept_iff_first : ((∅ : BlockQueue).reserveSpan (askFor 1 10)).2 = (1, 1) ∧
    Kept ∅ ((∅ : BlockQueue).reserveSpan (askFor 1 10)).1 1 1 (askFor 1 10).connectionId
      (chosenHashes ∅ (askFor 1 10)) := by
  have hreturned : ((∅ : BlockQueue).reserveSpan (askFor 1 10)).2 = (1, 1) := by decide +kernel
  refine ⟨hreturned, ?_⟩
  have hiff := reserveSpan_kept_iff [] (askFor 1 10) _ 1 1 (Prod.ext rfl hreturned) (by decide)
  exact hiff.2 fun t ht => absurd ht KeyedSet.not_mem_empty

theorem second_reservation_lost :
    ((Machine.run call ∅ [.reserveSpan (askFor 1 10)]).reserveSpan (askFor 2 20)).2 = (1, 1) ∧
    ¬Kept (Machine.run call ∅ [.reserveSpan (askFor 1 10)])
      ((Machine.run call ∅ [.reserveSpan (askFor 1 10)]).reserveSpan (askFor 2 20)).1 1 1 (askFor 2 20).connectionId
      (chosenHashes (Machine.run call ∅ [.reserveSpan (askFor 1 10)]) (askFor 2 20)) := by
  refine ⟨by decide +kernel, ?_⟩
  rintro ⟨s, hs, -, -, -, hid, -⟩
  have hnone : ∀ s ∈ ((Machine.run call ∅ [.reserveSpan (askFor 1 10)]).reserveSpan (askFor 2 20)).1.elems,
      s.connectionId ≠ (askFor 2 20).connectionId := by decide +kernel
  exact hnone s hs hid

end BlockQueue
end Electronero.FastSync
