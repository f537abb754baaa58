import Electronero.Basic
import Electronero.Core.TxFormat
import Electronero.Lib.ExceptLoop
import Electronero.Lib.PartialMap
/-!
# Checking block hashes ahead of the blocks (src/cryptonote_core/blockchain.cpp:4199)

The node knows a hash for every 256 blocks of an initial part of the chain; the result is how many of a peer's hashes can
be used. `none` is an access out of range. The heights and `usable`, which may start below zero, are words.
-/
namespace Electronero.FastSync
open Text Wire List

structure HashTables where
  hashOfHashes : List Hash
  hashCheck : List Hash
  /-- one entry a block (:4823) until they are dropped (:4168-4172) -/
  covers : hashCheck = [] ∨ hashCheck.length = 256 * hashOfHashes.length
  /-- entries of 32 bytes in one memory -/
  bounded : 256 * hashOfHashes.length < 2 ^ 59

structure HashList where
  hashes : List Hash
  bounded : hashes.length < 2 ^ 59

def HashList.size (l : HashList) : UInt64 := UInt64.ofNat l.hashes.length

def HashTables.setCheck (t : HashTables) (i : Nat) (h : Hash) : HashTables where
  hashOfHashes := t.hashOfHashes
  hashCheck := t.hashCheck.set i h
  covers := by
    rw [set_eq_nil_iff, length_set]
    exact t.covers
  bounded := t.bounded

structure CheckState where
  tables : HashTables
  usable : UInt64

inductive Exit where
  | broke (s : CheckState)
  /-- `CHECK_AND_ASSERT_MES`, which returns 0 -/
  | inconsistent (tables : HashTables)
  | outOfRange

def noteHash (firstIndex : Nat) (data : List Hash) (t : HashTables) (i : Nat) : Except Exit HashTables :=
  match t.hashCheck[i]?, data[i - 256 * firstIndex]? with
  | some known, some h => if known = nullHash ∨ known = h then .ok (t.setCheck i h) else .error (.inconsistent t)
  | _, _ => .error .outOfRange

section
variable (cnFastHash : Bytes → Hash)

def hashTogether (hashes : List Hash) : Hash := cnFastHash (hashes.flatMap Pod.bytes)

def round (hashes : HashList) (firstIndex : Nat) (data : List Hash) (s : CheckState) (n : Nat) : Except Exit CheckState :=
  match s.tables.hashOfHashes[n]? with
  | some expected =>
    if data.length < 256 * (n - firstIndex) + 256 then .error (.broke s)
    else
      match (List.range' (256 * (n - firstIndex)) 256).mapM (data[·]?) with
      | none => .error .outOfRange
      | some chunk =>
        if hashTogether cnFastHash chunk ≠ expected then .error (.broke s)
        else
          match (List.range' (256 * n) 256).foldlM (noteHash firstIndex data) s.tables with
          | .error e => .error e
          | .ok tables => .ok ⟨tables, s.usable + 256⟩
  | none =>
    let usable := s.usable + 256
    .ok { s with usable := if hashes.size < usable then hashes.size else usable }

def checkChunks (t : HashTables) (height : UInt64) (hashes : HashList) (firstIndex lastIndex : UInt64) (data : List Hash) :
    Option (UInt64 × HashTables) :=
  let start : CheckState := ⟨t, firstIndex * 256 - height⟩
  match (List.range' firstIndex.toNat (lastIndex.toNat + 1 - firstIndex.toNat)).foldlM
      (round cnFastHash hashes firstIndex.toNat data) start with
  | .ok s | .error (.broke s) => some (if s.usable < 0x7fffffffffffffff then s.usable else 0, s.tables)
  | .error (.inconsistent t) => some (0, t)
  | .error .outOfRange => none

def Disconnected (chain : List Hash) (height : UInt64) : Prop := UInt64.ofNat chain.length < height

instance (chain : List Hash) (height : UInt64) : Decidable (Disconnected chain height) :=
  inferInstanceAs (Decidable (_ < _))

def prevalidateBlockHashes (chain : List Hash) (t : HashTables) (height : UInt64) (hashes : HashList) :
    Option (UInt64 × HashTables) :=
  if UInt64.ofNat t.hashOfHashes.length * 256 ≤ height then some (hashes.size, t)
  else if t.hashCheck = [] then some (hashes.size, t)
  else
    let firstIndex := height / 256
    let lastIndex := (height + hashes.size - 1) / 256
    if firstIndex = lastIndex ∧ hashes.size < 256 ∧ (height + hashes.size) % 256 ≠ 0 then some (hashes.size, t)
    else if Disconnected chain height ∧ height % 256 ≠ 0 then
      -- `pop`
      checkChunks cnFastHash t height hashes (firstIndex + 1) lastIndex (hashes.hashes.drop (256 - height % 256).toNat)
    else
      match (List.range' (256 * firstIndex.toNat) (height.toNat - 256 * firstIndex.toNat)).mapM (chain[·]?) with
      | none => none
      | some below => checkChunks cnFastHash t height hashes firstIndex lastIndex (below ++ hashes.hashes)

def blockAt (chain : List Hash) (height : UInt64) (hashes : HashList) (i : Nat) : Option Hash :=
  if i < height.toNat then chain[i]? else hashes.hashes[i - height.toNat]?

def chunkHash (chain : List Hash) (height : UInt64) (hashes : HashList) (n : Nat) : Option Hash :=
  ((List.range' (256 * n) 256).mapM (blockAt chain height hashes)).map (hashTogether cnFastHash)

def firstChecked (chain : List Hash) (height : UInt64) : Nat :=
  if Disconnected chain height ∧ height % 256 ≠ 0 then height.toNat / 256 + 1 else height.toNat / 256

end

theorem mapM_range'_congr {α : Type} {f g : Nat → Option α} {a b k : Nat} (h : ∀ i < k, f (a + i) = g (b + i)) :
    (List.range' a k).mapM f = (List.range' b k).mapM g := by
  induction k generalizing a b with
  | zero => rfl
  | succ k ih =>
    have hrest : (List.range' (a + 1) k).mapM f = (List.range' (b + 1) k).mapM g := by grind
    have hfirst : f a = g b := h 0 (by omega)
    rw [range'_succ, range'_succ, mapM_cons, mapM_cons, hrest, hfirst]

section Loops
variable {cnFastHash : Bytes → Hash} {chain : List Hash} {t : HashTables} {height : UInt64} {hashes : HashList}

def ConsistentAt (chain : List Hash) (t : HashTables) (height : UInt64) (hashes : HashList) (i : Nat) : Prop :=
  ∀ known h, t.hashCheck[i]? = some known → blockAt chain height hashes i = some h → known = nullHash ∨ known = h

def Consistent (chain : List Hash) (t : HashTables) (height : UInt64) (hashes : HashList) (n : Nat) : Prop :=
  ∀ i, 256 * n ≤ i → i < 256 * n + 256 → ConsistentAt chain t height hashes i

structure WrittenTo (t t' : HashTables) (i : Nat) : Prop where
  hashOfHashes : t'.hashOfHashes = t.hashOfHashes
  later : ∀ j, i ≤ j → t'.hashCheck[j]? = t.hashCheck[j]?

variable {t' : HashTables} {firstIndex n : Nat} {data : List Hash} {lastIndex u : UInt64}

theorem WrittenTo.setCheck {i : Nat} (h : WrittenTo t t' i) (x : Hash) :
    WrittenTo t (t'.setCheck i x) (i + 1) where
  hashOfHashes := h.hashOfHashes
  later j hj := by
    rw [HashTables.setCheck, getElem?_set_ne (by omega)]
    exact h.later j (by omega)

theorem noteHashes_cases (hwritten : WrittenTo t t' (256 * n))
    (hfirst : firstIndex ≤ n) (hdata : ∀ k, data[k]? = blockAt chain height hashes (256 * firstIndex + k))
    (hcheck : 256 * n + 256 ≤ t.hashCheck.length)
    (hblocks : ∀ i, 256 * n ≤ i → i < 256 * n + 256 → (blockAt chain height hashes i).isSome = true) :
    (∃ t'', (List.range' (256 * n) 256).foldlM (noteHash firstIndex data) t' = .ok t'' ∧
      WrittenTo t t'' (256 * n + 256) ∧ Consistent chain t height hashes n) ∨
    ∃ e, (List.range' (256 * n) 256).foldlM (noteHash firstIndex data) t' = .error e ∧
      (∃ t'', e = .inconsistent t'') ∧ ¬Consistent chain t height hashes n := by
  refine ExceptLoop.foldlM_range' (n := 256 * n) (k := 256)
    (I := fun i t'' => WrittenTo t t'' i ∧ ∀ j, 256 * n ≤ j → j < i → ConsistentAt chain t height hashes j)
    (Q := fun e => (∃ t'', e = Exit.inconsistent t'') ∧ ¬Consistent chain t height hashes n) ?_
    ⟨hwritten, fun j hj hlt => absurd hlt (by omega)⟩
  rintro i t'' hlow hhigh ⟨hwritten, hdone⟩
  obtain ⟨h, hh⟩ := Option.isSome_iff_exists.1 (hblocks i hlow hhigh)
  have hlt : i < t.hashCheck.length := by omega
  obtain ⟨known, hknown⟩ : ∃ known, t.hashCheck[i]? = some known := ⟨_, getElem?_eq_getElem hlt⟩
  have hplace : 256 * firstIndex + (i - 256 * firstIndex) = i := by omega
  have hread : data[i - 256 * firstIndex]? = some h := by
    rw [hdata, hplace]
    exact hh
  have hnote : noteHash firstIndex data t'' i =
      if known = nullHash ∨ known = h then .ok (t''.setCheck i h) else .error (.inconsistent t'') := by
    rw [noteHash, hwritten.later i (Nat.le_refl i), hknown, hread]
  rw [hnote]
  by_cases hagree : known = nullHash ∨ known = h
  · refine .inl ⟨_, if_pos hagree, hwritten.setCheck h, ?_⟩
    intro j hj hlt
    rcases Nat.lt_succ_iff_lt_or_eq.1 hlt with hlt | rfl
    · exact hdone j hj hlt
    · intro known' h' hk hb
      grind
  · refine .inr ⟨_, if_neg hagree, ⟨t'', rfl⟩, ?_⟩
    intro hconsistent
    exact hagree (hconsistent i hlow hhigh _ _ hknown hh)

def reached (height : UInt64) (hashes : HashList) (n : Nat) : UInt64 :=
  if height.toNat ≤ 256 * n then UInt64.ofNat (min (256 * n - height.toNat) hashes.hashes.length)
  else UInt64.ofNat (256 * n) - height

theorem HashList.toNat_size (l : HashList) : l.size.toNat = l.hashes.length := by
  have hbounded := l.bounded
  rw [HashList.size, UInt64.toNat_ofNat']
  omega

theorem toNat_reached (hn : height.toNat ≤ 256 * n) :
    (reached height hashes n).toNat = min (256 * n - height.toNat) hashes.hashes.length := by
  have hbounded := hashes.bounded
  rw [reached, if_pos hn, UInt64.toNat_ofNat']
  omega

theorem reached_add (hheight : height.toNat < 256 * n + 256)
    (hin : 256 * n + 256 ≤ height.toNat + hashes.hashes.length) (hn : 256 * n < 2 ^ 62) :
    reached height hashes n + 256 = reached height hashes (n + 1) := by
  refine UInt64.toNat_inj.1 ?_
  have hnext : height.toNat ≤ 256 * (n + 1) := by omega
  rw [toNat_reached hnext, UInt64.toNat_add]
  by_cases hle : height.toNat ≤ 256 * n
  · grind [toNat_reached]
  · rw [reached, if_neg hle, UInt64.toNat_sub, UInt64.toNat_ofNat']
    simp only [UInt64.reduceToNat]
    omega

theorem reached_clamp (hheight : height.toNat ≤ 256 * n) :
    (if hashes.size < reached height hashes n + 256 then hashes.size else reached height hashes n + 256) =
      reached height hashes (n + 1) := by
  have hbounded := hashes.bounded
  have hsum : (reached height hashes n + 256).toNat = min (256 * n - height.toNat) hashes.hashes.length + 256 := by
    rw [UInt64.toNat_add, toNat_reached hheight]
    simp only [UInt64.reduceToNat]
    omega
  have hnext : height.toNat ≤ 256 * (n + 1) := Nat.le_trans hheight (Nat.mul_le_mul_left 256 n.le_succ)
  refine UInt64.toNat_inj.1 ?_
  rw [toNat_reached hnext]
  by_cases hover : hashes.size < reached height hashes n + 256
  · rw [if_pos hover, hashes.toNat_size]
    rw [UInt64.lt_iff_toNat_lt, hsum, hashes.toNat_size] at hover
    omega
  · rw [if_neg hover, hsum]
    rw [UInt64.lt_iff_toNat_lt, hsum, hashes.toNat_size] at hover
    omega

theorem toNat_usable (hn : 256 * n < 2 ^ 62) (hheight : height.toNat < 256 * n + 256) :
    (if reached height hashes n < 0x7fffffffffffffff then reached height hashes n else 0).toNat =
      min (256 * n - height.toNat) hashes.hashes.length := by
  have hbounded := hashes.bounded
  by_cases hle : height.toNat ≤ 256 * n
  · have hsmall : reached height hashes n < 0x7fffffffffffffff := by
      rw [UInt64.lt_iff_toNat_lt, toNat_reached hle]
      simp only [UInt64.reduceToNat]
      omega
    rw [if_pos hsmall, toNat_reached hle]
  · have hlarge : ¬reached height hashes n < 0x7fffffffffffffff := by
      rw [UInt64.lt_iff_toNat_lt, reached, if_neg hle, UInt64.toNat_sub, UInt64.toNat_ofNat']
      simp only [UInt64.reduceToNat]
      omega
    rw [if_neg hlarge]
    simp only [UInt64.reduceToNat]
    omega

theorem isSome_chunkHash : (chunkHash cnFastHash chain height hashes n).isSome = true ↔
      ∀ i, 256 * n ≤ i → i < 256 * n + 256 → (blockAt chain height hashes i).isSome = true := by
  rw [chunkHash, Option.isSome_map, PartialMap.isSome_mapM]
  simp only [mem_range'_1, and_imp]

theorem le_of_isSome_chunkHash (hheight : height.toNat < 256 * n + 256)
    (h : (chunkHash cnFastHash chain height hashes n).isSome = true) :
    256 * n + 256 ≤ height.toNat + hashes.hashes.length := by
  have hlast := isSome_chunkHash.1 h (256 * n + 255) (by omega) (by omega)
  grind [blockAt]

def Passes (cnFastHash : Bytes → Hash) (chain : List Hash) (t : HashTables) (height : UInt64) (hashes : HashList) (n : Nat) :
    Prop :=
  chunkHash cnFastHash chain height hashes n = t.hashOfHashes[n]? ∧ Consistent chain t height hashes n

structure Ready (chain : List Hash) (t : HashTables) (height : UInt64) (hashes : HashList) (firstIndex lastIndex : Nat)
    (data : List Hash) : Prop where
  inside : height.toNat < 256 * t.hashOfHashes.length
  check : t.hashCheck.length = 256 * t.hashOfHashes.length
  first : height.toNat < 256 * firstIndex + 256
  pop : 256 * firstIndex ≤ height.toNat + hashes.hashes.length
  last : 256 * lastIndex < height.toNat + hashes.hashes.length
  read : ∀ k, data[k]? = blockAt chain height hashes (256 * firstIndex + k)

structure Checked (cnFastHash : Bytes → Hash) (chain : List Hash) (t : HashTables) (height : UInt64) (hashes : HashList)
    (firstIndex n : Nat) (s : CheckState) : Prop where
  written : WrittenTo t s.tables (256 * n)
  usable : s.usable = reached height hashes n
  passed : ∀ m, firstIndex ≤ m → m < n → m < t.hashOfHashes.length → Passes cnFastHash chain t height hashes m

inductive LeftAt (cnFastHash : Bytes → Hash) (chain : List Hash) (t : HashTables) (height : UInt64) (hashes : HashList)
    (n : Nat) : Exit → Prop where
  | broke {s : CheckState} (husable : s.usable = reached height hashes n)
      (hhash : chunkHash cnFastHash chain height hashes n ≠ t.hashOfHashes[n]?) : LeftAt _ _ _ _ _ n (.broke s)
  | inconsistent {t' : HashTables} (hhash : chunkHash cnFastHash chain height hashes n = t.hashOfHashes[n]?)
      (hnot : ¬Consistent chain t height hashes n) : LeftAt _ _ _ _ _ n (.inconsistent t')

section Rounds
variable {firstIndex lastIndex n : Nat} {data : List Hash} {s : CheckState}

theorem Ready.chunk_eq (h : Ready chain t height hashes firstIndex lastIndex data) (hfirst : firstIndex ≤ n) :
    (List.range' (256 * (n - firstIndex)) 256).mapM (data[·]?) =
      (List.range' (256 * n) 256).mapM (blockAt chain height hashes) := by
  refine mapM_range'_congr fun i _ => ?_
  have hplace : 256 * firstIndex + (256 * (n - firstIndex) + i) = 256 * n + i := by omega
  rw [h.read, hplace]

theorem Ready.isSome_chunkHash_iff (cnFastHash : Bytes → Hash) (h : Ready chain t height hashes firstIndex lastIndex data)
    (hfirst : firstIndex ≤ n) :
    (chunkHash cnFastHash chain height hashes n).isSome = true ↔ 256 * (n - firstIndex) + 256 ≤ data.length := by
  rw [chunkHash, ← h.chunk_eq hfirst, Option.isSome_map, PartialMap.isSome_mapM]
  simp only [mem_range'_1, and_imp, isSome_getElem?]
  grind

theorem Ready.round_eq (h : Ready chain t height hashes firstIndex lastIndex data) (hfirst : firstIndex ≤ n)
    (hs : s.tables.hashOfHashes = t.hashOfHashes) {expected : Hash} (hexpected : t.hashOfHashes[n]? = some expected) :
    round cnFastHash hashes firstIndex data s n =
      if chunkHash cnFastHash chain height hashes n = some expected then
        match (List.range' (256 * n) 256).foldlM (noteHash firstIndex data) s.tables with
        | .error e => .error e
        | .ok tables => .ok ⟨tables, s.usable + 256⟩
      else .error (.broke s) := by
  have hcomplete := h.isSome_chunkHash_iff cnFastHash hfirst
  simp only [round, hs, hexpected, h.chunk_eq hfirst]
  by_cases hshort : data.length < 256 * (n - firstIndex) + 256
  · grind
  · grind [chunkHash, blockAt, hashTogether]

theorem Ready.round_cases (h : Ready chain t height hashes firstIndex lastIndex data) (hfirst : firstIndex ≤ n)
    (hlast : n ≤ lastIndex) (hs : Checked cnFastHash chain t height hashes firstIndex n s) :
    (∃ s', round cnFastHash hashes firstIndex data s n = .ok s' ∧
      Checked cnFastHash chain t height hashes firstIndex (n + 1) s') ∨
    ∃ e, round cnFastHash hashes firstIndex data s n = .error e ∧ n < t.hashOfHashes.length ∧
      LeftAt cnFastHash chain t height hashes n e := by
  have hinside := h.inside
  have hbounded := t.bounded
  have hlength := hashes.bounded
  have hend := h.last
  have hstart := h.first
  by_cases htable : n < t.hashOfHashes.length
  · obtain ⟨expected, hexpected⟩ : ∃ expected, t.hashOfHashes[n]? = some expected := ⟨_, getElem?_eq_getElem htable⟩
    rw [h.round_eq hfirst hs.written.hashOfHashes hexpected, ← hexpected]
    by_cases hhash : chunkHash cnFastHash chain height hashes n = t.hashOfHashes[n]?
    · have hsome : (chunkHash cnFastHash chain height hashes n).isSome = true := by rw [hhash, hexpected, Option.isSome_some]
      have hheight : height.toNat < 256 * n + 256 := by omega
      have hlist := le_of_isSome_chunkHash hheight hsome
      rw [if_pos hhash]
      rcases noteHashes_cases hs.written hfirst h.read (by rw [h.check]; omega) (isSome_chunkHash.1 hsome) with
        ⟨t', hnotes, hwritten, hconsistent⟩ | ⟨e, hnotes, ⟨t', rfl⟩, hnot⟩
      · refine .inl ⟨⟨t', s.usable + 256⟩, by rw [hnotes], hwritten, ?_, ?_⟩
        · rw [hs.usable]
          exact reached_add hheight hlist (by omega)
        · intro m hm hmn hmt
          rcases Nat.lt_succ_iff_lt_or_eq.1 hmn with hlt | rfl
          · exact hs.passed m hm hlt hmt
          · exact ⟨hhash, hconsistent⟩
      · exact .inr ⟨_, by rw [hnotes], htable, .inconsistent hhash hnot⟩
    · exact .inr ⟨.broke s, if_neg hhash, htable, .broke hs.usable hhash⟩
  · have hnone : t.hashOfHashes[n]? = none := getElem?_eq_none (Nat.le_of_not_lt htable)
    have hbehind : height.toNat ≤ 256 * n := by omega
    refine .inl ⟨{ s with usable := reached height hashes (n + 1) }, ?_, ?_, rfl, ?_⟩
    · simp only [round, hs.written.hashOfHashes, hnone, hs.usable, reached_clamp hbehind]
    · exact ⟨hs.written.hashOfHashes, fun j hj => hs.written.later j (by omega)⟩
    · intro m hm hmn hmt
      exact hs.passed m hm (by omega) hmt

end Rounds

/-- **How the checking ends**: at a chunk of the table that is incomplete or does not match, or behind the last one; or with
zero at a chunk that contradicts what was noted. -/
inductive Ended (cnFastHash : Bytes → Hash) (chain : List Hash) (t : HashTables) (height : UInt64) (hashes : HashList)
    (firstIndex lastIndex : Nat) (u : UInt64) : Prop where
  | stopped (n : Nat) (hfirst : firstIndex ≤ n)
      (hpassed : ∀ m, firstIndex ≤ m → m < n → m < t.hashOfHashes.length → Passes cnFastHash chain t height hashes m)
      (hu : u.toNat = min (256 * n - height.toNat) hashes.hashes.length)
      (hwhy : lastIndex < n ∨ n < t.hashOfHashes.length ∧ chunkHash cnFastHash chain height hashes n ≠ t.hashOfHashes[n]?)
  | contradicted (n : Nat) (hfirst : firstIndex ≤ n)
      (hpassed : ∀ m, firstIndex ≤ m → m < n → m < t.hashOfHashes.length → Passes cnFastHash chain t height hashes m)
      (hu : u = 0) (htable : n < t.hashOfHashes.length)
      (hhash : chunkHash cnFastHash chain height hashes n = t.hashOfHashes[n]?)
      (hnot : ¬Consistent chain t height hashes n)

theorem Ready.checked_start {firstIndex : UInt64}
    (h : Ready chain t height hashes firstIndex.toNat lastIndex.toNat data) :
    Checked cnFastHash chain t height hashes firstIndex.toNat firstIndex.toNat ⟨t, firstIndex * 256 - height⟩ := by
  have hbounded := t.bounded
  have hlength := hashes.bounded
  have hinside := h.inside
  have hpop := h.pop
  refine ⟨⟨rfl, fun _ _ => rfl⟩, ?_, fun m hm hlt => absurd hm (Nat.not_le_of_lt hlt)⟩
  refine UInt64.toNat_inj.1 ?_
  rw [UInt64.toNat_sub, UInt64.toNat_mul]
  simp only [UInt64.reduceToNat]
  by_cases hle : height.toNat ≤ 256 * firstIndex.toNat
  · rw [toNat_reached hle]
    omega
  · rw [reached, if_neg hle, UInt64.toNat_sub, UInt64.toNat_ofNat']
    omega

theorem checkChunks_cases (cnFastHash : Bytes → Hash) {firstIndex : UInt64}
    (h : Ready chain t height hashes firstIndex.toNat lastIndex.toNat data) :
    ∃ u t', checkChunks cnFastHash t height hashes firstIndex lastIndex data = some (u, t') ∧
      Ended cnFastHash chain t height hashes firstIndex.toNat lastIndex.toNat u := by
  have hbounded := t.bounded
  have hlength := hashes.bounded
  have hinside := h.inside
  have hstart := h.first
  have hpop := h.pop
  have hend := h.last
  have hloop := ExceptLoop.foldlM_range' (n := firstIndex.toNat) (k := lastIndex.toNat + 1 - firstIndex.toNat)
    (f := round cnFastHash hashes firstIndex.toNat data)
    (I := fun n s => Checked cnFastHash chain t height hashes firstIndex.toNat n s)
    (Q := fun e => ∃ n, firstIndex.toNat ≤ n ∧ n ≤ lastIndex.toNat ∧ n < t.hashOfHashes.length ∧
      (∀ m, firstIndex.toNat ≤ m → m < n → m < t.hashOfHashes.length → Passes cnFastHash chain t height hashes m) ∧
      LeftAt cnFastHash chain t height hashes n e) (by
    intro n s hfirst hlast hs
    rcases h.round_cases hfirst (by omega) hs with hok | ⟨e, herror, htable, hleft⟩
    · exact .inl hok
    · exact .inr ⟨e, herror, n, hfirst, by omega, htable, hs.passed, hleft⟩) h.checked_start
  rcases hloop with ⟨s, hok, hs⟩ | ⟨e, herror, n, hfirst, hlast, htable, hpassed, hleft⟩
  · refine ⟨_, s.tables, by rw [checkChunks, hok], .stopped _ (Nat.le_add_right _ _) hs.passed ?_ (.inl (by omega))⟩
    rw [hs.usable]
    exact toNat_usable (by omega) (by omega)
  · cases hleft with
    | @broke s husable hhash =>
      refine ⟨_, s.tables, by rw [checkChunks, herror], .stopped n hfirst hpassed ?_ (.inr ⟨htable, hhash⟩)⟩
      grind [toNat_usable]
    | @inconsistent t' hhash hnot =>
      exact ⟨0, t', by rw [checkChunks, herror], .contradicted n hfirst hpassed rfl htable hhash hnot⟩

theorem getElem?_of_mapM_range' {α : Type} {f : Nat → Option α} {a k : Nat} {r : List α}
    (h : (List.range' a k).mapM f = some r) : r.length = k ∧ ∀ i < k, r[i]? = f (a + i) := by
  induction k generalizing a r with
  | zero =>
    cases h
    simp
  | succ k ih =>
    rw [range'_succ, mapM_cons] at h
    simp only [Option.pure_def, Option.bind_eq_bind, Option.bind_eq_some_iff] at h
    obtain ⟨x, hx, rest, hrest, heq⟩ := h
    cases heq
    obtain ⟨hlength, hget⟩ := ih hrest
    refine ⟨by rw [length_cons, hlength], ?_⟩
    intro i hi
    cases i with
    | zero => exact hx.symm
    | succ i =>
      rw [getElem?_cons_succ, hget i (by omega), Nat.add_right_comm]
      rfl

def Short (height : UInt64) (hashes : HashList) : Prop :=
  height.toNat / 256 = (height.toNat + hashes.hashes.length - 1) / 256 ∧ hashes.hashes.length < 256 ∧
    (height.toNat + hashes.hashes.length) % 256 ≠ 0

section Result
variable (hne : hashes.hashes ≠ []) (hinside : height.toNat < 256 * t.hashOfHashes.length)
include hne hinside

theorem toNat_lastIndex :
    ((height + hashes.size - 1) / 256).toNat = (height.toNat + hashes.hashes.length - 1) / 256 := by
  have hbounded := t.bounded
  have hlength := hashes.bounded
  have hpos := length_pos_of_ne_nil hne
  rw [UInt64.toNat_div, UInt64.toNat_sub, UInt64.toNat_add, hashes.toNat_size]
  simp only [UInt64.reduceToNat]
  congr 1
  omega

theorem short_iff :
    (height / 256 = (height + hashes.size - 1) / 256 ∧ hashes.size < 256 ∧ (height + hashes.size) % 256 ≠ 0) ↔
      Short height hashes := by
  have hbounded := t.bounded
  have hlength := hashes.bounded
  rw [Short, ← UInt64.toNat_inj, toNat_lastIndex hne hinside, UInt64.lt_iff_toNat_lt, hashes.toNat_size, ne_eq,
    ← UInt64.toNat_inj, UInt64.toNat_div, UInt64.toNat_mod, UInt64.toNat_add, hashes.toNat_size]
  grind

end Result

theorem offset_ne_zero_iff : height % 256 ≠ 0 ↔ height.toNat % 256 ≠ 0 := by
  rw [ne_eq, ← UInt64.toNat_inj, UInt64.toNat_mod]
  rfl

theorem toNat_succ_firstIndex (height : UInt64) : (height / 256 + 1).toNat = height.toNat / 256 + 1 := by
  have hlt := height.toNat_lt
  rw [UInt64.toNat_add, UInt64.toNat_div]
  simp only [UInt64.reduceToNat]
  omega

theorem ready_of_disconnected (chain : List Hash) (hne : hashes.hashes ≠ [])
    (hinside : height.toNat < 256 * t.hashOfHashes.length)
    (hcheck : t.hashCheck.length = 256 * t.hashOfHashes.length) (hshort : ¬Short height hashes)
    (hoff : height % 256 ≠ 0) :
    Ready chain t height hashes (height / 256 + 1).toNat ((height + hashes.size - 1) / 256).toNat
      (hashes.hashes.drop (256 - height % 256).toNat) := by
  have hbounded := t.bounded
  have hpos := length_pos_of_ne_nil hne
  have hmod := offset_ne_zero_iff.1 hoff
  have hpop : (256 - height % 256).toNat = 256 - height.toNat % 256 := by
    rw [UInt64.toNat_sub, UInt64.toNat_mod]
    simp only [UInt64.reduceToNat]
    omega
  rw [Short] at hshort
  rw [toNat_lastIndex hne hinside, toNat_succ_firstIndex, hpop]
  refine ⟨hinside, hcheck, by omega, by omega, by omega, ?_⟩
  grind [blockAt]

theorem ready_of_connected (hne : hashes.hashes ≠ []) (hinside : height.toNat < 256 * t.hashOfHashes.length)
    (hcheck : t.hashCheck.length = 256 * t.hashOfHashes.length)
    (hconnected : ¬(Disconnected chain height ∧ height % 256 ≠ 0)) :
    ∃ below, (List.range' (256 * (height / 256).toNat) (height.toNat - 256 * (height / 256).toNat)).mapM (chain[·]?) =
        some below ∧
      Ready chain t height hashes (height / 256).toNat ((height + hashes.size - 1) / 256).toNat (below ++ hashes.hashes) := by
  have hpos := length_pos_of_ne_nil hne
  have hfirst : (height / 256).toNat = height.toNat / 256 := UInt64.toNat_div _ _
  rw [toNat_lastIndex hne hinside, hfirst]
  have hbelow : ((List.range' (256 * (height.toNat / 256)) (height.toNat - 256 * (height.toNat / 256))).mapM
      (chain[·]?)).isSome = true := by
    rw [PartialMap.isSome_mapM]
    intro i hi
    rw [mem_range'_1] at hi
    rw [isSome_getElem?]
    -- there is such a block, so the list does not start with a chunk
    have hoff : height % 256 ≠ 0 := offset_ne_zero_iff.2 (by omega)
    have hlong : ¬UInt64.ofNat chain.length < height := fun hlt => hconnected ⟨hlt, hoff⟩
    rw [UInt64.lt_iff_toNat_lt, UInt64.toNat_ofNat'] at hlong
    have hmod := Nat.mod_le chain.length (2 ^ 64)
    omega
  obtain ⟨below, hread⟩ := Option.isSome_iff_exists.1 hbelow
  obtain ⟨hlength, hget⟩ := getElem?_of_mapM_range' hread
  refine ⟨below, hread, hinside, hcheck, by omega, by omega, by omega, ?_⟩
  grind [blockAt]

theorem toNat_firstIndex_le (hn : firstChecked chain height ≤ n) : height.toNat < 256 * n + 256 := by
  rw [firstChecked] at hn
  split at hn <;> omega

theorem prevalidateBlockHashes_cases (cnFastHash : Bytes → Hash) (chain : List Hash) (t : HashTables) (height : UInt64)
    (hne : hashes.hashes ≠ []) : ∃ u t', prevalidateBlockHashes cnFastHash chain t height hashes = some (u, t') ∧
      ((u = hashes.size ∧ (256 * t.hashOfHashes.length ≤ height.toNat ∨ t.hashCheck = [] ∨ Short height hashes)) ∨
      (height.toNat < 256 * t.hashOfHashes.length ∧ t.hashCheck ≠ [] ∧ ¬Short height hashes ∧
        Ended cnFastHash chain t height hashes (firstChecked chain height)
          ((height.toNat + hashes.hashes.length - 1) / 256) u)) := by
  have hbounded := t.bounded
  have htable : UInt64.ofNat t.hashOfHashes.length * 256 ≤ height ↔ 256 * t.hashOfHashes.length ≤ height.toNat := by
    rw [UInt64.le_iff_toNat_le, UInt64.toNat_mul, UInt64.toNat_ofNat']
    simp only [UInt64.reduceToNat]
    omega
  by_cases houtside : 256 * t.hashOfHashes.length ≤ height.toNat
  · exact ⟨_, t, by rw [prevalidateBlockHashes, if_pos (htable.2 houtside)], .inl ⟨rfl, .inl houtside⟩⟩
  have hinside := Nat.lt_of_not_le houtside
  by_cases hempty : t.hashCheck = []
  · refine ⟨_, t, ?_, .inl ⟨rfl, .inr (.inl hempty)⟩⟩
    rw [prevalidateBlockHashes, if_neg (mt htable.1 houtside), if_pos hempty]
  have hcheck := t.covers.resolve_left hempty
  have hiff := short_iff hne hinside
  by_cases hshort : Short height hashes
  · refine ⟨_, t, ?_, .inl ⟨rfl, .inr (.inr hshort)⟩⟩
    grind [prevalidateBlockHashes]
  have hlast := toNat_lastIndex hne hinside
  by_cases hbehind : Disconnected chain height ∧ height % 256 ≠ 0
  · have hready := ready_of_disconnected chain hne hinside hcheck hshort hbehind.2
    obtain ⟨u, t', hresult, hended⟩ := checkChunks_cases cnFastHash hready
    grind [toNat_succ_firstIndex, prevalidateBlockHashes, firstChecked]
  · obtain ⟨below, hbelow, hready⟩ := ready_of_connected hne hinside hcheck hbehind
    obtain ⟨u, t', hresult, hended⟩ := checkChunks_cases cnFastHash hready
    rw [hlast, UInt64.toNat_div] at hended
    grind [prevalidateBlockHashes, firstChecked]

theorem usable_le (hne : hashes.hashes ≠ [])
    (h : prevalidateBlockHashes cnFastHash chain t height hashes = some (u, t')) : u.toNat ≤ hashes.hashes.length := by
  obtain ⟨u', t'', hresult, hcases⟩ := prevalidateBlockHashes_cases cnFastHash chain t height hne
  rw [h] at hresult
  cases hresult
  rcases hcases with ⟨rfl, -⟩ | ⟨-, -, -, hended⟩
  · exact Nat.le_of_eq hashes.toNat_size
  · cases hended with
    | stopped n _ _ hu _ =>
      rw [hu]
      exact Nat.min_le_right _ _
    | contradicted n _ _ hu _ _ _ =>
      rw [hu]
      exact Nat.zero_le _

/-- The chunk in which the list starts is known up to there, ends within the list, and does not pass. -/
structure FirstChunkFails (cnFastHash : Bytes → Hash) (chain : List Hash) (t : HashTables) (height : UInt64)
    (hashes : HashList) : Prop where
  inside : height.toNat < 256 * t.hashOfHashes.length
  check : t.hashCheck ≠ []
  connected : ¬Disconnected chain height
  ends : 256 ≤ height.toNat % 256 + hashes.hashes.length
  fails : ¬Passes cnFastHash chain t height hashes (height.toNat / 256)

theorem Ended.first_of_zero (hpos : 0 < hashes.hashes.length) (hfew : hashes.hashes.length < 256)
    (hfirst : height.toNat / 256 ≤ firstIndex)
    (h : Ended cnFastHash chain t height hashes firstIndex ((height.toNat + hashes.hashes.length - 1) / 256) 0) :
    firstIndex = height.toNat / 256 ∧ ¬Passes cnFastHash chain t height hashes (height.toNat / 256) := by
  cases h with
  | stopped n hn _ hu hwhy =>
    rw [UInt64.toNat_zero] at hu
    obtain rfl : n = height.toNat / 256 := by omega
    refine ⟨by omega, ?_⟩
    rintro ⟨hhash, -⟩
    grind
  | contradicted n hn _ _ htable hhash hnot =>
    have hsome : (chunkHash cnFastHash chain height hashes n).isSome = true := by
      rw [hhash, isSome_getElem?]
      exact htable
    have hend := le_of_isSome_chunkHash (by omega) hsome
    obtain rfl : n = height.toNat / 256 := by omega
    exact ⟨by omega, fun hpasses => hnot hpasses.2⟩

theorem Ended.zero_of_fails {lastIndex : Nat} (htable : height.toNat / 256 < t.hashOfHashes.length)
    (hfails : ¬Passes cnFastHash chain t height hashes (height.toNat / 256))
    (h : Ended cnFastHash chain t height hashes (height.toNat / 256) lastIndex u) : u = 0 := by
  cases h with
  | stopped n hn hpassed hu _ =>
    rcases Nat.eq_or_lt_of_le hn with rfl | hlt
    · refine UInt64.toNat_inj.1 ?_
      rw [hu, UInt64.toNat_zero]
      omega
    · grind
  | contradicted _ _ _ hu _ _ _ => exact hu

theorem usable_eq_zero_iff (hne : hashes.hashes ≠ []) (hfew : hashes.hashes.length < 256)
    (h : prevalidateBlockHashes cnFastHash chain t height hashes = some (u, t')) :
    u = 0 ↔ FirstChunkFails cnFastHash chain t height hashes := by
  have hpos := length_pos_of_ne_nil hne
  obtain ⟨u', t'', hresult, hcases⟩ := prevalidateBlockHashes_cases cnFastHash chain t height hne
  rw [h] at hresult
  cases hresult
  constructor
  · rintro rfl
    rcases hcases with ⟨hsize, -⟩ | ⟨hinside, hcheck, hshort, hended⟩
    · have hzero := congrArg UInt64.toNat hsize
      rw [hashes.toNat_size] at hzero
      exact absurd hzero (Nat.ne_of_lt hpos)
    have hlow : height.toNat / 256 ≤ firstChecked chain height := by
      rw [firstChecked]
      split <;> omega
    obtain ⟨hfirst, hfails⟩ := hended.first_of_zero hpos hfew hlow
    have hends : 256 ≤ height.toNat % 256 + hashes.hashes.length := by
      rw [Short] at hshort
      omega
    refine ⟨hinside, hcheck, ?_, hends, hfails⟩
    -- behind the chain, the chunk would have been skipped
    intro hbehind
    have hoff : height % 256 ≠ 0 := offset_ne_zero_iff.2 (by omega)
    rw [firstChecked, if_pos ⟨hbehind, hoff⟩] at hfirst
    omega
  · intro hfails
    have hends := hfails.ends
    have hinside := hfails.inside
    rcases hcases with ⟨-, houtside | hempty | ⟨hsame, -, hoff⟩⟩ | ⟨-, -, -, hended⟩
    · omega
    · exact absurd hempty hfails.check
    · omega
    have hfirst : firstChecked chain height = height.toNat / 256 := by
      rw [firstChecked, if_neg fun hbehind => hfails.connected hbehind.1]
    rw [hfirst] at hended
    exact hended.zero_of_fails (by omega) hfails.fails

end Loops

/-- **Prevalidation is sound**: no access is out of range, and the chunks within the usable part hash to their entries. -/
theorem prevalidateBlockHashes_sound (cnFastHash : Bytes → Hash) (chain : List Hash) (t : HashTables) (height : UInt64)
    (hashes : HashList) (hne : hashes.hashes ≠ []) (hcovers : t.hashCheck.length = 256 * t.hashOfHashes.length) :
    ∃ u t', prevalidateBlockHashes cnFastHash chain t height hashes = some (u, t') ∧
      u.toNat ≤ hashes.hashes.length ∧
      ∀ n < t.hashOfHashes.length, firstChecked chain height ≤ n → 256 * n + 256 ≤ height.toNat + u.toNat →
        chunkHash cnFastHash chain height hashes n = t.hashOfHashes[n]? := by
  obtain ⟨u, t', hresult, hcases⟩ := prevalidateBlockHashes_cases cnFastHash chain t height hne
  refine ⟨u, t', hresult, usable_le hne hresult, ?_⟩
  intro n htable hfirst hend
  have hheight := toNat_firstIndex_le hfirst
  rcases hcases with ⟨rfl, hwhole⟩ | ⟨-, -, -, hended⟩
  · rw [hashes.toNat_size] at hend
    rcases hwhole with houtside | hempty | ⟨hsame, hfew, hoff⟩
    · omega
    · rw [hempty, length_nil] at hcovers
      omega
    · omega
  · cases hended with
    | stopped m _ hpassed hu _ => exact (hpassed n hfirst (by omega) htable).1
    | contradicted m _ _ hu _ _ _ =>
      subst hu
      exact absurd hend (Nat.not_le_of_lt hheight)

def oneChunk (entry : Hash) : HashTables where
  hashOfHashes := [entry]
  hashCheck := List.replicate 256 nullHash
  covers := .inr (by rw [length_replicate, length_singleton])
  bounded := by
    rw [length_singleton]
    omega

def nullHashes (count : UInt8) : HashList where
  hashes := List.replicate count.toNat nullHash
  bounded := by
    have hlt := count.toNat_lt
    rw [length_replicate]
    omega

theorem prevalidateBlockHashes_sound_oneChunk :
    ∃ u t', prevalidateBlockHashes Env.plainHash [nullHash] (oneChunk nullHash) 1 (nullHashes 255) = some (u, t') ∧
      u.toNat ≤ 255 ∧
      (256 ≤ 1 + u.toNat → chunkHash Env.plainHash [nullHash] 1 (nullHashes 255) 0 = some nullHash) := by
  have hne : (nullHashes 255).hashes ≠ [] := ne_nil_of_length_pos (by rw [nullHashes, length_replicate]; decide)
  have hcovers : (oneChunk nullHash).hashCheck.length = 256 * (oneChunk nullHash).hashOfHashes.length :=
    length_replicate
  obtain ⟨u, t', hresult, hle, hsound⟩ :=
    prevalidateBlockHashes_sound Env.plainHash [nullHash] (oneChunk nullHash) 1 (nullHashes 255) hne hcovers
  refine ⟨u, t', hresult, ?_, ?_⟩
  · rwa [nullHashes, length_replicate] at hle
  · intro hend
    exact hsound 0 (by decide) (by decide) hend

end Electronero.FastSync
