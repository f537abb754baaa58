import Electronero.Core.TxRoundTrip
import Electronero.Lib.PairTree
/-!
# What a block id commits to (`cryptonote_format_utils.cpp`, `src/crypto/tree-hash.c`)

All that is needed of `cn_fast_hash` is that it tells apart the strings hashed for the two blocks (`hashedStrings`).
-/
namespace Electronero.Wire
open Text Codec Codec.Format Archive PairTree List

section
variable (cnFastHash : Bytes → Hash)

/-- `while(pow < count) pow <<= 1`; a `size_t` has 64 bits. -/
def treeHashPow (count : Nat) : Nat → Nat → Nat
  | 0, pow => pow
  | rounds + 1, pow => if pow < count then treeHashPow count rounds (pow <<< 1) else pow

def treeHashCnt (count : Nat) : Nat := treeHashPow count 64 2 >>> 1

def hashPair (a b : Hash) : Hash := cnFastHash (a.bytes ++ b.bytes)

/-- The row of `cnt` values that is folded: as many of the last leaves are combined as it takes to get there. -/
def treeHashInts (hashes : List Hash) : List Hash :=
  let cnt := treeHashCnt hashes.length
  hashes.take (2 * cnt - hashes.length) ++ level (hashPair cnFastHash) (hashes.drop (2 * cnt - hashes.length))

def treeHash (hashes : List Hash) : Hash :=
  match hashes with
  | [h] => h
  | [a, b] => hashPair cnFastHash a b
  | _ =>
    match fold (hashPair cnFastHash) 64 (treeHashCnt hashes.length) (treeHashInts cnFastHash hashes) with
    | [a, b] => hashPair cnFastHash a b
    | _ => nullHash

variable (getTransactionHash : Transaction → Hash)

def txsIds (b : Block) : List Hash := getTransactionHash b.minerTx :: b.txHashes

def getTxTreeHash (b : Block) : Hash := treeHash cnFastHash (txsIds getTransactionHash b)

def headerBlob (h : BlockHeader) : Bytes := ((blockHeader false).write h).getD []

def getBlockHashingBlob (b : Block) : Bytes :=
  headerBlob b.toBlockHeader ++ (getTxTreeHash cnFastHash getTransactionHash b).bytes ++
    writeVarint 64 (b.txHashes.length + 1)

/-- `get_object_hash` of the hashing blob: a string serialises with its length in front. -/
def blockString (b : Block) : Bytes :=
  let blob := getBlockHashingBlob cnFastHash getTransactionHash b
  writeVarint 64 blob.length ++ blob

def calculateBlockHash (b : Block) : Hash := cnFastHash (blockString cnFastHash getTransactionHash b)

/-- `cached` is the block's `hash` where `is_hash_valid()`. -/
def getBlockHash (cached : Option Hash) (b : Block) : Hash :=
  cached.getD (calculateBlockHash cnFastHash getTransactionHash b)

def treeHashPairs (hashes : List Hash) : List (Hash × Hash) :=
  match hashes with
  | [_] => []
  | [a, b] => [(a, b)]
  | _ =>
    let cnt := treeHashCnt hashes.length
    let ints := treeHashInts cnFastHash hashes
    pairs (hashes.drop (2 * cnt - hashes.length)) ++ foldedPairs (hashPair cnFastHash) 64 cnt ints ++
      pairs (fold (hashPair cnFastHash) 64 cnt ints)

def hashedStrings (b : Block) : List Bytes :=
  blockString cnFastHash getTransactionHash b ::
    (treeHashPairs cnFastHash (txsIds getTransactionHash b)).map fun p => p.1.bytes ++ p.2.bytes

end

theorem treeHashPow_spec {count : Nat} (rounds : Nat) {j : Nat} (hlt : 2 ^ j < count) (hle : count ≤ 2 ^ (j + 1 + rounds)) :
    ∃ m, treeHashPow count rounds (2 ^ (j + 1)) = 2 ^ (m + 1) ∧ 2 ^ m < count ∧ count ≤ 2 ^ (m + 1) := by
  induction rounds generalizing j with
  | zero => exact ⟨j, rfl, hlt, hle⟩
  | succ rounds ih =>
    rw [treeHashPow]
    split
    · next h =>
      have hnext : 2 ^ (j + 1) <<< 1 = 2 ^ (j + 1 + 1) := by rw [Nat.shiftLeft_eq, Nat.pow_succ 2 (j + 1), Nat.pow_one]
      rw [hnext]
      exact ih h (by rwa [show j + 1 + 1 + rounds = j + 1 + (rounds + 1) by omega])
    · next h => exact ⟨j, rfl, hlt, by omega⟩

theorem treeHashCnt_spec {count : Nat} (h3 : 3 ≤ count) (h28 : count ≤ 2 ^ 28) :
    ∃ k ≤ 64, treeHashCnt count = 2 ^ (k + 1) ∧ 2 ^ (k + 1) < count ∧ count ≤ 2 * 2 ^ (k + 1) := by
  obtain ⟨m, hpow, hlt, hle⟩ := @treeHashPow_spec count 64 0 (by omega)
    (h28.trans (Nat.pow_le_pow_right (by omega) (by omega)))
  rw [show 2 ^ (0 + 1) = 2 from rfl] at hpow
  have hm : m < 28 := (Nat.pow_lt_pow_iff_right (by omega : 1 < 2)).1 (lt_of_lt_of_le hlt h28)
  obtain ⟨k, rfl⟩ : ∃ k, m = k + 1 := by
    refine ⟨m - 1, ?_⟩
    by_contra hne
    obtain rfl : m = 0 := by omega
    omega
  have hcnt : treeHashCnt count = 2 ^ (k + 1) := by
    rw [treeHashCnt, hpow, Nat.shiftRight_eq_div_pow, Nat.pow_succ 2 (k + 1)]
    omega
  grind

section
variable {cnFastHash : Bytes → Hash}

theorem pod_append_inj {n : Nat} {a b c d : Pod n} (h : a.bytes ++ b.bytes = c.bytes ++ d.bytes) : a = c ∧ b = d := by
  obtain ⟨h1, h2⟩ := append_inj h (by rw [a.size, c.size])
  obtain ⟨a, ha⟩ := a
  obtain ⟨c, hc⟩ := c
  obtain ⟨b, hb⟩ := b
  simp_all

theorem hashPair_injOn {T : Set Bytes} (hT : T.InjOn cnFastHash) :
    Set.InjOn (fun p => hashPair cnFastHash p.1 p.2) {p : Hash × Hash | p.1.bytes ++ p.2.bytes ∈ T} := by
  rintro ⟨a, b⟩ hp ⟨c, d⟩ hq h
  obtain ⟨rfl, rfl⟩ := pod_append_inj (hT hp hq h)
  rfl

variable {hashes : List Hash}

theorem treeHash_of_three_le (h : 3 ≤ hashes.length) : treeHash cnFastHash hashes =
      match fold (hashPair cnFastHash) 64 (treeHashCnt hashes.length) (treeHashInts cnFastHash hashes) with
      | [a, b] => hashPair cnFastHash a b
      | _ => nullHash := by
  match hashes, h with
  | _ :: _ :: _ :: _, _ => rfl

theorem treeHashPairs_of_three_le (h : 3 ≤ hashes.length) : treeHashPairs cnFastHash hashes =
      pairs (hashes.drop (2 * treeHashCnt hashes.length - hashes.length)) ++
        foldedPairs (hashPair cnFastHash) 64 (treeHashCnt hashes.length) (treeHashInts cnFastHash hashes) ++
        pairs (fold (hashPair cnFastHash) 64 (treeHashCnt hashes.length) (treeHashInts cnFastHash hashes)) := by
  match hashes, h with
  | _ :: _ :: _ :: _, _ => rfl

theorem length_treeHashInts (cnFastHash : Bytes → Hash) {cnt : Nat} (hcnt : treeHashCnt hashes.length = cnt)
    (hlt : cnt < hashes.length) (hle : hashes.length ≤ 2 * cnt) : (treeHashInts cnFastHash hashes).length = cnt := by
  rw [treeHashInts, hcnt, length_append, length_take, length_level, length_drop]
  omega

theorem treeHash_injOn {S : Set (Hash × Hash)} (hS : S.InjOn fun p => hashPair cnFastHash p.1 p.2)
    {l l' : List Hash} (hlen : l.length = l'.length) (hpos : 0 < l.length) (h28 : l.length ≤ 2 ^ 28)
    (hl : ∀ p ∈ treeHashPairs cnFastHash l, p ∈ S) (hl' : ∀ p ∈ treeHashPairs cnFastHash l', p ∈ S)
    (h : treeHash cnFastHash l = treeHash cnFastHash l') : l = l' := by
  by_cases h3 : 3 ≤ l.length
  · obtain ⟨k, hk, hcnt, hlt, hle⟩ := treeHashCnt_spec h3 h28
    have hints := length_treeHashInts cnFastHash hcnt hlt hle
    have hints' := length_treeHashInts cnFastHash (hlen ▸ hcnt) (hlen ▸ hlt) (hlen ▸ hle)
    rw [treeHash_of_three_le h3, treeHash_of_three_le (hlen ▸ h3), ← hlen, hcnt] at h
    rw [treeHashPairs_of_three_le h3, hcnt] at hl
    rw [treeHashPairs_of_three_le (hlen ▸ h3), ← hlen, hcnt] at hl'
    simp only [mem_append] at hl hl'
    -- the two values that are left
    obtain ⟨a, b, hab⟩ := length_eq_two.1 (length_fold (hashPair cnFastHash) hk hints)
    obtain ⟨c, d, hcd⟩ := length_eq_two.1 (length_fold (hashPair cnFastHash) hk hints')
    rw [hab, hcd] at h
    have hpair : (a, b) = (c, d) :=
      hS (hl _ (.inr (by simp [hab, pairs]))) (hl' _ (.inr (by simp [hcd, pairs]))) h
    have hfold :=
      fold_injOn hS 64 k hints hints' (fun p hp => hl p (.inl (.inr hp))) (fun p hp => hl' p (.inl (.inr hp)))
        (by rw [hab, hcd]; simpa using hpair)
    rw [treeHashInts, treeHashInts, ← hlen, hcnt] at hfold
    obtain ⟨htake, hlevel⟩ := append_inj hfold (by rw [length_take, length_take, hlen])
    have hdrop :=
      level_injOn hS (by rw [length_drop]; omega) (by rw [length_drop, length_drop, hlen])
        (fun p hp => hl p (.inl (.inl hp))) (fun p hp => hl' p (.inl (.inl hp))) hlevel
    rw [← take_append_drop (2 * 2 ^ (k + 1) - l.length) l, htake, hdrop, take_append_drop]
  · obtain hone | htwo : l.length = 1 ∨ l.length = 2 := by omega
    · obtain ⟨a, rfl⟩ := length_eq_one_iff.1 hone
      obtain ⟨b, rfl⟩ := length_eq_one_iff.1 (hlen.symm.trans hone)
      simpa [treeHash] using h
    · obtain ⟨a, b, rfl⟩ := length_eq_two.1 htwo
      obtain ⟨c, d, rfl⟩ := length_eq_two.1 (hlen.symm.trans htwo)
      have hpair : (a, b) = (c, d) := hS (hl _ (by simp [treeHashPairs])) (hl' _ (by simp [treeHashPairs])) h
      simpa using hpair

end

theorem write_blockHeader (h : BlockHeader) : (blockHeader true).write h = some (headerBlob h) := rfl

theorem length_headerBlob_le (h : BlockHeader) : (headerBlob h).length ≤ 119 := by
  have h1 := length_writeVarint_le 8 h.majorVersion.toBitVec.toNat
  have h2 := length_writeVarint_le 8 h.minorVersion.toBitVec.toNat
  have h3 := length_writeVarint_le 64 h.timestamp.toBitVec.toNat
  have hblob : headerBlob h = writeVarint 8 h.majorVersion.toBitVec.toNat ++
      (writeVarint 8 h.minorVersion.toBitVec.toNat ++ (writeVarint 64 h.timestamp.toBitVec.toNat ++
        (h.prevId.bytes ++ putUint 4 h.nonce.toNat))) := rfl
  rw [hblob]
  simp only [length_append, h.prevId.size, putUint, length_cons, length_nil]
  omega

section
variable {cnFastHash : Bytes → Hash} {getTransactionHash : Transaction → Hash}

theorem length_getBlockHashingBlob_lt (b : Block) :
    (getBlockHashingBlob cnFastHash getTransactionHash b).length < 2 ^ 64 := by
  have h1 := length_headerBlob_le b.toBlockHeader
  grind [length_writeVarint_le, getBlockHashingBlob, Pod.size]

theorem blockString_inj {a b : Block} (ha : a.txHashes.length < 2 ^ 28) (hb : b.txHashes.length < 2 ^ 28)
    (h : blockString cnFastHash getTransactionHash a = blockString cnFastHash getTransactionHash b) :
    a.toBlockHeader = b.toBlockHeader ∧ a.txHashes.length = b.txHashes.length ∧
      getTxTreeHash cnFastHash getTransactionHash a = getTxTreeHash cnFastHash getTransactionHash b := by
  obtain ⟨-, hblob⟩ := writeVarint_inj (length_getBlockHashingBlob_lt a) (length_getBlockHashingBlob_lt b) h
  rw [getBlockHashingBlob, getBlockHashingBlob, append_assoc, append_assoc] at hblob
  obtain ⟨hheader, -, hrest⟩ := lawful_blockHeader.write_inj (write_blockHeader _) (write_blockHeader _) hblob
  obtain ⟨hroot, hcount⟩ := append_inj hrest (by rw [Pod.size, Pod.size])
  obtain ⟨hlen, -⟩ := @writeVarint_inj 64 _ _ [] [] (by omega) (by omega) (congrArg (· ++ []) hcount)
  refine ⟨hheader, by omega, ?_⟩
  exact (pod_append_inj (congrArg (· ++ nullHash.bytes) hroot)).1

/-- **A block id commits to the block**: header, miner transaction hash and list of transaction hashes. -/
theorem blockHash_commits (cnFastHash : Bytes → Hash) (getTransactionHash : Transaction → Hash) {a b : Block}
    (ha : a.txHashes.length < 2 ^ 28) (hb : b.txHashes.length < 2 ^ 28) (hinj : Set.InjOn cnFastHash
      {x | x ∈ hashedStrings cnFastHash getTransactionHash a ∨ x ∈ hashedStrings cnFastHash getTransactionHash b})
    (h : getBlockHash cnFastHash getTransactionHash none a = getBlockHash cnFastHash getTransactionHash none b) :
    a.toBlockHeader = b.toBlockHeader ∧ getTransactionHash a.minerTx = getTransactionHash b.minerTx ∧
      a.txHashes = b.txHashes := by
  have hstring :=
    hinj (.inl mem_cons_self) (.inr mem_cons_self) h
  obtain ⟨hheader, hlen, hroot⟩ := blockString_inj ha hb hstring
  have hleaves : txsIds getTransactionHash a = txsIds getTransactionHash b := by
    refine treeHash_injOn (hashPair_injOn hinj) ?_ ?_ ?_ (fun p hp => ?_) (fun p hp => ?_) hroot
    · simp [txsIds, hlen]
    · simp [txsIds]
    · rw [txsIds, length_cons]
      omega
    · exact .inl (mem_cons_of_mem _ (List.mem_map.2 ⟨p, hp, rfl⟩))
    · exact .inr (mem_cons_of_mem _ (List.mem_map.2 ⟨p, hp, rfl⟩))
  simp only [txsIds, cons.injEq] at hleaves
  exact ⟨hheader, hleaves⟩

end

def twoTxBlock (minerTx : Transaction) : Block :=
  { emptyBlock with minerTx := minerTx, txHashes := [Env.plainKey 1, Env.plainKey 2] }

theorem twoTxBlock_commits : (twoTxBlock emptyTx).toBlockHeader = (twoTxBlock ringTx).toBlockHeader ∧
      Env.plainKey 9 = (Env.plainKey 9 : Hash) ∧ (twoTxBlock emptyTx).txHashes = (twoTxBlock ringTx).txHashes := by
  have hsame : hashedStrings Env.plainHash (fun _ => Env.plainKey 9) (twoTxBlock ringTx) =
      hashedStrings Env.plainHash (fun _ => Env.plainKey 9) (twoTxBlock emptyTx) := rfl
  have htold : ∀ x ∈ hashedStrings Env.plainHash (fun _ => Env.plainKey 9) (twoTxBlock emptyTx),
      ∀ y ∈ hashedStrings Env.plainHash (fun _ => Env.plainKey 9) (twoTxBlock emptyTx),
      Env.plainHash x = Env.plainHash y → x = y := by decide +kernel
  refine blockHash_commits Env.plainHash (fun _ => Env.plainKey 9) (by decide) (by decide) (fun x hx y hy h => ?_) rfl
  rw [Set.mem_ofPred_eq, hsame, or_self] at hx hy
  exact htold x hx y hy h

end Electronero.Wire
