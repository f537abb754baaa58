import Electronero.Basic
import Electronero.Core.TxFormat
/-!
# Blobs and what they denote

Blobs with padded or unfinished integers are accepted as well (`paddedTxBlob_accepted`).
-/
namespace Electronero.Wire
open Text Codec Codec.Format Archive

def RctSigBase.onWire (r : RctSigBase) : RctSigBase :=
  if r.type = rctTypeNull then {} else { r with pseudoOuts := if r.type = rctTypeSimple then r.pseudoOuts else [] }

def RctSigPrunable.onWire (type : UInt8) (p : RctSigPrunable) : RctSigPrunable :=
  if type = rctTypeNull then {}
  else
    { rangeSigs := if isBulletproof type then [] else p.rangeSigs
      bulletproofs := if isBulletproof type then p.bulletproofs else []
      MGs := p.MGs
      pseudoOuts := if type = rctTypeSimpleBulletproof then p.pseudoOuts else [] }

def RctSig.onWire (r : RctSig) : RctSig := ⟨r.toRctSigBase.onWire, r.p.onWire r.type⟩

def Transaction.onWire (tx : Transaction) : Transaction :=
  if tx.version = 1 then ⟨tx.toTransactionPrefix, expandSignatures tx.vin tx.signatures, {}⟩
  else if tx.vin = [] then ⟨tx.toTransactionPrefix, [], {}⟩
  else ⟨tx.toTransactionPrefix, [], tx.rctSignatures.onWire⟩

def Block.onWire (b : Block) : Block := { b with minerTx := b.minerTx.onWire }

theorem lawful_key : Lawful key id := lawful_blob 32

theorem positive_key : key.Positive := positive_blob (by decide)

theorem lawful_txoutToScript : Lawful (txoutToScript true) id :=
  ((lawful_container (lawful_blob 32) positive_key).seq_id fun _ => lawful_container lawful_byte positive_byte).part_id
    (fun _ => rfl) fun _ _ h => by cases h; rfl

theorem lawful_txoutTarget : Lawful (txoutTarget true) id := by
  refine lawful_byte.tagged (fun t => ?_) fun t a w h => ?_
  · refine lawful_ite_id (lawful_txoutToScript.part_id (fun _ => rfl) ?_) (lawful_ite_id
      ((lawful_blob 32).part_id (fun _ => rfl) ?_) (lawful_ite_id ((lawful_blob 32).part_id (fun _ => rfl) ?_)
      (lawful_fail id)))
    all_goals
      rintro (_ | _ | _) _ h <;> cases h
      rfl
  · unfold TxoutTarget.body at h
    split_ifs at h with h0 h1 h2
    all_goals cases a <;> simp_all [Format.part, TxoutTarget.tag, fail]

theorem lawful_txOut : Lawful (txOut true) id :=
  (lawful_varint64.seq_id fun _ => lawful_txoutTarget).part_id (fun _ => rfl) fun _ _ h => by cases h; rfl

theorem positive_txOut : (txOut true).Positive := (positive_varint64.seq _).part _ _

theorem lawful_txIn : Lawful (txIn true) id := by
  have hbytes := lawful_container lawful_byte positive_byte
  refine lawful_byte.tagged (fun t => ?_) fun t a w h => ?_
  · refine lawful_ite_id (lawful_varint64.part_id (fun _ => rfl) ?_) (lawful_ite_id
      (((lawful_blob 32).seq_id fun _ => lawful_varint64.seq_id fun _ => hbytes).part_id (fun _ => rfl) ?_)
      (lawful_ite_id (((lawful_blob 32).seq_id fun _ => lawful_varint64.seq_id fun _ =>
        lawful_txoutToScript.seq_id fun _ => hbytes).part_id (fun _ => rfl) ?_)
      (lawful_ite_id ((lawful_varint64.seq_id fun _ =>
        (lawful_container lawful_varint64 positive_varint64).seq_id fun _ => lawful_blob 32).part_id (fun _ => rfl) ?_)
      (lawful_fail id))))
    all_goals
      rintro (_ | _ | _ | _) _ h <;> cases h
      rfl
  · unfold TxIn.body at h
    split_ifs at h with h0 h1 h2 h3
    all_goals cases a <;> simp_all [Format.part, TxIn.tag, fail]

theorem positive_txIn : (txIn true).Positive := positive_byte.tagged _ _

theorem lawful_transactionPrefix : Lawful (transactionPrefix true) id :=
  ((lawful_varint64.guard fun _ => rfl).seq_id fun _ => lawful_varint64.seq_id fun _ =>
    (lawful_container lawful_txIn positive_txIn).seq_id fun _ =>
    (lawful_container lawful_txOut positive_txOut).seq_id fun _ =>
    lawful_container lawful_byte positive_byte).part_id (fun _ => rfl) fun _ _ h => by cases h; rfl

theorem lawful_ecdhTuple : Lawful ecdhTuple id :=
  (lawful_key.seq_id fun _ => lawful_key).part_id (fun _ => rfl) fun _ _ h => by cases h; rfl

theorem lawful_rangeSig : Lawful rangeSig id :=
  ((lawful_blob 4128).seq_id fun _ => lawful_blob 2048).part_id (fun _ => rfl) fun _ _ h => by cases h; rfl

theorem lawful_bulletproof : Lawful (bulletproof true) id := by
  have hkeys := lawful_container lawful_key positive_key
  refine Lawful.guard (Lawful.part_id ?_ ?_ ?_) fun _ => rfl
  rotate_left
  · exact fun _ => rfl
  · intro _ _ h
    cases h
    rfl
  exact lawful_key.seq_id fun _ => lawful_key.seq_id fun _ => lawful_key.seq_id fun _ => lawful_key.seq_id fun _ =>
    lawful_key.seq_id fun _ => lawful_key.seq_id fun _ => hkeys.seq_id fun _ => hkeys.seq_id fun _ =>
    lawful_key.seq_id fun _ => lawful_key.seq_id fun _ => lawful_key

theorem lawful_mgSig (type : UInt8) (inputs : Nat) (mixin : UInt64) : Lawful (mgSig type inputs mixin) id :=
  (((lawful_key.times_id _).times_id _).seq_id fun _ => lawful_key).part_id (fun _ => rfl)
    fun _ _ h => by cases h; rfl

variable {p : Prop} {blob : Bytes} {tx : Transaction}

theorem lawful_optional {α : Type} [Decidable p] {f : Format UInt8 (List α)} (hf : Lawful f id) :
    Lawful (if p then f else absent []) fun l => if p then l else [] := by
  split
  · exact hf
  · exact lawful_absent []

theorem lawful_optional_not {α : Type} [Decidable p] {f : Format UInt8 (List α)} (hf : Lawful f id) :
    Lawful (if p then absent [] else f) fun l => if p then [] else l := by
  split
  · exact lawful_absent []
  · exact hf

theorem lawful_rctsigBaseBody (inputs outputs : Nat) (type : UInt8) :
    Lawful (rctsigBaseBody true inputs outputs type) fun q =>
      if type = rctTypeNull then (0, [], [], [])
      else (q.1, if type = rctTypeSimple then q.2.1 else [], q.2.2.1, q.2.2.2) := by
  unfold rctsigBaseBody
  by_cases h : type = rctTypeNull
  · simp only [h, if_true]
    exact lawful_absent _
  · simp only [h, if_false]
    split
    · exact lawful_varint64.seq (fun _ => (lawful_optional (lawful_key.times_id inputs)).seq
        (fun _ => (lawful_ecdhTuple.times_id outputs).seq_id fun _ => lawful_key.times_id outputs) fun _ => rfl)
        fun _ => rfl
    · exact lawful_fail _

theorem lawful_rctsigBase (inputs outputs : Nat) : Lawful (rctsigBase true inputs outputs) RctSigBase.onWire := by
  refine (lawful_byte.seq (lawful_rctsigBaseBody inputs outputs) fun _ => rfl).part (fun _ _ _ => rfl) ?_
  grind [rctTypeNull, RctSigBase.onWire]

theorem lawful_rctsigPrunable (type : UInt8) (inputs outputs : Nat) (mixin : UInt64) :
    Lawful (rctsigPrunable true type inputs outputs mixin) (RctSigPrunable.onWire type) := by
  unfold rctsigPrunable
  by_cases h : type = rctTypeNull
  · simp only [h, if_true]
    exact (lawful_absent _).congr fun p => by simp [RctSigPrunable.onWire]
  · simp only [h, if_false]
    split
    · refine ((lawful_optional_not (lawful_rangeSig.times_id outputs)).seq (fun _ =>
        (lawful_optional (lawful_bulletproof.times_id outputs)).seq (fun _ =>
        ((lawful_mgSig type inputs mixin).times_id _).seq (fun _ => lawful_optional (lawful_key.times_id inputs))
        fun _ => rfl) fun _ => rfl) fun _ => rfl).part (fun _ _ _ => rfl) ?_
      grind [RctSigPrunable.onWire]
    · exact lawful_fail _

theorem RctSigBase.onWire_type (r : RctSigBase) : r.onWire.type = r.type := by
  unfold RctSigBase.onWire
  split
  · next h => exact h.symm
  · rfl

theorem lawful_rctSig (p : TransactionPrefix) : Lawful (rctSig true p) RctSig.onWire := by
  refine ((lawful_rctsigBase _ _).seq (fun b => lawful_rctsigPrunable b.type _ _ _) fun b => ?_).part
    (fun _ _ _ => rfl) ?_
  · rw [RctSigBase.onWire_type]
  · rintro ⟨b, p⟩ _ h
    cases h
    rfl

theorem lawful_signatures (vin : List TxIn) : Lawful (signatures vin) (expandSignatures vin) := by
  have heach : Lawful (each (vin.map fun i => (blob 64).times (getSignatureSize i))) id := by
    rw [← List.map_id_fun]
    refine lawful_each fun f hf => ?_
    obtain ⟨i, -, rfl⟩ := List.mem_map.1 hf
    exact (lawful_blob 64).times_id _
  refine heach.part (fun sigs w hw => ?_) fun sigs _ h => by cases h; rfl
  -- an empty list is only written where there is no input
  have hlen := length_of_write_each hw
  rw [List.length_map] at hlen
  unfold expandSignatures
  split
  · next h =>
    obtain rfl : sigs = [] := h.1
    obtain rfl := List.eq_nil_of_length_eq_zero hlen.symm
    rfl
  · rfl

theorem lawful_transactionBody (p : TransactionPrefix) : Lawful (transactionBody true p) fun q =>
      if p.version = 1 then (expandSignatures p.vin q.1, {}) else if p.vin = [] then ([], {}) else ([], q.2.onWire) := by
  unfold transactionBody
  split
  · refine (lawful_signatures p.vin).part (fun _ _ _ => rfl) fun q _ h => by cases h; rfl
  · split
    · exact lawful_absent _
    · exact (lawful_rctSig p).part (fun _ _ _ => rfl) fun q _ h => by cases h; rfl

theorem lawful_transaction : Lawful (transaction true) Transaction.onWire := by
  refine (lawful_transactionPrefix.seq lawful_transactionBody fun _ => rfl).part (fun _ _ _ => rfl) ?_
  grind [Transaction.onWire]

theorem lawful_blockHeader : Lawful (blockHeader true) id :=
  (lawful_varint8.seq_id fun _ => lawful_varint8.seq_id fun _ => lawful_varint64.seq_id fun _ =>
    (lawful_blob 32).seq_id fun _ => lawful_uint32).part_id (fun _ => rfl) fun _ _ h => by cases h; rfl

theorem lawful_block : Lawful (block true) Block.onWire := by
  refine (lawful_blockHeader.seq (fun _ => lawful_transaction.seq
    (fun _ => lawful_container (lawful_blob 32) positive_key) fun _ => rfl) fun _ => rfl).part (fun _ _ _ => rfl) ?_
  rintro ⟨hd, tx, hashes⟩ _ h
  cases h
  rfl

/-! ## The archive of the code reads all that the checked one does -/

theorem le_txoutToScript : (txoutToScript true).Le (txoutToScript false) :=
  ((le_container .rfl).seq fun _ => le_container .rfl).part _ _

theorem le_txoutTarget : (txoutTarget true).Le (txoutTarget false) :=
  Le.rfl.tagged fun _ => (le_txoutToScript.part _ _).ite .rfl

theorem le_txOut : (txOut true).Le (txOut false) := (le_varint64.seq fun _ => le_txoutTarget).part _ _

theorem le_txIn : (txIn true).Le (txIn false) := by
  have hbytes : (container true byte).Le (container false byte) := le_container .rfl
  refine Le.rfl.tagged fun _ => (le_varint64.part _ _).ite <| Le.ite ?_ <| Le.ite ?_ <| Le.ite ?_ .rfl
  · exact (Le.rfl.seq fun _ => le_varint64.seq fun _ => hbytes).part _ _
  · exact (Le.rfl.seq fun _ => le_varint64.seq fun _ => le_txoutToScript.seq fun _ => hbytes).part _ _
  · exact (le_varint64.seq fun _ => (le_container le_varint64).seq fun _ => .rfl).part _ _

theorem le_transactionPrefix : (transactionPrefix true).Le (transactionPrefix false) :=
  ((le_varint64.guard _).seq fun _ => le_varint64.seq fun _ => (le_container le_txIn).seq fun _ =>
    (le_container le_txOut).seq fun _ => le_container .rfl).part _ _

theorem le_bulletproof : (bulletproof true).Le (bulletproof false) :=
  ((Le.rfl.seq fun _ => Le.rfl.seq fun _ => Le.rfl.seq fun _ => Le.rfl.seq fun _ => Le.rfl.seq fun _ =>
    Le.rfl.seq fun _ => (le_container .rfl).seq fun _ => (le_container .rfl).seq fun _ => .rfl).part _ _).guard _

theorem le_rctsigBase (inputs outputs : Nat) : (rctsigBase true inputs outputs).Le (rctsigBase false inputs outputs) :=
  (Le.rfl.seq fun _ => Le.rfl.ite <| (le_varint64.seq fun _ => .rfl).ite .rfl).part _ _

theorem le_rctsigPrunable (type : UInt8) (inputs outputs : Nat) (mixin : UInt64) :
    (rctsigPrunable true type inputs outputs mixin).Le (rctsigPrunable false type inputs outputs mixin) :=
  Le.rfl.ite <| ((Le.rfl.seq fun _ => ((le_bulletproof.times outputs).ite .rfl).seq fun _ => .rfl).part _ _).ite .rfl

theorem le_transaction : (transaction true).Le (transaction false) :=
  (le_transactionPrefix.seq fun _ => Le.rfl.ite <| Le.rfl.ite <|
    (((le_rctsigBase _ _).seq fun b => le_rctsigPrunable b.type _ _ _).part _ _).part _ _).part _ _

theorem le_blockHeader : (blockHeader true).Le (blockHeader false) :=
  (le_varint8.seq fun _ => le_varint8.seq fun _ => le_varint64.seq fun _ => .rfl).part _ _

theorem le_block : (block true).Le (block false) :=
  (le_blockHeader.seq fun _ => le_transaction.seq fun _ => le_container .rfl).part _ _

theorem parseWhole_eq_some {α : Type} {f : Format UInt8 α} {a : α} :
    parseWhole f blob = some a ↔ f.read blob = some (a, []) := by
  unfold parseWhole
  grind

theorem of_parseAndValidateTxFromBlob (h : parseAndValidateTxFromBlob blob = some tx) :
    (transaction false).read blob = some (tx, []) := by
  obtain ⟨tx', hparse, h⟩ := Option.bind_eq_some_iff.1 h
  grind [parseWhole_eq_some]

def VarintsSound {α : Type} (f : Bool → Format UInt8 α) (blob : Bytes) : Prop := ((f true).read blob).isSome

instance {α : Type} (f : Bool → Format UInt8 α) (blob : Bytes) : Decidable (VarintsSound f blob) :=
  inferInstanceAs (Decidable (_ = true))

theorem write_eq_iff_varintsSound {α : Type} {f : Bool → Format UInt8 α} {nf : α → α} (hf : Lawful (f true) nf)
    (hle : (f true).Le (f false)) {a : α} (h : (f false).read blob = some (a, [])) :
    (f false).write a = some blob ↔ VarintsSound f blob := by
  rw [hle.write_eq_iff hf h, VarintsSound]
  constructor
  · intro hr
    rw [hr]
    rfl
  · intro hs
    obtain ⟨r, hr⟩ := Option.isSome_iff_exists.1 hs
    have := hle.read_le hr
    rw [h] at this
    rw [hr, this]

/-- **The blobs that are the blob of what they denote** are those with sound variable-length integers. -/
theorem blob_canonical_iff (blob blob' : Bytes) :
    (∀ tx, parseAndValidateTxFromBlob blob = some tx → (txToBlob tx = some blob ↔ VarintsSound transaction blob)) ∧
    (∀ b, parseAndValidateBlockFromBlob blob = some b → (blockToBlob b = some blob ↔ VarintsSound block blob)) ∧
    (∀ tx, parseAndValidateTxFromBlob blob = some tx → parseAndValidateTxFromBlob blob' = some tx →
      VarintsSound transaction blob → VarintsSound transaction blob' → blob = blob') ∧
    (∀ b, parseAndValidateBlockFromBlob blob = some b → parseAndValidateBlockFromBlob blob' = some b →
      VarintsSound block blob → VarintsSound block blob' → blob = blob') := by
  have htx : ∀ blob tx, parseAndValidateTxFromBlob blob = some tx →
      (txToBlob tx = some blob ↔ VarintsSound transaction blob) := fun blob tx h =>
    write_eq_iff_varintsSound lawful_transaction le_transaction (of_parseAndValidateTxFromBlob h)
  have hblock : ∀ blob b, parseAndValidateBlockFromBlob blob = some b →
      (blockToBlob b = some blob ↔ VarintsSound block blob) := fun blob b h =>
    write_eq_iff_varintsSound lawful_block le_block (parseWhole_eq_some.1 h)
  grind

def emptyTx : Transaction := { version := 1, unlockTime := 0, vin := [], vout := [], extra := [] }

def emptyBlock : Block :=
  { majorVersion := 1, minorVersion := 0, timestamp := 0, prevId := default, nonce := 0, minerTx := emptyTx,
    txHashes := [] }

theorem emptyTx_canonical :
    parseAndValidateTxFromBlob [1, 0, 0, 0, 0] = some emptyTx ∧ txToBlob emptyTx = some [1, 0, 0, 0, 0] :=
  ⟨by decide +kernel, ((blob_canonical_iff _ []).1 emptyTx (by decide +kernel)).2 (by decide +kernel)⟩

/-- The unlock time as `80 00`, an error to `read_varint`; or the blob cut off behind the version, where every integer
that is missing reads as zero. -/
theorem paddedTxBlob_accepted :
    parseAndValidateTxFromBlob [1, 0x80, 0, 0, 0, 0] = some emptyTx ∧ parseAndValidateTxFromBlob [1] = some emptyTx ∧
    txToBlob emptyTx ≠ some [1, 0x80, 0, 0, 0, 0] ∧ txToBlob emptyTx ≠ some [1] ∧
    (∃ blob, blockToBlob emptyBlock = some blob ∧ parseAndValidateBlockFromBlob blob = some emptyBlock ∧
      parseAndValidateBlockFromBlob blob.dropLast = some emptyBlock ∧ blob.dropLast ≠ blob) := by
  refine ⟨by decide +kernel, by decide +kernel, by decide +kernel, by decide +kernel, ?_⟩
  exact ⟨(blockToBlob emptyBlock).get (by decide +kernel), by decide +kernel, by decide +kernel, by decide +kernel,
    by decide +kernel⟩

theorem read_of_write {α : Type} {f : Bool → Format UInt8 α} {nf : α → α} (hf : Lawful (f true) nf)
    (hle : (f true).Le (f false)) {a : α} (h : (f false).write a = some blob) :
    (f false).read blob = some (nf a, []) ∧ (f false).write (nf a) = some blob := by
  have hw : (f true).write a = some blob := (hle.write_eq a).trans h
  have hread := hf.complete hw []
  rw [List.append_nil] at hread
  exact ⟨hle.read_le hread, (hle.write_eq _).symm.trans (hf.write_nf hw).1⟩

theorem Transaction.toTransactionPrefix_onWire (tx : Transaction) : tx.onWire.toTransactionPrefix = tx.toTransactionPrefix := by
  unfold Transaction.onWire
  split_ifs <;> rfl

theorem Transaction.onWire_signatures (h : tx.version = 1) :
    tx.onWire.signatures = tx.signatures ∨ tx.signatures = [] ∧ tx.onWire.signatures = tx.vin.map fun _ => [] := by
  unfold Transaction.onWire expandSignatures
  grind

structure RctSig.Agree (r r' : RctSig) : Prop where
  type : r'.type = r.type
  carried : r.type ≠ rctTypeNull →
    r'.txnFee = r.txnFee ∧ r'.ecdhInfo = r.ecdhInfo ∧ r'.outPk = r.outPk ∧ r'.p.MGs = r.p.MGs
  pseudoOuts : r.type = rctTypeSimple → r'.pseudoOuts = r.pseudoOuts
  prunablePseudoOuts : r.type = rctTypeSimpleBulletproof → r'.p.pseudoOuts = r.p.pseudoOuts
  bulletproofs : isBulletproof r.type → r'.p.bulletproofs = r.p.bulletproofs
  rangeSigs : r.type = rctTypeFull ∨ r.type = rctTypeSimple → r'.p.rangeSigs = r.p.rangeSigs

theorem RctSig.agree_onWire (r : RctSig) : r.Agree r.onWire := by
  obtain ⟨⟨type, fee, pseudo, ecdh, out⟩, p⟩ := r
  refine ⟨RctSigBase.onWire_type _, fun h => ?_, fun h => ?_, fun h => ?_, fun h => ?_, fun h => ?_⟩
  · simp_all [RctSig.onWire, RctSigBase.onWire, RctSigPrunable.onWire]
  · obtain rfl : type = rctTypeSimple := h
    rfl
  · obtain rfl : type = rctTypeSimpleBulletproof := h
    rfl
  · have hnull : type ≠ rctTypeNull := by
      rintro rfl
      cases h
    simp_all [RctSig.onWire, RctSigPrunable.onWire]
  · rcases h with h | h
    · obtain rfl : type = rctTypeFull := h
      rfl
    · obtain rfl : type = rctTypeSimple := h
      rfl

theorem Transaction.onWire_rctSignatures (h : tx.version ≠ 1) (hvin : tx.vin ≠ []) :
    tx.onWire.rctSignatures = tx.rctSignatures.onWire := by
  rw [Transaction.onWire, if_neg h, if_neg hvin]

theorem write_rctSig (h : tx.version ≠ 1) (hvin : tx.vin ≠ []) (hw : txToBlob tx = some blob) :
    ∃ w, (rctSig false tx.toTransactionPrefix).write tx.rctSignatures = some w := by
  simp only [txToBlob, transaction, Format.part, Format.seq, transactionBody, if_neg h, if_neg hvin,
    Option.bind_some] at hw
  obtain ⟨_, -, hw⟩ := Option.bind_eq_some_iff.1 hw
  obtain ⟨w, hw, -⟩ := Option.map_eq_some_iff.1 hw
  exact ⟨w, hw⟩

theorem calculateTransactionHashV2_onWire (cnFastHash : Bytes → Hash) {p : TransactionPrefix} {r : RctSig} {w : Bytes}
    (hw : (rctSig false p).write r = some w) :
    calculateTransactionHashV2 cnFastHash p r.onWire = calculateTransactionHashV2 cnFastHash p r := by
  obtain ⟨u, hu, hw⟩ := Option.bind_eq_some_iff.1 hw
  obtain ⟨v, hv, -⟩ := Option.map_eq_some_iff.1 hw
  have hbase : (rctsigBase false p.vin.length p.vout.length).write r.toRctSigBase.onWire = some u := by
    rw [← (le_rctsigBase _ _).write_eq] at hu ⊢
    exact ((lawful_rctsigBase _ _).write_nf hu).1
  have hprunable : (rctsigPrunable false r.type p.vin.length p.vout.length (mixin p.vin)).write
      (r.p.onWire r.type) = some v := by
    rw [← (le_rctsigPrunable _ _ _ _).write_eq] at hv ⊢
    exact ((lawful_rctsigPrunable _ _ _ _).write_nf hv).1
  have htype : r.onWire.type = r.type := RctSigBase.onWire_type _
  have hthird : prunableHash cnFastHash p r.onWire = prunableHash cnFastHash p r := by
    rw [prunableHash, prunableHash, htype, hv]
    exact if_congr Iff.rfl rfl (congrArg _ hprunable)
  rw [calculateTransactionHashV2, calculateTransactionHashV2, hthird, hu]
  exact congrArg _ (funext fun _ => congrArg (Option.bind · _) hbase)

theorem calculateTransactionHash_onWire (cnFastHash : Bytes → Hash) (hw : txToBlob tx = some blob)
    (h : tx.version = 1 ∨ tx.vin ≠ [] ∨ tx.rctSignatures.type = rctTypeNull) :
    calculateTransactionHash cnFastHash tx.onWire = calculateTransactionHash cnFastHash tx := by
  have hpre := tx.toTransactionPrefix_onWire
  have hversion : tx.onWire.version = tx.version := congrArg TransactionPrefix.version hpre
  unfold calculateTransactionHash
  rw [hversion, hpre]
  by_cases h1 : tx.version = 1
  · have hwire : txToBlob tx.onWire = some blob := (read_of_write lawful_transaction le_transaction hw).2
    rw [if_pos h1, if_pos h1, hw, hwire]
  · rw [if_neg h1, if_neg h1]
    by_cases hnil : tx.vin = []
    · have hnull : tx.rctSignatures.type = rctTypeNull := by grind
      have hr : tx.onWire.rctSignatures = {} := by rw [Transaction.onWire, if_neg h1, if_pos hnil]
      rw [hr]
      simp [calculateTransactionHashV2, prunableHash, rctsigBase, Format.part, Format.seq, rctsigBaseBody, hnull,
        absent]
    · grind [write_rctSig, Transaction.onWire_rctSignatures, calculateTransactionHashV2_onWire]

/-- **Blobs are read back**, as far as the wire carries a value, and to the same hash where the transaction has inputs or
no ring signature. -/
theorem blob_roundTrips : (∀ tx blob, txToBlob tx = some blob → ∃ tx',
      parseWhole (transaction false) blob = some tx' ∧ txToBlob tx' = some blob ∧
      tx'.toTransactionPrefix = tx.toTransactionPrefix ∧
      (tx.version = 1 →
        tx'.signatures = tx.signatures ∨ tx.signatures = [] ∧ tx'.signatures = tx.vin.map fun _ => []) ∧
      (tx.version ≠ 1 → tx.vin ≠ [] → tx.rctSignatures.Agree tx'.rctSignatures) ∧
      (tx.version = 1 ∨ tx.vin ≠ [] ∨ tx.rctSignatures.type = rctTypeNull →
        ∀ cnFastHash, calculateTransactionHash cnFastHash tx' = calculateTransactionHash cnFastHash tx)) ∧
    (∀ b blob, blockToBlob b = some blob → ∃ b',
      parseAndValidateBlockFromBlob blob = some b' ∧ blockToBlob b' = some blob ∧
      b'.toBlockHeader = b.toBlockHeader ∧ b'.minerTx = b.minerTx.onWire ∧ b'.txHashes = b.txHashes) := by
  refine ⟨fun tx blob h => ?_, fun b blob h => ?_⟩
  · obtain ⟨hread, hwrite⟩ := read_of_write lawful_transaction le_transaction h
    refine ⟨tx.onWire, parseWhole_eq_some.2 hread, hwrite, tx.toTransactionPrefix_onWire,
      Transaction.onWire_signatures, fun h1 hvin => ?_, fun hv cnFastHash => ?_⟩
    · rw [Transaction.onWire_rctSignatures h1 hvin]
      exact RctSig.agree_onWire _
    · exact calculateTransactionHash_onWire cnFastHash h hv
  · obtain ⟨hread, hwrite⟩ := read_of_write lawful_block le_block h
    exact ⟨b.onWire, parseWhole_eq_some.2 hread, hwrite, rfl, rfl, rfl⟩

def ringTx : Transaction :=
  { version := 2, unlockTime := 0, vin := [.toKey 0 [5] default], vout := [], extra := []
    rctSignatures :=
      { type := rctTypeSimple, txnFee := 300, pseudoOuts := [default]
        p := { MGs := [⟨[[default, default]], default⟩] } } }

theorem ringTx_roundTrips : ∃ blob, txToBlob ringTx = some blob ∧ ∃ tx',
    parseWhole (transaction false) blob = some tx' ∧ txToBlob tx' = some blob :=
  have hw : txToBlob ringTx = some ((txToBlob ringTx).get (by decide +kernel)) := by simp
  ⟨_, hw, (blob_roundTrips.1 ringTx _ hw).imp fun _ h => ⟨h.1, h.2.1⟩⟩

def unsignedCoinbase : Transaction := { emptyTx with vin := [.gen 0] }

def inputlessTx : Transaction :=
  { emptyTx with version := 2, rctSignatures := { type := rctTypeFull, p := { MGs := [⟨[[default]], Env.plainKey 1⟩] } } }

/-- The signatures of a miner transaction come back as one empty list, and a transaction without inputs comes back with
another hash. -/
theorem blob_loses_signatures :
    txToBlob unsignedCoinbase = some [1, 0, 1, 0xff, 0, 0, 0] ∧ unsignedCoinbase.signatures = [] ∧
    (parseWhole (transaction false) [1, 0, 1, 0xff, 0, 0, 0]).map Transaction.signatures = some [[]] ∧
    txToBlob inputlessTx = some [2, 0, 0, 0, 0] ∧
    (parseWhole (transaction false) [2, 0, 0, 0, 0]).map (calculateTransactionHash fun bs => Env.plainHash bs.reverse) ≠
      some (calculateTransactionHash (fun bs => Env.plainHash bs.reverse) inputlessTx) := by
  decide +kernel

end Electronero.Wire
