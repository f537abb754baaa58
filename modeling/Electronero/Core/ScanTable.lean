import Electronero.Core.OutputScan
import Electronero.Lib.ExceptLoop
import Electronero.Lib.PartialMap
import Electronero.Lib.Run
/-!
# The output scan table (`prepare_handle_incoming_blocks`, src/cryptonote_core/blockchain.cpp:4454-4642)

All offsets of an amount are sorted, looked up in one query that stops at the first missing one, and handed out to the
inputs by position. The table is used while the chain goes on; a pop clears it.
-/
namespace Electronero.Wire
open Text FiniteMap List

/-- The two ways out of `prepare_handle_incoming_blocks`; `badGet` is the exception of a `boost::get`. -/
inductive PrepareEnd where
  | returned (r : Bool)
  | badGet
deriving DecidableEq

def parseTx (txBlob : Bytes) : Except PrepareEnd (Option Transaction) :=
  match parseWhole (transaction false) txBlob with
  | none => .ok none
  | some tx =>
    match expandTransaction1 tx with
    | .expanded => .ok (some tx)
    | .badGet => .error .badGet
    | _ => .ok none

def sortUnique (l : List UInt64) : List UInt64 := (l.insertionSort (· ≤ ·)).dedup

structure Collected where
  scanTable : ScanTable
  amounts : List UInt64
  offsetMap : UInt64 → List UInt64

section
variable (prefixHash : TransactionPrefix → Hash)

def pushOffsets (offsetMap : UInt64 → List UInt64) (txin : TxinToKey) : UInt64 → List UInt64 :=
  Function.update offsetMap txin.amount (offsetMap txin.amount ++ txin.ring)

/-- An error is the end of the function with the table it leaves; `SCAN_TABLE_QUIT` clears it. The check for a key image
that occurs twice looks into the map that has just been created, and finds nothing. -/
def collectTx (c : Collected) (txBlob : Bytes) : Except (PrepareEnd × ScanTable) Collected :=
  match parseTx txBlob with
  | .error e => .error (e, c.scanTable)
  | .ok none => .error (.returned false, ∅)
  | .ok (some tx) =>
    let txPrefixHash := prefixHash tx.toTransactionPrefix
    if (c.scanTable.lookup txPrefixHash).isSome then .error (.returned false, ∅)
    else
      let scanTable := c.scanTable.insert txPrefixHash ∅
      match tx.vin.mapM TxIn.getToKey with
      | none => .error (.badGet, scanTable)
      | some inputs =>
        .ok ⟨scanTable, sortUnique (c.amounts ++ inputs.map TxinToKey.amount), inputs.foldl pushOffsets c.offsetMap⟩

def neededOutputs (offsets : List UInt64) (outputs : List OutputData) : List UInt64 → List OutputData
  | [] => []
  | offsetNeeded :: rest =>
    if offsetNeeded ∈ offsets then
      match outputs[offsets.idxOf offsetNeeded]? with
      | some output => output :: neededOutputs offsets outputs rest
      | none => []
    else []

def fillInput (offsetMap : UInt64 → List UInt64) (txMap : UInt64 → List OutputData)
    (images : UMap KeyImage (List OutputData)) (txin : TxinToKey) : UMap KeyImage (List OutputData) :=
  if (images.lookup txin.kImage).isSome then images
  else images.insert txin.kImage (neededOutputs (offsetMap txin.amount) (txMap txin.amount) txin.ring)

def fillTx (offsetMap : UInt64 → List UInt64) (txMap : UInt64 → List OutputData) (scanTable : ScanTable)
    (txBlob : Bytes) : Except (PrepareEnd × ScanTable) ScanTable :=
  match parseTx txBlob with
  | .error e => .error (e, scanTable)
  | .ok none => .error (.returned false, ∅)
  | .ok (some tx) =>
    match scanTable.lookup (prefixHash tx.toTransactionPrefix) with
    | none => .error (.returned false, ∅)
    | some images =>
      match tx.vin.mapM TxIn.getToKey with
      | none => .error (.badGet, scanTable)
      | some inputs =>
        .ok (scanTable.insert (prefixHash tx.toTransactionPrefix) (inputs.foldl (fillInput offsetMap txMap) images))

def overEntries {α ε : Type} (mCancel : Nat → Bool) (onCancel : α → ε) (f : α → Bytes → Except ε α) :
    Nat → List (List Bytes) → α → Except ε α
  | _, [], a => .ok a
  | n, txs :: entries, a =>
    if mCancel n then .error (onCancel a)
    else match txs.foldlM f a with
      | .error e => .error e
      | .ok a => overEntries mCancel onCancel f (n + 1) entries a

def collect (mCancel : Nat → Bool) (entries : List (List Bytes)) : Except (PrepareEnd × ScanTable) Collected :=
  overEntries mCancel (fun c => (.returned false, c.scanTable)) (collectTx prefixHash) 0 entries ⟨∅, [], fun _ => []⟩

def Collected.txMap (c : Collected) (db : OutputDb) (amount : UInt64) : List OutputData :=
  if amount ∈ c.amounts then db.getOutputKeys amount (sortUnique (c.offsetMap amount)) else []

def fill (db : OutputDb) (mCancel : Nat → Bool) (entries : List (List Bytes)) (c : Collected) :
    Except (PrepareEnd × ScanTable) ScanTable :=
  overEntries mCancel (fun scanTable => (.returned false, scanTable))
    (fillTx prefixHash (fun amount => sortUnique (c.offsetMap amount)) (c.txMap db)) 0 entries c.scanTable

def prepareScanTable (db : OutputDb) (mCancel mCancel' : Nat → Bool) (entries : List (List Bytes)) :
    PrepareEnd × ScanTable :=
  match collect prefixHash mCancel entries with
  | .error e => e
  | .ok c =>
    match fill prefixHash db mCancel' entries c with
    | .error e => e
    | .ok scanTable => (.returned true, scanTable)

def reached (mCancel : Nat → Bool) : Nat → List (List Bytes) → List Bytes
  | _, [] => []
  | n, txs :: entries => if mCancel n then [] else txs ++ reached mCancel (n + 1) entries

variable {mCancel : Nat → Bool} {entries : List (List Bytes)} {txBlob : Bytes} {l : List UInt64} {x amount i : UInt64}
  {db : OutputDb} {offsetMap : UInt64 → List UInt64} {c : Collected} {scanTable : ScanTable}

theorem mem_of_mem_reached {n : Nat} (h : txBlob ∈ reached mCancel n entries) : txBlob ∈ entries.flatten := by
  induction entries generalizing n with
  | nil => simp [reached] at h
  | cons txs entries ih =>
    rw [reached] at h
    grind

section
variable {α ε : Type} {mCancel : Nat → Bool} {onCancel : α → ε} {f : α → Bytes → Except ε α} {n : Nat}
  {entries : List (List Bytes)} {a : α}

theorem overEntries_ok {a' : α} (h : overEntries mCancel onCancel f n entries a = .ok a') :
    reached mCancel n entries = entries.flatten ∧ entries.flatten.foldlM f a = .ok a' := by
  induction entries generalizing n a with
  | nil => exact ⟨rfl, h⟩
  | cons txs entries ih =>
    rw [overEntries] at h
    split at h
    · cases h
    · rename_i hcancel
      cases hf : txs.foldlM f a with
      | error e =>
        rw [hf] at h
        cases h
      | ok a₁ =>
        rw [hf] at h
        obtain ⟨hreached, hfold⟩ := ih h
        rw [reached, if_neg hcancel, hreached, flatten_cons, foldlM_append, hf]
        exact ⟨rfl, hfold⟩

variable {e : ε}

theorem overEntries_error (h : overEntries mCancel onCancel f n entries a = .error e) :
    (∃ a', (reached mCancel n entries).foldlM f a = .ok a' ∧ e = onCancel a') ∨
      (reached mCancel n entries).foldlM f a = .error e := by
  induction entries generalizing n a with
  | nil => cases h
  | cons txs entries ih =>
    rw [overEntries] at h
    rw [reached]
    split at h
    · rename_i hcancel
      cases h
      exact .inl ⟨a, by rw [if_pos hcancel]; rfl, rfl⟩
    · rename_i hcancel
      rw [if_neg hcancel, foldlM_append]
      cases hf : txs.foldlM f a with
      | error e' =>
        rw [hf] at h
        cases h
        exact .inr rfl
      | ok a₁ =>
        rw [hf] at h
        exact ih h

theorem overEntries_of_error (h : (reached mCancel n entries).foldlM f a = .error e) :
    overEntries mCancel onCancel f n entries a = .error e := by
  cases ho : overEntries mCancel onCancel f n entries a with
  | ok a' =>
    obtain ⟨hreached, hfold⟩ := overEntries_ok ho
    rw [hreached, hfold] at h
    cases h
  | error e' =>
    rcases overEntries_error ho with ⟨a', hfold, -⟩ | hfold
    · rw [hfold] at h
      cases h
    · rw [hfold] at h
      cases h
      rfl

theorem overEntries_invariant {P : α → Prop} {Q : ε → Prop}
    (hok : ∀ blob ∈ entries.flatten, ∀ a a', P a → f a blob = .ok a' → P a')
    (herror : ∀ blob ∈ entries.flatten, ∀ a e, P a → f a blob = .error e → Q e) (hcancel : ∀ a, P a → Q (onCancel a))
    (ha : P a) : (∀ a', overEntries mCancel onCancel f n entries a = .ok a' → P a') ∧
      ∀ e, overEntries mCancel onCancel f n entries a = .error e → Q e := by
  refine ⟨fun a' h => (ExceptLoop.foldlM_invariant hok herror ha).1 a' (overEntries_ok h).2, fun e h => ?_⟩
  have hok' : ∀ blob ∈ reached mCancel n entries, ∀ a a', P a → f a blob = .ok a' → P a' := fun blob hblob =>
    hok blob (mem_of_mem_reached hblob)
  have herror' : ∀ blob ∈ reached mCancel n entries, ∀ a e, P a → f a blob = .error e → Q e := fun blob hblob =>
    herror blob (mem_of_mem_reached hblob)
  obtain ⟨hgone, hleft⟩ := ExceptLoop.foldlM_invariant hok' herror' ha
  rcases overEntries_error h with ⟨a', hfold, rfl⟩ | hfold
  · exact hcancel a' (hgone a' hfold)
  · exact hleft e hfold

end

theorem mem_sortUnique : x ∈ sortUnique l ↔ x ∈ l := by
  simp [sortUnique]

theorem sorted_sortUnique (l : List UInt64) : (sortUnique l).Pairwise (· ≤ ·) :=
  (pairwise_insertionSort _ l).sublist (dedup_sublist _)

theorem OutputDb.getOutputKey_none_mono {j : UInt64} (hij : i ≤ j)
    (h : db.getOutputKey amount i = none) : db.getOutputKey amount j = none := by
  rw [OutputDb.getOutputKey, List.getElem?_eq_none_iff] at h ⊢
  exact h.trans (UInt64.le_iff_toNat_le.1 hij)

theorem OutputDb.getElem?_getOutputKeys_idxOf (hsorted : l.Pairwise (· ≤ ·)) (hx : x ∈ l) :
    (db.getOutputKeys amount l)[l.idxOf x]? = db.getOutputKey amount x := by
  induction l with
  | nil => simp at hx
  | cons y l ih =>
    rw [pairwise_cons] at hsorted
    by_cases hxy : y = x
    · subst hxy
      rw [idxOf_cons_self]
      cases hy : db.getOutputKey amount y with
      | none => simp [OutputDb.getOutputKeys_cons_none hy]
      | some data => simp [OutputDb.getOutputKeys_cons_some hy]
    · have hmem : x ∈ l := (mem_cons.1 hx).resolve_left (Ne.symm hxy)
      rw [idxOf_cons_ne _ hxy]
      cases hy : db.getOutputKey amount y with
      | none => grind [OutputDb.getOutputKeys_cons_none, OutputDb.getOutputKey_none_mono]
      | some data =>
        rw [OutputDb.getOutputKeys_cons_some hy, Nat.succ_eq_add_one, getElem?_cons_succ]
        exact ih hsorted.2 hmem

theorem neededOutputs_eq {offsets ring : List UInt64}
    (hsorted : offsets.Pairwise (· ≤ ·)) (hring : ∀ i ∈ ring, i ∈ offsets) :
    neededOutputs offsets (db.getOutputKeys amount offsets) ring = db.getOutputKeys amount ring := by
  induction ring with
  | nil => rfl
  | cons i ring ih => grind [neededOutputs, OutputDb.getElem?_getOutputKeys_idxOf, OutputDb.getOutputKeys]

def Collected.Covers (c : Collected) (txBlob : Bytes) : Prop :=
  ∀ tx inputs, parseTx txBlob = .ok (some tx) → tx.vin.mapM TxIn.getToKey = some inputs → ∀ txin ∈ inputs,
    txin.amount ∈ c.amounts ∧ ∀ i ∈ txin.ring, i ∈ c.offsetMap txin.amount

theorem mem_foldl_pushOffsets {inputs : List TxinToKey} : i ∈ inputs.foldl pushOffsets offsetMap amount ↔
      i ∈ offsetMap amount ∨ ∃ txin ∈ inputs, txin.amount = amount ∧ i ∈ txin.ring := by
  induction inputs generalizing offsetMap with
  | nil => simp
  | cons txin inputs ih =>
    rw [foldl_cons, ih, exists_mem_cons_iff, ← or_assoc]
    refine or_congr_left ?_
    by_cases h : amount = txin.amount
    · subst h
      simp [pushOffsets]
    · simp [pushOffsets, Function.update_of_ne h, Ne.symm h]

theorem of_collectTx {c' : Collected} (h : collectTx prefixHash c txBlob = .ok c') :
    ∃ tx inputs, parseTx txBlob = .ok (some tx) ∧ tx.vin.mapM TxIn.getToKey = some inputs ∧
      c' = ⟨c.scanTable.insert (prefixHash tx.toTransactionPrefix) ∅,
        sortUnique (c.amounts ++ inputs.map TxinToKey.amount), inputs.foldl pushOffsets c.offsetMap⟩ := by
  unfold collectTx at h
  split at h
  · cases h
  · cases h
  · grind

theorem covers_of_collect
    (h : collect prefixHash mCancel entries = .ok c) : ∀ txBlob ∈ entries.flatten, c.Covers txBlob := by
  refine (ExceptLoop.foldlM_each (R := fun txBlob c => Collected.Covers c txBlob) (fun c blob c' hc => ?_)
    (fun c blob c' other ho hc => ?_) (overEntries_ok h).2).1
  · obtain ⟨tx, inputs, htx, hinputs, rfl⟩ := of_collectTx prefixHash hc
    intro tx' inputs' htx' hinputs' txin hin
    grind [mem_sortUnique, mem_foldl_pushOffsets]
  · obtain ⟨tx, inputs, -, -, rfl⟩ := of_collectTx prefixHash hc
    intro tx' inputs' htx' hinputs' txin hin
    obtain ⟨hamount, hring⟩ := ho tx' inputs' htx' hinputs' txin hin
    refine ⟨mem_sortUnique.2 (mem_append_left _ hamount), fun i hi => mem_foldl_pushOffsets.2 (.inl (hring i hi))⟩

def ScanTable.Sound (db : OutputDb) (batch : List Bytes) (scanTable : ScanTable) : Prop :=
  ∀ h kImage entry, scanTable.find h kImage = some entry →
    ∃ txBlob ∈ batch, ∃ tx inputs txin, parseTx txBlob = .ok (some tx) ∧ prefixHash tx.toTransactionPrefix = h ∧
      tx.vin.mapM TxIn.getToKey = some inputs ∧ inputs.find? (·.kImage = kImage) = some txin ∧
      entry = db.getOutputKeys txin.amount txin.ring

def ScanTable.Blank (scanTable : ScanTable) : Prop := ∀ h kImage, scanTable.find h kImage = none

theorem ScanTable.Blank.sound (h : scanTable.Blank) (db : OutputDb) (batch : List Bytes) :
    scanTable.Sound prefixHash db batch := by
  intro hash kImage entry hfind
  rw [h] at hfind
  cases hfind

theorem ScanTable.find_insert (scanTable : ScanTable) (h h' : Hash) (images : UMap KeyImage (List OutputData))
    (kImage : KeyImage) :
    ScanTable.find (scanTable.insert h images) h' kImage = if h' = h then images.lookup kImage else scanTable.find h' kImage := by
  rw [ScanTable.find, lookup_insert_ite]
  grind [ScanTable.find]

theorem ScanTable.Blank.insert (h : scanTable.Blank) (hash : Hash) : ScanTable.Blank (scanTable.insert hash ∅) := by
  intro h' kImage
  rw [ScanTable.find_insert]
  split
  · simp
  · exact h h' kImage

theorem blank_of_collectTx (hc : c.scanTable.Blank) :
    (∀ c', collectTx prefixHash c txBlob = .ok c' → c'.scanTable.Blank) ∧
      ∀ e, collectTx prefixHash c txBlob = .error e → e.2.Blank := by
  have hempty : ScanTable.Blank ∅ := ScanTable.find_empty
  refine ⟨fun c' h => ?_, fun e h => ?_⟩
  · obtain ⟨tx, inputs, -, -, rfl⟩ := of_collectTx prefixHash h
    exact hc.insert _
  · unfold collectTx at h
    split at h
    · cases h
      exact hc
    · cases h
      exact hempty
    · dsimp only at h
      split at h
      · cases h
        exact hempty
      · split at h
        · cases h
          exact hc.insert _
        · cases h

theorem lookup_foldl_fillInput (offsetMap : UInt64 → List UInt64) (txMap : UInt64 → List OutputData)
    (inputs : List TxinToKey) (images : UMap KeyImage (List OutputData)) (kImage : KeyImage) :
    (inputs.foldl (fillInput offsetMap txMap) images).lookup kImage =
      (images.lookup kImage).or ((inputs.find? (·.kImage = kImage)).map fun txin =>
        neededOutputs (offsetMap txin.amount) (txMap txin.amount) txin.ring) := by
  induction inputs generalizing images with
  | nil => simp
  | cons txin inputs ih =>
    rw [foldl_cons, ih, fillInput]
    by_cases hk : txin.kImage = kImage
    · subst hk
      cases hl : images.lookup txin.kImage with
      | none => simp
      | some entry => simp [hl]
    · rw [find?_cons_of_neg (by simpa using hk)]
      split
      · rfl
      · rw [Finmap.lookup_insert_of_ne _ (Ne.symm hk)]

theorem sound_of_fillTx {batch : List Bytes} {txMap : UInt64 → List OutputData}
    (hneeded : ∀ tx inputs, parseTx txBlob = .ok (some tx) → tx.vin.mapM TxIn.getToKey = some inputs → ∀ txin ∈ inputs,
      neededOutputs (offsetMap txin.amount) (txMap txin.amount) txin.ring = db.getOutputKeys txin.amount txin.ring)
    (hblob : txBlob ∈ batch) (hs : scanTable.Sound prefixHash db batch) :
    (∀ t, fillTx prefixHash offsetMap txMap scanTable txBlob = .ok t → ScanTable.Sound prefixHash db batch t) ∧
      ∀ e, fillTx prefixHash offsetMap txMap scanTable txBlob = .error e → e.2.Sound prefixHash db batch := by
  have hempty : ScanTable.Sound prefixHash db batch ∅ := ScanTable.Blank.sound _ ScanTable.find_empty _ _
  unfold fillTx
  split
  · grind
  · grind
  · rename_i tx htx
    split
    · grind
    · rename_i images himages
      split
      · grind
      · rename_i inputs hinputs
        refine ⟨fun t h => ?_, fun e h => by (cases h)⟩
        cases h
        intro h kImage entry hfind
        rw [ScanTable.find_insert] at hfind
        split at hfind
        · rename_i heq
          rw [lookup_foldl_fillInput, Option.or_eq_some_iff] at hfind
          rcases hfind with hold | ⟨-, hnew⟩
          · refine hs h kImage entry ?_
            grind [ScanTable.find]
          · obtain ⟨txin, hfirst, rfl⟩ := Option.map_eq_some_iff.1 hnew
            grind
        · exact hs h kImage entry hfind

theorem blank_of_collect (mCancel : Nat → Bool) (entries : List (List Bytes)) :
    (∀ c, collect prefixHash mCancel entries = .ok c → c.scanTable.Blank) ∧
      ∀ e, collect prefixHash mCancel entries = .error e → e.2.Blank := by
  unfold collect
  refine overEntries_invariant (P := fun c : Collected => c.scanTable.Blank)
    (Q := fun e : PrepareEnd × ScanTable => e.2.Blank) ?_ ?_ ?_ ?_
  · exact fun _ _ _ c' hc h => (blank_of_collectTx prefixHash hc).1 c' h
  · exact fun _ _ _ e hc h => (blank_of_collectTx prefixHash hc).2 e h
  · exact fun _ hc => hc
  · exact ScanTable.find_empty

theorem sound_of_fill {db : OutputDb} {mCancel : Nat → Bool} {entries : List (List Bytes)} {c : Collected}
    (hblank : c.scanTable.Blank) (hcovers : ∀ txBlob ∈ entries.flatten, c.Covers txBlob) :
    (∀ t, fill prefixHash db mCancel entries c = .ok t → ScanTable.Sound prefixHash db entries.flatten t) ∧
      ∀ e, fill prefixHash db mCancel entries c = .error e → e.2.Sound prefixHash db entries.flatten := by
  have hneeded : ∀ txBlob ∈ entries.flatten, ∀ tx inputs, parseTx txBlob = .ok (some tx) →
      tx.vin.mapM TxIn.getToKey = some inputs → ∀ txin ∈ inputs,
      neededOutputs (sortUnique (c.offsetMap txin.amount)) (c.txMap db txin.amount) txin.ring =
        db.getOutputKeys txin.amount txin.ring := by
    intro txBlob hblob tx inputs htx hinputs txin hin
    obtain ⟨hamount, hring⟩ := hcovers txBlob hblob tx inputs htx hinputs txin hin
    grind [Collected.txMap, neededOutputs_eq, sorted_sortUnique, mem_sortUnique]
  unfold fill
  refine overEntries_invariant (P := ScanTable.Sound prefixHash db entries.flatten)
    (Q := fun e : PrepareEnd × ScanTable => e.2.Sound prefixHash db entries.flatten) ?_ ?_ ?_ ?_
  · exact fun blob hblob _ t hs h => (sound_of_fillTx prefixHash (hneeded blob hblob) hblob hs).1 t h
  · exact fun blob hblob _ e hs h => (sound_of_fillTx prefixHash (hneeded blob hblob) hblob hs).2 e h
  · exact fun _ hs => hs
  · exact hblank.sound prefixHash db _

theorem prepareScanTable_sound (db : OutputDb) (mCancel mCancel' : Nat → Bool) (entries : List (List Bytes)) :
    (prepareScanTable prefixHash db mCancel mCancel' entries).2.Sound prefixHash db entries.flatten := by
  obtain ⟨hcollected, hended⟩ := blank_of_collect prefixHash mCancel entries
  unfold prepareScanTable
  split
  · rename_i e he
    exact (hended e he).sound prefixHash db _
  · rename_i c hc
    obtain ⟨hfilled, hquit⟩ := @sound_of_fill prefixHash db mCancel' entries c (hcollected c hc)
      (covers_of_collect prefixHash hc)
    grind

end

/-- A block of the main chain, as far as rings go: the transactions it has besides the miner's, and the outputs it
adds. -/
structure MainBlock where
  txs : List Transaction
  outputs : List (UInt64 × OutputData)

def outputsOf (blocks : List MainBlock) : OutputDb := fun amount =>
  ((blocks.flatMap MainBlock.outputs).filter (·.1 = amount)).map Prod.snd

/-- All rings are there: what `check_tx_inputs` asks of the transactions of a block before it is added, and what holds for
the blocks whose hash is compiled in. -/
def MainBlock.RingsIn (b : MainBlock) (db : OutputDb) : Prop :=
  ∀ tx ∈ b.txs, ∀ txin ∈ tx.toKeys, db.Has txin.amount txin.ring

structure Scanner where
  blocks : List MainBlock
  scanTable : ScanTable

/-- A reorganisation is a number of pops and additions; when it fails, more of them. -/
inductive ChainEvent where
  | add (b : MainBlock)
  | alternative (b : MainBlock)
  | pop

def Scanner.step (s : Scanner) : ChainEvent → Scanner
  | .add b => { s with blocks := s.blocks ++ [b] }
  | .alternative _ => s
  | .pop => ⟨s.blocks.dropLast, ∅⟩

theorem outputsOf_append (blocks more : List MainBlock) : (outputsOf blocks).Le (outputsOf (blocks ++ more)) := by
  intro amount
  simp [outputsOf]

def Scanner.Fresh (start : Scanner) (s : Scanner) : Prop :=
  s.scanTable = ∅ ∨ s.scanTable = start.scanTable ∧ start.blocks <+: s.blocks

theorem Scanner.Fresh.step {start s : Scanner} (h : start.Fresh s) (e : ChainEvent) : start.Fresh (s.step e) := by
  cases e with
  | alternative b => exact h
  | pop => exact .inl rfl
  | add b =>
    rcases h with hempty | ⟨htable, hblocks⟩
    · exact .inl hempty
    · exact .inr ⟨htable, hblocks.trans (prefix_append _ _)⟩

theorem Scanner.fresh_run (start : Scanner) (events : List ChainEvent) :
    start.Fresh (Machine.run Scanner.step start events) := by
  have hstart : start.Fresh start := .inr ⟨rfl, prefix_refl _⟩
  have hstep : ∀ (s : Scanner) (e : ChainEvent), start.Fresh s → start.Fresh (s.step e) := fun _ e h => h.step e
  have halways := Machine.always_of_step hstep events hstart
  exact Machine.always_iff_initial.1 halways events (prefix_refl _)

section
variable (prefixHash : TransactionPrefix → Hash)

/-- `early` is a return before the table is touched, which the last cleanup has left empty: an empty batch, blocks with
compiled-in hashes, blocks that do not follow the top or exist, `m_cancel`. -/
def prepareHandleIncomingBlocks (db : OutputDb) (early : Option Bool) (mCancel mCancel' : Nat → Bool)
    (entries : List (List Bytes)) : PrepareEnd × ScanTable :=
  match early with
  | some r => (.returned r, ∅)
  | none => prepareScanTable prefixHash db mCancel mCancel' entries

theorem prepareHandleIncomingBlocks_sound (db : OutputDb) (early : Option Bool) (mCancel mCancel' : Nat → Bool)
    (entries : List (List Bytes)) :
    (prepareHandleIncomingBlocks prefixHash db early mCancel mCancel' entries).2.Sound prefixHash db entries.flatten := by
  cases early with
  | some r => exact ScanTable.Blank.sound prefixHash ScanTable.find_empty db _
  | none => exact prepareScanTable_sound prefixHash db mCancel mCancel' entries

/-- Its key images are pairwise different, and no transaction of the batch has the same prefix hash with another
prefix. -/
structure Transaction.Distinct (tx : Transaction) (batch : List Bytes) : Prop where
  images : (tx.toKeys.map TxinToKey.kImage).Nodup
  hash : ∀ txBlob ∈ batch, ∀ tx', parseTx txBlob = .ok (some tx') →
    prefixHash tx'.toTransactionPrefix = prefixHash tx.toTransactionPrefix →
    tx'.toTransactionPrefix = tx.toTransactionPrefix

theorem ScanTable.Sound.entry {scanTable : ScanTable} {db : OutputDb} {batch : List Bytes}
    (hs : scanTable.Sound prefixHash db batch) {tx : Transaction} (htx : tx.Distinct prefixHash batch) {txin : TxinToKey}
    (hin : txin ∈ tx.toKeys) {entry : List OutputData}
    (hfind : scanTable.find (prefixHash tx.toTransactionPrefix) txin.kImage = some entry) :
    entry = db.getOutputKeys txin.amount txin.ring := by
  obtain ⟨txBlob, hblob, tx', inputs, txin', hparse, hhash, hinputs, hfirst, rfl⟩ := hs _ _ _ hfind
  have hvin : tx'.toKeys = tx.toKeys := by
    rw [Transaction.toKeys, htx.hash txBlob hblob tx' hparse hhash]
    rfl
  rw [← PartialMap.filterMap_of_mapM hinputs, show tx'.vin.filterMap TxIn.getToKey = tx'.toKeys from rfl, hvin] at hfirst
  have himage : txin'.kImage = txin.kImage := by simpa using find?_some hfirst
  have heq : txin' = txin := inj_on_of_nodup_map htx.images (mem_of_find?_eq_some hfirst) hin himage
  rw [heq]

theorem Scanner.Fresh.entry {start s : Scanner} (hfresh : start.Fresh s) {batch : List Bytes}
    (hs : start.scanTable.Sound prefixHash (outputsOf start.blocks) batch) {tx : Transaction}
    (htx : tx.Distinct prefixHash batch) {txin : TxinToKey} (hin : txin ∈ tx.toKeys) {entry : List OutputData}
    (hfind : s.scanTable.find (prefixHash tx.toTransactionPrefix) txin.kImage = some entry) :
    entry = (outputsOf start.blocks).getOutputKeys txin.amount txin.ring ∧ start.blocks <+: s.blocks := by
  rcases hfresh with hempty | ⟨htable, hblocks⟩
  · grind [ScanTable.find_empty]
  · exact ⟨hs.entry prefixHash htx hin (htable ▸ hfind), hblocks⟩

/-- **The scan table changes no verdict.** The outputs handed out differ exactly when the call fails on a ring that has an
entry, of which the first member came after the table was made and another is still missing. -/
theorem scan_table_transparent (chain : List MainBlock) (early : Option Bool) (mCancel mCancel' : Nat → Bool)
    (entries : List (List Bytes)) (events : List ChainEvent) :
    let start : Scanner :=
      ⟨chain, (prepareHandleIncomingBlocks prefixHash (outputsOf chain) early mCancel mCancel' entries).2⟩
    let s := Machine.run Scanner.step start events
    (∀ tx : Transaction, tx.Distinct prefixHash entries.flatten → ∀ txin ∈ tx.toKeys,
      SameVerdict (outputsOf s.blocks) s.scanTable (prefixHash tx.toTransactionPrefix) txin ∧
      (Transparent (outputsOf s.blocks) s.scanTable (prefixHash tx.toTransactionPrefix) txin ↔
        ¬ ((s.scanTable.find (prefixHash tx.toTransactionPrefix) txin.kImage).isSome ∧
          ComesLate (outputsOf chain) (outputsOf s.blocks) txin))) ∧
    ∀ rest top, s.blocks = rest ++ [top] → top.RingsIn (outputsOf rest) → ∀ tx ∈ top.txs,
      tx.Distinct prefixHash entries.flatten → ∀ txin ∈ tx.toKeys,
      Transparent (outputsOf rest) s.scanTable (prefixHash tx.toTransactionPrefix) txin := by
  intro start s
  have hfresh : start.Fresh s := start.fresh_run events
  have hsound := prepareHandleIncomingBlocks_sound prefixHash (outputsOf chain) early mCancel mCancel' entries
  refine ⟨fun tx htx txin hin => ?_, fun rest top htop hrings tx hmem htx txin hin => ?_⟩
  · cases hfind : s.scanTable.find (prefixHash tx.toTransactionPrefix) txin.kImage with
    | none =>
      have ht : Transparent (outputsOf s.blocks) s.scanTable (prefixHash tx.toTransactionPrefix) txin :=
        transparent_of_find_none hfind
      exact ⟨ht.sameVerdict, fun _ h => by simp at h, fun _ => ht⟩
    | some entry =>
      obtain ⟨rfl, more, hmore⟩ := hfresh.entry prefixHash hsound htx hin hfind
      grind [outputsOf, outputsOf_append, scan_of_earlier_entry]
  · have hall : (outputsOf rest).Has txin.amount txin.ring := hrings tx hmem txin hin
    cases hfind : s.scanTable.find (prefixHash tx.toTransactionPrefix) txin.kImage with
    | none => exact transparent_of_find_none hfind
    | some entry =>
      obtain ⟨rfl, hblocks⟩ := hfresh.entry prefixHash hsound htx hin hfind
      refine transparent_of_has hfind ?_ hall
      rw [htop] at hblocks
      rcases prefix_concat_iff.1 hblocks with hsame | ⟨more, hmore⟩
      · -- nothing has been added since prepare: the table knows the outputs of the block that goes
        rw [hsame, (outputsOf_append rest [top]).getOutputKeys_eq hall]
      · exact (hmore ▸ outputsOf_append chain more : (outputsOf chain).Le (outputsOf rest)).getOutputKeys _

end

def lateTx : Transaction :=
  { version := 1, unlockTime := 0, vin := [.toKey 0 [0, 5] default], vout := [], extra := []
    signatures := [[default, default]] }

def blockOfOutputs (n : Nat) : MainBlock := ⟨[], (List.range n).map fun i => (0, ⟨default, UInt64.ofNat (10 + i), 0, default⟩)⟩

def lateStart : Scanner :=
  ⟨[], (prepareHandleIncomingBlocks (fun _ => default) (outputsOf []) none (fun _ => false) (fun _ => false)
    [[(txToBlob lateTx).getD []]]).2⟩

def noteUnlockTimes : Visitor (List UInt64) := fun seen unlockTime _ _ => (true, seen ++ [unlockTime])

theorem whole_ring_transparent :
    SameVerdict (outputsOf (Machine.run Scanner.step lateStart [.add (blockOfOutputs 6)]).blocks)
      (Machine.run Scanner.step lateStart [.add (blockOfOutputs 6)]).scanTable default ⟨0, [0, 5], default⟩ := by
  refine ((scan_table_transparent (fun _ => default) [] none (fun _ => false) (fun _ => false)
    [[(txToBlob lateTx).getD []]] [.add (blockOfOutputs 6)]).1 lateTx ⟨by decide, ?_⟩ _
    mem_cons_self).1
  intro txBlob hblob tx' htx' _
  obtain rfl : txBlob = (txToBlob lateTx).getD [] := by simpa using hblob
  have hread : parseTx ((txToBlob lateTx).getD []) = .ok (some lateTx) := by decide +kernel
  rw [hread] at htx'
  cases htx'
  rfl

theorem late_ring_shown :
    let s := Machine.run Scanner.step lateStart [.add (blockOfOutputs 1)]
    scanOutputkeysForIndexes (outputsOf s.blocks) s.scanTable ⟨0, [0, 5], default⟩ noteUnlockTimes default none [] =
      (false, [10], none) ∧
    scanOutputkeysForIndexes (outputsOf s.blocks) ∅ ⟨0, [0, 5], default⟩ noteUnlockTimes default none [] =
      (false, [], none) := by
  decide +kernel

end Electronero.Wire
