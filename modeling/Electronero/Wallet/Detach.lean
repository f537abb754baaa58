import Electronero.Wallet.Burning
/-!
# Detaching blocks (`detach_blockchain`, src/wallet/wallet2.cpp:2462-2525)

The transfers are cut at the first entry of height `h` or more. `Since h v w`: this gives back the records of `v`. What a
transaction writes into an entry of another block breaks this, and `Undoable` excludes it.
-/
namespace Electronero.Wire
open Text FiniteMap ExceptLoop ListIndex List

def TransferDetails.resetSpent (height : UInt64) (td : TransferDetails) : TransferDetails :=
  if td.spent = true ∧ height ≤ td.spentHeight then { td with spent := false, spentHeight := 0 } else td

def eraseKeyImage (keyImages : UMap KeyImage Nat) (td : TransferDetails) : Except WalletError (UMap KeyImage Nat) :=
  if td.keyImageKnown = false ∨ td.keyImagePartial = true then .ok keyImages
  else match keyImages.lookup td.keyImage with
    | none => .error .keyImageNotFound
    | some _ => .ok (keyImages.erase td.keyImage)

def erasePubKey (pubKeys : UMap PublicKey Nat) (td : TransferDetails) : Except WalletError (UMap PublicKey Nat) :=
  match td.publicKey with
  | none => .error .publicKeyNotFound
  | some key =>
    match pubKeys.lookup key with
    | none => .error .publicKeyNotFound
    | some _ => .ok (pubKeys.erase key)

def Wallet2.detachBlockchain (w : Wallet2) (height : UInt64) : Except WalletError Wallet2 :=
  if height.toNat < w.chain.offset ∧ w.chain.size > w.chain.offset then .error .reorgBelowCheckpoint
  else
    let transfers := w.transfers.map (TransferDetails.resetSpent height)
    let iStart := transfers.findIdx fun td => td.blockHeight ≥ height
    match (transfers.drop iStart).foldlM eraseKeyImage w.keyImages with
    | .error e => .error e
    | .ok keyImages =>
      ((transfers.drop iStart).foldlM erasePubKey w.pubKeys).map fun pubKeys =>
        { w with
          transfers := transfers.take iStart
          keyImages := keyImages
          pubKeys := pubKeys
          chain := w.chain.crop height.toNat
          localBcHeight := w.localBcHeight - (.ofNat w.chain.size - height)
          payments := w.payments.filter fun e => ¬ height ≤ e.2.blockHeight
          confirmedTxs := filter (fun _ c => ¬ height ≤ c.blockHeight) w.confirmedTxs }

def addBlock (acct : WalletAccount) (w : Wallet2) (b : WalletBlock) : Except WalletError Wallet2 :=
  processNewBlockchainEntry acct w b (.ofNat w.chain.size)

def processBlocks (acct : WalletAccount) (w : Wallet2) (bs : List WalletBlock) : Except WalletError Wallet2 :=
  bs.foldlM (addBlock acct) w

/-! ## What a transaction of a block leaves behind -/

inductive Written (p : ProcessedTx) : List TransferDetails → List TransferDetails → Prop where
  | push {l x} (hheight : x.blockHeight = p.height) (hspent : x.spent = false) (hzero : x.spentHeight = 0) :
      Written p l (l ++ [x])
  | replace {l k td x out} (htd : l[k]? = some td) (hunspent : td.spent = false) (hout : out ∈ p.tx.vout)
      (hkey : TxoutTarget.key? out.target = td.publicKey) (hlarger : td.amount < out.amount)
      (hheight : x.blockHeight = p.height) (hspent : x.spent = false) (hzero : x.spentHeight = td.spentHeight) :
      Written p l (l.set k x)
  | spend {l k td amount keyOffsets} (htd : l[k]? = some td) (hin : .toKey amount keyOffsets td.keyImage ∈ p.tx.vin)
      (hknown : td.keyImageKnown = true) : Written p l (l.set k (td.spend p amount))

structure TxEffect (acct : WalletAccount) (p : ProcessedTx) (w w' : Wallet2) : Prop where
  linked : w'.Linked acct
  transfers : Relation.ReflTransGen (Written p) w.transfers w'.transfers
  payments : ∃ added, w'.payments = w.payments + added ∧ ∀ e ∈ added, e.2.blockHeight = p.height
  confirmed : Confirms p w.confirmedTxs w'.confirmedTxs
  chain : w'.chain = w.chain
  localBcHeight : w'.localBcHeight = w.localBcHeight

section
variable {acct : WalletAccount} {p : ProcessedTx} {w w' : Wallet2}

theorem Confirms.trans {a b c : UMap Hash ConfirmedTransferDetails} (h : Confirms p a b) (h' : Confirms p b c) :
    Confirms p a c := by
  rcases h' with rfl | ⟨hpool, x, rfl, hx⟩
  · exact h
  · rcases h with rfl | ⟨-, y, rfl, -⟩
    · exact .inr ⟨hpool, x, rfl, hx⟩
    · exact .inr ⟨hpool, x, Finmap.insert_insert a, hx⟩

variable {w₀ : Wallet2}

theorem TxEffect.transfersOnly (h : TxEffect acct p w₀ w) (hlinked : w'.Linked acct)
    (htransfers : w'.transfers = w.transfers ∨ Written p w.transfers w'.transfers) (hpayments : w'.payments = w.payments)
    (hconfirmed : w'.confirmedTxs = w.confirmedTxs) (hchain : w'.chain = w.chain)
    (hlocal : w'.localBcHeight = w.localBcHeight) : TxEffect acct p w₀ w' where
  linked := hlinked
  transfers := by
    rcases htransfers with heq | hwritten
    · rw [heq]
      exact h.transfers
    · exact h.transfers.tail hwritten
  payments := by rw [hpayments]; exact h.payments
  confirmed := by rw [hconfirmed]; exact h.confirmed
  chain := hchain.trans h.chain
  localBcHeight := hlocal.trans h.localBcHeight

theorem TxEffect.receiveOutput (hpool : p.pool = false) {pkIndex : Nat} {t t' : Takings}
    {s : ScannedOutput} (hs : s.Of acct p) (h : TxEffect acct p w₀ t.wallet)
    (hstep : receiveOutput acct p pkIndex t s = .ok t') : TxEffect acct p w₀ t'.wallet := by
  have hlinked := h.linked.receiveOutput hs hstep
  have hnot : ¬ p.pool = true := by simp [hpool]
  rcases receiveOutput_cases hstep with ⟨hnone, hw⟩ | ⟨k, td, hk, htd, ⟨-, hw⟩ | ⟨hspent, hlt, -, hw⟩⟩
  · rw [if_neg hnot, Wallet2.note, if_neg hnot] at hw
    rw [hw] at hlinked ⊢
    exact h.transfersOnly hlinked (.inr (.push rfl rfl rfl)) rfl rfl rfl rfl
  · rw [Wallet2.note, if_neg hnot] at hw
    rw [hw] at hlinked ⊢
    exact h.transfersOnly hlinked (.inl rfl) rfl rfl rfl rfl
  · rw [if_neg hnot, Wallet2.note, if_neg hnot] at hw
    rw [hw] at hlinked ⊢
    have hkey := h.linked.pub.key_of_lookup hk htd
    exact h.transfersOnly hlinked (.inr (.replace htd hspent (mem_of_getElem? hs.out) (hs.key.trans hkey.symm) hlt
      rfl hspent rfl)) rfl rfl rfl rfl

theorem TxEffect.spendInput {s : Spendings} {i : TxIn} (hi : i ∈ p.tx.vin)
    (h : TxEffect acct p w₀ s.wallet) : TxEffect acct p w₀ (spendInput p s i).wallet := by
  have hlinked : (Wire.spendInput p s i).wallet.Linked acct := h.linked.spendInput
  unfold Wire.spendInput at hlinked ⊢
  split
  · simp only at hlinked ⊢
    split
    · rename_i hk
      simp only [hk] at hlinked
      exact h.transfersOnly hlinked (.inl rfl) rfl rfl rfl rfl
    · rename_i k hk
      split
      · rename_i htd
        simp only [hk, htd] at hlinked
        exact h.transfersOnly hlinked (.inl rfl) rfl rfl rfl rfl
      · rename_i td htd
        simp only [hk, htd] at hlinked
        obtain ⟨hknows, rfl⟩ := h.linked.image_of_lookup hk htd
        obtain ⟨_, hstands⟩ := h.linked.entry htd
        exact h.transfersOnly hlinked (.inr (.spend htd hi (hstands.known.trans hknows))) rfl rfl rfl rfl
  · exact h

theorem txEffect_processNewTransaction (hpool : p.pool = false) (hw : w.Linked acct)
    (h : processNewTransaction acct w p = .ok w') : TxEffect acct p w w' := by
  refine processNewTransaction_rule (P := TxEffect acct p w) ?_ ?_ ?_ ?_ ?_ h
  · intro _ _ hstart
    obtain ⟨confirmed, unconfirmed, heq, hconfirms⟩ := processUnconfirmed_spec acct hpool w
    rw [heq]
    exact ⟨hw.congr rfl rfl rfl, .refl, ⟨0, by simp⟩, hconfirms, rfl, rfl⟩
  · intro pkIndex t s t' hs ht hstep
    exact ht.receiveOutput hpool hs hstep
  · intro s i hi hs
    exact hs.spendInput hi
  · intro pub got total s w' hs hsettle
    obtain ⟨confirmed, added, rfl, hadded, hconfirms⟩ := settle_spec hsettle
    obtain ⟨before, hbefore, hheights⟩ := hs.payments
    refine ⟨hs.linked.congr rfl rfl rfl, hs.transfers, ⟨before + added, ?_, fun e he => ?_⟩,
      hs.confirmed.trans hconfirms, hs.chain, hs.localBcHeight⟩
    · grind
    · grind
  · exact ⟨hw, .refl, ⟨0, by simp⟩, .inl rfl, rfl, rfl⟩

end

def TxIn.Spares (height : UInt64) (td : TransferDetails) : TxIn → Prop
  | .toKey amount _ kImage => kImage = td.keyImage → td.keyImageKnown = true →
    (amount = 0 ∨ amount = td.amount) ∧ (td.spent = true → td.spentHeight = height)
  | _ => True

/-- The transaction leaves an entry of another block as it is, or spends it for its amount. -/
structure TransferDetails.Spared (p : ProcessedTx) (td : TransferDetails) : Prop where
  keeps : ∀ out ∈ p.tx.vout, TxoutTarget.key? out.target = td.publicKey → td.spent = true ∨ out.amount ≤ td.amount
  spends : ∀ i ∈ p.tx.vin, TxIn.Spares p.height td i

/-- The transaction replaces no entry of another block, spends none for another amount or a second time, and was not
confirmed in another block. -/
structure Undoable (p : ProcessedTx) (w : Wallet2) : Prop where
  entries : ∀ td ∈ w.transfers, td.blockHeight ≠ p.height → td.Spared p
  confirms : ∀ c ∈ w.confirmedTxs.lookup p.txid, c.blockHeight = p.height

def BlockTx.Undoable (height ts : UInt64) (w : Wallet2) (t : BlockTx) : Prop :=
  ∀ tx ∈ t.tx, Wire.Undoable ⟨t.txid, tx, t.oIndices, height, ts, t.minerTx, false⟩ w

def WalletBlock.Undoable (acct : WalletAccount) (w : Wallet2) (b : WalletBlock) : Prop :=
  let height : UInt64 := .ofNat w.chain.size
  Scans acct b height → Meets (processBlockTx acct height b.block.timestamp)
    (BlockTx.Undoable height b.block.timestamp) w (b.minerTx acct :: b.blockTxs)

section
variable (acct : WalletAccount) (p : ProcessedTx) (height ts : UInt64) (td : TransferDetails) (w : Wallet2)

instance : (i : TxIn) → Decidable (TxIn.Spares height td i)
  | .toKey amount _ kImage => inferInstanceAs (Decidable (kImage = td.keyImage → td.keyImageKnown = true →
      (amount = 0 ∨ amount = td.amount) ∧ (td.spent = true → td.spentHeight = height)))
  | .gen _ => isTrue trivial
  | .toScript _ _ _ => isTrue trivial
  | .toScripthash _ _ _ _ => isTrue trivial

instance : Decidable (td.Spared p) :=
  decidable_of_iff (_ ∧ _) ⟨fun h => ⟨h.1, h.2⟩, fun h => And.intro h.keeps h.spends⟩

instance : Decidable (Undoable p w) :=
  decidable_of_iff (_ ∧ _) ⟨fun h => ⟨h.1, h.2⟩, fun h => And.intro h.entries h.confirms⟩

instance (t : BlockTx) : Decidable (t.Undoable height ts w) := inferInstanceAs (Decidable (∀ tx ∈ t.tx, _))

instance (b : WalletBlock) : Decidable (b.Undoable acct w) := inferInstanceAs (Decidable (Scans _ _ _ → Meets _ _ _ _))

end

structure Wallet2.SameRecords (w v : Wallet2) : Prop where
  transfers : w.transfers = v.transfers
  keyImages : w.keyImages = v.keyImages
  pubKeys : w.pubKeys = v.pubKeys
  payments : w.payments = v.payments
  confirmedTxs : w.confirmedTxs = v.confirmedTxs
  chain : w.chain = v.chain
  localBcHeight : w.localBcHeight = v.localBcHeight

section
variable {acct : WalletAccount} {w w' : Wallet2} {b : WalletBlock}

variable {Q : Wallet2 → Prop}

theorem processBlockTx_rule {timestamp : UInt64} {w₁ w₂ : Wallet2} {t : BlockTx}
    (htx : ∀ w p w', p.height = .ofNat w.chain.size → p.pool = false → Q w → Undoable p w → TxEffect acct p w w' → Q w')
    (h₁ : ((w₁.Linked acct ∧ Q w₁) ∧ w₁.chain = w.chain) ∧ w₁.localBcHeight = w.localBcHeight)
    (hundo : t.Undoable (.ofNat w.chain.size) timestamp w₁)
    (h : processBlockTx acct (.ofNat w.chain.size) timestamp w₁ t = .ok w₂) :
    ((w₂.Linked acct ∧ Q w₂) ∧ w₂.chain = w.chain) ∧ w₂.localBcHeight = w.localBcHeight := by
  obtain ⟨⟨⟨hlinked, hQ⟩, hchain⟩, hlocal⟩ := h₁
  unfold processBlockTx at h
  split at h
  · cases h
  · rename_i tx hsome
    have heffect := txEffect_processNewTransaction rfl hlinked h
    have hQ' := htx w₁ _ w₂ (by rw [hchain]) rfl hQ (hundo tx hsome) heffect
    exact ⟨⟨⟨heffect.linked, hQ'⟩, heffect.chain.trans hchain⟩, heffect.localBcHeight.trans hlocal⟩

theorem addBlock_rule
    (htx : ∀ w p w', p.height = .ofNat w.chain.size → p.pool = false → Q w → Undoable p w → TxEffect acct p w w' → Q w')
    (hlinked : w.Linked acct) (hw : Q w) (hundo : b.Undoable acct w) (h : addBlock acct w b = .ok w') :
    ∃ w₁, w₁.Linked acct ∧ Q w₁ ∧ w₁.chain = w.chain ∧ w₁.localBcHeight = w.localBcHeight ∧
      w' = { w₁ with chain := w₁.chain.pushBack b.id, localBcHeight := w₁.localBcHeight + 1 } := by
  unfold addBlock processNewBlockchainEntry at h
  split at h
  · cases h
  · obtain ⟨w₁, htxs, rfl⟩ := map_ok_iff.1 h
    refine ⟨w₁, ?_⟩
    rw [← and_assoc, ← and_assoc, ← and_assoc]
    refine ⟨?_, rfl⟩
    split at htxs
    · rename_i hscans
      obtain ⟨hminer, hrest⟩ := hundo hscans
      -- the miner transaction, then the others one after the other
      unfold processTransactions at htxs
      split at htxs
      · cases htxs
      · rename_i w₂ hw₂
        have hstart := processBlockTx_rule htx ⟨⟨⟨hlinked, hw⟩, rfl⟩, rfl⟩ hminer hw₂
        split at htxs
        · cases htxs
        · exact (hrest w₂ hw₂).preserves (P := fun w₁ => ((w₁.Linked acct ∧ Q w₁) ∧ w₁.chain = w.chain) ∧
            w₁.localBcHeight = w.localBcHeight) (fun _ _ _ h₁ hundo' h => processBlockTx_rule htx h₁ hundo' h) hstart htxs
    · grind

theorem size_pushBack (c : Hashchain) (id : Hash) : (c.pushBack id).size = c.size + 1 := by
  simp [Hashchain.size, Hashchain.pushBack]
  omega

theorem processBlocks_rule {P : Wallet2 → Prop}
    (hstep : ∀ w b w', w.chain.size < 2 ^ 64 → P w → b.Undoable acct w → addBlock acct w b = .ok w' →
      P w' ∧ w'.chain.size = w.chain.size + 1) {bs : List WalletBlock} (hsize : w.chain.size + bs.length ≤ 2 ^ 64)
    (hw : P w) (hmeets : Meets (addBlock acct) (fun w b => b.Undoable acct w) w bs)
    (h : processBlocks acct w bs = .ok w') : P w' ∧ w'.chain.size = w.chain.size + bs.length := by
  induction bs generalizing w with
  | nil =>
    cases h
    exact ⟨hw, rfl⟩
  | cons b bs ih =>
    rw [length_cons] at hsize
    obtain ⟨w₁, hb, hbs⟩ := foldlM_cons_ok.1 h
    obtain ⟨hw₁, hsize₁⟩ := hstep w b w₁ (by omega) hw hmeets.1 hb
    obtain ⟨hw', hsize'⟩ := ih (by omega) hw₁ (hmeets.2 w₁ hb) hbs
    grind

end

structure TransferDetails.Before (n : Nat) (td : TransferDetails) : Prop where
  block : td.blockHeight.toNat < n
  spent : td.spent = true → td.spentHeight.toNat < n
  unspent : td.spent = false → td.spentHeight = 0

structure Wallet2.Below (n : Nat) (w : Wallet2) : Prop where
  transfers : ∀ td ∈ w.transfers, td.Before n
  payments : ∀ e ∈ w.payments, e.2.blockHeight.toNat < n
  confirmed : ∀ {txid : Hash} {c : ConfirmedTransferDetails}, w.confirmedTxs.lookup txid = some c →
    c.blockHeight.toNat < n

section
variable {acct : WalletAccount} {p : ProcessedTx} {w w' : Wallet2} {n : Nat} {l l' : List TransferDetails}

theorem Written.before (hpool : p.pool = false) (hn : p.height.toNat < n) (h : Written p l l')
    (hl : ∀ td ∈ l, td.Before n) : ∀ td ∈ l', td.Before n := by
  intro y hy
  cases h with
  | push hheight hspent hzero =>
    rcases mem_append.1 hy with hy | hy
    · exact hl y hy
    · rw [mem_singleton.1 hy]
      exact ⟨hheight ▸ hn, by simp [hspent], fun _ => hzero⟩
  | replace htd hunspent _ _ _ hheight hspent hzero =>
    rcases mem_or_eq_of_mem_set hy with hy | rfl
    · exact hl y hy
    · have hbefore := hl _ (mem_of_getElem? htd)
      exact ⟨hheight ▸ hn, by simp [hspent], fun _ => hzero.trans (hbefore.unspent hunspent)⟩
  | spend htd _ _ =>
    rcases mem_or_eq_of_mem_set hy with hy | rfl
    · exact hl y hy
    · have hbefore := hl _ (mem_of_getElem? htd)
      refine ⟨hbefore.block, fun _ => ?_, fun hspent => ?_⟩
      · simpa [TransferDetails.spend, hpool] using hn
      · simp [TransferDetails.spend, hpool] at hspent

theorem TxEffect.below (h : TxEffect acct p w w') (hpool : p.pool = false) (hn : p.height.toNat < n)
    (hw : w.Below n) : w'.Below n := by
  refine ⟨?_, fun e he => ?_, fun {txid c} hc => ?_⟩
  · have htransfers := h.transfers
    generalize w'.transfers = l at htransfers
    induction htransfers with
    | refl => exact hw.transfers
    | tail _ hwritten ih => exact hwritten.before hpool hn ih
  · obtain ⟨added, heq, hadded⟩ := h.payments
    rw [heq] at he
    rcases Multiset.mem_add.1 he with he | he
    · exact hw.payments e he
    · rw [hadded e he]
      exact hn
  · rcases h.confirmed with heq | ⟨-, c', heq, hheight⟩
    · exact hw.confirmed (heq ▸ hc)
    · rw [heq, lookup_insert_ite] at hc
      split at hc
      · cases hc
        exact hheight ▸ hn
      · exact hw.confirmed hc

end

section
variable {h height : UInt64} {td : TransferDetails} {acct : WalletAccount} {p : ProcessedTx}

@[simp] theorem blockHeight_resetSpent (h : UInt64) (td : TransferDetails) : (td.resetSpent h).blockHeight = td.blockHeight := by
  unfold TransferDetails.resetSpent
  split <;> rfl

theorem publicKey_resetSpent : (td.resetSpent h).publicKey = td.publicKey := by
  unfold TransferDetails.resetSpent
  split <;> rfl

theorem standsFor_resetSpent {key : PublicKey} (hstands : td.StandsFor acct key) :
    (td.resetSpent h).StandsFor acct key := by
  unfold TransferDetails.resetSpent
  split
  · exact ⟨hstands.publicKey, hstands.keyImage, hstands.known, hstands.isPartial⟩
  · exact hstands

theorem imageOf_resetSpent : acct.imageOf (td.resetSpent h) = acct.imageOf td := by
  unfold TransferDetails.resetSpent
  split <;> rfl

variable {amount : UInt64}

theorem spend_eq (hpool : p.pool = false) (hamount : amount = 0 ∨ amount = td.amount) :
    td.spend p amount = { td with spent := true, spentHeight := p.height } := by
  have hsame : (if amount > 0 then amount else td.amount) = td.amount := by grind
  simp [TransferDetails.spend, hsame, hpool]

theorem TransferDetails.Spared.spend (hs : td.Spared p) (hpool : p.pool = false) {amount : UInt64}
    (hamount : amount = 0 ∨ amount = td.amount) : (td.spend p amount).Spared p := by
  rw [spend_eq hpool hamount]
  refine ⟨fun _ _ _ => .inl rfl, fun i hi => ?_⟩
  have hspares := hs.spends i hi
  cases i with
  | toKey amount' keyOffsets kImage => exact fun hki hknown => ⟨(hspares hki hknown).1, fun _ => rfl⟩
  | _ => trivial

theorem resetSpent_spend (hpool : p.pool = false) (hh : h ≤ p.height)
    (hamount : amount = 0 ∨ amount = td.amount) (hspent : td.spent = true → td.spentHeight = p.height)
    (hzero : td.spent = false → td.spentHeight = 0) : (td.spend p amount).resetSpent h = td.resetSpent h := by
  rw [spend_eq hpool hamount, TransferDetails.resetSpent, if_pos ⟨rfl, hh⟩]
  cases hs : td.spent with
  | true =>
    rw [TransferDetails.resetSpent, if_pos ⟨hs, (hspent hs).symm ▸ hh⟩]
  | false =>
    rw [TransferDetails.resetSpent, if_neg (by simp [hs])]
    have hz := hzero hs
    cases td
    simp_all

end

/-- The list is `old`, some of it spent since, followed by entries of height `h` or more. -/
structure Traced (h : UInt64) (old l : List TransferDetails) : Prop where
  length : old.length ≤ l.length
  kept : ∀ {k : Nat} {x : TransferDetails}, k < old.length → l[k]? = some x → old[k]? = some (x.resetSpent h)
  later : ∀ {k : Nat} {x : TransferDetails}, old.length ≤ k → l[k]? = some x → h ≤ x.blockHeight
  unspent : ∀ {k : Nat} {x : TransferDetails}, l[k]? = some x → x.spent = false → x.spentHeight = 0

section
variable {h : UInt64} {p : ProcessedTx} {old l l' : List TransferDetails}

variable {k : Nat} {x td : TransferDetails}

theorem Traced.length_le (ht : Traced h old l) (hold : ∀ td ∈ old, td.blockHeight < h)
    (hx : l[k]? = some x) (hheight : h ≤ x.blockHeight) : old.length ≤ k := by
  by_contra hlt
  have hmem := mem_of_getElem? (ht.kept (Nat.lt_of_not_le hlt) hx)
  grind [blockHeight_resetSpent]

theorem Traced.set_later (ht : Traced h old l) (htd : l[k]? = some td)
    (hk : old.length ≤ k) (hheight : h ≤ x.blockHeight) (hunspent : x.spent = false → x.spentHeight = 0) :
    Traced h old (l.set k x) := by
  refine ⟨by simpa using ht.length, fun {j y} hj hy => ?_, fun {j y} hj hy => ?_, fun {j y} hy => ?_⟩
  · rcases (getElem?_set_iff htd).1 hy with ⟨rfl, -⟩ | ⟨-, hy⟩
    · omega
    · exact ht.kept hj hy
  · rcases (getElem?_set_iff htd).1 hy with ⟨-, rfl⟩ | ⟨-, hy⟩
    · exact hheight
    · exact ht.later hj hy
  · rcases (getElem?_set_iff htd).1 hy with ⟨-, rfl⟩ | ⟨-, hy⟩
    · exact hunspent
    · exact ht.unspent hy

theorem Traced.set_spend (ht : Traced h old l) (htd : l[k]? = some td)
    (hreset : x.resetSpent h = td.resetSpent h) (hspent : x.spent = true) : Traced h old (l.set k x) := by
  have hblock : x.blockHeight = td.blockHeight := by
    rw [← blockHeight_resetSpent h x, hreset, blockHeight_resetSpent]
  refine ⟨by simpa using ht.length, fun {j y} hj hy => ?_, fun {j y} hj hy => ?_, fun {j y} hy => ?_⟩
  · rcases (getElem?_set_iff htd).1 hy with ⟨rfl, rfl⟩ | ⟨-, hy⟩
    · rw [hreset]
      exact ht.kept hj htd
    · exact ht.kept hj hy
  · rcases (getElem?_set_iff htd).1 hy with ⟨rfl, rfl⟩ | ⟨-, hy⟩
    · exact hblock ▸ ht.later hj htd
    · exact ht.later hj hy
  · rcases (getElem?_set_iff htd).1 hy with ⟨-, rfl⟩ | ⟨-, hy⟩
    · simp [hspent]
    · exact ht.unspent hy

theorem Traced.push (ht : Traced h old l) (hheight : h ≤ x.blockHeight)
    (hunspent : x.spent = false → x.spentHeight = 0) : Traced h old (l ++ [x]) := by
  refine ⟨?_, fun {j y} hj hy => ?_, fun {j y} hj hy => ?_, fun {j y} hy => ?_⟩
  · rw [length_append]
    exact ht.length.trans (Nat.le_add_right _ _)
  · rcases getElem?_concat_iff.1 hy with hy | ⟨rfl, -⟩
    · exact ht.kept hj hy
    · exact absurd ht.length (Nat.not_le_of_lt hj)
  · rcases getElem?_concat_iff.1 hy with hy | ⟨-, rfl⟩
    · exact ht.later hj hy
    · exact hheight
  · rcases getElem?_concat_iff.1 hy with hy | ⟨-, rfl⟩
    · exact ht.unspent hy
    · exact hunspent

theorem spared_set (hspared : ∀ td ∈ l, td.blockHeight ≠ p.height → td.Spared p) (k : Nat)
    (hx : x.blockHeight ≠ p.height → x.Spared p) : ∀ td ∈ l.set k x, td.blockHeight ≠ p.height → td.Spared p := by
  intro td htd
  grind

theorem Written.traced (hpool : p.pool = false) (hh : h ≤ p.height) (hold : ∀ td ∈ old, td.blockHeight < h)
    (hw : Written p l l') (ht : Traced h old l) (hspared : ∀ td ∈ l, td.blockHeight ≠ p.height → td.Spared p) :
    Traced h old l' ∧ ∀ td ∈ l', td.blockHeight ≠ p.height → td.Spared p := by
  cases hw with
  | push hheight hspent hzero =>
    refine ⟨ht.push (hheight ▸ hh) fun _ => hzero, fun y hy hne => ?_⟩
    grind
  | @replace k td x out htd hunspent hout hkey hlarger hheight hspent hzero =>
    have hsame : td.blockHeight = p.height := by
      by_contra hne
      rcases (hspared td (mem_of_getElem? htd) hne).keeps out hout hkey with hs | hle
      · simp [hunspent] at hs
      · grind
    refine ⟨ht.set_later htd (ht.length_le hold htd (hsame ▸ hh)) (hheight ▸ hh) ?_,
      spared_set hspared k fun hne => absurd hheight hne⟩
    exact fun _ => hzero.trans (ht.unspent htd hunspent)
  | @spend k td amount keyOffsets htd hin hknown =>
    have hspend : (td.spend p amount).spent = true := by simp [TransferDetails.spend, hpool]
    by_cases hsame : td.blockHeight = p.height
    · exact ⟨ht.set_later htd (ht.length_le hold htd (hsame ▸ hh)) (hsame ▸ hh) (by simp [hspend]),
        spared_set hspared k fun hne => absurd hsame hne⟩
    · have htds := hspared td (mem_of_getElem? htd) hsame
      obtain ⟨hamount, honce⟩ := htds.spends _ hin rfl hknown
      exact ⟨ht.set_spend htd (resetSpent_spend hpool hh hamount honce (ht.unspent htd)) hspend,
        spared_set hspared k fun _ => htds.spend hpool hamount⟩

end

structure Since (h : UInt64) (v w : Wallet2) : Prop where
  transfers : Traced h v.transfers w.transfers
  payments : ∃ later, w.payments = v.payments + later ∧ ∀ e ∈ later, h ≤ e.2.blockHeight
  confirmed : ∀ {txid : Hash} {c : ConfirmedTransferDetails},
    v.confirmedTxs.lookup txid = some c ↔ w.confirmedTxs.lookup txid = some c ∧ ¬ h ≤ c.blockHeight
  chain : ∃ ids, w.chain = { v.chain with blocks := v.chain.blocks ++ ids } ∧
    w.localBcHeight = v.localBcHeight + .ofNat ids.length

section
variable {acct : WalletAccount} {h : UInt64} {p : ProcessedTx} {v w w' : Wallet2}

theorem since_refl (hv : v.Below h.toNat) : Since h v v where
  transfers := by
    refine ⟨Nat.le_refl _, fun {k x} _ hx => ?_, fun {k x} hk hx => ?_, fun {k x} hx => ?_⟩
    · have hbefore := hv.transfers x (mem_of_getElem? hx)
      rw [hx, TransferDetails.resetSpent, if_neg]
      rintro ⟨hspent, hle⟩
      exact absurd (UInt64.le_iff_toNat_le.1 hle) (Nat.not_le_of_lt (hbefore.spent hspent))
    · rw [getElem?_eq_none hk] at hx
      cases hx
    · exact (hv.transfers x (mem_of_getElem? hx)).unspent
  payments := ⟨0, by simp⟩
  confirmed {txid c} := by
    refine ⟨fun hc => ⟨hc, fun hle => ?_⟩, fun hc => hc.1⟩
    exact absurd (UInt64.le_iff_toNat_le.1 hle) (Nat.not_le_of_lt (hv.confirmed hc))
  chain := ⟨[], by simp⟩

theorem TxEffect.since (he : TxEffect acct p w w') (hpool : p.pool = false) (hh : h ≤ p.height)
    (hold : ∀ td ∈ v.transfers, td.blockHeight < h) (hundo : Undoable p w) (hs : Since h v w) : Since h v w' := by
  refine ⟨?_, ?_, fun {txid c} => ?_, ?_⟩
  · have hboth : Traced h v.transfers w'.transfers ∧
        ∀ td ∈ w'.transfers, td.blockHeight ≠ p.height → td.Spared p := by
      have htransfers := he.transfers
      generalize w'.transfers = l at htransfers
      induction htransfers with
      | refl => exact ⟨hs.transfers, hundo.entries⟩
      | tail _ hwritten ih => exact hwritten.traced hpool hh hold ih.1 ih.2
    exact hboth.1
  · obtain ⟨added, heq, hadded⟩ := he.payments
    obtain ⟨later, heq', hlater⟩ := hs.payments
    refine ⟨later + added, by rw [heq, heq', add_assoc], fun e hmem => ?_⟩
    grind
  · rw [hs.confirmed]
    rcases he.confirmed with heq | ⟨-, c', heq, hheight⟩
    · rw [heq]
    · rw [heq, lookup_insert_ite]
      split
      · -- the entry that is written, before and after
        rename_i htxid
        subst htxid
        constructor
        · rintro ⟨hc, hnot⟩
          exact absurd (hundo.confirms c hc ▸ hh) hnot
        · grind
      · exact Iff.rfl
  · rw [he.chain, he.localBcHeight]
    exact hs.chain

theorem Since.pushBack (hs : Since h v w) (hne : v.chain.blocks ≠ []) (id : Hash) :
    Since h v { w with chain := w.chain.pushBack id, localBcHeight := w.localBcHeight + 1 } where
  transfers := hs.transfers
  payments := hs.payments
  confirmed := hs.confirmed
  chain := by
    obtain ⟨ids, hchain, hlocal⟩ := hs.chain
    refine ⟨ids ++ [id], ?_, ?_⟩
    · show w.chain.pushBack id = _
      rw [hchain, Hashchain.pushBack, if_neg (by simp [hne])]
      simp
    · show w.localBcHeight + 1 = _
      rw [hlocal, length_append, length_singleton, UInt64.ofNat_add, UInt64.add_assoc]
      rfl

end

section
variable {acct : WalletAccount} {h : UInt64} {v w : Wallet2} {old l : List TransferDetails}

theorem Wallet2.Linked.resetSpent (hw : w.Linked acct) (h : UInt64) :
    ({ w with transfers := w.transfers.map (TransferDetails.resetSpent h) } : Wallet2).Linked acct where
  entry {k x} hx := by
    change (w.transfers.map _)[k]? = some x at hx
    rw [getElem?_map] at hx
    obtain ⟨td, htd, rfl⟩ := Option.map_eq_some_iff.1 hx
    obtain ⟨key, hstands⟩ := hw.entry htd
    exact ⟨key, standsFor_resetSpent hstands⟩
  pub := hw.pub.map fun _ => publicKey_resetSpent
  image := hw.image.map fun _ => imageOf_resetSpent

theorem Wallet2.Linked.cut (hw : w.Linked acct) (n : Nat) :
    (∃ keyImages, (w.transfers.drop n).foldlM eraseKeyImage w.keyImages = .ok keyImages ∧
      Indexes acct.imageOf keyImages (w.transfers.take n)) ∧
    ∃ pubKeys, (w.transfers.drop n).foldlM erasePubKey w.pubKeys = .ok pubKeys ∧
      Indexes TransferDetails.publicKey pubKeys (w.transfers.take n) := by
  have hstands : ∀ td ∈ w.transfers, ∃ key, td.StandsFor acct key := fun td htd => by
    obtain ⟨k, hk⟩ := mem_iff_getElem?.1 htd
    exact hw.entry hk
  refine ⟨hw.image.erase_drop n (fun td htd hnone m => ?_) (fun td htd ki hki m k hk => ?_),
    hw.pub.erase_drop n (fun td htd hnone m => ?_) (fun td htd key hkey m k hk => ?_)⟩
  · obtain ⟨key, hs⟩ := hstands td htd
    have hknows : ¬ acct.knowsImages = true := fun hk => by simp [WalletAccount.imageOf, hk] at hnone
    rw [eraseKeyImage, if_pos (.inl (by simpa [hs.known] using hknows))]
  · obtain ⟨key, hs⟩ := hstands td htd
    unfold WalletAccount.imageOf at hki
    split at hki
    · rename_i hknows
      cases hki
      obtain ⟨hmultisig, -⟩ := WalletAccount.knowsImages_iff.1 hknows
      rw [eraseKeyImage, if_neg (by simp [hs.known, hs.isPartial, hknows, hmultisig])]
      simp only [hk]
    · cases hki
  · obtain ⟨key, hs⟩ := hstands td htd
    rw [hs.publicKey] at hnone
    cases hnone
  · rw [erasePubKey, hkey]
    simp only [hk]

theorem Traced.take_map (ht : Traced h old l) : (l.map (TransferDetails.resetSpent h)).take old.length = old := by
  refine ext_getElem? fun k => ?_
  rw [getElem?_take]
  split
  · rename_i hk
    rw [getElem?_map]
    have hlt : k < l.length := Nat.lt_of_lt_of_le hk ht.length
    rw [getElem?_eq_getElem hlt, ht.kept hk (getElem?_eq_getElem hlt)]
    rfl
  · grind

theorem Traced.findIdx_map (ht : Traced h old l) (hold : ∀ td ∈ old, td.blockHeight < h) :
    (l.map (TransferDetails.resetSpent h)).findIdx (fun td => td.blockHeight ≥ h) = old.length := by
  have hbefore : ∀ k (hk : k < l.length), k < old.length → ¬ h ≤ (l[k]).blockHeight := by
    intro k hk hlt hle
    exact absurd (ht.length_le hold (getElem?_eq_getElem hk) hle) (Nat.not_le_of_lt hlt)
  rcases Nat.lt_or_eq_of_le ht.length with hlt | heq
  · rw [findIdx_eq (by simpa using hlt)]
    refine ⟨by simpa using ht.later (Nat.le_refl _) (getElem?_eq_getElem hlt), fun j hj => ?_⟩
    simpa using hbefore j (hj.trans hlt) hj
  · grind [TransferDetails.resetSpent]

theorem crop_since {c : Hashchain} {ids : List Hash} {n : Nat} (hsize : c.size = n) :
    ({ c with blocks := c.blocks ++ ids } : Hashchain).crop n = c := by
  have hlength : n - c.offset = c.blocks.length := by
    unfold Hashchain.size at hsize
    omega
  have hzero : c.blocks.length - (c.blocks ++ ids).length = 0 := by
    rw [length_append]
    omega
  unfold Hashchain.crop resize
  simp_all

theorem detach_since (hw : w.Linked acct) (hv : v.Linked acct) (hbelow : v.Below h.toNat) (hs : Since h v w)
    (hoffset : v.chain.offset < h.toNat) (hsize : v.chain.size = h.toNat) :
    ∃ w', w.detachBlockchain h = .ok w' ∧ w'.SameRecords v := by
  obtain ⟨ids, hchain, hlocal⟩ := hs.chain
  have hold : ∀ td ∈ v.transfers, td.blockHeight < h := fun td htd =>
    UInt64.lt_iff_toNat_lt.2 (hbelow.transfers td htd).block
  have htake := hs.transfers.take_map
  obtain ⟨⟨keyImages, hkeyImages, himage⟩, pubKeys, hpubKeys, hpub⟩ :=
    (hw.resetSpent h).cut v.transfers.length
  simp only at hkeyImages himage hpubKeys hpub
  rw [htake] at himage hpub
  have hcheck : ¬ (h.toNat < w.chain.offset ∧ w.chain.size > w.chain.offset) := by grind
  unfold Wallet2.detachBlockchain
  rw [if_neg hcheck]
  simp only [hs.transfers.findIdx_map hold, hkeyImages, hpubKeys, htake]
  refine ⟨_, rfl, ⟨rfl, himage.eq hv.image, hpub.eq hv.pub, ?_, ?_, ?_, ?_⟩⟩
  · obtain ⟨later, hpayments, hlater⟩ := hs.payments
    show w.payments.filter _ = _
    rw [hpayments, Multiset.filter_add, Multiset.filter_eq_self.2, Multiset.filter_eq_nil.2, add_zero]
    · intro e he hnot
      exact hnot (hlater e he)
    · intro e he hle
      exact absurd (UInt64.le_iff_toNat_le.1 hle) (Nat.not_le_of_lt (hbelow.payments e he))
  · refine Finmap.ext_lookup fun txid => Option.ext fun c => ?_
    show (filter _ w.confirmedTxs).lookup txid = some c ↔ _
    rw [lookup_filter_iff, hs.confirmed]
    simp
  · grind [crop_since]
  · show w.localBcHeight - (.ofNat w.chain.size - h) = _
    have hcount : (.ofNat w.chain.size - h : UInt64) = .ofNat ids.length := by
      have hlong : w.chain.size = h.toNat + ids.length := by grind [Hashchain.size]
      simp_all
    rw [hcount, hlocal, UInt64.add_sub_cancel]

end

section
variable {acct : WalletAccount} {h : UInt64} {v w w' : Wallet2} {b : WalletBlock}

theorem Wallet2.Below.mono {n m : Nat} (hw : w.Below n) (hle : n ≤ m) : w.Below m where
  transfers td htd := by
    have hbefore := hw.transfers td htd
    exact ⟨hbefore.block.trans_le hle, fun hs => (hbefore.spent hs).trans_le hle, hbefore.unspent⟩
  payments e he := (hw.payments e he).trans_le hle
  confirmed hc := (hw.confirmed hc).trans_le hle

theorem below_addBlock (hsize : w.chain.size < 2 ^ 64) (hlinked : w.Linked acct) (hw : w.Below w.chain.size)
    (hundo : b.Undoable acct w) (hadd : addBlock acct w b = .ok w') :
    w'.Linked acct ∧ w'.Below w'.chain.size ∧ w'.chain.offset = w.chain.offset ∧ w'.chain.size = w.chain.size + 1 := by
  have htx : ∀ (w₁ : Wallet2) (p : ProcessedTx) (w₂ : Wallet2), p.height = .ofNat w₁.chain.size → p.pool = false →
      w₁.Below (w.chain.size + 1) ∧ w₁.chain = w.chain → Undoable p w₁ → TxEffect acct p w₁ w₂ →
      w₂.Below (w.chain.size + 1) ∧ w₂.chain = w.chain := by
    rintro w₁ p w₂ hheight hpool ⟨hbelow, hchain⟩ - heffect
    refine ⟨heffect.below hpool ?_ hbelow, heffect.chain.trans hchain⟩
    rw [hheight, hchain, UInt64.toNat_ofNat_of_lt' hsize]
    exact Nat.lt_succ_self _
  obtain ⟨w₁, hlinked₁, ⟨hbelow₁, hchain₁⟩, -, -, rfl⟩ :=
    addBlock_rule htx hlinked ⟨hw.mono (Nat.le_succ _), rfl⟩ hundo hadd
  have hsize₁ : (w₁.chain.pushBack b.id).size = w.chain.size + 1 := by rw [size_pushBack, hchain₁]
  refine ⟨hlinked₁.congr rfl rfl rfl, ?_, ?_, hsize₁⟩
  · show Wallet2.Below (w₁.chain.pushBack b.id).size _
    rw [hsize₁]
    exact ⟨hbelow₁.transfers, hbelow₁.payments, hbelow₁.confirmed⟩
  · show w₁.chain.offset = _
    rw [hchain₁]

theorem since_addBlock (hold : ∀ td ∈ v.transfers, td.blockHeight < h) (hne : v.chain.blocks ≠ [])
    (hvsize : v.chain.size = h.toNat) (hsize : w.chain.size < 2 ^ 64) (hlinked : w.Linked acct) (hw : Since h v w)
    (hundo : b.Undoable acct w) (hadd : addBlock acct w b = .ok w') :
    (w'.Linked acct ∧ Since h v w') ∧ w'.chain.size = w.chain.size + 1 := by
  have hlong : h.toNat ≤ w.chain.size := by
    obtain ⟨ids, hchain, -⟩ := hw.chain
    rw [hchain, ← hvsize]
    simp [Hashchain.size]
  have htx : ∀ (w₁ : Wallet2) (p : ProcessedTx) (w₂ : Wallet2), p.height = .ofNat w₁.chain.size → p.pool = false →
      Since h v w₁ ∧ w₁.chain = w.chain → Undoable p w₁ → TxEffect acct p w₁ w₂ →
      Since h v w₂ ∧ w₂.chain = w.chain := by
    rintro w₁ p w₂ hheight hpool ⟨hs, hchain⟩ hundo' heffect
    refine ⟨heffect.since hpool ?_ hold hundo' hs, heffect.chain.trans hchain⟩
    rw [UInt64.le_iff_toNat_le, hheight, hchain, UInt64.toNat_ofNat_of_lt' hsize]
    exact hlong
  obtain ⟨w₁, hlinked₁, ⟨hs₁, hchain₁⟩, -, -, rfl⟩ := addBlock_rule htx hlinked ⟨hw, rfl⟩ hundo hadd
  refine ⟨⟨hlinked₁.congr rfl rfl rfl, hs₁.pushBack hne b.id⟩, ?_⟩
  grind [size_pushBack]

end

/-- **A reorganisation equals never having seen the blocks**, if every transaction could be undone. -/
theorem detach_equals_unseen (acct : WalletAccount) (table : SubaddressTable)
    (unconfirmedTxs : UMap Hash UnconfirmedTransferDetails) (offset : Nat) (bs : List WalletBlock) (h : UInt64)
    (w : Wallet2) (hsize : offset + bs.length < 2 ^ 64) (hlow : offset < h.toNat) (hhigh : h.toNat ≤ offset + bs.length)
    (hrun : processBlocks acct (.fresh table unconfirmedTxs offset) bs = .ok w)
    (hundo : Meets (addBlock acct) (fun w b => b.Undoable acct w) (.fresh table unconfirmedTxs offset) bs) :
    ∃ v w', processBlocks acct (.fresh table unconfirmedTxs offset) (bs.take (h.toNat - offset)) = .ok v ∧
      w.detachBlockchain h = .ok w' ∧ w'.SameRecords v := by
  have hfresh : (Wallet2.fresh table unconfirmedTxs offset).chain.size = offset := by simp [Wallet2.fresh, Hashchain.size]
  have hbelow : (Wallet2.fresh table unconfirmedTxs offset).Below offset := by
    refine ⟨?_, ?_, ?_⟩ <;> simp [Wallet2.fresh]
  rw [← take_append_drop (h.toNat - offset) bs] at hrun hundo
  obtain ⟨v, hv, hw⟩ := foldlM_append_ok.1 hrun
  obtain ⟨hundoBefore, hundoAfter⟩ := hundo.append
  have hcount : (bs.take (h.toNat - offset)).length = h.toNat - offset := by
    rw [length_take]
    omega
  -- the blocks below `h`
  obtain ⟨⟨hvlinked, hvbelow, hvoffset⟩, hvsize⟩ := processBlocks_rule
    (P := fun w => w.Linked acct ∧ w.Below w.chain.size ∧ w.chain.offset = offset)
    (fun w b w' hsmall hP hundo hadd => by
      obtain ⟨hlinked, hbelow, hoffset, hnext⟩ := below_addBlock hsmall hP.1 hP.2.1 hundo hadd
      exact ⟨⟨hlinked, hbelow, hoffset.trans hP.2.2⟩, hnext⟩)
    (by rw [hfresh, hcount]; omega) ⟨Wallet2.linked_fresh table unconfirmedTxs offset, hfresh.symm ▸ hbelow, rfl⟩
    hundoBefore hv
  have hvh : v.chain.size = h.toNat := by
    rw [hvsize, hfresh, hcount]
    omega
  rw [hvh] at hvbelow
  have hold : ∀ td ∈ v.transfers, td.blockHeight < h := fun td htd =>
    UInt64.lt_iff_toNat_lt.2 (hvbelow.transfers td htd).block
  have hne : v.chain.blocks ≠ [] := by
    intro hnil
    rw [Hashchain.size, hnil, hvoffset] at hvh
    simp only [length_nil] at hvh
    omega
  -- the blocks from `h` on
  have hdrop : v.chain.size + (bs.drop (h.toNat - offset)).length ≤ 2 ^ 64 := by
    rw [hvh, length_drop]
    omega
  obtain ⟨⟨hwlinked, hsince⟩, -⟩ := processBlocks_rule (P := fun w => w.Linked acct ∧ Since h v w)
    (fun w b w' hsmall hP hundo hadd => since_addBlock hold hne hvh hsmall hP.1 hP.2 hundo hadd)
    hdrop ⟨hvlinked, since_refl hvbelow⟩ (hundoAfter v hv) hw
  obtain ⟨w', hdetach, hsame⟩ := detach_since hwlinked hvlinked hvbelow hsince (hvoffset ▸ hlow) hvh
  exact ⟨v, w', hv, hdetach, hsame⟩

def holding (id : UInt8) (txs : List Transaction) : WalletBlock where
  block := {
    majorVersion := 1
    minorVersion := 1
    timestamp := 0
    prevId := default
    nonce := 0
    minerTx := { version := 1, unlockTime := 0, vin := [.gen id.toUInt64], vout := [], extra := [] }
    txHashes := txs.zipIdx.map fun t => Env.plainHash [id, t.2.toUInt8] }
  id := Env.plainHash [id]
  txs := txs.map some
  oIndices := [] :: txs.map fun _ => [id.toUInt64]

def spendPrimary (amount : UInt64) : Transaction where
  version := 1
  unlockTime := 0
  vin := [.toKey amount [1, 2] (plainAccount.keyImage primaryKey)]
  vout := []
  extra := []

def paidAndSpent : List WalletBlock := [holding 0 [], holding 1 [payPrimary true 10], holding 2 [spendPrimary 10]]

theorem detach_equals_unseen_spent : ∃ w v w',
    processBlocks plainAccount (.fresh primaryTable ∅ 0) paidAndSpent = .ok w ∧
    processBlocks plainAccount (.fresh primaryTable ∅ 0) (paidAndSpent.take 2) = .ok v ∧
    w.detachBlockchain 2 = .ok w' ∧ w'.SameRecords v := by
  have hok : (processBlocks plainAccount (.fresh primaryTable ∅ 0) paidAndSpent).map (fun _ => ()) = .ok () := by
    decide +kernel
  obtain ⟨w, hrun, -⟩ := map_ok_iff.1 hok
  obtain ⟨v, w', hv, hdetach, hsame⟩ := detach_equals_unseen plainAccount primaryTable ∅ 0 paidAndSpent 2 w
    (by decide) (by decide) (by decide) hrun (by decide +kernel)
  exact ⟨w, v, w', hrun, hv, hdetach, hsame⟩

def paidTwice : List WalletBlock := [holding 0 [], holding 1 [payPrimary true 10], holding 2 [payPrimary true 20]]

/-- The entry of block 1 is gone with block 2, in whose transaction it was replaced. -/
theorem replaced_entry_lost :
    (processBlocks plainAccount (.fresh primaryTable ∅ 0) (paidTwice.take 2)).map (fun v => v.transfers.map (·.amount)) =
      .ok [10] ∧
    ((processBlocks plainAccount (.fresh primaryTable ∅ 0) paidTwice).bind fun w => w.detachBlockchain 2).map
      (fun w => w.transfers.map (·.amount)) = .ok [] := by decide +kernel

/-! ## Blocks and detachments in any order -/

inductive ChainUpdate where
  | block (b : WalletBlock)
  | detach (height : UInt64)

def Wallet2.update (acct : WalletAccount) (w : Wallet2) : ChainUpdate → Except WalletError Wallet2
  | .block b => addBlock acct w b
  | .detach height => w.detachBlockchain height

section
variable {acct : WalletAccount} {w w' : Wallet2}

theorem Wallet2.Linked.addBlock {b : WalletBlock} (hw : w.Linked acct) (h : Wire.addBlock acct w b = .ok w') :
    w'.Linked acct := by
  have htx : ∀ {height ts : UInt64} (w₁ : Wallet2) (t : BlockTx) (w₂ : Wallet2), w₁.Linked acct →
      processBlockTx acct height ts w₁ t = .ok w₂ → w₂.Linked acct := by
    intro height ts w₁ t w₂ hlinked h
    unfold processBlockTx at h
    split at h
    · cases h
    · exact (txEffect_processNewTransaction rfl hlinked h).linked
  unfold Wire.addBlock processNewBlockchainEntry at h
  split at h
  · cases h
  obtain ⟨w₁, htxs, rfl⟩ := map_ok_iff.1 h
  have hlinked₁ : w₁.Linked acct := by
    split at htxs
    · unfold processTransactions at htxs
      split at htxs
      · cases htxs
      rename_i w₂ hminer
      split at htxs
      · cases htxs
      exact foldlM_preserves (fun t _ w₁ w₂ hw₁ h => htx w₁ t w₂ hw₁ h) (htx w _ w₂ hw hminer) htxs
    · cases htxs
      exact hw
  exact hlinked₁.congr rfl rfl rfl

theorem Wallet2.Linked.detachBlockchain (hw : w.Linked acct) (height : UInt64) :
    Outcome (·.Linked acct) (· = .reorgBelowCheckpoint) (w.detachBlockchain height) := by
  have hreset := hw.resetSpent height
  generalize hl : w.transfers.map (TransferDetails.resetSpent height) = l at hreset
  obtain ⟨⟨keyImages, hkeyImages, himage⟩, pubKeys, hpubKeys, hpub⟩ :=
    hreset.cut (l.findIdx fun td => td.blockHeight ≥ height)
  unfold Wallet2.detachBlockchain
  split
  · rfl
  · simp only [hl, hkeyImages, hpubKeys]
    refine ⟨fun {k td} hk => ?_, hpub, himage⟩
    change (l.take _)[k]? = some td at hk
    rw [getElem?_take] at hk
    split at hk
    · exact hreset.entry hk
    · cases hk

end

def replacedThenDetached : List ChainUpdate :=
  paidTwice.map .block ++ [.detach 2, .block (holding 3 [payPrimary true 30])]

end Electronero.Wire
