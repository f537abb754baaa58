import Electronero.Wallet.Records
/-!
# Outputs on the same one-time key (`src/wallet/wallet2.cpp:1260-1389`)

The wallet keeps one entry for a key, and should keep the largest output. A later RingCT output is compared by
`tx.vout[o].amount`, which is 0, and is always ignored.
-/
namespace Electronero.Wire
open Text FiniteMap ExceptLoop ListIndex List

def processAll (acct : WalletAccount) (w : Wallet2) (ps : List ProcessedTx) : Except WalletError Wallet2 :=
  ps.foldlM (processNewTransaction acct) w

def comparable : List Receipt → List Receipt
  | [] => []
  | first :: rest => first :: rest.filter (·.clear)

/-- The entry has the largest amount, and the global index of an output with it. -/
structure TransferDetails.RecordsLargest (td : TransferDetails) (rs : List Receipt) : Prop where
  largest : ∀ r ∈ rs, r.amount ≤ td.amount
  index : ∃ r ∈ rs, r.amount = td.amount ∧ r.globalIndex = td.globalOutputIndex

variable {rs : List Receipt} {r : Receipt} {td : TransferDetails}

theorem comparable_concat (r : Receipt) (h : rs ≠ []) :
    comparable (rs ++ [r]) = if r.clear then comparable rs ++ [r] else comparable rs := by
  cases rs with
  | nil => exact absurd rfl h
  | cons first rest =>
    show first :: (rest ++ [r]).filter _ = _
    rw [filter_append]
    by_cases hc : r.clear = true
    · rw [if_pos hc, filter_cons_of_pos hc]
      rfl
    · rw [if_neg hc, filter_cons_of_neg hc]
      simp [comparable]

theorem comparable_subset (h : r ∈ comparable rs) : r ∈ rs := by
  cases rs with
  | nil => exact h
  | cons first rest =>
    rcases mem_cons.1 h with rfl | h
    · exact mem_cons_self
    · grind

theorem TransferDetails.RecordsLargest.all_iff (h : td.RecordsLargest (comparable rs)) :
    td.RecordsLargest rs ↔ ∃ r ∈ comparable rs, ∀ q ∈ rs, q.amount ≤ r.amount := by
  obtain ⟨r, hr, hamount, hindex⟩ := h.index
  constructor
  · intro hall
    exact ⟨r, hr, fun q hq => hamount ▸ hall.largest q hq⟩
  · rintro ⟨m, hm, hlargest⟩
    refine ⟨fun q hq => UInt64.le_trans (hlargest q hq) (h.largest m hm), ?_⟩
    exact ⟨r, comparable_subset hr, hamount, hindex⟩

theorem TransferDetails.RecordsLargest.nonempty (h : td.RecordsLargest (comparable rs)) : rs ≠ [] := by
  rintro rfl
  obtain ⟨r, hr, -⟩ := h.index
  cases hr

theorem TransferDetails.RecordsLargest.concat_le
    (h : td.RecordsLargest (comparable rs)) (hle : r.clear = true → r.amount ≤ td.amount) :
    td.RecordsLargest (comparable (rs ++ [r])) := by
  rw [comparable_concat r h.nonempty]
  split
  · rename_i hclear
    obtain ⟨q, hq, hsame⟩ := h.index
    refine ⟨fun q' hq' => ?_, ⟨q, mem_append_left _ hq, hsame⟩⟩
    rcases mem_append.1 hq' with hq' | hq'
    · exact h.largest q' hq'
    · rw [mem_singleton.1 hq']
      exact hle hclear
  · exact h

theorem TransferDetails.RecordsLargest.concat_lt {td' : TransferDetails}
    (h : td.RecordsLargest (comparable rs)) (hclear : r.clear = true) (hlt : td.amount < r.amount)
    (hamount : r.amount = td'.amount) (hindex : r.globalIndex = td'.globalOutputIndex) :
    td'.RecordsLargest (comparable (rs ++ [r])) := by
  rw [comparable_concat r h.nonempty, if_pos hclear]
  refine ⟨fun q hq => ?_, ⟨r, mem_append_right _ (mem_singleton_self r), hamount, hindex⟩⟩
  rcases mem_append.1 hq with hq | hq
  · exact UInt64.le_of_lt (UInt64.lt_of_le_of_lt (h.largest q hq) (hamount ▸ hlt))
  · grind

namespace Wallet2
variable {acct : WalletAccount} {p : ProcessedTx} {w : Wallet2} {key : PublicKey}

def receivedOn (w : Wallet2) (key : PublicKey) : List Receipt := w.received.filter fun r => r.key = key

def Unspent (acct : WalletAccount) (w : Wallet2) (key : PublicKey) : Prop :=
  acct.knowsImages = true → acct.keyImage key ∉ w.spentImages

/-- The indexes lead to the entries, and every unspent entry is the largest of the outputs it was compared with. -/
structure Tallied (acct : WalletAccount) (w : Wallet2) : Prop extends w.Linked acct where
  unseen : ∀ {key : PublicKey}, w.pubKeys.lookup key = none → w.receivedOn key = []
  tally : ∀ {k : Nat} {td : TransferDetails} {key : PublicKey}, w.transfers[k]? = some td → td.publicKey = some key →
    w.Unspent acct key → td.spent = false ∧ td.RecordsLargest (comparable (w.receivedOn key))

theorem tallied_fresh (table : SubaddressTable) (unconfirmedTxs : UMap Hash UnconfirmedTransferDetails) (offset : Nat) :
    (fresh table unconfirmedTxs offset).Tallied acct where
  toLinked := linked_fresh table unconfirmedTxs offset
  unseen _ := rfl
  tally h := by simp [fresh] at h

variable {w' : Wallet2} {s : ScannedOutput}

theorem Tallied.congr (h : w.Tallied acct) (htransfers : w'.transfers = w.transfers)
    (hpub : w'.pubKeys = w.pubKeys) (himage : w'.keyImages = w.keyImages) (hreceived : w'.received = w.received)
    (hspent : w'.spentImages = w.spentImages) : w'.Tallied acct where
  toLinked := h.toLinked.congr htransfers hpub himage
  unseen := by
    unfold receivedOn
    rw [hpub, hreceived]
    exact h.unseen
  tally := by
    unfold receivedOn Unspent
    rw [htransfers, hreceived, hspent]
    exact h.tally

theorem receivedOn_note (hpool : p.pool = false) (s : ScannedOutput) :
    (w.note p s).receivedOn key = w.receivedOn key ++ if s.key = key then [s.receipt p] else [] := by
  rw [note, if_neg (by simp [hpool])]
  show (w.received ++ [s.receipt p]).filter _ = _
  rw [filter_append]
  congr 1
  grind [ScannedOutput.receipt]

theorem amount_receipt (h : (s.receipt p).clear = true) : (s.receipt p).amount = s.out.amount := by
  have hne : s.out.amount ≠ 0 := by simpa [ScannedOutput.receipt] using h
  exact if_pos hne

/-! ## The three things that can happen to an output -/

section
variable {s : ScannedOutput} {pkIndex k : Nat} {td : TransferDetails} (hpool : p.pool = false)
include hpool

theorem Tallied.push (h : w.Tallied acct) (hs : s.Of acct p) (hnone : w.pubKeys.lookup s.key = none) :
    ((w.pushTransfer acct p pkIndex s).note p s).Tallied acct where
  toLinked := (h.toLinked.push hs pkIndex hnone).note s
  unseen {key} hkey := by
    rw [pubKeys_note] at hkey
    change (w.pubKeys.insert s.key w.transfers.length).lookup key = none at hkey
    rw [lookup_insert_ite] at hkey
    split at hkey
    · cases hkey
    · rename_i hne
      rw [receivedOn_note hpool, if_neg fun he => hne he.symm, append_nil]
      exact h.unseen hkey
  tally {j x key} hx hkey hunspent := by
    rw [transfers_note] at hx
    rw [Unspent, spentImages_note] at hunspent
    rw [receivedOn_note hpool]
    rcases getElem?_concat_iff.1 hx with hx | ⟨-, rfl⟩
    · have hne : s.key ≠ key := by
        rintro rfl
        exact h.pub.key_ne hnone hx hkey
      rw [if_neg hne, append_nil]
      exact h.tally hx hkey hunspent
    · rw [hs.publicKey_write] at hkey
      cases hkey
      rw [if_pos rfl, show (w.pushTransfer acct p pkIndex s).receivedOn s.key = [] from h.unseen hnone, nil_append]
      refine ⟨rfl, ⟨fun r hr => ?_, ⟨_, mem_singleton_self _, rfl, rfl⟩⟩⟩
      rw [mem_singleton.1 hr]
      exact UInt64.le_refl _

theorem Tallied.ignore (h : w.Tallied acct) (hk : w.pubKeys.lookup s.key = some k)
    (htd : w.transfers[k]? = some td) (hkeep : td.spent = true ∨ s.out.amount ≤ td.amount) :
    (w.note p s).Tallied acct where
  toLinked := h.toLinked.note s
  unseen {key} hkey := by
    rw [pubKeys_note] at hkey
    have hne : s.key ≠ key := by
      rintro rfl
      rw [hk] at hkey
      cases hkey
    rw [receivedOn_note hpool, if_neg hne, append_nil]
    exact h.unseen hkey
  tally {j x key} hx hkey hunspent := by
    rw [transfers_note] at hx
    rw [Unspent, spentImages_note] at hunspent
    rw [receivedOn_note hpool]
    obtain ⟨hspent, hbest⟩ := h.tally hx hkey hunspent
    by_cases heq : s.key = key
    · subst heq
      rw [h.pub.eq_of_lookup hk hx hkey, htd] at hx
      cases hx
      have hle : s.out.amount ≤ td.amount := hkeep.resolve_left (by simp [hspent])
      refine ⟨hspent, ?_⟩
      rw [if_pos rfl]
      exact hbest.concat_le fun hclear => amount_receipt hclear ▸ hle
    · rw [if_neg heq, append_nil]
      exact ⟨hspent, hbest⟩

theorem Tallied.replace (h : w.Tallied acct) (hs : s.Of acct p) (hk : w.pubKeys.lookup s.key = some k)
    (htd : w.transfers[k]? = some td) (hlt : td.amount < s.out.amount) :
    ((w.replaceTransfer acct k td p pkIndex s).note p s).Tallied acct where
  toLinked := (h.toLinked.replace hs pkIndex hk htd).note s
  unseen {key} hkey := by
    rw [pubKeys_note] at hkey
    have hne : s.key ≠ key := by
      rintro rfl
      exact absurd (hk.symm.trans hkey) (by simp)
    rw [receivedOn_note hpool, if_neg hne, append_nil]
    exact h.unseen hkey
  tally {j x key} hx hkey hunspent := by
    rw [transfers_note] at hx
    rw [Unspent, spentImages_note] at hunspent
    rw [receivedOn_note hpool]
    rcases (getElem?_set_iff htd).1 hx with ⟨-, rfl⟩ | ⟨hj, hx⟩
    · rw [hs.publicKey_write] at hkey
      cases hkey
      obtain ⟨hspent, hbest⟩ := h.tally htd (h.pub.key_of_lookup hk htd) hunspent
      refine ⟨hspent, ?_⟩
      have hne : s.out.amount ≠ 0 := fun h0 => by simp [h0] at hlt
      have hclear : (s.receipt p).clear = true := by simpa [ScannedOutput.receipt] using hne
      rw [if_pos rfl]
      exact hbest.concat_lt hclear (amount_receipt hclear ▸ hlt) rfl rfl
    · have hne : s.key ≠ key := by
        rintro rfl
        exact hj (h.pub.eq_of_lookup hk hx hkey).symm
      rw [if_neg hne, append_nil]
      exact h.tally hx hkey hunspent

end

theorem Tallied.receiveOutput {pkIndex : Nat} {t t' : Takings} (hs : s.Of acct p)
    (h : t.wallet.Tallied acct) (hstep : receiveOutput acct p pkIndex t s = .ok t') : t'.wallet.Tallied acct := by
  cases hpool : p.pool with
  | true =>
    -- in the pool nothing is written
    have hw : t'.wallet = t.wallet := by
      rcases receiveOutput_cases hstep with ⟨-, hw⟩ | ⟨_, _, -, -, ⟨-, hw⟩ | ⟨-, -, -, hw⟩⟩ <;>
        simpa [note, hpool] using hw
    rw [hw]
    exact h
  | false =>
    have hnot : ¬ p.pool = true := by simp [hpool]
    rcases receiveOutput_cases hstep with ⟨hnone, hw⟩ | ⟨k, td, hk, htd, ⟨hkeep, hw⟩ | ⟨-, hlt, -, hw⟩⟩
    · rw [hw, if_neg hnot]
      exact h.push hpool hs hnone
    · rw [hw]
      exact h.ignore hpool hk htd hkeep
    · rw [hw, if_neg hnot]
      exact h.replace hpool hs hk htd hlt

theorem Linked.keyImage_of_image (h : w.Linked acct) {ki : KeyImage} {k : Nat} {td : TransferDetails}
    (hk : w.keyImages.lookup ki = some k) (htd : w.transfers[k]? = some td) (hkey : td.publicKey = some key) :
    acct.knowsImages = true ∧ acct.keyImage key = ki := by
  obtain ⟨hknows, hki⟩ := h.image_of_lookup hk htd
  obtain ⟨key', hstands⟩ := h.entry htd
  rw [hstands.publicKey] at hkey
  cases hkey
  rw [hstands.keyImage, WalletAccount.recordedImage_eq hknows] at hki
  exact ⟨hknows, hki⟩

theorem Tallied.seen (h : w.Tallied acct) (ki : KeyImage) :
    ({ w with spentImages := w.spentImages ++ [ki] } : Wallet2).Tallied acct where
  toLinked := h.toLinked.congr rfl rfl rfl
  unseen := h.unseen
  tally hx hkey hunspent := h.tally hx hkey fun hknows hmem => hunspent hknows (mem_append_left _ hmem)

theorem Tallied.spendInput {s : Spendings} {i : TxIn} (h : s.wallet.Tallied acct) :
    (spendInput p s i).wallet.Tallied acct := by
  have hlinked : (Wire.spendInput p s i).wallet.Linked acct := h.toLinked.spendInput
  unfold Wire.spendInput at hlinked ⊢
  split
  · rename_i amount _ ki
    have hseen := h.seen ki
    simp only at hlinked ⊢
    split
    · exact hseen
    · rename_i k hk
      split
      · exact hseen
      · rename_i td htd
        simp only [hk, htd] at hlinked
        refine ⟨hlinked, hseen.unseen, fun {j x key} hx hkey hunspent => ?_⟩
        rcases (getElem?_set_iff htd).1 hx with ⟨-, rfl⟩ | ⟨-, hx⟩
        · -- the entry that is spent
          obtain ⟨hknows, hki⟩ := h.toLinked.keyImage_of_image hk htd hkey
          exact absurd (mem_append_right _ (mem_singleton.2 hki)) (hunspent hknows)
        · exact hseen.tally hx hkey hunspent
  · exact h

theorem Tallied.processNewTransaction (hw : w.Tallied acct)
    (h : processNewTransaction acct w p = .ok w') : w'.Tallied acct := by
  refine processNewTransaction_rule (P := fun w => w.Tallied acct) ?_ ?_ ?_ ?_ hw h
  · intro _ hpool hw
    obtain ⟨_, _, heq, -⟩ := processUnconfirmed_spec acct hpool w
    rw [heq]
    exact hw.congr rfl rfl rfl rfl rfl
  · intro pkIndex t s t' hs ht hstep
    exact ht.receiveOutput hs hstep
  · intro s i _ hs
    exact hs.spendInput
  · intro pub got total s w' hs hsettle
    obtain ⟨_, _, rfl, -, -⟩ := settle_spec hsettle
    exact hs.congr rfl rfl rfl rfl rfl

end Wallet2

theorem tallied_processAll {acct : WalletAccount} {w w' : Wallet2} {ps : List ProcessedTx} (hw : w.Tallied acct)
    (h : processAll acct w ps = .ok w') : w'.Tallied acct :=
  foldlM_preserves (P := fun w : Wallet2 => w.Tallied acct) (fun _ _ _ _ hw hstep => hw.processNewTransaction hstep) hw h

def sumAmounts (tds : List TransferDetails) : UInt64 := tds.foldl (fun sum td => sum + td.amount) 0

theorem foldl_amounts (tds : List TransferDetails) (a b : UInt64) :
    tds.foldl (fun sum td => sum + td.amount) (a + b) = tds.foldl (fun sum td => sum + td.amount) a + b := by
  induction tds generalizing a with
  | nil => rfl
  | cons td tds ih => grind

theorem sumAmounts_middle (before after : List TransferDetails) (td : TransferDetails) :
    sumAmounts (before ++ td :: after) = sumAmounts (before ++ after) + td.amount := by
  unfold sumAmounts
  rw [foldl_append, foldl_cons, foldl_amounts, foldl_append]

theorem sum64_foldl_credit (tds : List TransferDetails) (m : UMap UInt32 UInt64) :
    sum64 ((tds.foldl (fun m td => credit m td.subaddrIndex.minor td.amount) m).entries.map (·.2)) =
      tds.foldl (fun sum td => sum + td.amount) (sum64 (m.entries.map (·.2))) := by
  induction tds generalizing m with
  | nil => rfl
  | cons td tds ih => rw [foldl_cons, foldl_cons, ih, sum64_credit]

namespace Wallet2
variable {acct : WalletAccount} {w : Wallet2} {key : PublicKey}

theorem balance_eq (w : Wallet2) (major : UInt32) : w.balance major =
    sumAmounts (w.transfers.filter fun td => td.subaddrIndex.major = major ∧ td.spent = false) + sum64 (w.changes major) := by
  unfold balance balancePerSubaddress
  simp only
  split
  · rename_i hnone
    rw [sum64_foldl_credit, hnone]
    exact (UInt64.add_zero _).symm
  · rw [sum64_credit, sum64_foldl_credit]
    rfl

def without (w : Wallet2) (key : PublicKey) : Wallet2 :=
  { w with transfers := w.transfers.filter fun td => td.publicKey ≠ some key }

variable {k : Nat} {td : TransferDetails}

theorem Linked.split (h : w.Linked acct) (hk : w.pubKeys.lookup key = some k)
    (htd : w.transfers[k]? = some td) : ∃ before after, w.transfers = before ++ td :: after ∧
      (∀ x ∈ before, x.publicKey ≠ some key) ∧ ∀ x ∈ after, x.publicKey ≠ some key := by
  obtain ⟨hlt, rfl⟩ := List.getElem?_eq_some_iff.1 htd
  refine ⟨w.transfers.take k, w.transfers.drop (k + 1), by simp, fun x hx hkey => ?_, fun x hx hkey => ?_⟩
  · obtain ⟨j, hj, hx⟩ := mem_take_iff_getElem.1 hx
    have heq := h.pub.eq_of_lookup hk (List.getElem?_eq_some_iff.2 ⟨_, hx⟩) hkey
    omega
  · obtain ⟨j, hj, hx⟩ := mem_drop_iff_getElem.1 hx
    have heq := h.pub.eq_of_lookup hk (List.getElem?_eq_some_iff.2 ⟨_, hx⟩) hkey
    omega

theorem Linked.balance_without (h : w.Linked acct)
    (hk : w.pubKeys.lookup key = some k) (htd : w.transfers[k]? = some td) (hspent : td.spent = false) (major : UInt32) :
    w.balance major = (w.without key).balance major + if td.subaddrIndex.major = major then td.amount else 0 := by
  obtain ⟨before, after, hsplit, hbefore, hafter⟩ := h.split hk htd
  have hself : td.publicKey = some key := h.pub.key_of_lookup hk htd
  have hothers : (w.without key).transfers = before ++ after := by
    show w.transfers.filter _ = _
    rw [hsplit, filter_append, filter_cons_of_neg (by simp [hself]), filter_eq_self.2 (by simpa using hbefore),
      filter_eq_self.2 (by simpa using hafter)]
  rw [balance_eq, balance_eq, hothers, hsplit, filter_append, filter_append,
    show (w.without key).changes major = w.changes major from rfl]
  grind [sumAmounts_middle]

/-- **Burning.** The entry for a key records the largest output exactly if it is among those it was compared with. -/
theorem burning_resisted_iff (acct : WalletAccount) (table : SubaddressTable)
    (unconfirmedTxs : UMap Hash UnconfirmedTransferDetails) (offset : Nat) (ps : List ProcessedTx) (w : Wallet2)
    (hrun : processAll acct (fresh table unconfirmedTxs offset) ps = .ok w) (key : PublicKey)
    (howned : w.receivedOn key ≠ []) (hunspent : w.Unspent acct key) :
    ∃ td, w.transfers.filter (fun x => x.publicKey = some key) = [td] ∧
      (∀ major, w.balance major = (w.without key).balance major + if td.subaddrIndex.major = major then td.amount else 0) ∧
      (td.RecordsLargest (w.receivedOn key) ↔
        ∃ r ∈ comparable (w.receivedOn key), ∀ q ∈ w.receivedOn key, q.amount ≤ r.amount) := by
  have hw : w.Tallied acct := tallied_processAll (tallied_fresh table unconfirmedTxs offset) hrun
  cases hk : w.pubKeys.lookup key with
  | none => exact absurd (hw.unseen hk) howned
  | some k =>
    obtain ⟨td, htd, hkey⟩ := hw.pub.lookup_iff.1 hk
    obtain ⟨hspent, hbest⟩ := hw.tally htd hkey hunspent
    refine ⟨td, ?_, hw.toLinked.balance_without hk htd hspent, hbest.all_iff⟩
    obtain ⟨before, after, hsplit, hbefore, hafter⟩ := hw.toLinked.split hk htd
    rw [hsplit, filter_append, filter_cons_of_pos (by simpa using hkey),
      filter_eq_nil_iff.2 (by simpa using hbefore), filter_eq_nil_iff.2 (by simpa using hafter)]
    rfl

end Wallet2

def plainAccount : WalletAccount where
  toSubaddressKeys := SubaddressTable.plainKeys
  watchOnly := false
  multisig := false
  refreshType := .full
  createtime := 0
  refreshFromBlockHeight := 0
  storeTxInfo := true
  generateKeyDerivation _ := some default
  deriveSubaddressPublicKey key _ _ := key
  derives _ _ _ _ := true
  keyImage key := key
  keyImage_injective _ _ := Function.injective_id
  decodeRct rv _ i := (((rv.ecdhInfo[i]?).map fun e => (e.amount.bytes.headD 0).toUInt64).getD 0, default)
  parseTxExtra _ := [.pubKey default]
  decryptPaymentId _ _ := none
  getTransactionHash _ := default

def primaryTable : SubaddressTable :=
  Machine.run (SubaddressTable.apply SubaddressTable.plainKeys) .fresh
    [.setLookahead 1 1, .addAccount (ascii "Primary account")]

def primaryKey : PublicKey := SubaddressTable.plainKeys.spendKey ⟨0, 0⟩

def payPrimary (clear : Bool) (amount : UInt8) : Transaction where
  version := if clear then 1 else 2
  unlockTime := 0
  vin := []
  vout := [⟨if clear then amount.toUInt64 else 0, .toKey primaryKey⟩]
  extra := []
  rctSignatures := { ecdhInfo := [⟨default, ⟨amount :: List.replicate 31 0, rfl⟩⟩] }

def inBlock (height : UInt64) (tx : Transaction) : ProcessedTx :=
  ⟨Env.plainHash [height.toUInt8], tx, [100 + height], height, 0, false, false⟩

def clearPayments : List ProcessedTx := [inBlock 1 (payPrimary true 10), inBlock 2 (payPrimary true 20)]

def hiddenPayments : List ProcessedTx := [inBlock 1 (payPrimary false 5), inBlock 2 (payPrimary false 9)]

theorem burning_resisted_clear : ∃ w td, processAll plainAccount (.fresh primaryTable ∅ 1) clearPayments = .ok w ∧
    w.transfers.filter (fun x => x.publicKey = some primaryKey) = [td] ∧ td.RecordsLargest (w.receivedOn primaryKey) := by
  have hsummary : (processAll plainAccount (.fresh primaryTable ∅ 1) clearPayments).map
      (fun w => (w.received, w.spentImages)) =
      .ok ([⟨primaryKey, 10, true, 101⟩, ⟨primaryKey, 20, true, 102⟩], []) := by decide +kernel
  obtain ⟨w, hrun, hw⟩ := map_ok_iff.1 hsummary
  simp only [Prod.mk.injEq] at hw
  obtain ⟨hreceived, hspent⟩ := hw
  have hon : w.receivedOn primaryKey = [⟨primaryKey, 10, true, 101⟩, ⟨primaryKey, 20, true, 102⟩] := by
    rw [Wallet2.receivedOn, hreceived]
    rfl
  obtain ⟨td, hentry, -, hiff⟩ := Wallet2.burning_resisted_iff plainAccount primaryTable ∅ 1 clearPayments w hrun
    primaryKey (by rw [hon]; simp) (fun _ => by simp [hspent])
  exact ⟨w, td, hrun, hentry, hiff.2 (by rw [hon]; decide)⟩

theorem smaller_entry_kept : ∃ w, processAll plainAccount (.fresh primaryTable ∅ 1) hiddenPayments = .ok w ∧
    w.Unspent plainAccount primaryKey ∧ ∀ td ∈ w.transfers, ¬ td.RecordsLargest (w.receivedOn primaryKey) := by
  have hsummary : (processAll plainAccount (.fresh primaryTable ∅ 1) hiddenPayments).map
      (fun w => (w.received, w.spentImages, w.transfers.map (·.amount))) =
      .ok ([⟨primaryKey, 5, false, 101⟩, ⟨primaryKey, 9, false, 102⟩], [], [5]) := by decide +kernel
  obtain ⟨w, hrun, hw⟩ := map_ok_iff.1 hsummary
  simp only [Prod.mk.injEq] at hw
  obtain ⟨hreceived, hspent, hamounts⟩ := hw
  refine ⟨w, hrun, fun _ => by simp [hspent], fun td htd hlargest => ?_⟩
  have hamount : td.amount = 5 := by
    have hmem : td.amount ∈ w.transfers.map (·.amount) := List.mem_map_of_mem htd
    rw [hamounts] at hmem
    exact mem_singleton.1 hmem
  have hnine := hlargest.largest ⟨primaryKey, 9, false, 102⟩ (by rw [Wallet2.receivedOn, hreceived]; decide)
  rw [hamount] at hnine
  exact absurd hnine (by decide)

end Electronero.Wire
