import Electronero.Lib.ListIndex
import Electronero.Wallet.Scan
/-!
# What a transaction does to the wallet's records

`Linked`: `m_pub_keys` and `m_key_images` lead from a one-time key and its key image to the one entry with that key.
-/
namespace Electronero.Wire
open Text FiniteMap ExceptLoop ListIndex

section
variable {acct : WalletAccount} {p : ProcessedTx}

structure ScannedOutput.Of (acct : WalletAccount) (p : ProcessedTx) (s : ScannedOutput) : Prop where
  out : p.tx.vout[s.o]? = some s.out
  key : TxoutTarget.key? s.out.target = some s.key
  ki : s.ki = if acct.multisig then default else acct.keyImage s.key

variable {r : ScanRound} {outs : List ScannedOutput} {s : ScannedOutput} {P : Wallet2 → Prop} {w' : Wallet2}

theorem checkAccOutPrecompOnce_key {out : TxOut} {i : Nat} {key : PublicKey}
    {received : SubaddressReceiveInfo} (h : checkAccOutPrecompOnce acct r out i = .ok (some (key, received))) :
    TxoutTarget.key? out.target = some key := by
  unfold checkAccOutPrecompOnce at h
  split at h
  · cases h
  · split at h
    · cases h
    · simp_all

theorem scanStep_of {outs' : List ScannedOutput} {out : TxOut × Nat}
    (hout : p.tx.vout[out.2]? = some out.1) (h : scanStep acct p.tx r outs out = .ok outs')
    (hall : ∀ s ∈ outs, s.Of acct p) : ∀ s ∈ outs', s.Of acct p := by
  unfold scanStep at h
  split at h
  · cases h
  · cases h
    exact hall
  · rename_i key received hcheck
    unfold scanOutput at h
    split at h
    · cases h
    · cases h
      intro s hs
      rcases List.mem_append.1 hs with hs | hs
      · exact hall s hs
      · rw [List.mem_singleton] at hs
        subst hs
        exact ⟨hout, checkAccOutPrecompOnce_key hcheck, rfl⟩

theorem scanOutputs_of (h : scanOutputs acct p r = .ok outs) : ∀ s ∈ outs, s.Of acct p := by
  have hall : ∀ outs, p.tx.vout.zipIdx.foldlM (scanStep acct p.tx r) [] = .ok outs → ∀ s ∈ outs, s.Of acct p := by
    intro outs hloop
    refine foldlM_preserves (P := fun outs : List ScannedOutput => ∀ s ∈ outs, s.Of acct p) ?_ (by simp) hloop
    intro out hmem outs outs' houts hstep
    exact scanStep_of (List.mem_zipIdx_iff_getElem?.1 hmem) hstep houts
  unfold scanOutputs at h
  split at h
  · split at h
    · exact hall outs h
    · cases h
      simp
    · grind
  · exact hall outs h

theorem receiveOutput_cases {pkIndex : Nat} {t t' : Takings}
    (h : receiveOutput acct p pkIndex t s = .ok t') :
    (t.wallet.pubKeys.lookup s.key = none ∧
      t'.wallet = (if p.pool then t.wallet else t.wallet.pushTransfer acct p pkIndex s).note p s) ∨
    ∃ k td, t.wallet.pubKeys.lookup s.key = some k ∧ t.wallet.transfers[k]? = some td ∧
      ((td.spent = true ∨ s.out.amount ≤ td.amount) ∧ t'.wallet = t.wallet.note p s ∨
        td.spent = false ∧ td.amount < s.out.amount ∧
        (p.pool = false → (td.write p pkIndex s).publicKey = some s.key) ∧
        t'.wallet = (if p.pool then t.wallet else t.wallet.replaceTransfer acct k td p pkIndex s).note p s) := by
  unfold receiveOutput at h
  split at h
  · grind
  · rename_i k hsome
    split at h
    · cases h
    · rename_i td htd
      refine .inr ⟨k, td, hsome, htd, ?_⟩
      simp only at h
      by_cases hkeep : td.spent ∨ td.amount ≥ s.out.amount
      · grind
      · rw [if_neg hkeep] at h
        rw [not_or, Bool.not_eq_true, UInt64.not_le] at hkeep
        grind

theorem sum64_credit {κ : Type} [DecidableEq κ] (m : UMap κ UInt64) (k : κ) (amount : UInt64) :
    sum64 ((credit m k amount).entries.map (·.2)) = sum64 (m.entries.map (·.2)) + amount := by
  have htotal : ∀ m : UMap κ UInt64, sum64 (m.entries.map (·.2)) = .ofNat (total UInt64.toNat m) := by
    intro m
    rw [sum64, Multiset.map_map]
    rfl
  have hinsert := total_insert UInt64.toNat m k (getD m k 0 + amount)
  have hold : ((m.lookup k).map UInt64.toNat).getD 0 = (getD m k 0).toNat := by
    unfold getD
    cases m.lookup k <;> rfl
  rw [hold, UInt64.toNat_add] at hinsert
  rw [htotal, htotal, ← UInt64.toNat_inj, UInt64.toNat_add, UInt64.toNat_ofNat', UInt64.toNat_ofNat']
  unfold credit
  omega

theorem sweep_invariant
    (hreceive : ∀ pkIndex t s t', s.Of acct p → P t.wallet → receiveOutput acct p pkIndex t s = .ok t' → P t'.wallet)
    {pubs : List (PublicKey × Nat)} {st st' : Sweep} (hst : P st.wallet)
    (h : pubs.foldlM (scanPubKey acct p) st = .ok st') : P st'.wallet := by
  refine foldlM_preserves (P := fun st : Sweep => P st.wallet) ?_ hst h
  intro pub _ st st' hst hround
  unfold scanPubKey at hround
  simp only at hround
  split at hround
  · cases hround
  · rename_i outs houts
    split at hround
    · cases hround
    · obtain ⟨t, hloop, rfl⟩ := map_ok_iff.1 hround
      refine foldlM_preserves (P := fun t : Takings => P t.wallet) ?_ ?_ hloop
      · grind [scanOutputs_of]
      · exact hst

theorem processNewTransaction_rule {w : Wallet2}
    (hunconfirmed : p.minerTx = false → p.pool = false → P w → P (w.processUnconfirmed acct p.txid p.height))
    (hreceive : ∀ pkIndex t s t', s.Of acct p → P t.wallet → receiveOutput acct p pkIndex t s = .ok t' → P t'.wallet)
    (hspend : ∀ s i, i ∈ p.tx.vin → P s.wallet → P (spendInput p s i).wallet)
    (hsettle : ∀ pub got total s w', P s.wallet → settle acct p pub got total s = .ok w' → P w')
    (hw : P w) (h : processNewTransaction acct w p = .ok w') : P w' := by
  unfold processNewTransaction at h
  simp only at h
  have hstart : P (if p.minerTx = false ∧ p.pool = false then w.processUnconfirmed acct p.txid p.height else w) := by
    grind
  split at h
  · cases h
  · rename_i st hsweep
    have hswept : P st.wallet := sweep_invariant hreceive hstart hsweep
    have hspent : ∀ (ins : List TxIn), (∀ i ∈ ins, i ∈ p.tx.vin) → ∀ s : Spendings, P s.wallet →
        P (ins.foldl (spendInput p) s).wallet := by
      intro ins hins
      induction ins with
      | nil => exact fun _ hs => hs
      | cons i ins ih => grind
    grind

/-- What the two functions that write `m_confirmed_txs` can have made of it: at most one entry is new, at this height. -/
def Confirms (p : ProcessedTx) (before after : UMap Hash ConfirmedTransferDetails) : Prop :=
  after = before ∨ p.pool = false ∧ ∃ c, after = before.insert p.txid c ∧ c.blockHeight = p.height

theorem processUnconfirmed_spec (acct : WalletAccount) (hpool : p.pool = false) (w : Wallet2) :
    ∃ confirmed unconfirmed, w.processUnconfirmed acct p.txid p.height =
      { w with confirmedTxs := confirmed, unconfirmedTxs := unconfirmed } ∧ Confirms p w.confirmedTxs confirmed := by
  unfold Wallet2.processUnconfirmed
  split
  · exact ⟨w.confirmedTxs, w.unconfirmedTxs, rfl, .inl rfl⟩
  · rename_i u _
    refine ⟨_, _, rfl, ?_⟩
    unfold insertNew
    split
    · split
      · exact .inl rfl
      · exact .inr ⟨hpool, u.confirm p.height, rfl, rfl⟩
    · exact .inl rfl

theorem setChange_eq (w : Wallet2) (txid : Hash) (change : UInt64) {c : ConfirmedTransferDetails}
    (h : w.confirmedTxs.lookup txid = some c) :
    w.setChange txid change = { w with confirmedTxs := w.confirmedTxs.insert txid { c with change := change } } := by
  unfold Wallet2.setChange
  rw [h]

theorem recordOutgoing_spec (s : Spendings) (selfReceived fee : UInt64) :
    ∃ confirmed, recordOutgoing acct p s selfReceived fee = { s.wallet with confirmedTxs := confirmed } ∧
      Confirms p s.wallet.confirmedTxs confirmed := by
  unfold recordOutgoing
  split
  · rename_i hspends
    simp only
    split
    · rw [setChange_eq _ _ _ (Finmap.lookup_insert _)]
      simp only [Wallet2.processOutgoing, Finmap.insert_insert]
      refine ⟨_, rfl, .inr ⟨hspends.2, _, rfl, ?_⟩⟩
      rfl
    · refine ⟨_, rfl, .inr ⟨hspends.2, _, rfl, ?_⟩⟩
      rfl
  · exact ⟨_, rfl, .inl rfl⟩

theorem settle_spec {pub : PublicKey} {got : UMap SubaddressIndex UInt64} {total : UInt64} {s : Spendings}
    (h : settle acct p pub got total s = .ok w') :
    ∃ confirmed added, w' = { s.wallet with confirmedTxs := confirmed, payments := s.wallet.payments + added } ∧
      (∀ e ∈ added, e.2.blockHeight = p.height) ∧ Confirms p s.wallet.confirmedTxs confirmed := by
  unfold settle at h
  simp only at h
  generalize hout : recordOutgoing acct p s _ _ = out at h
  obtain ⟨confirmed, hconf, hconfirmed⟩ : ∃ confirmed, out = { s.wallet with confirmedTxs := confirmed } ∧
      Confirms p s.wallet.confirmedTxs confirmed := by
    rw [← hout]
    exact recordOutgoing_spec s _ _
  subst hconf
  split at h
  · cases h
    exact ⟨confirmed, 0, by simp, by simp, hconfirmed⟩
  · split at h
    · cases h
    · split at h
      · cases h
        exact ⟨confirmed, 0, by simp, by simp, hconfirmed⟩
      · cases h
        refine ⟨confirmed, _, rfl, ?_, hconfirmed⟩
        intro e he
        obtain ⟨_, -, rfl⟩ := Multiset.mem_map.1 he
        rfl

def WalletAccount.knowsImages (acct : WalletAccount) : Bool := !acct.multisig && !acct.watchOnly

def WalletAccount.recordedImage (acct : WalletAccount) (key : PublicKey) : KeyImage :=
  if acct.multisig then default else acct.keyImage key

theorem WalletAccount.knowsImages_iff : acct.knowsImages = true ↔ acct.multisig = false ∧ acct.watchOnly = false := by
  simp [WalletAccount.knowsImages]

theorem WalletAccount.recordedImage_eq (h : acct.knowsImages = true) (key : PublicKey) :
    acct.recordedImage key = acct.keyImage key := by
  rw [WalletAccount.recordedImage, if_neg (by simp [(WalletAccount.knowsImages_iff.1 h).1])]

theorem WalletAccount.recordedImage_injective (h : acct.knowsImages = true) :
    Function.Injective acct.recordedImage := by
  intro key key' heq
  rw [WalletAccount.recordedImage_eq h, WalletAccount.recordedImage_eq h] at heq
  obtain ⟨hmultisig, hwatch⟩ := WalletAccount.knowsImages_iff.1 h
  exact acct.keyImage_injective hwatch hmultisig heq

structure TransferDetails.StandsFor (acct : WalletAccount) (td : TransferDetails) (key : PublicKey) : Prop where
  publicKey : td.publicKey = some key
  keyImage : td.keyImage = acct.recordedImage key
  known : td.keyImageKnown = acct.knowsImages
  isPartial : td.keyImagePartial = acct.multisig

def WalletAccount.imageOf (acct : WalletAccount) (td : TransferDetails) : Option KeyImage :=
  if acct.knowsImages then some td.keyImage else none

structure Wallet2.Linked (acct : WalletAccount) (w : Wallet2) : Prop where
  entry : ∀ {k : Nat} {td : TransferDetails}, w.transfers[k]? = some td → ∃ key, td.StandsFor acct key
  pub : Indexes TransferDetails.publicKey w.pubKeys w.transfers
  image : Indexes acct.imageOf w.keyImages w.transfers

theorem ScannedOutput.Of.publicKey_write (hs : s.Of acct p) (td : TransferDetails) (pkIndex : Nat) :
    (td.write p pkIndex s).publicKey = some s.key := by
  show p.tx.vout[s.o]?.bind _ = _
  rw [hs.out]
  exact hs.key

namespace Wallet2
variable {w w' : Wallet2} {k : Nat} {td td' : TransferDetails} {key : PublicKey}

theorem linked_fresh (table : SubaddressTable) (unconfirmedTxs : UMap Hash UnconfirmedTransferDetails) (offset : Nat) :
    (fresh table unconfirmedTxs offset).Linked acct where
  entry h := by simp [fresh] at h
  pub := indexes_nil
  image := indexes_nil

theorem Linked.congr (h : w.Linked acct) (htransfers : w'.transfers = w.transfers) (hpub : w'.pubKeys = w.pubKeys)
    (himage : w'.keyImages = w.keyImages) : w'.Linked acct where
  entry := by rw [htransfers]; exact h.entry
  pub := by rw [htransfers, hpub]; exact h.pub
  image := by rw [htransfers, himage]; exact h.image

theorem Linked.set (h : w.Linked acct) (hk : w.transfers[k]? = some td)
    (hsame : ∀ key, td.StandsFor acct key → td'.StandsFor acct key)
    (htransfers : w'.transfers = w.transfers.set k td') (hpub : w'.pubKeys = w.pubKeys)
    (himage : w'.keyImages = w.keyImages) : w'.Linked acct := by
  obtain ⟨key, hstands⟩ := h.entry hk
  have hstands' := hsame key hstands
  refine ⟨fun {j x} hx => ?_, ?_, ?_⟩
  · rw [htransfers] at hx
    rcases (getElem?_set_iff hk).1 hx with ⟨-, rfl⟩ | ⟨-, hx⟩
    · exact ⟨key, hstands'⟩
    · exact h.entry hx
  · rw [htransfers, hpub]
    exact h.pub.set hk (hstands'.publicKey.trans hstands.publicKey.symm)
  · rw [htransfers, himage]
    refine h.image.set hk ?_
    rw [WalletAccount.imageOf, WalletAccount.imageOf, hstands'.keyImage, hstands.keyImage]

theorem Linked.image_of_lookup (h : w.Linked acct) {ki : KeyImage} (hk : w.keyImages.lookup ki = some k)
    (htd : w.transfers[k]? = some td) : acct.knowsImages = true ∧ td.keyImage = ki := by
  have himage := h.image.key_of_lookup hk htd
  grind [WalletAccount.imageOf]

theorem Linked.image_fresh (h : w.Linked acct) (hnone : w.pubKeys.lookup key = none)
    (hknows : acct.knowsImages = true) : w.keyImages.lookup (acct.recordedImage key) = none := by
  cases hk : w.keyImages.lookup (acct.recordedImage key) with
  | none => rfl
  | some k =>
    obtain ⟨td, htd, -⟩ := h.image.lookup_iff.1 hk
    obtain ⟨key', hstands⟩ := h.entry htd
    have hkey := acct.recordedImage_injective hknows (hstands.keyImage.symm.trans (h.image_of_lookup hk htd).2)
    subst hkey
    exact absurd hstands.publicKey (h.pub.key_ne hnone htd)

variable {s : ScannedOutput}

theorem standsFor_initial (hs : s.Of acct p) (pkIndex : Nat) :
    ((TransferDetails.initial acct s).write p pkIndex s).StandsFor acct s.key where
  publicKey := hs.publicKey_write _ _
  keyImage := hs.ki
  known := Bool.and_comm _ _
  isPartial := rfl

theorem Linked.push (h : w.Linked acct) (hs : s.Of acct p) (pkIndex : Nat)
    (hnone : w.pubKeys.lookup s.key = none) : (w.pushTransfer acct p pkIndex s).Linked acct := by
  have hnew := standsFor_initial hs pkIndex
  refine ⟨fun {j x} hx => ?_, h.pub.push hnew.publicKey hnone, ?_⟩
  · rcases getElem?_concat_iff.1 hx with hx | ⟨-, rfl⟩
    · exact h.entry hx
    · exact ⟨s.key, hnew⟩
  · show Indexes _ (if acct.knowsImages then w.keyImages.insert s.ki w.transfers.length else w.keyImages) _
    by_cases hknows : acct.knowsImages = true
    · rw [if_pos hknows]
      refine h.image.push (if_pos hknows) ?_
      rw [show s.ki = acct.recordedImage s.key from hs.ki]
      exact h.image_fresh hnone hknows
    · rw [if_neg hknows]
      exact h.image.push_none (if_neg hknows)

section
variable (s : ScannedOutput)

@[simp] theorem transfers_note : (w.note p s).transfers = w.transfers := by
  unfold note
  split <;> rfl

@[simp] theorem pubKeys_note : (w.note p s).pubKeys = w.pubKeys := by
  unfold note
  split <;> rfl

@[simp] theorem keyImages_note : (w.note p s).keyImages = w.keyImages := by
  unfold note
  split <;> rfl

@[simp] theorem spentImages_note : (w.note p s).spentImages = w.spentImages := by
  unfold note
  split <;> rfl

end

theorem Linked.note (h : w.Linked acct) (s : ScannedOutput) : (w.note p s).Linked acct :=
  h.congr (transfers_note s) (pubKeys_note s) (keyImages_note s)

theorem Linked.replace (h : w.Linked acct) {s : ScannedOutput} (hs : s.Of acct p) (pkIndex : Nat)
    (hk : w.pubKeys.lookup s.key = some k) (htd : w.transfers[k]? = some td) :
    (w.replaceTransfer acct k td p pkIndex s).Linked acct := by
  refine h.set htd (fun key hstands => ?_) rfl rfl rfl
  have hkey : key = s.key := Option.some.inj (hstands.publicKey.symm.trans (h.pub.key_of_lookup hk htd))
  exact ⟨hkey ▸ hs.publicKey_write td pkIndex, hstands.keyImage, hstands.known, hstands.isPartial⟩

theorem Linked.receiveOutput {pkIndex : Nat} {t t' : Takings} (hs : s.Of acct p)
    (h : t.wallet.Linked acct) (hstep : receiveOutput acct p pkIndex t s = .ok t') : t'.wallet.Linked acct := by
  rcases receiveOutput_cases hstep with ⟨hnone, hw⟩ | ⟨k, td, hk, htd, ⟨-, hw⟩ | ⟨-, -, -, hw⟩⟩
  · rw [hw]
    split
    · exact h.note s
    · exact (h.push hs pkIndex hnone).note s
  · rw [hw]
    exact h.note s
  · rw [hw]
    split
    · exact h.note s
    · exact (h.replace hs pkIndex hk htd).note s

theorem Linked.spendInput {s : Spendings} {i : TxIn} (h : s.wallet.Linked acct) :
    (spendInput p s i).wallet.Linked acct := by
  unfold Wire.spendInput
  split
  · simp only
    split
    · exact h.congr rfl rfl rfl
    · split
      · exact h.congr rfl rfl rfl
      · rename_i htd
        refine h.set htd (fun key hstands => ?_) rfl rfl rfl
        exact ⟨hstands.publicKey, hstands.keyImage, hstands.known, hstands.isPartial⟩
  · exact h

end Wallet2

end
end Electronero.Wire
