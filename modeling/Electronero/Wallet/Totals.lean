import Electronero.Wallet.Records
/-!
# The check of the amounts received (`src/wallet/wallet2.cpp:1514-1526`)

`tx_money_got_in_outs` is taken while outputs are found, `total_received_1` while they are stored. An output on a known
key is taken back from the first, in whole or up to the amount of the entry it replaces.
-/
namespace Electronero.Wire
open Text FiniteMap ExceptLoop

/-- `total_received_2`: the change and the rest are the whole of `tx_money_got_in_outs`. -/
def totalReceived (got : UMap SubaddressIndex UInt64) : UInt64 := sum64 (got.entries.map (·.2))

def pending (outs : List ScannedOutput) : UInt64 := Wrapping.sum (outs.map (·.amount))

def Takings.Balanced (t : Takings) (outs : List ScannedOutput) : Prop := totalReceived t.got = t.total + pending outs

theorem pending_cons (s : ScannedOutput) (outs : List ScannedOutput) : pending (s :: outs) = s.amount + pending outs := by
  rw [pending, List.map_cons, Wrapping.sum_cons, pending]

theorem totalReceived_credits (outs : List ScannedOutput) (got : UMap SubaddressIndex UInt64) :
    totalReceived (outs.foldl (fun got s => credit got s.index s.amount) got) = totalReceived got + pending outs := by
  induction outs generalizing got with
  | nil => exact (UInt64.add_zero _).symm
  | cons s outs ih => grind [totalReceived, sum64_credit, pending_cons]

theorem totalReceived_takeBack (got : UMap SubaddressIndex UInt64) (index : SubaddressIndex) (amount : UInt64) :
    totalReceived (got.insert index (getD got index 0 - amount)) = totalReceived got - amount := by
  have hcredit : totalReceived (credit got index (-amount)) = totalReceived got + -amount := sum64_credit got _ _
  rwa [credit, ← UInt64.sub_eq_add_neg, ← UInt64.sub_eq_add_neg] at hcredit

section
variable (acct : WalletAccount) (p : ProcessedTx)

def Unstopped {α : Type} (P : α → Prop) (x : Except WalletError α) : Prop := Outcome P (· ≠ .consistencyFailure) x

theorem Unstopped.ne_error {α : Type} {P : α → Prop} {x : Except WalletError α} (h : Unstopped P x) :
    x ≠ .error .consistencyFailure := by
  rintro rfl
  exact h rfl

theorem checkAccOutPrecompOnce_unstopped (r : ScanRound) (out : TxOut) (i : Nat) :
    Unstopped (fun _ => True) (checkAccOutPrecompOnce acct r out i) := by
  unfold checkAccOutPrecompOnce
  split
  · trivial
  · split
    · exact WalletError.noConfusion
    · trivial

theorem scanOutput_unstopped (tx : Transaction) (out : TxOut) (i : Nat) (key : PublicKey)
    (received : SubaddressReceiveInfo) :
    Unstopped (fun s => s.credited = s.amount) (scanOutput acct tx out i key received) := by
  unfold scanOutput
  split
  · exact WalletError.noConfusion
  · show ScannedOutput.credited _ = ScannedOutput.amount _
    grind [ScannedOutput.credited]

def Credited (outs : List ScannedOutput) : Prop := ∀ s ∈ outs, s.credited = s.amount

variable {outs : List ScannedOutput} {s : ScannedOutput} {t : Takings}

theorem scanStep_unstopped (tx : Transaction) (r : ScanRound) (houts : Credited outs)
    (out : TxOut × Nat) : Unstopped Credited (scanStep acct tx r outs out) := by
  have hcheck := checkAccOutPrecompOnce_unstopped acct r out.1 out.2
  unfold scanStep
  cases h : checkAccOutPrecompOnce acct r out.1 out.2 with
  | error e =>
    rw [h] at hcheck
    exact hcheck
  | ok found =>
    cases found with
    | none => exact houts
    | some info =>
      refine Outcome.map ((scanOutput_unstopped acct tx out.1 out.2 info.1 info.2).imp fun s hs => ?_)
      intro s' hs'
      rcases List.mem_append.1 hs' with hs' | hs'
      · exact houts s' hs'
      · rwa [List.mem_singleton.1 hs']

theorem scanOutputs_unstopped (r : ScanRound) : Unstopped Credited (scanOutputs acct p r) := by
  have hall : Unstopped Credited (p.tx.vout.zipIdx.foldlM (scanStep acct p.tx r) []) :=
    Outcome.foldlM (I := fun _ outs => Credited outs) (fun out _ outs houts => scanStep_unstopped acct p.tx r houts out)
      (by simp [Credited])
  have hnone : Credited [] := by simp [Credited]
  unfold scanOutputs
  simp only
  split
  · split
    · exact hall
    · exact hnone
    · split
      · exact hnone
      · rename_i out _ _
        have hcheck := checkAccOutPrecompOnce_unstopped acct r out 0
        split
        · rename_i e he
          rw [he] at hcheck
          exact hcheck
        · exact hnone
        · exact hall
  · exact hall

theorem receiveOutput_unstopped (pkIndex : Nat) (t : Takings) (hs : s.credited = s.amount) :
    Unstopped (fun t' => ∃ back, totalReceived t'.got = totalReceived t.got - back ∧
      t'.total = t.total + (s.amount - back)) (receiveOutput acct p pkIndex t s) := by
  unfold receiveOutput
  split
  · exact ⟨0, by simp, by simp [hs]⟩
  · split
    · exact WalletError.noConfusion
    · rename_i td _
      simp only
      split
      · split
        · exact WalletError.noConfusion
        · exact ⟨s.amount, totalReceived_takeBack _ _ _, by simp⟩
      · split
        · exact WalletError.noConfusion
        · split
          · exact WalletError.noConfusion
          · exact ⟨td.amount, totalReceived_takeBack _ _ _, by rw [hs]⟩

theorem Takings.Balanced.receiveOutput (pkIndex : Nat) (hs : s.credited = s.amount) (ht : t.Balanced (s :: outs)) :
    Unstopped (fun t' => t'.Balanced outs) (receiveOutput acct p pkIndex t s) := by
  refine (receiveOutput_unstopped acct p pkIndex t hs).imp fun t' ht' => ?_
  grind [Balanced, pending_cons]

theorem receiveLoop_unstopped (pkIndex : Nat) (houts : Credited outs) (ht : t.Balanced outs) :
    Unstopped (fun t' => t'.Balanced []) (outs.foldlM (receiveOutput acct p pkIndex) t) := by
  have hround : ∀ s outs (t : Takings), Credited (s :: outs) ∧ t.Balanced (s :: outs) →
      Unstopped (fun t' => Credited outs ∧ t'.Balanced outs) (receiveOutput acct p pkIndex t s) := by
    rintro s outs t ⟨houts, ht⟩
    refine (ht.receiveOutput acct p pkIndex (houts s List.mem_cons_self)).imp fun t' ht' => ⟨?_, ht'⟩
    exact fun s' hs' => houts s' (List.mem_cons_of_mem s hs')
  exact (Outcome.foldlM (I := fun outs t => Credited outs ∧ t.Balanced outs) hround ⟨houts, ht⟩).imp fun t' ht' => ht'.2

def Sweep.Agrees (st : Sweep) : Prop := st.total = totalReceived st.got

theorem Sweep.Agrees.scanPubKey {st : Sweep} (hst : st.Agrees) (pub : PublicKey × Nat) :
    Unstopped Agrees (scanPubKey acct p st pub) := by
  unfold Wire.scanPubKey
  simp only
  generalize ScanRound.mk _ _ _ _ = round
  have hscan := scanOutputs_unstopped acct p round
  split
  · rename_i e he
    rw [he] at hscan
    exact hscan
  · rename_i outs houts
    rw [houts] at hscan
    split
    · exact WalletError.noConfusion
    · -- all outputs of the round are in the first total already, and none is in the second
      have hstart : Takings.Balanced
          { st.toTakings with got := outs.foldl (fun got s => credit got s.index s.amount) st.got } outs := by
        rw [Takings.Balanced, totalReceived_credits, ← hst]
      refine Outcome.map ((receiveLoop_unstopped acct p pub.2 hscan hstart).imp fun t ht => ?_)
      rw [Takings.Balanced] at ht
      exact (ht.trans (UInt64.add_zero _)).symm

def sweep (w : Wallet2) : Except WalletError Sweep :=
  (if p.tx.vout = [] then [] else pubKeyFields (acct.parseTxExtra p.tx.extra)).zipIdx.foldlM (scanPubKey acct p)
    ⟨⟨if p.minerTx = false ∧ p.pool = false then w.processUnconfirmed acct p.txid p.height else w, ∅, 0⟩, []⟩

theorem sweep_unstopped (w : Wallet2) : Unstopped Sweep.Agrees (sweep acct p w) :=
  Outcome.foldlM (I := fun _ => Sweep.Agrees) (fun pub _ _ hst => hst.scanPubKey acct p pub) rfl

theorem settle_unstopped (txPubKey : PublicKey) {got : UMap SubaddressIndex UInt64} {total : UInt64}
    (h : total = totalReceived got) (s : Spendings) :
    Unstopped (fun _ => True) (settle acct p txPubKey got total s) := by
  unfold settle
  simp only
  split
  · trivial
  · split
    · rename_i hdiffer
      exact absurd h hdiffer
    · split
      · trivial
      · trivial

end

/-- **The totals agree**, and the process goes on. -/
theorem amounts_received_agree (acct : WalletAccount) (w : Wallet2) (p : ProcessedTx) :
    (∀ st, sweep acct p w = .ok st → st.total = totalReceived st.got) ∧
      processNewTransaction acct w p ≠ .error .consistencyFailure := by
  have hsweep := sweep_unstopped acct p w
  constructor
  · intro st hst
    rw [hst] at hsweep
    exact hsweep
  · unfold processNewTransaction
    simp only
    rw [← sweep]
    cases hst : sweep acct p w with
    | error e =>
      rw [hst] at hsweep
      exact fun h => hsweep (Except.error.inj h)
    | ok st =>
      rw [hst] at hsweep
      exact (settle_unstopped acct p _ hsweep _).ne_error

end Electronero.Wire
