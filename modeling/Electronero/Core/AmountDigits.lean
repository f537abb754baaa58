import Electronero.Core.BlockTemplate
import Electronero.Lib.WhileLoop
/-!
# An amount in digits (src/cryptonote_basic/cryptonote_format_utils.h:182)

Low digits are dust as long as their sum stays within the threshold, and once one is not, no later one is (`Split`). In
the last round of an amount of twenty digits `order *= 10` wraps, after its last use.
-/
namespace Electronero
open WhileLoop List

namespace AmountDigits

inductive Handed where
  | chunk (amount : UInt64)
  | dust (amount : UInt64)
deriving DecidableEq, Repr

def Handed.amount : Handed → UInt64
  | .chunk amount | .dust amount => amount

structure State where
  amount : UInt64
  isDustHandled : Bool
  dust : UInt64
  order : UInt64
  handed : List Handed
deriving DecidableEq

def start (amount : UInt64) : State := ⟨amount, false, 0, 1, []⟩

def State.chunk (s : State) : UInt64 := s.amount % 10 * s.order

def body (dustThreshold : UInt64) (s : State) : State ⊕ List Handed :=
  if s.amount ≠ 0 then
    if s.dust + s.chunk ≤ dustThreshold then
      .inl { s with amount := s.amount / 10, order := s.order * 10, dust := s.dust + s.chunk }
    else
      let handlesDust := !s.isDustHandled && s.dust ≠ 0
      .inl {
        amount := s.amount / 10
        order := s.order * 10
        dust := s.dust
        isDustHandled := s.isDustHandled || handlesDust
        handed := s.handed ++ (if handlesDust then [.dust s.dust] else []) ++
          if s.chunk ≠ 0 then [.chunk s.chunk] else [] }
  else .inr (s.handed ++ if !s.isDustHandled && s.dust ≠ 0 then [.dust s.dust] else [])

def chunks (handed : List Handed) : List UInt64 := handed.filterMap fun | .chunk amount => some amount | .dust _ => none

def dusts (handed : List Handed) : List UInt64 := handed.filterMap fun | .chunk _ => none | .dust amount => some amount

/-- What the loop has done after `k` rounds: the digits below 10^k are handed out as the chunks `l` or kept as dust. -/
structure Split (amount thr : UInt64) (k : Nat) (l : List UInt64) (s : State) : Prop where
  amount_eq : s.amount.toNat = amount.toNat / 10 ^ k
  order_eq : s.order = UInt64.ofNat (10 ^ k)
  handed_eq : s.handed = (if s.isDustHandled then [.dust s.dust] else []) ++ l.map .chunk
  handled_iff : s.isDustHandled = true ↔ l ≠ [] ∧ s.dust ≠ 0
  sum_eq : s.dust.toNat + Wrapping.total l = amount.toNat % 10 ^ k
  dust_le : s.dust.toNat ≤ thr.toNat
  /-- no later digit is dust once one was not -/
  closed : l ≠ [] → thr.toNat < s.dust.toNat + 10 ^ k
  digits : ∀ c ∈ l, ∃ d j, 1 ≤ d ∧ d ≤ 9 ∧ c.toNat = d * 10 ^ j
  below : ∀ c ∈ l, c.toNat < 10 ^ k
  sorted : l.Pairwise (·.toNat < ·.toNat)

variable {amount thr : UInt64} {k : Nat} {l : List UInt64} {s : State}

theorem split_start (amount thr : UInt64) : Split amount thr 0 [] (start amount) where
  amount_eq := by simp [start]
  order_eq := rfl
  handed_eq := rfl
  handled_iff := by simp [start]
  sum_eq := by simp [start, Nat.mod_one]
  dust_le := by simp [start]
  closed h := absurd rfl h
  digits := by simp
  below := by simp
  sorted := by simp

structure Exact (amount : UInt64) (k : Nat) (s : State) : Prop where
  pow_le : 10 ^ k ≤ amount.toNat
  order_eq : s.order.toNat = 10 ^ k
  digit_eq : (s.amount % 10).toNat = amount.toNat / 10 ^ k % 10
  chunk_eq : s.chunk.toNat = amount.toNat / 10 ^ k % 10 * 10 ^ k
  rest_eq : amount.toNat % 10 ^ (k + 1) = amount.toNat % 10 ^ k + s.chunk.toNat
  sum_eq : (s.dust + s.chunk).toNat = s.dust.toNat + s.chunk.toNat

theorem digit_mul_le (a p : Nat) : a / p % 10 * p ≤ a :=
  (Nat.mul_le_mul_right p (Nat.mod_le _ _)).trans (Nat.div_mul_le_self a p)

theorem Split.exact (h : Split amount thr k l s) (hs : s.amount ≠ 0) : Exact amount k s := by
  have hamount := amount.toNat_lt
  have hpow : 10 ^ k ≤ amount.toNat := by
    have hne : s.amount.toNat ≠ 0 := fun h0 => hs (UInt64.toNat_inj.1 h0)
    rw [h.amount_eq] at hne
    exact (Nat.div_pos_iff.1 (Nat.pos_of_ne_zero hne)).2
  have horder : s.order.toNat = 10 ^ k := by rw [h.order_eq, UInt64.toNat_ofNat', Nat.mod_eq_of_lt (by omega)]
  have hdigit : (s.amount % 10).toNat = amount.toNat / 10 ^ k % 10 := by
    rw [UInt64.toNat_mod, h.amount_eq]
    rfl
  have hchunk : s.chunk.toNat = amount.toNat / 10 ^ k % 10 * 10 ^ k := by
    have hle := digit_mul_le amount.toNat (10 ^ k)
    rw [State.chunk, UInt64.toNat_mul, hdigit, horder, Nat.mod_eq_of_lt (by omega)]
  have hrest : amount.toNat % 10 ^ (k + 1) = amount.toNat % 10 ^ k + s.chunk.toNat := by
    rw [pow_succ, Nat.mod_mul, hchunk, Nat.mul_comm (10 ^ k)]
  refine ⟨hpow, horder, hdigit, hchunk, hrest, ?_⟩
  have hle := Nat.mod_le amount.toNat (10 ^ (k + 1))
  have hsum := h.sum_eq
  rw [UInt64.toNat_add, Nat.mod_eq_of_lt (by omega)]

theorem amount_next (h : Split amount thr k l s) : (s.amount / 10).toNat = amount.toNat / 10 ^ (k + 1) := by
  rw [UInt64.toNat_div, h.amount_eq, pow_succ, ← Nat.div_div_eq_div_mul]
  rfl

theorem order_next (h : Split amount thr k l s) : s.order * 10 = UInt64.ofNat (10 ^ (k + 1)) := by
  rw [h.order_eq, pow_succ, UInt64.ofNat_mul]
  rfl

theorem Split.step_dust (h : Split amount thr k l s) (e : Exact amount k s) (hdust : s.dust + s.chunk ≤ thr) :
    Split amount thr (k + 1) l
      { s with amount := s.amount / 10, order := s.order * 10, dust := s.dust + s.chunk } := by
  rw [UInt64.le_iff_toNat_le, e.sum_eq] at hdust
  have hpow : 10 ^ (k + 1) = 10 * 10 ^ k := by rw [pow_succ, Nat.mul_comm]
  have hzero : l ≠ [] → s.dust + s.chunk = s.dust := by
    intro hl
    have hclosed := h.closed hl
    have hdigit : amount.toNat / 10 ^ k % 10 = 0 := by
      by_contra hne
      have : 1 * 10 ^ k ≤ amount.toNat / 10 ^ k % 10 * 10 ^ k := Nat.mul_le_mul_right _ (Nat.pos_of_ne_zero hne)
      have := e.chunk_eq
      omega
    apply UInt64.toNat_inj.1
    rw [e.sum_eq, e.chunk_eq, hdigit, Nat.zero_mul, Nat.add_zero]
  have hunhandled : l = [] → s.isDustHandled = false := by
    rintro rfl
    exact Bool.eq_false_iff.2 fun hh => (h.handled_iff.1 hh).1 rfl
  refine {
    amount_eq := amount_next h
    order_eq := order_next h
    handed_eq := ?_
    handled_iff := ?_
    sum_eq := ?_
    dust_le := by rwa [e.sum_eq]
    closed := fun hl => ?_
    digits := h.digits
    below := fun c hc => (h.below c hc).trans_le (by omega)
    sorted := h.sorted }
  · rw [h.handed_eq]
    grind
  · show s.isDustHandled = true ↔ l ≠ [] ∧ s.dust + s.chunk ≠ 0
    rw [h.handled_iff]
    exact and_congr_right fun hl => by rw [hzero hl]
  · show (s.dust + s.chunk).toNat + Wrapping.total l = _
    have := h.sum_eq
    rw [e.sum_eq, e.rest_eq]
    omega
  · show thr.toNat < (s.dust + s.chunk).toNat + 10 ^ (k + 1)
    have := h.closed hl
    rw [hzero hl]
    omega

theorem Split.step_chunk (h : Split amount thr k l s) (e : Exact amount k s) (hdust : ¬ s.dust + s.chunk ≤ thr) :
    Split amount thr (k + 1) (l ++ [s.chunk])
      { amount := s.amount / 10
        order := s.order * 10
        dust := s.dust
        isDustHandled := s.isDustHandled || (!s.isDustHandled && s.dust ≠ 0)
        handed := s.handed ++ (if !s.isDustHandled && s.dust ≠ 0 then [.dust s.dust] else []) ++
          if s.chunk ≠ 0 then [.chunk s.chunk] else [] } := by
  rw [UInt64.le_iff_toNat_le, e.sum_eq] at hdust
  have hpow : 10 ^ (k + 1) = 10 * 10 ^ k := by rw [pow_succ, Nat.mul_comm]
  have hsmall := h.dust_le
  have hdigit : 1 ≤ amount.toNat / 10 ^ k % 10 := by
    by_contra hne
    have hzero : amount.toNat / 10 ^ k % 10 = 0 := by omega
    rw [e.chunk_eq, hzero] at hdust
    omega
  have hnine : amount.toNat / 10 ^ k % 10 ≤ 9 := by omega
  have hlow : 1 * 10 ^ k ≤ s.chunk.toNat := by
    rw [e.chunk_eq]
    exact Nat.mul_le_mul_right _ hdigit
  have hhigh : s.chunk.toNat ≤ 9 * 10 ^ k := by
    rw [e.chunk_eq]
    exact Nat.mul_le_mul_right _ hnine
  have hpos : 0 < 10 ^ k := by positivity
  have hchunk : s.chunk ≠ 0 := fun h0 => by
    rw [h0] at hlow
    simp at hlow
  refine {
    amount_eq := amount_next h
    order_eq := order_next h
    handed_eq := ?_
    handled_iff := ?_
    sum_eq := ?_
    dust_le := hsmall
    closed := fun _ => ?_
    digits := ?_
    below := ?_
    sorted := ?_ }
  · show s.handed ++ _ ++ (if s.chunk ≠ 0 then [.chunk s.chunk] else []) = _
    rw [if_pos hchunk, h.handed_eq]
    cases hh : s.isDustHandled with
    | true => simp
    | false =>
      -- dust that is still there was not handed out because nothing was
      have hl : s.dust ≠ 0 → l = [] := fun hd => by
        by_contra hl
        have := h.handled_iff.2 ⟨hl, hd⟩
        simp [hh] at this
      by_cases hd : s.dust = 0
      · simp [hd]
      · simp [hd, hl hd]
  · show (s.isDustHandled || (!s.isDustHandled && decide (s.dust ≠ 0))) = true ↔ _
    cases hh : s.isDustHandled with
    | true =>
      have := (h.handled_iff.1 hh).2
      simpa using this
    | false => simp
  · have := h.sum_eq
    rw [e.rest_eq, Wrapping.total_append, Wrapping.total_cons, Wrapping.total_nil]
    dsimp only
    omega
  · grind
  · intro c hc
    rcases mem_append.1 hc with hc | hc
    · exact h.digits c hc
    · rw [mem_singleton.1 hc]
      exact ⟨_, k, hdigit, hnine, e.chunk_eq⟩
  · intro c hc
    rcases mem_append.1 hc with hc | hc
    · have := h.below c hc
      omega
    · rw [mem_singleton.1 hc]
      omega
  · refine pairwise_append.2 ⟨h.sorted, pairwise_singleton _ _, fun c hc x hx => ?_⟩
    have := h.below c hc
    rw [mem_singleton.1 hx]
    omega

theorem Split.step {s' : State} (h : Split amount thr k l s) (hbody : body thr s = .inl s') :
    (∃ l', Split amount thr (k + 1) l' s') ∧ s'.amount.toNat < s.amount.toNat := by
  by_cases hs : s.amount = 0
  · rw [body, if_neg (not_not.2 hs)] at hbody
    cases hbody
  have hlt : (s.amount / 10).toNat < s.amount.toNat := by
    have hne : s.amount.toNat ≠ 0 := fun h0 => hs (UInt64.toNat_inj.1 h0)
    rw [UInt64.toNat_div]
    grind
  rw [body, if_pos hs] at hbody
  by_cases hdust : s.dust + s.chunk ≤ thr
  · rw [if_pos hdust] at hbody
    cases hbody
    exact ⟨⟨l, h.step_dust (h.exact hs) hdust⟩, hlt⟩
  · rw [if_neg hdust] at hbody
    cases hbody
    exact ⟨⟨_, h.step_chunk (h.exact hs) hdust⟩, hlt⟩

/-- What is handed out: chunks of one digit each, in increasing order, at most one dust value within the threshold, and
all of the amount. -/
structure Decomposed (amount thr : UInt64) (handed : List Handed) : Prop where
  digits : ∀ c ∈ chunks handed, ∃ d j, 1 ≤ d ∧ d ≤ 9 ∧ c.toNat = d * 10 ^ j
  sorted : (chunks handed).Pairwise (·.toNat < ·.toNat)
  dust_once : (dusts handed).length ≤ 1
  dust_le : ∀ d ∈ dusts handed, d ≤ thr
  total_eq : Wrapping.total (handed.map Handed.amount) = amount.toNat

theorem decomposed_of_parts {dust : UInt64} {d : List UInt64} (hd : d = [] ∧ dust = 0 ∨ d = [dust]) (hle : dust ≤ thr)
    (hdigits : ∀ c ∈ l, ∃ d j, 1 ≤ d ∧ d ≤ 9 ∧ c.toNat = d * 10 ^ j) (hsorted : l.Pairwise (·.toNat < ·.toNat))
    (hsum : dust.toNat + Wrapping.total l = amount.toNat) : Decomposed amount thr (d.map .dust ++ l.map .chunk) := by
  have hchunks : chunks (d.map .dust ++ l.map .chunk) = l := by
    simp [chunks, filterMap_append, filterMap_map]
  have hdusts : dusts (d.map .dust ++ l.map .chunk) = d := by
    simp [dusts, filterMap_append, filterMap_map]
  have hvalues : (d.map Handed.dust ++ l.map Handed.chunk).map Handed.amount = d ++ l := by
    simp [Function.comp_def, Handed.amount]
  refine ⟨by rwa [hchunks], by rwa [hchunks], ?_, ?_, ?_⟩
  · grind
  · grind
  · rw [hvalues, Wrapping.total_append, ← hsum]
    rcases hd with ⟨rfl, rfl⟩ | rfl <;> simp

variable {handed : List Handed}

theorem Split.leave (h : Split amount thr k l s) (hbody : body thr s = .inr handed) : Decomposed amount thr handed := by
  by_cases hs : s.amount = 0
  · have hlt : amount.toNat < 10 ^ k := by
      have hzero : amount.toNat / 10 ^ k = 0 := by
        rw [← h.amount_eq, hs]
        rfl
      simp_all
    have hsum := h.sum_eq
    rw [Nat.mod_eq_of_lt hlt] at hsum
    have hparts := fun {d} hd => decomposed_of_parts (d := d) hd (UInt64.le_iff_toNat_le.2 h.dust_le) h.digits h.sorted hsum
    rw [body, if_neg (not_not.2 hs), h.handed_eq] at hbody
    cases hbody
    cases hh : s.isDustHandled with
    | true => simpa using hparts (.inr rfl)
    | false =>
      by_cases hd : s.dust = 0
      · simpa [hd] using hparts (.inl ⟨rfl, hd⟩)
      · have hl : l = [] := by
          by_contra hl
          have := h.handled_iff.2 ⟨hl, hd⟩
          simp [hh] at this
        simpa [hd, hl] using hparts (.inr rfl)
  · rw [body, if_pos hs] at hbody
    split_ifs at hbody

def Fits (s : State) : Prop :=
  (s.amount % 10).toNat * s.order.toNat < 2 ^ 64 ∧ s.dust.toNat + s.chunk.toNat < 2 ^ 64 ∧
    (s.order.toNat * 10 < 2 ^ 64 ∨ s.amount / 10 = 0)

theorem Split.fits (h : Split amount thr k l s) (hs : s.amount ≠ 0) : Fits s := by
  have e := h.exact hs
  have hamount := amount.toNat_lt
  refine ⟨?_, ?_, ?_⟩
  · have := digit_mul_le amount.toNat (10 ^ k)
    rw [e.digit_eq, e.order_eq]
    omega
  · rw [← e.sum_eq]
    exact (s.dust + s.chunk).toNat_lt
  · rw [e.order_eq, ← pow_succ]
    by_cases hlast : amount.toNat / 10 ^ (k + 1) = 0
    · exact .inr (UInt64.toNat_inj.1 ((amount_next h).trans hlast))
    · have hle := (Nat.div_pos_iff.1 (Nat.pos_of_ne_zero hlast)).2
      exact .inl (by omega)

/-- **Amount decomposition is exact.** In every round all sums and products fit, but for the power of ten behind the last
one. -/
theorem decompose_exact (amount thr : UInt64) :
    (∃ handed, Returns (body thr) (start amount) handed ∧ Decomposed amount thr handed) ∧
    ∀ s, Visits (body thr) (start amount) s → s.amount ≠ 0 → Fits s := by
  constructor
  · refine returns_of_measure (I := fun s => ∃ k l, Split amount thr k l s) (fun s => s.amount.toNat) ?_ ?_
      ⟨0, [], split_start amount thr⟩
    · rintro s s' ⟨k, l, h⟩ hbody
      obtain ⟨⟨l', h'⟩, hlt⟩ := h.step hbody
      exact ⟨⟨k + 1, l', h'⟩, hlt⟩
    · rintro s handed ⟨k, l, h⟩ hbody
      exact h.leave hbody
  · intro s hvisits
    obtain ⟨k, l, h⟩ := hvisits.invariant (I := fun s => ∃ k l, Split amount thr k l s)
      (fun s s' ⟨k, l, h⟩ hbody => ⟨k + 1, (h.step hbody).1⟩) ⟨0, [], split_start amount thr⟩
    exact h.fits

theorem power_of_ten_wraps :
    ∃ s, Visits (body 0) (start 10000000000000000000) s ∧ s.amount ≠ 0 ∧ 2 ^ 64 ≤ s.order.toNat * 10 :=
  ⟨⟨1, false, 0, 10000000000000000000, []⟩, ⟨19, by decide +kernel⟩, by decide, by decide⟩

/-! ## The vector of the block templates -/

theorem decomposeLoop_eq {n : Nat} (h : runFor (body thr) n s = some handed) :
    Reward.decomposeLoop thr n s.amount s.dust s.order s.isDustHandled (s.handed.map Handed.amount) =
      handed.map Handed.amount := by
  induction n generalizing s with
  | zero => cases h
  | succ n ih =>
    rw [runFor, body] at h
    rw [Reward.decomposeLoop]
    by_cases hzero : s.amount = 0
    · grind [Handed.amount]
    · rw [if_pos hzero] at h
      rw [if_neg hzero]
      dsimp only
      by_cases hdust : s.dust + s.chunk ≤ thr
      · rw [if_pos hdust] at h
        rw [if_pos (show s.dust + s.amount % 10 * s.order ≤ thr from hdust)]
        exact ih h
      · grind [State.chunk, Handed.amount]

theorem decomposeAmountIntoDigits_eq (h : Returns (body thr) (start amount) handed) :
    Reward.decomposeAmountIntoDigits amount thr = handed.map Handed.amount := by
  obtain ⟨n, hn⟩ := h
  have hamount : amount.toNat < 10 ^ 20 := amount.toNat_lt.trans (by decide)
  rw [Reward.decomposeAmountIntoDigits, ← Reward.decomposeLoop_fuel thr n hamount]
  exact decomposeLoop_eq (runFor_mono hn (by omega))

theorem total_decomposeAmountIntoDigits (amount thr : UInt64) :
    Wrapping.total (Reward.decomposeAmountIntoDigits amount thr) = amount.toNat := by
  obtain ⟨handed, hreturns, hdecomposed⟩ :
      ∃ handed, Returns (body thr) (start amount) handed ∧ Decomposed amount thr handed :=
    returns_of_measure (I := fun s => ∃ k l, Split amount thr k l s) (fun s => s.amount.toNat)
      (fun s s' ⟨k, l, h⟩ hbody => ⟨⟨k + 1, (h.step hbody).1⟩, (h.step hbody).2⟩)
      (fun s handed ⟨k, l, h⟩ hbody => h.leave hbody) ⟨0, [], split_start amount thr⟩
  rw [decomposeAmountIntoDigits_eq hreturns, hdecomposed.total_eq]

end AmountDigits

namespace Reward

theorem total_mergeFirst {outs : List UInt64} (h : Wrapping.total outs < 2 ^ 64) :
    Wrapping.total (mergeFirst outs) = Wrapping.total outs := by
  match outs with
  | [] | [_] => rfl
  | a :: b :: rest =>
    simp only [mergeFirst, Wrapping.total_cons] at h ⊢
    rw [UInt64.toNat_add, Nat.mod_eq_of_lt (by omega)]
    omega

theorem total_mergeOuts (maxOuts : Nat) {outs : List UInt64} (h : Wrapping.total outs < 2 ^ 64) :
    Wrapping.total (mergeOuts maxOuts outs) = Wrapping.total outs := by
  unfold mergeOuts
  generalize outs.length - maxOuts = n
  induction n generalizing outs with
  | zero => rfl
  | succ n ih =>
    have hfirst := total_mergeFirst h
    rw [Function.iterate_succ_apply, ih (hfirst ▸ h), hfirst]

/-- **A miner transaction pays out exactly its reward**: the last check of `construct_miner_tx`, on the sum of the
outputs, never fails. -/
theorem miner_outputs_exact (version : UInt8) (height maxOuts : Nat) (blockReward : UInt64) (minting : Minting)
    {amounts : List UInt64} {vout : List TxOut} (h : outAmounts version height maxOuts blockReward = some amounts)
    (hvout : buildOuts minting 0 amounts = some vout) :
    Wrapping.sum (vout.map (·.amount)) = blockReward ∧
      Wrapping.total (vout.map (·.amount)) = blockReward.toNat := by
  have htotal : Wrapping.total amounts = blockReward.toNat := by
    have hdigits := AmountDigits.total_decomposeAmountIntoDigits blockReward (if 2 ≤ version then 0 else 5000)
    have hmerged := total_mergeOuts maxOuts (hdigits ▸ blockReward.toNat_lt)
    unfold outAmounts at h
    grind
  rw [buildOuts_amounts hvout]
  exact ⟨UInt64.toNat_inj.1 ((Wrapping.toNat_sum (htotal ▸ blockReward.toNat_lt)).trans htotal), htotal⟩

theorem miner_outputs_exact_merged : Wrapping.sum [1002, 30000] = 31002 :=
  (miner_outputs_exact 4 9 2 31002 ⟨default, fun _ => some default⟩
    (by decide +kernel : outAmounts 4 9 2 31002 = some [1002, 30000])
    (rfl : buildOuts _ 0 [1002, 30000] = some [⟨1002, default⟩, ⟨30000, default⟩])).1

end Reward
end Electronero
