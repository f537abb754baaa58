import Electronero.IntUtil
import Mathlib.Tactic.Linarith
/-!
# The block reward (src/cryptonote_basic/cryptonote_basic_impl.cpp:141)

A median that is a multiple of `2^32` is a divisor 0 after the cast to `uint32_t` and stops the program: no reward.
-/
namespace Electronero

namespace Reward
open IntUtil

def moneySupplyEtn : UInt64 := 2100000000000
def moneySupply : UInt64 := 21000000000000
def tokens : UInt64 := 20000000000000
def electroneroTokens : UInt64 := 3610309000000000
def electroneroPulse : UInt64 := 3336943642310301990
def electroneroCoins : UInt64 := 3360312199110301990
def electroneroSwap : UInt64 := 6760312199110301990
def finalSubsidyPerMinute : UInt64 := 10000000000

def getMinBlockSize (version : UInt8) : UInt64 :=
  if version < 2 then 20000 else if version < 5 then 60000 else 300000

def supplyAt (v20 : Nat) (version : UInt8) (height : Nat) : UInt64 :=
  if height < v20 then
    if version < 7 then moneySupplyEtn
    else if version < 10 then moneySupply
    else if version < 16 then tokens
    else electroneroTokens
  else if height < 1183485 then electroneroPulse
  else if height < 1714428 then electroneroCoins
  else electroneroSwap

def coinSupply : UInt8 → Nat → UInt64 := supplyAt 1132596

def targetMinutes (height : Nat) : UInt64 := if height < 307003 then 1 else if 337816 ≤ height then 1 else 2

def emissionSpeed (height : Nat) : UInt64 :=
  let m := targetMinutes height
  if height < 307003 then 20 - (m - 1)
  else if height < 310790 then 20 + (m - 1)
  else if height < 500060 then 20 + (m - 2)
  else if height < 570000 then 20 - (m - 1)
  else if height < 659000 then 20 + (m + 1)
  else if height < 739800 then 20 + (m + 9)
  else if height < 1132596 then 20 + (m + 6)
  else if height < 1132900 then 20 + (m + 9)
  else if height < 1132935 then 20 + (m + 7)
  else if height < 1183409 then 20 + (m + 9)
  else if height < 1183485 then 20 + (m + 8)
  else if height < 1714428 then 20 + (m + 7)
  else if height < 3559855 then 20 + (m + 7)
  else 20 + (m + 1)

def specialReward (height : Nat) : Option UInt64 :=
  if height = 1 then some 1260000000000
  else if height = 307003 ∨ height = 310790 then some 1260000000000
  else if height = 500060 ∨ height = 1183410 ∨ height = 1183411 ∨ height = 1183412 ∨ height = 1183413 then
    some 613090000000000
  else if height = 1132597 ∨ height = 1714428 then some 3333333333310301990
  else none

/-- `PEAK_COIN_EMISSION_HEIGHT` is 1051920 and `COIN_EMISSION_HEIGHT_INTERVAL` is 131490. Below their sum the
supply already there does not count. -/
def emission (coins : UInt64) (version : UInt8) (height : Nat) : UInt64 :=
  if 307003 < height ∧ 7 ≤ version then
    if height < 1183410 then
      let intervalNum := (height / 131490).toUInt64.toFloat
      let moneySupplyPct := 0.1888 + intervalNum * (0.023 + intervalNum * 0.0032)
      ((coinSupply version height).toFloat * moneySupplyPct).toUInt64 >>> emissionSpeed height
    else (coinSupply version height - coins) >>> emissionSpeed height
  else (coinSupply version height - coins) >>> emissionSpeed height

def roundedEmission (coins : UInt64) (version : UInt8) (height : Nat) : UInt64 :=
  let base := emission coins version height
  let base := if 7 < version then base / 10 * 10 else base
  if version < 2 then (moneySupplyEtn - coins) >>> emissionSpeed height else base

def baseReward (coins : UInt64) (version : UInt8) (height : Nat) : UInt64 :=
  let base := roundedEmission coins version height
  if base < 666 then
    if coinSupply version height ≤ coins then finalSubsidyPerMinute else base
  else base

def sizedReward (base medianSize currentBlockSize : UInt64) : Option UInt64 :=
  if currentBlockSize ≤ medianSize then some base
  else if 2 * medianSize < currentBlockSize then none
  else if medianSize.toUInt32 = 0 then none
  else
    let multiplicand := (2 * medianSize - currentBlockSize) * currentBlockSize
    let product := mul128 base multiplicand
    let once := div128By32 product.1 product.2 medianSize.toUInt32
    some (div128By32 once.1 once.2 medianSize.toUInt32).2

def getBlockReward (medianSize currentBlockSize coins : UInt64) (version : UInt8) (height : Nat) : Option UInt64 :=
  match specialReward height with
  | some reward => some reward
  | none => sizedReward (baseReward coins version height) (max medianSize (getMinBlockSize version)) currentBlockSize

section Penalty
variable {base m size : UInt64}

def rewardHalves (base medianSize currentBlockSize : UInt64) : UInt64 × UInt64 :=
  let multiplicand := (2 * medianSize - currentBlockSize) * currentBlockSize
  let product := mul128 base multiplicand
  let once := div128By32 product.1 product.2 medianSize.toUInt32
  div128By32 once.1 once.2 medianSize.toUInt32

theorem mul_le_square {m s : Nat} (h : s ≤ 2 * m) : (2 * m - s) * s ≤ m * m := by
  obtain ⟨k, hk⟩ := Nat.exists_eq_add_of_le h
  rw [hk, Nat.add_sub_cancel_left]
  nlinarith [sq_nonneg ((k : Int) - s)]

theorem penalty_le (base : Nat) {m s : Nat} (h : s ≤ 2 * m) : base * ((2 * m - s) * s) / m / m ≤ base := by
  rw [Nat.div_div_eq_div_mul]
  refine Nat.div_le_of_le_mul ?_
  rw [Nat.mul_comm]
  exact Nat.mul_le_mul_right base (mul_le_square h)

theorem toNat_double (hm : m.toNat < 2 ^ 32) : (2 * m).toNat = 2 * m.toNat := by
  rw [UInt64.toNat_mul]
  exact Nat.mod_eq_of_lt (by simp; omega)

theorem toNat_multiplicand (hm : m.toNat < 2 ^ 32) (hsize : size.toNat ≤ 2 * m.toNat) :
    ((2 * m - size) * size).toNat = (2 * m.toNat - size.toNat) * size.toNat := by
  have hdiff : (2 * m - size).toNat = 2 * m.toNat - size.toNat := by
    rw [UInt64.toNat_sub_of_le _ _ (by rw [UInt64.le_iff_toNat_le, toNat_double hm]; exact hsize), toNat_double hm]
  rw [UInt64.toNat_mul, hdiff]
  have hsquare := mul_le_square hsize
  have hbound : m.toNat * m.toNat ≤ (2 ^ 32 - 1) * (2 ^ 32 - 1) := Nat.mul_le_mul (by omega) (by omega)
  exact Nat.mod_eq_of_lt (by omega)

theorem rewardHalves_eq (base : UInt64) (hm : m.toNat < 2 ^ 32) (hpos : 0 < m.toNat) (hsize : size.toNat ≤ 2 * m.toNat) :
    (rewardHalves base m size).1.toNat * 2 ^ 64 + (rewardHalves base m size).2.toNat =
      base.toNat * ((2 * m.toNat - size.toNat) * size.toNat) / m.toNat / m.toNat := by
  have hcast : m.toUInt32.toNat = m.toNat := by
    rw [UInt64.toNat_toUInt32]
    exact Nat.mod_eq_of_lt hm
  rw [← hcast] at hpos
  simp only [rewardHalves]
  generalize hproduct : mul128 base ((2 * m - size) * size) = product
  have hwhole := mul128_eq base ((2 * m - size) * size)
  rw [hproduct, toNat_multiplicand hm hsize] at hwhole
  have honce := div128By32_eq hpos product.1 product.2
  have htwice := div128By32_eq hpos (div128By32 product.1 product.2 m.toUInt32).1 (div128By32 product.1 product.2 m.toUInt32).2
  rw [honce, hwhole, hcast] at htwice
  exact htwice

theorem toNat_rewardHalves (base : UInt64) (hm : m.toNat < 2 ^ 32) (hpos : 0 < m.toNat) (hsize : size.toNat ≤ 2 * m.toNat) :
    (rewardHalves base m size).1.toNat = 0 ∧
      (rewardHalves base m size).2.toNat = base.toNat * ((2 * m.toNat - size.toNat) * size.toNat) / m.toNat / m.toNat := by
  have hwhole := rewardHalves_eq base hm hpos hsize
  have hle := penalty_le base.toNat hsize
  have hbase := base.toNat_lt
  omega

theorem sizedReward_of_large (base : UInt64) (hm : m.toNat < 2 ^ 32) (hlarge : m.toNat < size.toNat)
    (hsize : size.toNat ≤ 2 * m.toNat) : sizedReward base m size = some (rewardHalves base m size).2 := by
  have hcast : m.toUInt32.toNat = m.toNat := by
    rw [UInt64.toNat_toUInt32]
    exact Nat.mod_eq_of_lt hm
  unfold sizedReward
  rw [if_neg (by rw [UInt64.le_iff_toNat_le]; omega), if_neg (by rw [UInt64.lt_iff_toNat_lt, toNat_double hm]; omega),
    if_neg (by rw [← UInt32.toNat_inj, hcast]; simp; omega)]
  rfl

theorem sizedReward_eq (base : UInt64) (hm : m.toNat < 2 ^ 32) (hlarge : m.toNat < size.toNat)
    (hsize : size.toNat ≤ 2 * m.toNat) : ∃ reward, sizedReward base m size = some reward ∧
      reward.toNat = base.toNat * ((2 * m.toNat - size.toNat) * size.toNat) / m.toNat / m.toNat :=
  ⟨_, sizedReward_of_large base hm hlarge hsize, (toNat_rewardHalves base hm (by omega) hsize).2⟩

theorem sizedReward_le (hm : m.toNat < 2 ^ 32) {reward : UInt64} (h : sizedReward base m size = some reward) :
    reward.toNat ≤ base.toNat := by
  by_cases hsmall : size.toNat ≤ m.toNat
  · rw [sizedReward, if_pos (UInt64.le_iff_toNat_le.2 hsmall)] at h
    rw [Option.some.inj h]
  by_cases hsize : size.toNat ≤ 2 * m.toNat
  · obtain ⟨r, hr, hvalue⟩ := sizedReward_eq base hm (by omega) hsize
    rw [hr] at h
    rw [← Option.some.inj h, hvalue]
    exact penalty_le base.toNat hsize
  · have hlimit : 2 * m < size := by
      rw [UInt64.lt_iff_toNat_lt, toNat_double hm]
      omega
    grind [sizedReward]

theorem mul_lt_square {m s : Nat} (hlarge : m < s) (h : s ≤ 2 * m) : (2 * m - s) * s < m * m := by
  obtain ⟨k, rfl⟩ := Nat.exists_eq_add_of_lt hlarge
  obtain ⟨j, hj⟩ := Nat.exists_eq_add_of_le h
  rw [hj, Nat.add_sub_cancel_left]
  nlinarith

theorem mul_anti {m s t : Nat} (hlarge : m ≤ s) (hst : s ≤ t) (h : t ≤ 2 * m) : (2 * m - t) * t ≤ (2 * m - s) * s := by
  obtain ⟨k, rfl⟩ := Nat.exists_eq_add_of_le hst
  obtain ⟨j, hj⟩ := Nat.exists_eq_add_of_le h
  have hdiff : 2 * m - s = k + j := by omega
  rw [hdiff, hj, Nat.add_sub_cancel_left]
  nlinarith

/-- **The size penalty is exact**: `base * (2m - c) * c / m²`, rounded down once. A larger block never loses less. -/
theorem size_penalty_exact {base m size : UInt64} (hm : m.toNat < 2 ^ 32) (hlarge : m.toNat < size.toNat)
    (hdouble : size.toNat ≤ 2 * m.toNat) : (rewardHalves base m size).1 = 0 ∧
    (rewardHalves base m size).2.toNat = base.toNat * (2 * m.toNat - size.toNat) * size.toNat / m.toNat ^ 2 ∧
    (0 < base → (rewardHalves base m size).2 < base) ∧ (∀ larger : UInt64, size ≤ larger → larger.toNat ≤ 2 * m.toNat →
      (rewardHalves base m larger).2 ≤ (rewardHalves base m size).2) ∧
    ∀ medianSize coins version height, specialReward height = none → baseReward coins version height = base →
      max medianSize (getMinBlockSize version) = m →
      getBlockReward medianSize size coins version height = some (rewardHalves base m size).2 := by
  have hpos : 0 < m.toNat := by omega
  obtain ⟨hhi, hlo⟩ := toNat_rewardHalves base hm hpos hdouble
  refine ⟨UInt64.toNat_inj.1 hhi, ?_, ?_, ?_, ?_⟩
  · rw [hlo, Nat.div_div_eq_div_mul, sq, Nat.mul_assoc base.toNat]
  · intro hbase
    rw [UInt64.lt_iff_toNat_lt] at hbase ⊢
    rw [hlo, Nat.div_div_eq_div_mul]
    refine Nat.div_lt_of_lt_mul ?_
    rw [Nat.mul_comm]
    exact Nat.mul_lt_mul_of_pos_right (mul_lt_square hlarge hdouble) hbase
  · intro larger hle hlarger
    rw [UInt64.le_iff_toNat_le] at hle ⊢
    rw [hlo, (toNat_rewardHalves base hm hpos hlarger).2]
    have hanti := mul_anti hlarge.le hle hlarger
    exact Nat.div_le_div_right (Nat.div_le_div_right (Nat.mul_le_mul_left _ hanti))
  · intro medianSize coins version height hheight hbase hmedian
    grind [getBlockReward, sizedReward_of_large]

theorem size_penalty_exact_half_over : (rewardHalves 1000 300000 450000).1 = 0 ∧
    (rewardHalves 1000 300000 450000).2.toNat = 750 := by
  obtain ⟨hhi, hlo, -⟩ := @size_penalty_exact 1000 300000 450000 (by decide) (by decide) (by decide)
  exact ⟨hhi, hlo⟩

end Penalty

def tailSpeed (height : Nat) : Nat := if height < 3559855 then 28 else 22

section Tail
variable {height : Nat} (hh : 1714428 < height) {version : UInt8} (hv : 8 ≤ version)
include hh

theorem specialReward_tail : specialReward height = none := by
  unfold specialReward
  grind

theorem supplyAt_tail {v20 : Nat} (hv20 : v20 ≤ 1714428) (version : UInt8) :
    supplyAt v20 version height = electroneroSwap := by
  unfold supplyAt
  grind

theorem coinSupply_tail (version : UInt8) : coinSupply version height = electroneroSwap :=
  supplyAt_tail hh (by decide) version

theorem emissionSpeed_tail : emissionSpeed height = (tailSpeed height).toUInt64 := by
  have hm : targetMinutes height = 1 := by grind [targetMinutes]
  unfold emissionSpeed tailSpeed
  rw [hm]
  iterate 12 rw [if_neg (by omega)]
  split <;> rfl

theorem getBlockReward_tail (m size coins : UInt64) (version : UInt8) : getBlockReward m size coins version height =
      sizedReward (baseReward coins version height) (max m (getMinBlockSize version)) size := by
  unfold getBlockReward
  rw [specialReward_tail hh]

include hv

theorem emission_tail (coins : UInt64) :
    (emission coins version height).toNat = (electroneroSwap - coins).toNat / 2 ^ tailSpeed height := by
  rw [UInt8.le_iff_toNat_le] at hv
  unfold emission
  rw [if_pos ⟨by omega, UInt8.le_iff_toNat_le.2 ((by decide : 7 ≤ 8).trans hv)⟩, if_neg (by omega), coinSupply_tail hh,
    emissionSpeed_tail hh, UInt64.toNat_shiftRight, Nat.shiftRight_eq_div_pow]
  unfold tailSpeed
  split <;> rfl

theorem roundedEmission_tail (coins : UInt64) :
    (roundedEmission coins version height).toNat = (electroneroSwap - coins).toNat / 2 ^ tailSpeed height / 10 * 10 := by
  have hemission := (emission coins version height).toNat_lt
  have hcurve := emission_tail hh hv coins
  rw [UInt8.le_iff_toNat_le] at hv
  unfold roundedEmission
  rw [if_neg (by rw [UInt8.lt_iff_toNat_lt]; exact not_lt.2 ((by decide : 2 ≤ 8).trans hv)),
    if_pos (UInt8.lt_iff_toNat_lt.2 (lt_of_lt_of_le (by decide) hv)), UInt64.toNat_mul, UInt64.toNat_div, ← hcurve]
  exact Nat.mod_eq_of_lt (by simp; omega)

theorem baseReward_final : baseReward electroneroSwap version height = finalSubsidyPerMinute := by
  have hzero : (roundedEmission electroneroSwap version height).toNat = 0 := by
    rw [roundedEmission_tail hh hv, UInt64.sub_self]
    simp
  unfold baseReward
  rw [coinSupply_tail hh, if_pos (by rw [UInt64.lt_iff_toNat_lt, hzero]; decide), if_pos (UInt64.le_refl _)]

theorem baseReward_tail {coins : UInt64} (hc : coins.toNat < electroneroSwap.toNat) :
    (baseReward coins version height).toNat =
      (electroneroSwap.toNat - coins.toNat) / 2 ^ tailSpeed height / 10 * 10 := by
  have hleft :=
    UInt64.toNat_sub_of_le _ _ (UInt64.le_iff_toNat_le.2 hc.le)
  have hopen : ¬ electroneroSwap ≤ coins := by
    rw [UInt64.le_iff_toNat_le]
    exact not_le.2 hc
  simp only [baseReward, coinSupply_tail hh, if_neg hopen, ite_self]
  rw [roundedEmission_tail hh hv, hleft]

/-- **When the tail pays**: for a block within the median the reward is positive exactly if nothing is left of the
supply or enough for ten units. -/
theorem getBlockReward_positive_iff {coins : UInt64} (hc : coins ≤ electroneroSwap) {m size : UInt64}
    (hsize : size ≤ max m (getMinBlockSize version)) :
    (∃ reward, getBlockReward m size coins version height = some reward ∧ 0 < reward) ↔
      coins = electroneroSwap ∨
        10 * 2 ^ (if height < 3559855 then 28 else 22) ≤ electroneroSwap.toNat - coins.toNat := by
  rw [getBlockReward_tail hh, sizedReward, if_pos hsize]
  have hexists : (∃ reward, some (baseReward coins version height) = some reward ∧ 0 < reward) ↔
      0 < (baseReward coins version height).toNat := by
    simp [UInt64.lt_iff_toNat_lt]
  rw [hexists]
  rcases eq_or_ne coins electroneroSwap with rfl | hne
  · rw [baseReward_final hh hv]
    exact iff_of_true (by decide) (Or.inl rfl)
  have hlt : coins.toNat < electroneroSwap.toNat :=
    lt_of_le_of_ne (UInt64.le_iff_toNat_le.1 hc) fun h => hne (UInt64.toNat_inj.1 h)
  grind [baseReward_tail, tailSpeed]

end Tail

theorem getBlockReward_positive_early_and_final :
    (∃ reward, getBlockReward 0 300000 0 24 1714429 = some reward ∧ 0 < reward) ∧
      ∃ reward, getBlockReward 0 300000 electroneroSwap 26 3559855 = some reward ∧ 0 < reward :=
  ⟨(getBlockReward_positive_iff (by decide) (by decide) (by decide) (by decide)).2 (Or.inr (by decide +kernel)),
    (getBlockReward_positive_iff (by decide) (by decide) (by decide) (by decide)).2 (Or.inl rfl)⟩

/-- **One unit before the end the reward is 0.** -/
theorem getBlockReward_dries_up : 1714428 < 3559855 ∧ (8 : UInt8) ≤ 26 ∧ electroneroSwap - 1 ≤ electroneroSwap ∧
      getBlockReward 300000 300000 (electroneroSwap - 1) 26 3559855 = some 0 := by
  decide +kernel

end Reward

end Electronero
