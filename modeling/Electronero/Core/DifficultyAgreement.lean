import Electronero.Core.Difficulty
import Electronero.Core.WeightedDifficulty
/-!
# Where the two difficulty rules agree

One rule is applied at the height `h` of the new block, the other at the height `H` of the main chain, and only the first
has fixed difficulties.
-/
namespace Electronero
open List

namespace Difficulty

def Era.demand (e : Era) (path : List Sample) : UInt64 := e.next (window e.blocksCount path)

def Agreeing (h H : Nat) : Prop := h ≤ 2 ∨ fixedDifficulty h = none ∧ era h = era H

instance (h H : Nat) : Decidable (Agreeing h H) := inferInstanceAs (Decidable (_ ∨ _))

variable {samples : List Sample} {h H l : Nat} {T d : UInt64} {e e' : Era}

theorem Era.next_of_short (e : Era) (h : samples.length ≤ 1) : e.next samples = 1 := by
  rcases samples with _ | ⟨s, _ | ⟨s', rest⟩⟩
  · unfold Era.next
    cases e.algorithm <;> rfl
  · unfold Era.next
    cases e.algorithm <;> rfl
  · simp at h

theorem length_window_le (count : Nat) (path : List Sample) : (window count path).length ≤ path.length - 1 := by
  unfold window skipGenesis
  rw [length_drop]
  split <;> omega

theorem fixedDifficulty_of_short (hh : h < 307000) : fixedDifficulty h = none := by
  simp only [fixedDifficulty, hardforkV7Height, hardforkV8Height, hardforkV10Height, hardforkV11Height,
    hardforkV12Height, hardforkV13Height]
  iterate 6 rw [if_neg (by omega)]

theorem forNextBlock_of_agreeing {path : List Sample} (h : Agreeing path.length H) :
    forNextBlock path = (era H).demand path := by
  rcases h with hshort | ⟨hfixed, hera⟩
  · have hlen : ∀ count, (window count path).length ≤ 1 := fun count => (length_window_le count path).trans (by omega)
    unfold forNextBlock Era.demand
    rw [fixedDifficulty_of_short (by omega), (era H).next_of_short (hlen _)]
    exact Era.next_of_short _ (hlen _)
  · unfold forNextBlock Era.demand
    rw [hfixed, hera]

def era1 : Era := ⟨60, 735, .v1⟩
def era2 : Era := ⟨120, 60, .v2⟩
def era3 : Era := ⟨120, 60, .v4⟩
def era4 : Era := ⟨120, 60, .v3⟩
def era5 : Era := ⟨120, 70, .v3⟩
def era6 : Era := ⟨120, 70, .v4⟩
def era7 : Era := ⟨60, 70, .v4⟩

theorem era_of_lt (hh : h < 307003) : era h = era1 := by
  unfold era
  rw [if_pos hh, if_pos hh, if_pos hh]
  rfl

theorem era_cases (hh : 307003 ≤ h) :
    era h = era2 ∨ era h = era3 ∨ era h = era4 ∨ era h = era5 ∨ era h = era6 ∨ era h = era7 := by
  simp only [era, era2, era3, era4, era5, era6, era7, if_neg (Nat.not_lt.2 hh), Era.mk.injEq]
  grind

theorem window_append {count : Nat} {front back : List Sample} (hne : front ≠ []) (h : back.length = count) :
    window count (front ++ back) = back := by
  have hpos : 0 < front.length := length_pos_iff.2 hne
  have hoffset : skipGenesis ((front ++ back).length - min (front ++ back).length count) = front.length := by
    grind [skipGenesis]
  rw [window, hoffset, drop_left]

def flat (h : Nat) : List Sample := List.replicate h ⟨0, 0⟩

def step (h : Nat) : List Sample := flat h ++ [⟨0, 1000⟩]

theorem window_flat (count h : Nat) : ∃ l, window count (flat h) = flat l ∧ (2 ≤ count → 3 ≤ h → 2 ≤ l) ∧
    (count < h → l = count) := by
  refine ⟨h - skipGenesis (h - min h count), ?_, ?_, ?_⟩
  · simp [window, flat, drop_replicate]
  · unfold skipGenesis
    intro _ _
    split <;> omega
  · unfold skipGenesis
    intro _
    split <;> omega

theorem window_step (count : Nat) (hcount : 2 ≤ count) (hh : 2 ≤ h) :
    ∃ l, window count (step h) = step l ∧ 1 ≤ l ∧ l + 1 ≤ count := by
  refine ⟨h - skipGenesis (h + 1 - min (h + 1) count), ?_, ?_, ?_⟩
  · unfold window step
    rw [drop_append_of_le_length]
    · simp [flat, drop_replicate]
    · simp only [flat, skipGenesis, length_append, length_replicate, length_singleton]
      split <;> omega
  · unfold skipGenesis
    split <;> omega
  · unfold skipGenesis
    split <;> omega

theorem getD_of_forall {l : List UInt64} (h : ∀ x ∈ l, x = 0) (i : Nat) : l.getD i 0 = 0 := by
  rw [getD_eq_getElem?_getD]
  cases hi : l[i]? with
  | none => rfl
  | some x => exact h x (mem_of_getElem? hi)

theorem spanAndWork_of_timestamps (h : ∀ s ∈ samples, s.timestamp = 0) : (spanAndWork samples).1 = 1 := by
  have hsorted : ∀ x ∈ (samples.map (·.timestamp)).insertionSort (· ≤ ·), x = 0 := by simp_all
  grind [spanAndWork, getD_of_forall]

theorem nextDifficulty_of_timestamps (h : ∀ s ∈ samples, s.timestamp = 0)
    (hlen : 2 ≤ (samples.take 720).length) (T : UInt64) :
    nextDifficulty samples T = (spanAndWork (samples.take 720)).2 * T := by
  have hspan : (spanAndWork (samples.take 720)).1 = 1 :=
    spanAndWork_of_timestamps fun s hs => h s (mem_of_mem_take hs)
  grind [nextDifficulty, spanAndWork]

theorem spanAndWork_flat (l : Nat) : (spanAndWork (flat l)).2 = 0 := by
  have hwork : ∀ x ∈ (flat l).map (·.cumulativeDifficulty), x = 0 := by
    intro x hx
    obtain ⟨s, hs, rfl⟩ := List.mem_map.1 hx
    rw [eq_of_mem_replicate hs]
  grind [spanAndWork, getD_of_forall]

theorem nextDifficulty_flat (hl : 2 ≤ l) (T : UInt64) : nextDifficulty (flat l) T = 0 := by
  have htake : (flat l).take 720 = flat (min 720 l) := by rw [flat, take_replicate, flat]
  rw [nextDifficulty_of_timestamps (by simp [flat]) (by simp [flat]; omega), htake, spanAndWork_flat, UInt64.zero_mul]

theorem step_timestamp {s : Sample} (h : s ∈ step l) : s.timestamp = 0 := by
  rcases mem_append.1 h with h | h
  · rw [eq_of_mem_replicate h]
  · rw [mem_singleton.1 h]

theorem getD_step (l i : Nat) : ((step l).map (·.cumulativeDifficulty)).getD i 0 = if i = l then 1000 else 0 := by
  rw [getD_eq_getElem?_getD]
  simp only [step, flat, map_append, map_replicate, map_cons, map_nil]
  grind

theorem spanAndWork_step (hl : 1 ≤ l) : (spanAndWork (step l)).2 = if (cut (l + 1)).2 = l + 1 then 1000 else 0 := by
  have hlen : (step l).length = l + 1 := by simp [step, flat]
  have hcut : (cut (l + 1)).1 ≠ l ∧ 1 ≤ (cut (l + 1)).2 := by
    unfold cut
    grind
  grind [spanAndWork, getD_step]

theorem nextDifficulty_step (hl : 1 ≤ l) : nextDifficulty (step l) 60 = 0 ∨ nextDifficulty (step l) 60 = 60000 := by
  have hlen : ((step l).take 720).length = min 720 (l + 1) := by simp [step, flat]
  rw [nextDifficulty_of_timestamps (fun _ => step_timestamp) (by omega)]
  by_cases hl' : l + 1 ≤ 720
  · have htake : (step l).take 720 = step l := take_of_length_le (by simpa [step, flat] using hl')
    grind [spanAndWork_step]
  · -- the last block is not among those that count
    have htake : (step l).take 720 = flat 720 := by
      rw [step, take_append_of_le_length (by simp [flat]; omega), flat, take_replicate,
        Nat.min_eq_left (by omega), flat]
    rw [htake, spanAndWork_flat]
    exact Or.inl rfl

theorem nextDifficultyV2_of_timestamps (h : ∀ s ∈ samples, s.timestamp = 0)
    (hlen : 2 ≤ samples.length ∧ samples.length ≤ 720) (hwork : (spanAndWork samples).2.toNat * T.toNat < UInt64.size) :
    nextDifficultyV2 samples T = (spanAndWork samples).2 * T := by
  have hspan := spanAndWork_of_timestamps h
  unfold nextDifficultyV2
  dsimp only
  rw [take_of_length_le hlen.2, if_neg (by omega)]
  grind

theorem nextDifficultyV2_flat (hl : l < 61) (hpos : 2 ≤ l) : nextDifficultyV2 (flat l) 120 = 0 := by
  have hwork := spanAndWork_flat l
  rw [nextDifficultyV2_of_timestamps (by simp [flat]) (by simp [flat]; omega) (by rw [hwork]; decide), hwork,
    UInt64.zero_mul]

theorem nextDifficultyV2_step (hl : l < 60) (hpos : 1 ≤ l) : nextDifficultyV2 (step l) 120 = 120000 := by
  have hcut : (cut (l + 1)).2 = l + 1 := by rw [cut, if_pos (by omega)]
  have hwork : (spanAndWork (step l)).2 = 1000 := by rw [spanAndWork_step hpos, if_pos hcut]
  rw [nextDifficultyV2_of_timestamps (fun _ => step_timestamp) (by simp [step, flat]; omega) (by rw [hwork]; decide), hwork]
  rfl

theorem nextDifficultyV4_flat (hl : 2 ≤ l) (T : UInt64) : nextDifficultyV4 (flat l) T = 0 := by
  have hsub : ∀ {k}, (flat l).take k = flat (min k l) := fun {k} => by rw [flat, take_replicate, flat]
  obtain ⟨m, hm, hsamples⟩ : ∃ m, 2 ≤ m ∧
      (if 69 ≤ ((flat l).take 70).length && rapidChange (((flat l).take 70).map (·.cumulativeDifficulty)) then
        ((flat l).take 70).take 25 else (flat l).take 70) = flat m := by
    split
    · exact ⟨min 25 (min 70 l), by omega, by rw [hsub, flat, take_replicate, flat]⟩
    · exact ⟨min 70 l, by omega, hsub⟩
  obtain ⟨m, rfl⟩ : ∃ k, m = k + 2 := ⟨m - 2, by omega⟩
  unfold nextDifficultyV4
  dsimp only
  rw [hsamples]
  have hlast : (List.replicate m (⟨0, 0⟩ : Sample)).getLastD ⟨0, 0⟩ = ⟨0, 0⟩ := by grind
  show (if _ then _ else _) = (0 : UInt64)
  rw [hlast]
  simp

theorem length_step (l : Nat) : (step l).length = l + 1 := by simp [step, flat]

theorem trendWindow_step (hl : l < 70) : trendWindow (step l) = step l := by
  have htake : (step l).take 70 = step l := take_of_length_le (by rw [length_step]; omega)
  simp only [trendWindow, htake, length_step]
  by_cases hfull : 69 ≤ l + 1
  · obtain rfl | rfl : l = 68 ∨ l = 69 := by omega
    · decide +kernel
    · decide +kernel
  · rw [decide_eq_false hfull, Bool.false_and]
    rfl

theorem spansOf_replicate (target first l : Nat) : spansOf target first (List.replicate l first) = List.replicate l 1 := by
  induction l with
  | zero => rfl
  | succ l ih =>
    have hclamp : clamp target 0 = 1 := by simp [clamp]
    rw [replicate_succ, spansOf_cons, Nat.max_self, Nat.sub_self, hclamp, ih, replicate_succ]

theorem weightedSpan_step (target : Nat) (hl : 1 ≤ l) : target * (l + 1) / 2 ≤ weightedSpan target (step l) ∧
      weightedSpan target (step l) ≤ max (l * (l + 1) / 2) (target * (l + 1) / 2) := by
  have htimes : (step l).map (·.timestamp.toNat) = 0 :: List.replicate l 0 := by
    obtain ⟨k, rfl⟩ : ∃ k, l = k + 1 := ⟨l - 1, by omega⟩
    rw [← replicate_succ]
    simp [step, flat, replicate_succ']
  have hsum : 2 * weightedSum (List.replicate l 1) ≤ l * (l + 1) := by
    have hle : 2 * weightedSum (List.replicate l 1) ≤ 1 * _ := weightedSum_le _ (by simp)
    rwa [Nat.one_mul, length_replicate] at hle
  simp only [weightedSpan, htimes, spansOf_replicate, length_step]
  have hscaled := scaledSum_le (weightedSum (List.replicate l 1)) (recentSpans (l + 1) (List.replicate l 1))
  omega

theorem nextDifficultyV4_step (hl : l < 70) (hpos : 1 ≤ l) (hT : T = 60 ∨ T = 120) :
    nextDifficultyV4 (step l) T - 1 < 1500 := by
  have hgrows : (step l).Pairwise (·.cumulativeDifficulty ≤ ·.cumulativeDifficulty) := by
    refine pairwise_append.2 ⟨?_, pairwise_singleton _ _, ?_⟩
    · exact pairwise_replicate.2 (.inr UInt64.le_rfl)
    · intro s hs s' _
      rw [eq_of_mem_replicate hs]
      exact UInt64.zero_le
  have hwork : windowWork (step l) = 1000 := by
    obtain ⟨k, rfl⟩ : ∃ k, l = k + 1 := ⟨l - 1, by omega⟩
    simp [step, flat, replicate_succ, windowWork]
  have htargets : T.toNat = 60 ∨ T.toNat = 120 := hT.imp (congrArg UInt64.toNat) (congrArg UInt64.toNat)
  have hspan := weightedSpan_step T.toNat hpos
  have hweights : l * (l + 1) ≤ 69 * (l + 1) := Nat.mul_le_mul_right _ (by omega)
  have hvalue : (nextDifficultyV4 (step l) T).toNat =
      1000 * windowTarget T.toNat (step l) / weightedSpan T.toNat (step l) := by
    rw [nextDifficultyV4_eq, trendWindow_step hl, toNat_windowDifficulty (by rw [length_step]; omega) (by omega) (by omega)
      (by rw [length_step]; omega) hgrows, hwork, if_pos]
    rw [windowTarget, length_step]
    rcases htargets with h | h <;> rw [h] <;> omega
  have hbounds : 1 ≤ (nextDifficultyV4 (step l) T).toNat ∧ (nextDifficultyV4 (step l) T).toNat ≤ 1500 := by
    rw [hvalue, windowTarget, length_step, Nat.one_le_div_iff (by rcases htargets with h | h <;> rw [h] at hspan ⊢ <;> omega)]
    refine ⟨?_, Nat.div_le_of_le_mul ?_⟩
    · rcases htargets with h | h <;> rw [h] at hspan ⊢ <;> omega
    · rcases htargets with h | h <;> rw [h] at hspan ⊢ <;> omega
  rw [UInt64.lt_iff_toNat_lt, UInt64.toNat_sub]
  simp only [UInt64.reduceToNat]
  omega

def eras : List Era := [era1, era2, era3, era4, era5, era6, era7]

theorem era_mem (h : Nat) : era h ∈ eras := by
  rcases Nat.lt_or_ge h 307003 with hh | hh
  · rw [era_of_lt hh]
    decide
  · rcases era_cases hh with h | h | h | h | h | h <;> rw [h] <;> decide

theorem eras_cases (h : e ∈ eras) : e = era1 ∨ e = era2 ∨ e = era3 ∨ e = era4 ∨ e = era5 ∨ e = era6 ∨ e = era7 := by
  simpa [eras] using h

theorem demand_of_v3 (he : e.algorithm = .v3) (path : List Sample) : e.demand path = 1 ∨ 2000 ≤ e.demand path := by
  unfold Era.demand Era.next
  rw [he]
  exact nextDifficultyV3_eq_or_le _ _

theorem demand_flat (he : e ∈ eras) (hv : e.algorithm ≠ .v3) (hh : 3 ≤ h) : e.demand (flat h) = 0 := by
  obtain ⟨l, hl, hpos, -⟩ := window_flat e.blocksCount h
  have hle : l ≤ e.blocksCount := by
    have hlen := congrArg List.length hl
    simp only [window, flat, skipGenesis, length_drop, length_replicate] at hlen
    split at hlen <;> omega
  unfold Era.demand Era.next
  rw [hl]
  replace hpos := hpos ((by decide : ∀ e ∈ eras, 2 ≤ e.blocksCount) e he) hh
  rcases eras_cases he with rfl | rfl | rfl | rfl | rfl | rfl | rfl
  · exact nextDifficulty_flat hpos _
  · exact nextDifficultyV2_flat (Nat.lt_succ_of_le hle) hpos
  · exact nextDifficultyV4_flat hpos _
  · exact absurd rfl hv
  · exact absurd rfl hv
  · exact nextDifficultyV4_flat hpos _
  · exact nextDifficultyV4_flat hpos _

def OnStep : Algorithm → UInt64 → Prop
  | .v1, d => d = 0 ∨ d = 60000
  | .v2, d => d = 120000
  | .v3, _ => True
  | .v4, d => d - 1 < 1500

theorem demand_step (he : e ∈ eras) (hh : 2 ≤ h) : OnStep e.algorithm (e.demand (step h)) := by
  obtain ⟨l, hl, hpos, hle⟩ := window_step e.blocksCount ((by decide : ∀ e ∈ eras, 2 ≤ e.blocksCount) e he) hh
  unfold Era.demand Era.next
  rw [hl]
  rcases eras_cases he with rfl | rfl | rfl | rfl | rfl | rfl | rfl
  · exact nextDifficulty_step hpos
  · exact nextDifficultyV2_step hle hpos
  · exact nextDifficultyV4_step (Nat.lt_of_lt_of_le hle (by decide)) hpos (.inr rfl)
  · trivial
  · trivial
  · exact nextDifficultyV4_step hle hpos (.inr rfl)
  · exact nextDifficultyV4_step hle hpos (.inl rfl)

def ending (h : Nat) (pattern : List Sample) : List Sample := flat (h - 70) ++ pattern

theorem demand_ending (e : Era) (hh : 72 ≤ h) {pattern : List Sample} (hpattern : pattern.length = 70) :
    (e.blocksCount = 70 → e.demand (ending h pattern) = e.next pattern) ∧
    (e.blocksCount = 60 → e.demand (ending h pattern) = e.next (pattern.drop 10)) := by
  have hne : flat (h - 70) ≠ [] := by
    simp only [flat, ne_eq, replicate_eq_nil_iff]
    omega
  unfold Era.demand ending
  constructor
  · grind [window_append]
  · intro hcount
    rw [← take_append_drop 10 pattern, ← append_assoc, hcount,
      window_append (by simp [hne]) (by simp [hpattern]), drop_append_of_le_length (by simp [hpattern])]
    simp

def earlyStep : List Sample := List.replicate 5 ⟨0, 0⟩ ++ List.replicate 65 ⟨0, 1000⟩

def steady : List Sample := (List.range 70).map fun i => ⟨100 * i.toUInt64, if i = 69 then 1000000 else 0⟩

def freeBlock : List Sample := (List.range 70).map fun i => ⟨120 * i.toUInt64, if i = 1 then 0 else 1000000 * i.toUInt64⟩

theorem exists_demand_ne_of_long (he : e ∈ eras) (he' : e' ∈ eras) (hne : e ≠ e')
    (hsame : e.algorithm = e'.algorithm) (hh : 72 ≤ h) : ∃ path, path.length = h ∧ e.demand path ≠ e'.demand path := by
  have hlen : ∀ {pattern : List Sample}, pattern.length = 70 → (ending h pattern).length = h := by
    intro pattern hpattern
    simp only [ending, flat, length_append, length_replicate, hpattern]
    omega
  have h34 : era4.demand (ending h freeBlock) ≠ era5.demand (ending h freeBlock) := by
    rw [(demand_ending era4 hh (by decide)).2 rfl, (demand_ending era5 hh (by decide)).1 rfl]
    decide +kernel
  have h36 : era3.demand (ending h earlyStep) ≠ era6.demand (ending h earlyStep) := by
    rw [(demand_ending era3 hh (by decide)).2 rfl, (demand_ending era6 hh (by decide)).1 rfl]
    decide +kernel
  have h37 : era3.demand (ending h earlyStep) ≠ era7.demand (ending h earlyStep) := by
    rw [(demand_ending era3 hh (by decide)).2 rfl, (demand_ending era7 hh (by decide)).1 rfl]
    decide +kernel
  have h67 : era6.demand (ending h steady) ≠ era7.demand (ending h steady) := by
    rw [(demand_ending era6 hh (by decide)).1 rfl, (demand_ending era7 hh (by decide)).1 rfl]
    decide +kernel
  have hpairs :=
    (by decide : ∀ e ∈ eras, ∀ e' ∈ eras, e ≠ e' → e.algorithm = e'.algorithm → (e, e') ∈
      [(era4, era5), (era5, era4), (era3, era6), (era6, era3), (era3, era7), (era7, era3), (era6, era7), (era7, era6)])
      e he e' he' hne hsame
  simp only [mem_cons, Prod.mk.injEq, not_mem_nil, or_false] at hpairs
  rcases hpairs with ⟨rfl, rfl⟩ | ⟨rfl, rfl⟩ | ⟨rfl, rfl⟩ | ⟨rfl, rfl⟩ | ⟨rfl, rfl⟩ | ⟨rfl, rfl⟩ | ⟨rfl, rfl⟩ | ⟨rfl, rfl⟩
  · exact ⟨_, hlen (by decide), h34⟩
  · exact ⟨_, hlen (by decide), h34.symm⟩
  · exact ⟨_, hlen (by decide), h36⟩
  · exact ⟨_, hlen (by decide), h36.symm⟩
  · exact ⟨_, hlen (by decide), h37⟩
  · exact ⟨_, hlen (by decide), h37.symm⟩
  · exact ⟨_, hlen (by decide), h67⟩
  · exact ⟨_, hlen (by decide), h67.symm⟩

theorem OnStep.unique {a a' : Algorithm} (ha : a ≠ .v3) (ha' : a' ≠ .v3) (h : OnStep a d) (h' : OnStep a' d) :
    a = a' := by
  have hsmall : ∀ {d : UInt64}, OnStep .v4 d → d ≠ 0 ∧ d ≠ 60000 ∧ d ≠ 120000 := by grind [OnStep]
  cases a <;> cases a' <;> first | rfl | contradiction | skip
  · rcases h with rfl | rfl <;> cases h'
  · exact (h.elim (hsmall h').1 (hsmall h').2.1).elim
  · rcases h' with rfl | rfl <;> cases h
  · exact absurd h (hsmall h').2.2
  · exact (h'.elim (hsmall h).1 (hsmall h).2.1).elim
  · exact absurd h' (hsmall h).2.2

theorem exists_demand_ne (he : e ∈ eras) (he' : e' ∈ eras) (hne : e ≠ e') (hh : 3 ≤ h)
    (hlong : e.algorithm = e'.algorithm → 72 ≤ h) : ∃ path, path.length = h ∧ e.demand path ≠ e'.demand path := by
  have hflat : ∀ {e e' : Era}, e ∈ eras → e.algorithm ≠ .v3 → e'.algorithm = .v3 → e.demand (flat h) ≠ e'.demand (flat h) := by
    grind [demand_of_v3, demand_flat]
  have hlen : (flat h).length = h := by simp [flat]
  by_cases hsame : e.algorithm = e'.algorithm
  · exact exists_demand_ne_of_long he he' hne hsame (hlong hsame)
  by_cases hv : e.algorithm = .v3
  · grind
  by_cases hv' : e'.algorithm = .v3
  · exact ⟨flat h, hlen, hflat he hv hv'⟩
  · refine ⟨step (h - 1), by simp [step, flat]; omega, fun heq => hsame ?_⟩
    have hd' := demand_step he' (h := h - 1) (by omega)
    rw [← heq] at hd'
    exact (demand_step he (by omega)).unique hv hv' hd'

def fixedDifficulties : List UInt64 := [255, 287, 100, 72289156, 52289156]

theorem fixedDifficulty_mem (hd : fixedDifficulty h = some d) : d ∈ fixedDifficulties := by
  unfold fixedDifficulty at hd
  dsimp only at hd
  repeat (split at hd; · cases hd; decide)
  cases hd

theorem demand_flat_ne (he : e ∈ eras) (hh : 72 ≤ h) (hd : d ∈ fixedDifficulties) : e.demand (flat h) ≠ d := by
  by_cases hv : e.algorithm = .v3
  · obtain ⟨l, hl, -, hfull⟩ := window_flat e.blocksCount h
    have hcount := (by decide : ∀ e ∈ eras, e.algorithm = .v3 → e.blocksCount < 72 ∧ e.target = 120 ∧
      (e.blocksCount = 60 ∨ e.blocksCount = 70)) e he hv
    obtain rfl := hfull (by omega)
    have hvalue : e.demand (flat h) = 75723142 := by
      unfold Era.demand Era.next
      rw [hl, hv, hcount.2.1]
      rcases hcount.2.2 with h | h <;> rw [h] <;> decide +kernel
    rw [hvalue]
    rintro rfl
    exact absurd hd (by decide)
  · rw [demand_flat he hv (by omega)]
    rintro rfl
    exact absurd hd (by decide)

theorem exists_forNextBlock_ne (hagree : ¬Agreeing h H) :
    ∃ path, path.length = h ∧ (era H).demand path ≠ forNextBlock path := by
  obtain ⟨hh, hnot⟩ := not_or.1 hagree
  cases hfixed : fixedDifficulty h with
  | some d =>
    have hlong : 307000 ≤ h := by grind [fixedDifficulty_of_short]
    refine ⟨flat h, by simp [flat], ?_⟩
    rw [forNextBlock, show (flat h).length = h by simp [flat], hfixed]
    exact demand_flat_ne (era_mem H) (by omega) (fixedDifficulty_mem hfixed)
  | none =>
    have hne : era H ≠ era h := fun heq => hnot ⟨hfixed, heq.symm⟩
    obtain ⟨path, rfl, hpath⟩ := exists_demand_ne (era_mem H) (era_mem h) hne (h := h) (by omega) (by
      -- the first era has an algorithm of its own, and the others come late
      intro hsame
      by_contra hshort
      rw [era_of_lt (h := h) (by omega)] at hsame hne
      exact (by decide : ∀ e ∈ eras, e ≠ era1 → e.algorithm ≠ era1.algorithm) _ (era_mem H) hne hsame)
    refine ⟨path, rfl, ?_⟩
    rw [forNextBlock, hfixed]
    exact hpath

theorem forAlternativeChain_eq_iff (hpos : 0 < h) (hreach : h ≤ H ∨ 2 ≤ H) :
    (∀ (main : List Sample) (stopOffset : Nat) (altChain : List Sample), main.length = H → 0 < stopOffset →
      stopOffset + altChain.length = h → (stopOffset < H ∨ stopOffset = H ∧ altChain = []) →
      forAlternativeChain main stopOffset altChain = forNextBlock (main.take stopOffset ++ altChain)) ↔ Agreeing h H := by
  constructor
  · intro hall
    by_contra hagree
    obtain ⟨path, rfl, hne⟩ := exists_forNextBlock_ne hagree
    -- the path lies on the main chain, or leaves it after the first block
    obtain ⟨stop, hstop, hle, hend⟩ : ∃ stop, 0 < stop ∧ stop ≤ path.length ∧
        (stop < H ∨ stop = H ∧ path.drop stop = []) := by
      rcases hreach with hle | htwo
      · refine ⟨path.length, hpos, le_rfl, ?_⟩
        rcases Nat.lt_or_eq_of_le hle with hlt | heq
        · exact Or.inl hlt
        · exact Or.inr ⟨heq, drop_length⟩
      · exact ⟨1, by omega, hpos, Or.inl htwo⟩
    have hmain : (path.take stop ++ flat (H - stop)).length = H := by
      simp only [flat, length_append, length_take, length_replicate]
      omega
    have htake : (path.take stop ++ flat (H - stop)).take stop = path.take stop := by
      rw [take_append_of_le_length (by simp; omega), take_take, Nat.min_self]
    have heq := hall (path.take stop ++ flat (H - stop)) stop (path.drop stop) hmain hstop
      (by simp; omega) hend
    rw [forAlternativeChain_eq hstop (by omega), hmain, htake, take_append_drop] at heq
    exact hne heq
  · rintro hagree main stop altChain rfl hstop rfl hend
    have hle : stop ≤ main.length := by omega
    rw [forAlternativeChain_eq hstop hle]
    exact (forNextBlock_of_agreeing (by simpa [hle] using hagree)).symm

end Difficulty

end Electronero
