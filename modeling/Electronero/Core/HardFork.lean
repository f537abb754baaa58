import Electronero.Core.State
import Mathlib.Order.Fin.Basic
import Mathlib.Logic.Function.Basic
import Mathlib.Data.UInt
/-!
# Hard forks (`src/cryptonote_basic/hardfork.cpp`)

`ForkState` is the object with the table `hf_versions` (db_lmdb.cpp:3200). Every fork has threshold 0
(blockchain.cpp:145-251), so nobody votes. The first entry of a table is the original version.
-/
namespace Electronero
open List

structure Fork where
  version : UInt8
  height : Nat
  threshold : Nat
deriving DecidableEq

structure ForkTable where
  first : Fork
  later : List Fork
  windowSize : Nat
  windowSize_pos : 0 < windowSize
  increasing : (first :: later).Pairwise fun f g => f.version < g.version ∧ f.height < g.height

namespace ForkTable
variable (t : ForkTable)

def forks : List Fork := t.first :: t.later

abbrev Index := Fin t.forks.length

instance : NeZero t.forks.length := ⟨Nat.succ_ne_zero _⟩

def version (n : t.Index) : UInt8 := t.forks[n].version

def height (n : t.Index) : Nat := t.forks[n].height

def threshold (n : t.Index) : Nat := t.forks[n].threshold

def originalVersion : UInt8 := t.version 0

def descending : List t.Index := (List.finRange t.forks.length).reverse

def idealIndex (height : Nat) : t.Index :=
  (t.descending.find? fun n => decide (n ≠ 0 ∧ t.height n ≤ height)).getD 0

def idealVersion (height : Nat) : UInt8 := t.version (t.idealIndex height)

/-- `get_effective_version`: votes for versions nobody knows count for the last one. -/
def effectiveVersion (vote : UInt8) : UInt8 :=
  let last := (t.forks.getLast (cons_ne_nil _ _)).version
  if last < vote then last else vote

def Scheduled : Prop := ∀ f ∈ t.forks, f.threshold = 0

instance : Decidable t.Scheduled := inferInstanceAs (Decidable (∀ f ∈ t.forks, f.threshold = 0))

/-- `mainnet_hard_forks` (blockchain.cpp:145) with `DEFAULT_WINDOW_SIZE`; there was no version 20 -/
def mainnet : ForkTable where
  first := ⟨1, 1, 0⟩
  later := [⟨7, 307003, 0⟩, ⟨8, 307054, 0⟩, ⟨9, 308110, 0⟩, ⟨10, 310790, 0⟩, ⟨11, 310860, 0⟩, ⟨12, 333690, 0⟩,
    ⟨13, 337496, 0⟩, ⟨14, 337816, 0⟩, ⟨15, 337838, 0⟩, ⟨16, 500060, 0⟩, ⟨17, 570000, 0⟩, ⟨18, 659000, 0⟩,
    ⟨19, 739800, 0⟩, ⟨21, 1132900, 0⟩, ⟨22, 1132935, 0⟩, ⟨23, 1183409, 0⟩, ⟨24, 1714428, 0⟩, ⟨25, 1911970, 0⟩,
    ⟨26, 3559855, 0⟩]
  windowSize := 10080
  windowSize_pos := by decide
  increasing := by decide

def testnet : ForkTable where
  first := ⟨1, 1, 0⟩
  later := [⟨7, 307003, 0⟩, ⟨8, 307054, 0⟩, ⟨9, 308110, 0⟩, ⟨10, 310790, 0⟩, ⟨11, 310860, 0⟩, ⟨12, 333690, 0⟩,
    ⟨13, 337496, 0⟩, ⟨14, 337816, 0⟩, ⟨15, 337838, 0⟩, ⟨16, 492500, 0⟩]
  windowSize := 10080
  windowSize_pos := by decide
  increasing := by decide

def stagenet : ForkTable where
  first := ⟨1, 1, 0⟩
  later := [⟨7, 307003, 0⟩, ⟨8, 307054, 0⟩, ⟨9, 308110, 0⟩, ⟨10, 310790, 0⟩, ⟨11, 310860, 0⟩, ⟨12, 333690, 0⟩,
    ⟨13, 337496, 0⟩, ⟨14, 337816, 0⟩, ⟨15, 337838, 0⟩, ⟨16, 492500, 0⟩, ⟨17, 492530, 0⟩]
  windowSize := 10080
  windowSize_pos := by decide
  increasing := by decide

end ForkTable

/-- `get_block_vote`: before the first fork the minor version was always 0. -/
def Block.vote (bl : Block) : UInt8 := if bl.minorVersion = 0 then 1 else bl.minorVersion

@[ext] structure HardFork (t : ForkTable) where
  /-- the votes in the window, oldest first -/
  versions : List UInt8
  currentForkIndex : t.Index
deriving DecidableEq

namespace HardFork
variable {t : ForkTable} (hf : HardFork t)

def init (t : ForkTable) : HardFork t := ⟨[], 0⟩

def currentVersion : UInt8 := t.version hf.currentForkIndex

def lastVersions (version : UInt8) : Nat := hf.versions.count version

def check (bl : Block) : Bool := bl.majorVersion == hf.currentVersion && decide (hf.currentVersion ≤ bl.vote)

def votedFrom (height : Nat) : List t.Index → Nat → t.Index
  | [], _ => hf.currentForkIndex
  | n :: rest, accumulatedVotes =>
    if n ≤ hf.currentForkIndex then hf.currentForkIndex
    else
      let votes := accumulatedVotes + hf.lastVersions (t.version n)
      let threshold := (t.windowSize * t.threshold n + 99) / 100
      if t.height n ≤ height ∧ threshold ≤ votes then n else votedFrom height rest votes

def getVotedForkIndex (height : Nat) : t.Index := hf.votedFrom height t.descending 0

def checkForHeight (bl : Block) (height : Nat) : Bool :=
  let version := t.version (hf.getVotedForkIndex height)
  bl.majorVersion == version && decide (version ≤ bl.vote)

def pushVersion (vote : UInt8) : HardFork t :=
  { hf with versions := hf.versions.drop (hf.versions.length + 1 - t.windowSize) ++ [vote] }

def raise (height : Nat) : HardFork t :=
  if hf.currentForkIndex < hf.getVotedForkIndex height then { hf with currentForkIndex := hf.getVotedForkIndex height }
  else hf

def add (bl : Block) (height : Nat) : Option (HardFork t) :=
  if hf.check bl then some ((hf.pushVersion (t.effectiveVersion bl.vote)).raise (height + 1)) else none

def lowered (t : ForkTable) (startVersion : UInt8) : (n : Nat) → n < t.forks.length → t.Index
  | 0, h => ⟨0, h⟩
  | n + 1, h =>
    if startVersion < t.version ⟨n + 1, h⟩ then lowered t startVersion n (Nat.lt_of_succ_lt h) else ⟨n + 1, h⟩

end HardFork

inductive DbError
  /-- `get_hard_fork_version` finds no entry -/
  | hardForkVersionMissing
deriving DecidableEq

structure ForkState (t : ForkTable) where
  hardFork : HardFork t
  recorded : Nat → Option UInt8
  /-- heights at which a block was stored although `add` refused it, for the statements; nothing reads it -/
  refused : List Nat

namespace ForkState
variable {t : ForkTable} (s : ForkState t)

def init (t : ForkTable) : ForkState t :=
  ⟨.init t, fun height => if height = 0 then some t.originalVersion else none, []⟩

def record (height : Nat) (bl : Block) : Option (ForkState t) :=
  (s.hardFork.add bl height).map fun hf =>
    { s with hardFork := hf, recorded := Function.update s.recorded height (some s.hardFork.currentVersion) }

def addStored (height : Nat) (bl : Block) : ForkState t :=
  (s.record height bl).getD { s with refused := s.refused ++ [height] }

def readd : ForkState t → Nat → List Block → ForkState t
  | s, _, [] => s
  | s, height, bl :: rest => readd ((s.record height bl).getD s) (height + 1) rest

def reorganizeFromBlockHeight (blocks : List Block) (height : Nat) : ForkState t × Except DbError Bool :=
  if blocks.length ≤ height then (s, .ok false)
  else
    match if height = 0 then some t.originalVersion else s.recorded height with
    | none => ({ s with hardFork := { s.hardFork with versions := [] } }, .error .hardForkVersionMissing)
    | some startVersion =>
      let rescanned := (blocks.take (height + 1)).drop (height + 1 - t.windowSize)
      let hf : HardFork t :=
        ⟨rescanned.map fun bl => t.effectiveVersion bl.vote,
          HardFork.lowered t startVersion s.hardFork.currentForkIndex s.hardFork.currentForkIndex.isLt⟩
      (readd { s with hardFork := hf.raise (height + 1) } (height + 1) (blocks.drop (height + 1)), .ok true)

def reorganizeFromChainHeight (blocks : List Block) (height : Nat) : ForkState t × Except DbError Bool :=
  if height = 0 then (s, .ok false) else s.reorganizeFromBlockHeight blocks (height - 1)

end ForkState

/-! ## Forks that come with their height -/

namespace ForkTable
variable {t : ForkTable}

variable {m n : t.Index} {height h₁ h₂ : Nat}

theorem version_lt (h : m < n) : t.version m < t.version n :=
  (pairwise_iff_get.1 t.increasing m n h).1

theorem height_lt (h : m < n) : t.height m < t.height n :=
  (pairwise_iff_get.1 t.increasing m n h).2

theorem version_injective : Function.Injective t.version := by
  intro m n h
  rcases lt_trichotomy m n with hlt | heq | hlt
  · exact absurd (version_lt hlt) (by simp [h])
  · exact heq
  · exact absurd (version_lt hlt) (by simp [h])

theorem descending_pairwise : t.descending.Pairwise (· > ·) :=
  pairwise_reverse.2 (pairwise_lt_finRange _)

theorem find?_descending (p : t.Index → Bool) :
    (∀ n, t.descending.find? p = some n → p n = true ∧ ∀ m, p m = true → m ≤ n) ∧
    (t.descending.find? p = none → ∀ m, p m = false) := by
  have hmem : ∀ m, m ∈ t.descending := fun m => mem_reverse.2 (mem_finRange m)
  have hsorted := t.descending_pairwise
  constructor
  · intro n hn
    obtain ⟨hpn, as, bs, hsplit, has⟩ := find?_eq_some_iff_append.1 hn
    refine ⟨hpn, fun m hm => ?_⟩
    have hm' := hmem m
    rw [hsplit] at hm' hsorted
    rcases mem_append.1 hm' with hm' | hm'
    · exact absurd hm (by simpa using has m hm')
    · rcases mem_cons.1 hm' with rfl | hm'
      · exact le_refl _
      · exact le_of_lt ((pairwise_cons.1 (pairwise_append.1 hsorted).2.1).1 m hm')
  · grind

theorem le_idealIndex (h : t.height n ≤ height) : n ≤ t.idealIndex height := by
  by_cases hn : n = 0
  · rw [hn]
    exact Fin.zero_le _
  have hp : decide (n ≠ 0 ∧ t.height n ≤ height) = true := by simp [hn, h]
  obtain ⟨hsome, hnone⟩ := find?_descending fun n : t.Index => decide (n ≠ 0 ∧ t.height n ≤ height)
  unfold idealIndex
  cases hfind : t.descending.find? fun n => decide (n ≠ 0 ∧ t.height n ≤ height) with
  | none => exact absurd (hnone hfind n) (by simp [hn, h])
  | some m => exact (hsome m hfind).2 n hp

theorem height_idealIndex (h : t.idealIndex height ≠ 0) : t.height (t.idealIndex height) ≤ height := by
  have hsome := (find?_descending fun n : t.Index => decide (n ≠ 0 ∧ t.height n ≤ height)).1
  unfold idealIndex at h ⊢
  cases hfind : t.descending.find? fun n => decide (n ≠ 0 ∧ t.height n ≤ height) with
  | none => exact absurd (by rw [hfind]; rfl) h
  | some m => exact (by simpa using (hsome m hfind).1 : m ≠ 0 ∧ t.height m ≤ height).2

theorem idealIndex_mono (h : h₁ ≤ h₂) : t.idealIndex h₁ ≤ t.idealIndex h₂ := by
  by_cases h0 : t.idealIndex h₁ = 0
  · rw [h0]
    exact Fin.zero_le _
  · exact le_idealIndex ((height_idealIndex h0).trans h)

theorem idealIndex_zero : t.idealIndex 0 = 0 := by
  by_contra h
  have hlt := height_lt (Fin.pos_iff_ne_zero.2 h)
  have hle := height_idealIndex h
  omega

theorem idealVersion_eq_iff : t.idealVersion h₁ = t.idealVersion h₂ ↔ t.idealIndex h₁ = t.idealIndex h₂ :=
  version_injective.eq_iff

end ForkTable

namespace HardFork
variable {t : ForkTable} {hf : HardFork t}

theorem votedFrom_eq (hs : t.Scheduled) (height votes : Nat) {l : List t.Index} (hl : l.Pairwise (· > ·)) :
    hf.votedFrom height l votes =
      (l.find? fun n => decide (hf.currentForkIndex < n ∧ t.height n ≤ height)).getD hf.currentForkIndex := by
  induction l generalizing votes with
  | nil => rfl
  | cons n rest ih =>
    obtain ⟨hn, hrest⟩ := pairwise_cons.1 hl
    have hthreshold : t.threshold n = 0 := hs _ (getElem_mem n.isLt)
    unfold votedFrom
    by_cases hcur : n ≤ hf.currentForkIndex
    · -- all that follow are even lower
      have hnone : (n :: rest).find? (fun n => decide (hf.currentForkIndex < n ∧ t.height n ≤ height)) = none := by
        grind
      rw [if_pos hcur, hnone]
      rfl
    · grind

theorem getVotedForkIndex_eq (hs : t.Scheduled) (height : Nat) :
    hf.getVotedForkIndex height = max hf.currentForkIndex (t.idealIndex height) := by
  unfold getVotedForkIndex
  rw [votedFrom_eq hs _ _ t.descending_pairwise]
  obtain ⟨hsome, hnone⟩ :=
    ForkTable.find?_descending fun n : t.Index => decide (hf.currentForkIndex < n ∧ t.height n ≤ height)
  cases hfind : t.descending.find? fun n => decide (hf.currentForkIndex < n ∧ t.height n ≤ height) with
  | none => grind [ForkTable.height_idealIndex]
  | some m => grind [ForkTable.le_idealIndex, ForkTable.height_idealIndex]

theorem raise_currentForkIndex (hs : t.Scheduled) (height : Nat) :
    (hf.raise height).currentForkIndex = max hf.currentForkIndex (t.idealIndex height) := by
  unfold raise
  grind [getVotedForkIndex_eq]

@[simp] theorem raise_versions (height : Nat) : (hf.raise height).versions = hf.versions := by
  unfold raise
  split <;> rfl

theorem lowered_version {m : t.Index} {n : Nat} (hn : n < t.forks.length) (hm : (m : Nat) ≤ n) :
    lowered t (t.version m) n hn = m := by
  induction n with
  | zero => exact Fin.ext (Nat.le_zero.1 hm).symm
  | succ n ih =>
    unfold lowered
    grind [ForkTable.version_lt]

end HardFork

def ForkTable.Demands (t : ForkTable) (height : Nat) (bl : Block) : Prop :=
  bl.majorVersion = t.idealVersion height ∧ t.idealVersion height ≤ bl.vote

instance (t : ForkTable) (height : Nat) (bl : Block) : Decidable (t.Demands height bl) :=
  inferInstanceAs (Decidable (_ ∧ _))

def ForkTable.DemandsFrom (t : ForkTable) (height : Nat) (blocks : List Block) : Prop :=
  ∀ i bl, blocks[i]? = some bl → t.Demands (height + i) bl

instance (t : ForkTable) (height : Nat) (blocks : List Block) : Decidable (t.DemandsFrom height blocks) :=
  decidable_of_iff (∀ i : Fin blocks.length, t.Demands (height + i) blocks[i]) <| by
    constructor
    · intro h i bl hbl
      obtain ⟨hi, rfl⟩ := List.getElem?_eq_some_iff.1 hbl
      exact h ⟨i, hi⟩
    · intro h i
      exact h i _ (getElem?_eq_getElem i.isLt)

theorem ForkTable.demandsFrom_append {t : ForkTable} {height : Nat} {b₁ b₂ : List Block} :
    t.DemandsFrom height (b₁ ++ b₂) ↔ t.DemandsFrom height b₁ ∧ t.DemandsFrom (height + b₁.length) b₂ := by
  constructor
  · intro h
    refine ⟨fun i bl hbl => ?_, fun i bl hbl => ?_⟩
    · have hi := (List.getElem?_eq_some_iff.1 hbl).1
      exact h i bl (by rw [getElem?_append_left hi, hbl])
    · have := h (b₁.length + i) bl (by rw [getElem?_append_right (by omega)]; simpa using hbl)
      rwa [← Nat.add_assoc] at this
  · rintro ⟨h₁, h₂⟩ i bl hbl
    by_cases hi : i < b₁.length
    · exact h₁ i bl (by rwa [getElem?_append_left hi] at hbl)
    · rw [getElem?_append_right (by omega)] at hbl
      have := h₂ _ bl hbl
      grind

theorem ForkTable.demandsFrom_singleton {t : ForkTable} {height : Nat} {bl : Block} :
    t.DemandsFrom height [bl] ↔ t.Demands height bl := by
  constructor
  · intro h
    exact h 0 bl rfl
  · rintro h (_ | i) bl' hbl
    · cases hbl
      exact h
    · simp at hbl

namespace HardFork
variable {t : ForkTable} {hf : HardFork t} {bl : Block}

theorem check_iff {height : Nat} (h : hf.currentForkIndex = t.idealIndex height) :
    hf.check bl = true ↔ t.Demands height bl := by
  simp [check, currentVersion, h, ForkTable.Demands, ForkTable.idealVersion]

def ofBlocks (t : ForkTable) (blocks : List Block) : HardFork t :=
  ⟨(blocks.drop (blocks.length - t.windowSize)).map fun bl => t.effectiveVersion bl.vote, t.idealIndex blocks.length⟩

theorem add_currentForkIndex (hs : t.Scheduled) {height : Nat} (h : hf.currentForkIndex = t.idealIndex height)
    (hbl : t.Demands height bl) : ∃ hf', hf.add bl height = some hf' ∧ hf'.currentForkIndex = t.idealIndex (height + 1) := by
  refine ⟨_, if_pos ((check_iff h).2 hbl), ?_⟩
  rw [raise_currentForkIndex hs]
  show max hf.currentForkIndex (t.idealIndex (height + 1)) = _
  rw [h, max_eq_right (ForkTable.idealIndex_mono (Nat.le_succ _))]

theorem add_ofBlocks (hs : t.Scheduled) {blocks : List Block} (h : t.Demands blocks.length bl) :
    (ofBlocks t blocks).add bl blocks.length = some (ofBlocks t (blocks ++ [bl])) := by
  obtain ⟨hf', hadd, hindex⟩ := @add_currentForkIndex t (ofBlocks t blocks) bl hs blocks.length rfl h
  rw [hadd]
  refine congrArg some (HardFork.ext ?_ ?_)
  · have hw := t.windowSize_pos
    have hdrop : blocks.length - t.windowSize + (min blocks.length t.windowSize + 1 - t.windowSize) =
        blocks.length + 1 - t.windowSize := by omega
    unfold add at hadd
    rw [if_pos ((check_iff rfl).2 h)] at hadd
    rw [← Option.some.inj hadd, raise_versions]
    simp only [pushVersion, ofBlocks, length_map, length_drop, length_append, length_singleton]
    rw [← map_drop, drop_drop, drop_append_of_le_length (by omega),
      show blocks.length - (blocks.length - t.windowSize) = min blocks.length t.windowSize by omega, hdrop]
    simp
  · rw [hindex]
    simp [ofBlocks]

end HardFork

namespace ForkState
variable {t : ForkTable} {s : ForkState t}

def RecordedTo (s : ForkState t) (height : Nat) : Prop := ∀ i < height, s.recorded i = some (t.idealVersion i)

variable {h h' height : Nat} {bl : Block}

theorem RecordedTo.mono (hr : s.RecordedTo h') (hle : h ≤ h') : s.RecordedTo h :=
  fun i hi => hr i (lt_of_lt_of_le hi hle)

structure OnTrack (s : ForkState t) (height : Nat) : Prop where
  index : s.hardFork.currentForkIndex = t.idealIndex height
  recorded : s.RecordedTo height

structure InStep (s : ForkState t) (height : Nat) : Prop extends s.OnTrack height where
  refused : s.refused = []

theorem InStep.lower (hin : s.InStep h') (hle : h ≤ h') (hsame : t.idealIndex h = t.idealIndex h') : s.InStep h :=
  ⟨⟨hin.index.trans hsame.symm, hin.recorded.mono hle⟩, hin.refused⟩

theorem record_eq {hf : HardFork t} (hindex : s.hardFork.currentForkIndex = t.idealIndex height)
    (h : s.hardFork.add bl height = some hf) : ∃ s', s.record height bl = some s' ∧ s'.hardFork = hf ∧
      s'.refused = s.refused ∧ (s.RecordedTo height → s'.RecordedTo (height + 1)) := by
  refine ⟨{ s with hardFork := hf, recorded := Function.update s.recorded height (some s.hardFork.currentVersion) },
    by rw [record, h]; rfl, rfl, rfl, fun hr i hi => ?_⟩
  by_cases heq : i = height
  · subst heq
    simp [HardFork.currentVersion, hindex, ForkTable.idealVersion]
  · simpa [heq] using hr i (by omega)

theorem addStored_onTrack (hs : t.Scheduled) (hin : s.OnTrack height) (hbl : t.Demands height bl) :
    (s.addStored height bl).OnTrack (height + 1) ∧ (s.addStored height bl).refused = s.refused := by
  obtain ⟨hf, hadd, hindex⟩ := HardFork.add_currentForkIndex hs hin.index hbl
  obtain ⟨s', hrecord, rfl, hrefused, hr⟩ := record_eq hin.index hadd
  rw [addStored, hrecord]
  exact ⟨⟨hindex, hr hin.recorded⟩, hrefused⟩

theorem addStored_inStep (hs : t.Scheduled) (hin : s.InStep height)
    (hbl : t.Demands height bl) : (s.addStored height bl).InStep (height + 1) := by
  obtain ⟨htrack, hrefused⟩ := addStored_onTrack hs hin.toOnTrack hbl
  exact ⟨htrack, hrefused.trans hin.refused⟩

theorem addStored_le (hs : t.Scheduled) (s : ForkState t) (height : Nat) (bl : Block) :
    s.hardFork.currentForkIndex ≤ (s.addStored height bl).hardFork.currentForkIndex ∧
    ∀ i < height, (s.addStored height bl).recorded i = s.recorded i := by
  cases hcheck : s.hardFork.check bl with
  | false =>
    simp [addStored, record, HardFork.add, hcheck]
  | true =>
    simp only [addStored, record, HardFork.add, hcheck, if_true, Option.map_some, Option.getD_some]
    rw [HardFork.raise_currentForkIndex hs]
    refine ⟨le_max_left _ _, fun i hi => ?_⟩
    rw [Function.update_of_ne (by omega)]

theorem addStored_refused (h : s.hardFork.check bl = false) :
    s.addStored height bl = { s with refused := s.refused ++ [height] } := by
  simp [addStored, record, HardFork.add, h]

theorem readd_ofBlocks (hs : t.Scheduled) (rest : List Block) {blocks : List Block}
    (hhf : s.hardFork = HardFork.ofBlocks t blocks) (hr : s.RecordedTo blocks.length)
    (h : t.DemandsFrom blocks.length rest) :
    (s.readd blocks.length rest).hardFork = HardFork.ofBlocks t (blocks ++ rest) ∧
    (s.readd blocks.length rest).RecordedTo (blocks ++ rest).length ∧
    (s.readd blocks.length rest).refused = s.refused := by
  induction rest generalizing s blocks with
  | nil => simpa [readd] using ⟨hhf, hr⟩
  | cons bl rest ih =>
    obtain ⟨hbl, hrest⟩ := @ForkTable.demandsFrom_append t _ [bl] rest |>.1 h
    have hadd : s.hardFork.add bl blocks.length = some (HardFork.ofBlocks t (blocks ++ [bl])) := by
      rw [hhf]
      exact HardFork.add_ofBlocks hs (ForkTable.demandsFrom_singleton.1 hbl)
    obtain ⟨s', hrecord, hhf', hrefused, hr'⟩ := record_eq (by rw [hhf]; rfl) hadd
    have hnext := @ih s' (blocks ++ [bl]) hhf' (by simpa using hr' hr) (by simpa using hrest)
    unfold readd
    rw [hrecord]
    simpa [hrefused] using hnext

theorem reorganizeFromChainHeight_ofBlocks (hs : t.Scheduled) {blocks : List Block} (hpos : 0 < height)
    (hle : height ≤ blocks.length) (hr : s.RecordedTo height)
    (hindex : t.idealIndex (height - 1) ≤ s.hardFork.currentForkIndex) (h : t.DemandsFrom 0 blocks) :
    ∃ s', s.reorganizeFromChainHeight blocks height = (s', .ok true) ∧ s'.hardFork = HardFork.ofBlocks t blocks ∧
      s'.RecordedTo blocks.length ∧ s'.refused = s.refused := by
  obtain ⟨k, rfl⟩ : ∃ k, height = k + 1 := ⟨height - 1, by omega⟩
  rw [Nat.add_sub_cancel] at hindex
  have hstart : (if k = 0 then some t.originalVersion else s.recorded k) = some (t.version (t.idealIndex k)) := by
    split
    · rename_i h0
      rw [h0, ForkTable.idealIndex_zero]
      rfl
    · exact hr k (Nat.lt_succ_self k)
  have hlen : (blocks.take (k + 1)).length = k + 1 := by simp; omega
  let hf : HardFork t :=
    ⟨((blocks.take (k + 1)).drop (k + 1 - t.windowSize)).map fun bl => t.effectiveVersion bl.vote, t.idealIndex k⟩
  have hraise : hf.raise (k + 1) = HardFork.ofBlocks t (blocks.take (k + 1)) := by
    refine HardFork.ext ?_ ?_
    · rw [HardFork.raise_versions, HardFork.ofBlocks, hlen]
    · grind [HardFork.raise_currentForkIndex, HardFork.ofBlocks, ForkTable.idealIndex_mono]
  have hreadd := @readd_ofBlocks t { s with hardFork := hf.raise (k + 1) } hs (blocks.drop (k + 1))
    (blocks.take (k + 1)) hraise (by rw [hlen]; exact hr) (by
      rw [← take_append_drop (k + 1) blocks] at h
      simpa using (ForkTable.demandsFrom_append.1 h).2)
  rw [hlen, take_append_drop] at hreadd
  grind [reorganizeFromChainHeight, reorganizeFromBlockHeight, HardFork.lowered_version]

end ForkState

namespace HardFork
variable {t : ForkTable}

theorem le_idealIndex_iff {n : t.Index} {height : Nat} : n ≤ t.idealIndex height ↔ n = 0 ∨ t.height n ≤ height := by
  constructor
  · intro h
    by_cases h0 : t.idealIndex height = 0
    · exact Or.inl (Fin.le_zero_iff.1 (h0 ▸ h))
    · rcases eq_or_lt_of_le h with heq | hlt
      · exact Or.inr (heq ▸ ForkTable.height_idealIndex h0)
      · exact Or.inr ((ForkTable.height_lt hlt).le.trans (ForkTable.height_idealIndex h0))
  · grind [ForkTable.le_idealIndex]

/-- **`check_for_height` asks for the version of the height** exactly as long as no fork above that height is
active: `get_voted_fork_index` never goes below the current fork. -/
theorem checkForHeight_own_height_iff (hs : t.Scheduled) (hf : HardFork t) (height : Nat) :
    (∀ bl, hf.checkForHeight bl height = true ↔ t.Demands height bl) ↔
      hf.currentForkIndex = 0 ∨ t.height hf.currentForkIndex ≤ height := by
  have hcheck : ∀ bl, hf.checkForHeight bl height = true ↔
      bl.majorVersion = t.version (max hf.currentForkIndex (t.idealIndex height)) ∧
        t.version (max hf.currentForkIndex (t.idealIndex height)) ≤ bl.vote := by
    intro bl
    simp [checkForHeight, getVotedForkIndex_eq hs]
  rw [← le_idealIndex_iff]
  constructor
  · intro h
    by_contra hlt
    -- a block with the version of its height and the same vote
    let bl : Block := ⟨default, t.idealVersion height, t.idealVersion height, 0, default, 0, ⟨default, 2, some []⟩, []⟩
    have hvote : t.idealVersion height ≤ bl.vote := by
      show t.idealVersion height ≤ if t.idealVersion height = 0 then 1 else t.idealVersion height
      split
      · rename_i h0
        rw [h0]
        decide
      · exact UInt8.le_refl _
    have haccepted := (hcheck bl).1 ((h bl).2 ⟨rfl, hvote⟩)
    have hindex :=
      ForkTable.version_injective haccepted.1
    exact hlt (hindex ▸ le_max_left _ _)
  · intro h bl
    rw [hcheck, max_eq_right h]
    rfl

def twoVersions : ForkTable where
  first := ⟨1, 0, 0⟩
  later := [⟨4, 2, 0⟩]
  windowSize := 4
  windowSize_pos := by decide
  increasing := by decide

def versionBlock (version : UInt8) : Block := ⟨default, version, version, 0, default, 0, ⟨default, 2, some []⟩, []⟩

theorem twoVersions_checkForHeight : ∃ hf : HardFork twoVersions,
    ((init twoVersions).add (versionBlock 1) 0).bind (·.add (versionBlock 1) 1) = some hf ∧
      ∀ bl, hf.checkForHeight bl 3 = true ↔ twoVersions.Demands 3 bl := by
  refine ⟨⟨[1, 1], 1⟩, by decide +kernel, ?_⟩
  exact (checkForHeight_own_height_iff (by decide) _ 3).2 (by decide +kernel)

/-- Once the fork is active the blocks below it are refused, with the very version they have on the chain. -/
theorem twoVersions_refuses_below : ∃ hf : HardFork twoVersions,
    ((init twoVersions).add (versionBlock 1) 0).bind (·.add (versionBlock 1) 1) = some hf ∧
      twoVersions.Demands 1 (versionBlock 1) ∧ hf.checkForHeight (versionBlock 1) 1 = false :=
  ⟨⟨[1, 1], 1⟩, by decide +kernel⟩

end HardFork

end Electronero
