import Electronero.Core.HardFork
import Mathlib.Algebra.BigOperators.Group.List.Basic
/-!
# The hard fork object with its counters (`src/cryptonote_basic/hardfork.cpp`)

`Core.HardFork` counts votes anew; the source keeps 32-bit counters, and has three loops that fill the window. All three
lead to `stateAt`.
-/
namespace Electronero
open List

@[ext] structure HardForkObject (t : ForkTable) where
  versions : List UInt8
  lastVersions : UInt8 → UInt32
  currentForkIndex : t.Index

namespace HardForkObject
variable {t : ForkTable} (o : HardForkObject t)

def currentVersion : UInt8 := t.version o.currentForkIndex

def clear : HardForkObject t := { o with versions := [], lastVersions := fun _ => 0 }

def pushBack (v : UInt8) : HardForkObject t :=
  { o with versions := o.versions ++ [v], lastVersions := Function.update o.lastVersions v (o.lastVersions v + 1) }

def shrink (windowSize : Nat) : List UInt8 → (UInt8 → UInt32) → List UInt8 × (UInt8 → UInt32)
  | [], counts => ([], counts)
  | old :: rest, counts =>
    if windowSize ≤ rest.length + 1 then shrink windowSize rest (Function.update counts old (counts old - 1))
    else (old :: rest, counts)

def makeRoom : HardForkObject t :=
  let r := shrink t.windowSize o.versions o.lastVersions
  { o with versions := r.1, lastVersions := r.2 }

def thresholdVotes (t : ForkTable) (n : t.Index) : UInt32 :=
  UInt32.ofNat ((t.windowSize * t.threshold n + 99) % UInt64.size / 100)

def votedFrom (height : Nat) : List t.Index → UInt32 → t.Index
  | [], _ => o.currentForkIndex
  | n :: rest, accumulatedVotes =>
    if n ≤ o.currentForkIndex then o.currentForkIndex
    else
      let votes := accumulatedVotes + o.lastVersions (t.version n)
      if t.height n ≤ height ∧ thresholdVotes t n ≤ votes then n else votedFrom height rest votes

def getVotedForkIndex (height : Nat) : t.Index := o.votedFrom height t.descending 0

/-- `uint8_t voted` holds every index: versions are different bytes. -/
def raise (height : Nat) : HardForkObject t :=
  if o.currentForkIndex < o.getVotedForkIndex height then { o with currentForkIndex := o.getVotedForkIndex height }
  else o

def doCheck (bl : Block) : Bool := bl.majorVersion == o.currentVersion && decide (o.currentVersion ≤ bl.vote)

def searched (t : ForkTable) (lastVersion : UInt8) : t.Index :=
  ((List.finRange t.forks.length).find? fun n : t.Index =>
    decide ((n : Nat) + 1 = t.forks.length ∨ t.version n = lastVersion)).getD 0

end HardForkObject

@[ext] structure HardForkStore (t : ForkTable) where
  object : HardForkObject t
  blocks : List Block
  recorded : Nat → Option UInt8

namespace HardForkStore
variable {t : ForkTable} (s : HardForkStore t)

def add (bl : Block) (height : Nat) : Option (HardForkStore t) :=
  if s.object.doCheck bl then
    some { s with
      object := (s.object.makeRoom.pushBack (t.effectiveVersion bl.vote)).raise (height + 1)
      recorded := Function.update s.recorded height (some s.object.currentVersion) }
  else none

def countVotes (o : HardForkObject t) (blocks : List Block) : HardForkObject t :=
  blocks.foldl (fun o bl => o.pushBack (t.effectiveVersion bl.vote)) o

/-- The results of `add` are dropped. -/
def readd : HardForkStore t → Nat → List Block → HardForkStore t
  | s, _, [] => s
  | s, height, bl :: rest => readd ((s.add bl height).getD s) (height + 1) rest

def reorganizeFromBlockHeight (height : Nat) : HardForkStore t × Except DbError Bool :=
  if s.blocks.length ≤ height then (s, .ok false)
  else
    match if height = 0 then some t.originalVersion else s.recorded height with
    | none => ({ s with object := s.object.clear }, .error .hardForkVersionMissing)
    | some startVersion =>
      let rescanHeight := if t.windowSize - 1 ≤ height then height - (t.windowSize - 1) else 0
      let lowered : HardForkObject t :=
        { s.object.clear with
          currentForkIndex := HardFork.lowered t startVersion s.object.currentForkIndex s.object.currentForkIndex.isLt }
      let filled := countVotes lowered ((s.blocks.take (height + 1)).drop rescanHeight)
      (readd { s with object := filled.raise (height + 1) } (height + 1) (s.blocks.drop (height + 1)), .ok true)

def reorganizeFromChainHeight (height : Nat) : HardForkStore t × Except DbError Bool :=
  if height = 0 then (s, .ok false) else s.reorganizeFromBlockHeight (height - 1)

def rescanFromBlockHeight (height : Nat) : HardForkStore t × Except DbError Bool :=
  if s.blocks.length ≤ height then (s, .ok false)
  else
    let filled := countVotes s.object.clear (s.blocks.drop height)
    match s.recorded (s.blocks.length - 1) with
    | none => ({ s with object := filled }, .error .hardForkVersionMissing)
    | some lastVersion =>
      let found : HardForkObject t := { filled with currentForkIndex := HardForkObject.searched t lastVersion }
      ({ s with object := found.raise s.blocks.length }, .ok true)

def rescanFromChainHeight (height : Nat) : HardForkStore t × Except DbError Bool :=
  if height = 0 then (s, .ok false) else s.rescanFromBlockHeight (height - 1)

def init (t : ForkTable) (blocks : List Block) (recorded : Nat → Option UInt8) : HardForkStore t × Except DbError Unit :=
  let s : HardForkStore t := ⟨⟨[], fun _ => 0, 0⟩, blocks, recorded⟩
  let height := if t.windowSize < blocks.length then blocks.length - (t.windowSize - 1) else 1
  match recorded 0 with
  | none =>
    match s.reorganizeFromChainHeight 1 with
    | (s, .error e) => (s, .error e)
    -- the entry of the genesis block says that the others are there
    | (s, .ok _) => ({ s with recorded := Function.update s.recorded 0 (some t.originalVersion) }, .ok ())
  | some _ =>
    match s.rescanFromChainHeight height with
    | (s, .error e) => (s, .error e)
    | (s, .ok _) => (s, .ok ())

def addBlock (bl : Block) : Option (HardForkStore t) := { s with blocks := s.blocks ++ [bl] }.add bl s.blocks.length

def grown (t : ForkTable) (blocks : List Block) : Option (HardForkStore t) :=
  blocks.foldlM addBlock (init t [] fun _ => none).1

end HardForkStore

/-! ## The counters hold the numbers of the window -/

namespace HardForkObject
variable {t : ForkTable}

def counts (votes : List UInt8) (v : UInt8) : UInt32 := UInt32.ofNat (votes.count v)

def counted (votes : List UInt8) (i : t.Index) : HardForkObject t := ⟨votes, counts votes, i⟩

theorem update_counts_append (votes : List UInt8) (v : UInt8) :
    Function.update (counts votes) v (counts votes v + 1) = counts (votes ++ [v]) := by
  funext w
  by_cases h : w = v
  · subst h
    simp [counts, UInt32.ofNat_add]
  · simp [counts, h, Ne.symm h]

theorem update_counts_cons (votes : List UInt8) (v : UInt8) :
    Function.update (counts (v :: votes)) v (counts (v :: votes) v - 1) = counts votes := by
  funext w
  by_cases h : w = v
  · subst h
    simp [counts, UInt32.ofNat_add]
  · simp [counts, h, Ne.symm h]

theorem counted_pushBack (votes : List UInt8) (i : t.Index) (v : UInt8) :
    (counted votes i).pushBack v = counted (votes ++ [v]) i := by
  simp only [counted, pushBack, update_counts_append]

theorem shrink_counts (windowSize : Nat) (votes : List UInt8) : shrink windowSize votes (counts votes) =
      (votes.drop (votes.length + 1 - windowSize), counts (votes.drop (votes.length + 1 - windowSize))) := by
  induction votes with
  | nil => simp [shrink]
  | cons old rest ih =>
    rw [shrink, update_counts_cons]
    by_cases h : windowSize ≤ rest.length + 1
    · rw [if_pos h, ih, length_cons, Nat.sub_add_comm h, drop_succ_cons]
    · rw [if_neg h, length_cons, show rest.length + 1 + 1 - windowSize = 0 by omega]
      rfl

theorem countVotes_counted (votes : List UInt8) (i : t.Index) (blocks : List Block) :
    HardForkStore.countVotes (counted votes i) blocks =
      counted (votes ++ blocks.map fun bl => t.effectiveVersion bl.vote) i := by
  induction blocks generalizing votes with
  | nil => simp [HardForkStore.countVotes]
  | cons bl rest ih =>
    have hnext := ih (votes ++ [t.effectiveVersion bl.vote])
    simp only [HardForkStore.countVotes, foldl_cons, counted_pushBack] at hnext ⊢
    simpa using hnext

theorem le_raise (o : HardForkObject t) (height : Nat) : o.currentForkIndex ≤ (o.raise height).currentForkIndex := by
  unfold raise
  grind

theorem searched_version (n : t.Index) : searched t (t.version n) = n := by
  have hlen : (n : Nat) < (List.finRange t.forks.length).length := by simp
  have hfind : (List.finRange t.forks.length).find? (fun m : t.Index =>
      decide ((m : Nat) + 1 = t.forks.length ∨ t.version m = t.version n)) = some n := by
    refine find?_eq_some_iff_getElem.2 ⟨by simp, n, hlen, by simp, fun j hj => ?_⟩
    grind [ForkTable.version_injective]
  unfold searched
  rw [hfind]
  rfl

end HardForkObject

/-! ## The state that belongs to a chain -/

namespace HardForkStore
open HardForkObject
variable {t : ForkTable} {s : HardForkStore t}

def windowVotes (t : ForkTable) (blocks : List Block) : List UInt8 :=
  (blocks.drop (blocks.length - t.windowSize)).map fun bl => t.effectiveVersion bl.vote

def stateAt (t : ForkTable) (blocks : List Block) : Nat → HardForkObject t
  | 0 => counted [] 0
  | k + 1 => (counted (windowVotes t (blocks.take (k + 1))) (stateAt t blocks k).currentForkIndex).raise (k + 1)

theorem windowVotes_snoc (blocks : List Block) (bl : Block) :
    (windowVotes t blocks).drop ((windowVotes t blocks).length + 1 - t.windowSize) ++ [t.effectiveVersion bl.vote] =
      windowVotes t (blocks ++ [bl]) := by
  have hw := t.windowSize_pos
  have hdrop : blocks.length - t.windowSize + (blocks.length - (blocks.length - t.windowSize) + 1 - t.windowSize) =
      blocks.length + 1 - t.windowSize := by omega
  simp only [windowVotes, length_map, length_drop, length_append, length_singleton]
  rw [← map_drop, drop_drop, hdrop, drop_append_of_le_length (by omega), map_append]
  rfl

theorem stateAt_versions (blocks : List Block) (k : Nat) :
    ∃ i, stateAt t blocks k = counted (windowVotes t (blocks.take k)) i := by
  cases k with
  | zero => exact ⟨0, by simp [stateAt, windowVotes]⟩
  | succ k =>
    rw [stateAt, raise]
    split
    · exact ⟨_, rfl⟩
    · exact ⟨_, rfl⟩

theorem stateAt_mono (blocks : List Block) {i j : Nat} (h : i ≤ j) :
    (stateAt t blocks i).currentForkIndex ≤ (stateAt t blocks j).currentForkIndex := by
  induction j, h using Nat.le_induction with
  | base => exact le_refl _
  | succ j _ ih => exact ih.trans (le_raise (counted _ _) _)

variable {k : Nat}

theorem stateAt_append (blocks rest : List Block) (h : k ≤ blocks.length) :
    stateAt t (blocks ++ rest) k = stateAt t blocks k := by
  induction k with
  | zero => rfl
  | succ k ih => rw [stateAt, stateAt, ih (Nat.le_of_succ_le h), take_append_of_le_length h]

theorem add_stateAt {k : Nat} {bl : Block} (hobject : s.object = stateAt t s.blocks k) (hbl : s.blocks[k]? = some bl)
    (hcheck : s.object.doCheck bl = true) :
    s.add bl k = some { s with
      object := stateAt t s.blocks (k + 1)
      recorded := Function.update s.recorded k (some (stateAt t s.blocks k).currentVersion) } := by
  obtain ⟨i, hstate⟩ := stateAt_versions (t := t) s.blocks k
  have htake : s.blocks.take (k + 1) = s.blocks.take k ++ [bl] := by rw [take_add_one, hbl]; rfl
  have hroom : s.object.makeRoom.pushBack (t.effectiveVersion bl.vote) =
      counted (windowVotes t (s.blocks.take (k + 1))) (stateAt t s.blocks k).currentForkIndex := by
    rw [hobject, hstate, htake, ← windowVotes_snoc, ← counted_pushBack]
    simp only [makeRoom, counted, shrink_counts]
  rw [add, if_pos hcheck, hroom, hobject]
  rfl

/-- Object and records are those of the stored blocks, each of which was accepted in its turn. -/
structure Consistent (s : HardForkStore t) : Prop where
  object : s.object = stateAt t s.blocks s.blocks.length
  recorded : ∀ i < s.blocks.length, s.recorded i = some (stateAt t s.blocks i).currentVersion
  original : s.recorded 0 = some t.originalVersion
  accepted : ∀ i bl, s.blocks[i]? = some bl → (stateAt t s.blocks i).doCheck bl = true

theorem Consistent.addBlock (hs : s.Consistent) {bl : Block} {s' : HardForkStore t} (h : s.addBlock bl = some s') :
    s'.Consistent ∧ s'.blocks = s.blocks ++ [bl] := by
  have hcheck : s.object.doCheck bl = true := by
    by_contra hnot
    simp [HardForkStore.addBlock, add, hnot] at h
  have hsame : ∀ i ≤ s.blocks.length, stateAt t (s.blocks ++ [bl]) i = stateAt t s.blocks i :=
    fun i hi => stateAt_append s.blocks [bl] hi
  have hadd := @add_stateAt t { s with blocks := s.blocks ++ [bl] } s.blocks.length bl
    (by rw [hsame _ (le_refl _)]; exact hs.object) (by simp) hcheck
  rw [HardForkStore.addBlock, hadd] at h
  obtain rfl := Option.some.inj h
  refine ⟨⟨by simp, fun i hi => ?_, ?_, fun i bl' hbl => ?_⟩, rfl⟩
  · rcases Nat.lt_succ_iff_lt_or_eq.1 (by simpa using hi) with hlt | rfl
    · simpa [hlt.ne, hsame i hlt.le] using hs.recorded i hlt
    · simp
  · cases hnil : s.blocks with
    | nil => simp [stateAt, currentVersion, counted, ForkTable.originalVersion]
    | cons first rest => simpa using hs.original
  · rcases lt_trichotomy i s.blocks.length with hi | rfl | hi
    · rw [getElem?_append_left hi] at hbl
      rw [hsame i hi.le]
      exact hs.accepted i bl' hbl
    · obtain rfl : bl = bl' := by simpa using hbl
      rw [hsame _ (le_refl _), ← hs.object]
      exact hcheck
    · grind

theorem init_empty : (init t [] fun _ => none).1.Consistent := by
  refine ⟨rfl, fun i hi => ?_, ?_, fun i bl hbl => ?_⟩
  · simp [init, reorganizeFromChainHeight, reorganizeFromBlockHeight] at hi
  · simp [init, reorganizeFromChainHeight, reorganizeFromBlockHeight]
  · simp [init, reorganizeFromChainHeight, reorganizeFromBlockHeight] at hbl

theorem grown_consistent {blocks : List Block} (h : grown t blocks = some s) : s.Consistent ∧ s.blocks = blocks := by
  induction blocks using List.reverseRecOn generalizing s with
  | nil =>
    obtain rfl := Option.some.inj h
    exact ⟨init_empty, by simp [init, reorganizeFromChainHeight, reorganizeFromBlockHeight]⟩
  | append_singleton blocks bl ih =>
    rw [grown, foldlM_append] at h
    obtain ⟨s', hs', hlast⟩ := Option.bind_eq_some_iff.1 h
    obtain ⟨hconsistent, rfl⟩ := ih hs'
    have hbl : s'.addBlock bl = some s := by simpa using hlast
    exact hconsistent.addBlock hbl

theorem Consistent.readd (hs : s.Consistent) (hk : k ≤ s.blocks.length) {o : HardForkObject t}
    (ho : o = stateAt t s.blocks k) : HardForkStore.readd { s with object := o } k (s.blocks.drop k) = s := by
  obtain ⟨d, hd⟩ : ∃ d, s.blocks.length = k + d := ⟨s.blocks.length - k, by omega⟩
  induction d generalizing k o with
  | zero =>
    rw [drop_eq_nil_of_le (by omega)]
    exact HardForkStore.ext (by rw [hs.object, hd]; exact ho) rfl rfl
  | succ d ih =>
    have hlt : k < s.blocks.length := by omega
    have hbl := getElem?_eq_getElem hlt
    have hadd := @add_stateAt t { s with object := o } k _ ho hbl (by rw [ho]; exact hs.accepted k _ hbl)
    have hrecorded : Function.update s.recorded k (some (stateAt t s.blocks k).currentVersion) = s.recorded := by
      rw [← hs.recorded k hlt, Function.update_eq_self]
    rw [drop_eq_getElem_cons hlt, HardForkStore.readd, hadd]
    grind

theorem reorganizeFromBlockHeight_eq (hs : s.Consistent) {height : Nat} (h : height < s.blocks.length) :
    s.reorganizeFromBlockHeight height = (s, .ok true) := by
  have hstart : (if height = 0 then some t.originalVersion else s.recorded height) =
      some (t.version (stateAt t s.blocks height).currentForkIndex) := by
    split
    · rename_i h0
      rw [h0]
      rfl
    · exact hs.recorded height h
  have hlower : HardFork.lowered t (t.version (stateAt t s.blocks height).currentForkIndex)
      s.object.currentForkIndex s.object.currentForkIndex.isLt = (stateAt t s.blocks height).currentForkIndex := by
    refine HardFork.lowered_version _ ?_
    rw [hs.object]
    exact stateAt_mono s.blocks h.le
  have hrescan : (if t.windowSize - 1 ≤ height then height - (t.windowSize - 1) else 0) = height + 1 - t.windowSize := by
    have hw := t.windowSize_pos
    split <;> omega
  have hlen : (s.blocks.take (height + 1)).length = height + 1 := by simp; omega
  unfold reorganizeFromBlockHeight
  rw [if_neg (by omega), hstart]
  simp only [hlower, hrescan]
  have hfilled : countVotes { s.object.clear with currentForkIndex := (stateAt t s.blocks height).currentForkIndex }
      ((s.blocks.take (height + 1)).drop (height + 1 - t.windowSize)) =
      counted (windowVotes t (s.blocks.take (height + 1))) (stateAt t s.blocks height).currentForkIndex := by
    rw [windowVotes, hlen]
    exact countVotes_counted [] _ _
  rw [hs.readd h (by rw [hfilled]; rfl)]

theorem init_eq (hs : s.Consistent) : init t s.blocks s.recorded = (s, .ok ()) := by
  unfold init
  rw [hs.original]
  dsimp only
  by_cases hnil : s.blocks = []
  · have hobject : s.object = counted [] 0 := by rw [hs.object, hnil]; rfl
    have hself : (⟨⟨[], fun _ => 0, 0⟩, s.blocks, s.recorded⟩ : HardForkStore t) = s :=
      HardForkStore.ext hobject.symm rfl rfl
    grind [rescanFromChainHeight, rescanFromBlockHeight]
  · obtain ⟨k, hk⟩ : ∃ k, s.blocks.length = k + 1 := ⟨s.blocks.length - 1, by
      have := length_pos_iff.2 hnil
      omega⟩
    have hw := t.windowSize_pos
    -- the window starts where `windowVotes` lets it start
    have hstart : (if t.windowSize < s.blocks.length then s.blocks.length - (t.windowSize - 1) else 1) =
        s.blocks.length - t.windowSize + 1 := by
      split <;> omega
    have hfilled : countVotes (t := t) (counted [] 0) (s.blocks.drop (s.blocks.length - t.windowSize)) =
        counted (windowVotes t s.blocks) 0 := countVotes_counted [] 0 _
    have hlast : s.recorded (s.blocks.length - 1) = some (t.version (stateAt t s.blocks k).currentForkIndex) := by
      rw [hk]
      exact hs.recorded k (by omega)
    have hstate : (counted (windowVotes t s.blocks) (stateAt t s.blocks k).currentForkIndex).raise s.blocks.length =
        s.object := by
      rw [hs.object, hk, stateAt, ← hk, take_length]
    rw [hstart, rescanFromChainHeight, if_neg (Nat.succ_ne_zero _), Nat.add_sub_cancel, rescanFromBlockHeight]
    rw [if_neg (by show ¬ s.blocks.length ≤ s.blocks.length - t.windowSize; omega)]
    simp only [hlast, searched_version]
    show ((⟨({ countVotes (counted [] 0) (s.blocks.drop (s.blocks.length - t.windowSize)) with
      currentForkIndex := (stateAt t s.blocks k).currentForkIndex } : HardForkObject t).raise s.blocks.length,
      s.blocks, s.recorded⟩ : HardForkStore t), Except.ok ()) = _
    rw [hfilled]
    exact congrArg (·, Except.ok ()) (HardForkStore.ext hstate rfl rfl)

/-- **The state does not depend on the way it was reached**, for arbitrary thresholds and window size. -/
theorem state_independent_of_history {blocks : List Block} (h : grown t blocks = some s) :
    s.blocks = blocks ∧ (∀ height < blocks.length, s.reorganizeFromBlockHeight height = (s, .ok true)) ∧
      init t blocks s.recorded = (s, .ok ()) := by
  obtain ⟨hs, rfl⟩ := grown_consistent h
  exact ⟨rfl, fun height hheight => reorganizeFromBlockHeight_eq hs hheight, init_eq hs⟩

def votingTable : ForkTable where
  first := ⟨1, 0, 0⟩
  later := [⟨4, 2, 75⟩, ⟨7, 4, 75⟩]
  windowSize := 4
  windowSize_pos := HardFork.twoVersions.windowSize_pos
  increasing := by decide

def votingBlock (version vote : UInt8) : Block := ⟨default, version, vote, 0, default, 0, ⟨default, 2, some []⟩, []⟩

def votingChain : List Block :=
  [votingBlock 1 0, votingBlock 1 4, votingBlock 1 4, votingBlock 1 9, votingBlock 4 9, votingBlock 4 9, votingBlock 7 7]

theorem votingChain_independent : ∃ s, grown votingTable votingChain = some s ∧ s.object.currentForkIndex = 2 ∧
    s.reorganizeFromBlockHeight 2 = (s, .ok true) ∧ init votingTable votingChain s.recorded = (s, .ok ()) := by
  have hsome : (grown votingTable votingChain).isSome = true := by decide +kernel
  obtain ⟨s, hs⟩ := Option.isSome_iff_exists.1 hsome
  have hindex : (grown votingTable votingChain).map (·.object.currentForkIndex) = some 2 := by decide +kernel
  obtain ⟨-, hreorganize, hinit⟩ := state_independent_of_history hs
  rw [hs] at hindex
  exact ⟨s, hs, Option.some.inj hindex, hreorganize 2 (by decide), hinit⟩

end HardForkStore

namespace HardForkObject
variable {t : ForkTable}

def abstract (o : HardForkObject t) : HardFork t := ⟨o.versions, o.currentForkIndex⟩

theorem sum_count_le {l : List UInt8} (hl : l.Nodup) (votes : List UInt8) :
    (l.map fun v => votes.count v).sum ≤ votes.length := by
  induction votes with
  | nil => simp
  | cons x votes ih =>
    have hone : ∀ l : List UInt8, (l.map fun v => if x == v then 1 else 0).sum = l.count x := by
      intro l
      induction l with
      | nil => rfl
      | cons v l ihl => rw [map_cons, List.sum_cons, ihl, count_cons, Nat.add_comm, Bool.beq_comm]
    have hle := nodup_iff_count_le_one.1 hl x
    simp only [count_cons, length_cons]
    rw [sum_map_add, hone]
    omega

/-- What `add_fork` (:72) admits, and a window of which 32 bits can count the votes. -/
structure Narrow (t : ForkTable) : Prop where
  threshold : ∀ f ∈ t.forks, f.threshold ≤ 100
  window : t.windowSize < UInt32.size

theorem thresholdVotes_toNat (hn : Narrow t) (n : t.Index) :
    (thresholdVotes t n).toNat = (t.windowSize * t.threshold n + 99) / 100 := by
  have hthreshold : t.threshold n ≤ 100 := hn.threshold _ (getElem_mem n.isLt)
  have hwindow := hn.window
  have hmul : t.windowSize * t.threshold n ≤ t.windowSize * 100 := Nat.mul_le_mul_left _ hthreshold
  simp only [UInt32.size, UInt64.size, thresholdVotes] at hwindow ⊢
  rw [Nat.mod_eq_of_lt (by omega), UInt32.toNat_ofNat_of_lt' (by simp only [UInt32.size]; omega)]

variable {votes : List UInt8}

theorem votedFrom_abstract (hn : Narrow t) {i : t.Index} (height : Nat) {l : List t.Index} {acc : Nat}
    (hacc : acc + (l.map fun n => votes.count (t.version n)).sum < UInt32.size) :
    (counted votes i).votedFrom height l (UInt32.ofNat acc) = (counted votes i).abstract.votedFrom height l acc := by
  induction l generalizing acc with
  | nil => rfl
  | cons n rest ih =>
    rw [map_cons, List.sum_cons] at hacc
    have hvotes : UInt32.ofNat acc + counts votes (t.version n) = UInt32.ofNat (acc + votes.count (t.version n)) :=
      (UInt32.ofNat_add _ _).symm
    have hle : thresholdVotes t n ≤ UInt32.ofNat (acc + votes.count (t.version n)) ↔
        (t.windowSize * t.threshold n + 99) / 100 ≤ acc + votes.count (t.version n) := by
      rw [UInt32.le_iff_toNat_le, thresholdVotes_toNat hn, UInt32.toNat_ofNat_of_lt' (by omega)]
    rw [votedFrom, HardFork.votedFrom]
    simp only [counted, abstract, HardFork.lastVersions, hvotes, hle] at ih ⊢
    rw [ih (by omega)]
    rfl

theorem getVotedForkIndex_abstract (hn : Narrow t) (hlen : votes.length ≤ t.windowSize) (i : t.Index) (height : Nat) :
    (counted votes i).getVotedForkIndex height = (counted votes i).abstract.getVotedForkIndex height := by
  have hnodup : (t.descending.map t.version).Nodup :=
    (t.descending_pairwise.imp fun h => ne_of_gt h).map _ fun _ _ h heq => h (ForkTable.version_injective heq)
  have hsum := sum_count_le hnodup votes
  rw [List.map_map] at hsum
  have hwindow := hn.window
  refine votedFrom_abstract hn height ?_
  rw [Nat.zero_add]
  exact lt_of_le_of_lt hsum (by omega)

theorem raise_abstract (hn : Narrow t) (hlen : votes.length ≤ t.windowSize) (i : t.Index)
    (height : Nat) : ((counted votes i).raise height).abstract = (counted votes i).abstract.raise height := by
  unfold raise HardFork.raise
  rw [getVotedForkIndex_abstract hn hlen]
  show (if i < _ then _ else _ : HardForkObject t).abstract = if i < _ then _ else _
  split <;> rfl

end HardForkObject

namespace HardForkStore
open HardForkObject
variable {t : ForkTable} {s : HardForkStore t}

theorem length_windowVotes (t : ForkTable) (blocks : List Block) : (windowVotes t blocks).length ≤ t.windowSize := by
  simp only [windowVotes, length_map, length_drop]
  omega

/-- **`Core.HardFork` keeps up with the object**: what `add` does here, `ForkState.record` does there. -/
theorem Consistent.record (hs : s.Consistent) (hn : Narrow t) {f : ForkState t} (hobject : f.hardFork = s.object.abstract)
    (hrecorded : f.recorded = s.recorded) {bl : Block} {s' : HardForkStore t} (h : s.addBlock bl = some s') :
    ∃ f', f.record s.blocks.length bl = some f' ∧ f'.hardFork = s'.object.abstract ∧ f'.recorded = s'.recorded := by
  obtain ⟨i, hstate⟩ := stateAt_versions (t := t) s.blocks s.blocks.length
  rw [← hs.object, take_length] at hstate
  have hcheck : s.object.doCheck bl = true := by
    by_contra hnot
    simp [HardForkStore.addBlock, add, hnot] at h
  have hcheck' : f.hardFork.check bl = true := by rw [hobject]; exact hcheck
  have hpush : f.hardFork.pushVersion (t.effectiveVersion bl.vote) =
      (counted (windowVotes t (s.blocks ++ [bl])) i).abstract := by
    rw [hobject, hstate, ← windowVotes_snoc]
    rfl
  have hroom : s.object.makeRoom.pushBack (t.effectiveVersion bl.vote) =
      counted (windowVotes t (s.blocks ++ [bl])) i := by
    rw [hstate, ← windowVotes_snoc, ← counted_pushBack]
    simp only [makeRoom, counted, shrink_counts]
  unfold HardForkStore.addBlock add at h
  rw [if_pos hcheck] at h
  obtain rfl := Option.some.inj h
  refine ⟨_, by rw [ForkState.record, HardFork.add, if_pos hcheck', hpush]; rfl, ?_, ?_⟩
  · show (counted _ i).abstract.raise _ = HardForkObject.abstract (raise (pushBack (makeRoom s.object) _) _)
    rw [hroom, raise_abstract hn (length_windowVotes _ _)]
  · show Function.update f.recorded _ (some f.hardFork.currentVersion) = _
    rw [hrecorded, hobject]
    rfl

theorem Consistent.readd_votes (hn : Narrow t) {blocks : List Block} (hs : s.Consistent) {f : ForkState t}
    (hobject : f.hardFork = s.object.abstract) (hrecorded : f.recorded = s.recorded) {s' : HardForkStore t}
    (h : blocks.foldlM HardForkStore.addBlock s = some s') :
    (f.readd s.blocks.length blocks).hardFork = s'.object.abstract ∧
      (f.readd s.blocks.length blocks).recorded = s'.recorded := by
  induction blocks generalizing s f with
  | nil =>
    obtain rfl := Option.some.inj h
    exact ⟨hobject, hrecorded⟩
  | cons bl blocks ih =>
    obtain ⟨next, hadd, hrest⟩ := Option.bind_eq_some_iff.1 h
    obtain ⟨f', hrecord, hobject', hrecorded'⟩ := hs.record hn hobject hrecorded hadd
    obtain ⟨hnext, hblocks⟩ := hs.addBlock hadd
    have hih := ih hnext hobject' hrecorded' hrest
    rw [hblocks, length_append, length_singleton] at hih
    rwa [ForkState.readd, hrecord, Option.getD_some]

/-- **The counters refine the votes they stand for** over every chain: the object without counters runs to the same state
and records, and both find the same fork voted for at every height. -/
theorem counters_refine_votes (hn : Narrow t) {blocks : List Block} (h : grown t blocks = some s) :
    let f := (ForkState.init t).readd 0 blocks
    f.hardFork = s.object.abstract ∧ f.recorded = s.recorded ∧
      ∀ height, s.object.getVotedForkIndex height = f.hardFork.getVotedForkIndex height := by
  have hinit : (ForkState.init t).recorded = (init t [] fun _ => none).1.recorded := by
    funext height
    simp [ForkState.init, init, reorganizeFromChainHeight, reorganizeFromBlockHeight, Function.update_apply]
  have hrun := init_empty.readd_votes hn rfl hinit h
  rw [show (init t [] fun _ => none).1.blocks.length = 0 from rfl] at hrun
  refine ⟨hrun.1, hrun.2, fun height => ?_⟩
  obtain ⟨i, hstate⟩ := stateAt_versions (t := t) s.blocks s.blocks.length
  rw [hrun.1, (grown_consistent h).1.object, hstate]
  exact getVotedForkIndex_abstract hn (length_windowVotes _ _) i height

theorem counters_refine_votes_votingChain : ∃ s, grown votingTable votingChain = some s ∧
    ((ForkState.init votingTable).readd 0 votingChain).hardFork = s.object.abstract := by
  obtain ⟨s, hs⟩ := Option.isSome_iff_exists.1 (by decide +kernel : (grown votingTable votingChain).isSome = true)
  exact ⟨s, hs, (counters_refine_votes ⟨by decide, by decide⟩ hs).1⟩

end HardForkStore

end Electronero
