import Electronero.Wallet.Balance
import Mathlib.Data.List.FinRange
/-!
# Choosing the inputs of a transfer and splitting it (`src/wallet/wallet2.cpp:4338-4578`)

Positions of `unused_indices` are only good until the next `pop_index`, which moves the last entry. `split_amounts` leaves
`is_subaddress` at its default (:4556-4571).
-/
namespace Electronero.Wire
open List

/-- `vec[idx]`, whose place the last entry takes; `none` if a check fails. -/
def popIndex {T : Type} (vec : List T) (idx : Nat) : Option (T × List T) := do
  let back ← vec.getLast?
  let res ← vec[idx]?
  let moved := if idx + 1 ≠ vec.length then vec.set idx back else vec
  return (res, moved.dropLast)

/-- In tenths; only the order matters (:4391). -/
def getOutputRelatedness (td0 td1 : TransferDetails) : Nat :=
  if td0.txid = td1.txid then 10
  else
    let distance := if td0.blockHeight > td1.blockHeight then td0.blockHeight - td1.blockHeight
      else td1.blockHeight - td0.blockHeight
    -- an `int`
    let dh := distance.toUInt32.toInt32
    if dh = 0 then 9 else if dh = 1 then 8 else if dh < 10 then 2 else 0

def relatednessLoop (candidate : TransferDetails) : Nat → List TransferDetails → Nat
  | relatedness, [] => relatedness
  | relatedness, td :: tds =>
    let r := getOutputRelatedness candidate td
    if r > relatedness then
      if r = 10 then r else relatednessLoop candidate r tds
    else relatednessLoop candidate relatedness tds

section
variable {ι : Type} (relatedness : ι → Nat) (amount : ι → UInt64)

def candidateStep (best : Nat × List (ι × Nat)) (x : ι × Nat) : Nat × List (ι × Nat) :=
  let best := if relatedness x.1 < best.1 then (relatedness x.1, []) else best
  if relatedness x.1 = best.1 then (best.1, best.2 ++ [x]) else best

def smallestCandidate (candidates : List (ι × Nat)) : Option (ι × Nat) :=
  candidates.head?.map fun first => candidates.foldl (fun x y => if amount y.1 < amount x.1 then y else x) first

end

section
variable (transfers : List TransferDetails)

def leastRelated (unusedIndices selectedTransfers : List (Fin transfers.length)) : List (Fin transfers.length × Nat) :=
  let selected := selectedTransfers.map transfers.get
  (unusedIndices.zipIdx.foldl (candidateStep fun i => relatednessLoop (transfers.get i) 0 selected) (10, [])).2

def chooseCandidate (candidates : List (Fin transfers.length × Nat)) (smallest : Bool) (rand : Nat) :
    Option (Fin transfers.length × Nat) :=
  if smallest then smallestCandidate (fun i => (transfers.get i).amount) candidates
  else candidates[rand % candidates.length]?

def popBestValueFrom (unusedIndices selectedTransfers : List (Fin transfers.length)) (smallest : Bool) (rand : Nat) :
    Option (Fin transfers.length × List (Fin transfers.length)) := do
  let x ← chooseCandidate transfers (leastRelated transfers unusedIndices selectedTransfers) smallest rand
  popIndex unusedIndices x.2

/-- The loop of `select_transfers`, `none` if it goes on without fuel; `rand` are the random numbers it draws. -/
def selectLoop (rand : Nat → Nat) (neededMoney : UInt64) :
    Nat → UInt64 → List (Fin transfers.length) → List (Fin transfers.length) →
      Option (UInt64 × List (Fin transfers.length))
  | 0, foundMoney, unused, selected => if foundMoney < neededMoney ∧ unused ≠ [] then none else some (foundMoney, selected)
  | fuel + 1, foundMoney, unused, selected =>
    if foundMoney < neededMoney ∧ unused ≠ [] then do
      let (idx, unused) ← popBestValueFrom transfers unused selected false (rand fuel)
      selectLoop rand neededMoney fuel (foundMoney + (transfers.get idx).amount) unused (selected ++ [idx])
    else some (foundMoney, selected)

def selectTransfers (rand : Nat → Nat) (neededMoney : UInt64) (unused selected : List (Fin transfers.length)) :
    Option (UInt64 × List (Fin transfers.length)) :=
  selectLoop transfers rand neededMoney unused.length 0 unused selected

end

theorem popIndex_spec {T : Type} {vec : List T} {idx : Nat} {res : T} (h : vec[idx]? = some res) :
    ∃ rest, popIndex vec idx = some (res, rest) ∧ (res :: rest).Perm vec := by
  obtain rfl | ⟨init, back, rfl⟩ := vec.eq_nil_or_concat
  · simp at h
  rw [concat_eq_append] at h ⊢
  refine ⟨_, by rw [popIndex, getLast?_concat, h]; rfl, ?_⟩
  obtain ⟨hlt, -⟩ := List.getElem?_eq_some_iff.1 h
  rw [length_append, length_singleton] at hlt ⊢
  split
  · have hidx : idx < init.length := by omega
    rw [getElem?_append_left hidx, getElem?_eq_getElem hidx, Option.some_inj] at h
    rw [set_append_left _ _ hidx, dropLast_concat]
    calc res :: init.set idx back
      _ ~ res :: back :: init.eraseIdx idx := (set_perm_cons_eraseIdx hidx back).cons res
      _ ~ back :: res :: init.eraseIdx idx := .swap _ _ _
      _ ~ back :: init := (h ▸ getElem_cons_eraseIdx_perm hidx).cons back
      _ ~ init ++ [back] := (perm_append_singleton back init).symm
  · have hidx : idx = init.length := by omega
    have hres : back = res := by simpa [hidx] using h
    rw [dropLast_concat, hres]
    exact (perm_append_singleton res init).symm

theorem getOutputRelatedness_le (td0 td1 : TransferDetails) : getOutputRelatedness td0 td1 ≤ 10 := by
  unfold getOutputRelatedness
  grind

/-- The greatest relatedness to a selected transfer, and to those before them `r`. -/
def maxRelatedness (candidate : TransferDetails) (r : Nat) (selected : List TransferDetails) : Nat :=
  selected.foldl (fun r td => max r (getOutputRelatedness candidate td)) r

theorem maxRelatedness_bounds (candidate : TransferDetails) {r : Nat} (h : r ≤ 10) (tds : List TransferDetails) :
    r ≤ maxRelatedness candidate r tds ∧ maxRelatedness candidate r tds ≤ 10 := by
  induction tds generalizing r with
  | nil => exact ⟨Nat.le_refl r, h⟩
  | cons td tds ih =>
    obtain ⟨hge, hle⟩ := ih (Nat.max_le.2 ⟨h, getOutputRelatedness_le candidate td⟩)
    exact ⟨(Nat.le_max_left _ _).trans hge, hle⟩

theorem relatednessLoop_eq (candidate : TransferDetails) (relatedness : Nat) (tds : List TransferDetails) :
    relatednessLoop candidate relatedness tds = maxRelatedness candidate relatedness tds := by
  induction tds generalizing relatedness with
  | nil => rfl
  | cons td tds ih =>
    rw [relatednessLoop, maxRelatedness, foldl_cons, ← maxRelatedness]
    split
    · rename_i hgt
      rw [Nat.max_eq_right (Nat.le_of_lt hgt)]
      split
      · rename_i hten
        obtain ⟨hge, hle⟩ := maxRelatedness_bounds candidate (Nat.le_refl 10) tds
        rw [hten]
        exact Nat.le_antisymm hge hle
      · exact ih _
    · rename_i hle
      rw [Nat.max_eq_left (Nat.le_of_not_lt hle), ih]

section
variable {ι : Type} (relatedness : ι → Nat) (amount : ι → UInt64)

theorem foldl_candidateStep (xs : List (ι × Nat)) (best : Nat) :
    ∃ least, xs.foldl (candidateStep relatedness) (best, []) = (least, xs.filter (relatedness ·.1 = least)) ∧
      (∀ x ∈ xs, least ≤ relatedness x.1) ∧ (least = best ∨ ∃ x ∈ xs, relatedness x.1 = least) ∧ least ≤ best := by
  induction xs using reverseRecOn with
  | nil => exact ⟨best, by simp⟩
  | append_singleton xs x ih =>
    obtain ⟨least, hfold, hall, hleast, hle⟩ := ih
    rw [foldl_concat, hfold, candidateStep]
    by_cases hlt : relatedness x.1 < least
    · have hnone : xs.filter (relatedness ·.1 = relatedness x.1) = [] := by
        refine filter_eq_nil_iff.2 fun y hy => ?_
        have := hall y hy
        simp only [decide_eq_true_eq]
        omega
      exact ⟨relatedness x.1, by simp [hlt, filter_append, hnone], by grind, by simp, by omega⟩
    · refine ⟨least, ?_, by grind, hleast.imp_right fun ⟨y, hy, heq⟩ => ⟨y, mem_append_left _ hy, heq⟩, hle⟩
      by_cases heq : relatedness x.1 = least <;> simp [hlt, filter_append, heq]

theorem foldl_smallest (xs : List (ι × Nat)) (first : ι × Nat) :
    ∃ x ∈ first :: xs, xs.foldl (fun x y => if amount y.1 < amount x.1 then y else x) first = x ∧
      ∀ y ∈ first :: xs, amount x.1 ≤ amount y.1 := by
  induction xs generalizing first with
  | nil => exact ⟨first, by simp⟩
  | cons y ys ih =>
    rw [foldl_cons]
    split
    · rename_i hlt
      obtain ⟨x, hx, hfold, hleast⟩ := ih y
      refine ⟨x, mem_cons_of_mem _ hx, hfold, forall_mem_cons.2 ⟨?_, hleast⟩⟩
      exact UInt64.le_trans (hleast y mem_cons_self) (UInt64.le_of_lt hlt)
    · rename_i hnot
      obtain ⟨x, hx, hfold, hleast⟩ := ih first
      have hfirst := hleast first mem_cons_self
      refine ⟨x, by grind, hfold, forall_mem_cons.2 ⟨hfirst, forall_mem_cons.2 ⟨?_, fun z hz => hleast z (by simp [hz])⟩⟩⟩
      exact UInt64.le_trans hfirst (UInt64.not_lt.1 hnot)

end

section
variable {transfers : List TransferDetails} {unused : List (Fin transfers.length)} (selected : List (Fin transfers.length))

def related (i : Fin transfers.length) : Nat :=
  maxRelatedness (transfers.get i) 0 (selected.map transfers.get)

/-- `i` is one of the least related, and the smallest of them if that is asked for. -/
def BestAmong (unused selected : List (Fin transfers.length)) (smallest : Bool) (i : Fin transfers.length) : Prop :=
  i ∈ unused ∧ (∀ j ∈ unused, related selected i ≤ related selected j) ∧ (smallest = true →
    ∀ j ∈ unused, related selected j = related selected i → (transfers.get i).amount ≤ (transfers.get j).amount)

theorem leastRelated_spec (h : unused ≠ []) :
    ∃ least, leastRelated transfers unused selected = unused.zipIdx.filter (fun x => related selected x.1 = least) ∧
      leastRelated transfers unused selected ≠ [] ∧ ∀ x ∈ unused.zipIdx, least ≤ related selected x.1 := by
  obtain ⟨least, hfold, hall, hleast, -⟩ := foldl_candidateStep (related selected) unused.zipIdx 10
  have heq : leastRelated transfers unused selected =
      (unused.zipIdx.foldl (candidateStep (related selected)) (10, [])).2 := by
    simp only [leastRelated, relatednessLoop_eq]
    rfl
  rw [hfold] at heq
  refine ⟨least, heq, ?_, hall⟩
  rw [heq]
  obtain rfl | ⟨x, hx, hrelated⟩ := hleast
  · -- no relatedness is above the one the search starts with
    obtain ⟨x, hx⟩ := exists_mem_of_ne_nil _ (mt zipIdx_eq_nil_iff.1 h)
    have hle : related selected x.1 ≤ 10 := (maxRelatedness_bounds _ (Nat.zero_le 10) _).2
    exact ne_nil_of_mem (mem_filter.2 ⟨hx, decide_eq_true (Nat.le_antisymm hle (hall x hx))⟩)
  · exact ne_nil_of_mem (mem_filter.2 ⟨hx, decide_eq_true hrelated⟩)

theorem chooseCandidate_spec {candidates : List (Fin transfers.length × Nat)} (h : candidates ≠ []) (smallest : Bool)
    (rand : Nat) :
    ∃ x ∈ candidates, chooseCandidate transfers candidates smallest rand = some x ∧
      (smallest = true → ∀ y ∈ candidates, (transfers.get x.1).amount ≤ (transfers.get y.1).amount) := by
  cases smallest with
  | false =>
    have hlt := Nat.mod_lt rand (length_pos_of_ne_nil h)
    exact ⟨_, getElem_mem hlt, List.getElem?_eq_getElem hlt, nofun⟩
  | true =>
    obtain ⟨first, rest, rfl⟩ := exists_cons_of_ne_nil h
    obtain ⟨x, hx, hfold, hleast⟩ := foldl_smallest (fun i => (transfers.get i).amount) (first :: rest) first
    exact ⟨x, by simpa using hx, congrArg some hfold, fun _ y hy => hleast y (mem_cons_of_mem _ hy)⟩

theorem popBestValueFrom_spec (h : unused ≠ []) (smallest : Bool) (rand : Nat) :
    ∃ i rest, popBestValueFrom transfers unused selected smallest rand = some (i, rest) ∧
      (i :: rest).Perm unused ∧ BestAmong unused selected smallest i := by
  obtain ⟨least, heq, hsome, hall⟩ := leastRelated_spec selected h
  obtain ⟨⟨i, n⟩, hx, hchosen, hsmallest⟩ := chooseCandidate_spec hsome smallest rand
  rw [heq] at hx hsmallest
  obtain ⟨hmem, hrelated⟩ := mem_filter.1 hx
  replace hrelated := of_decide_eq_true hrelated
  have hi := mem_zipIdx_iff_getElem?.1 hmem
  obtain ⟨rest, hpop, hperm⟩ := popIndex_spec hi
  have hzip : ∀ j ∈ unused, ∃ n, (j, n) ∈ unused.zipIdx := fun j hj =>
    (mem_iff_getElem?.1 hj).imp fun n hn => mem_zipIdx_iff_getElem?.2 hn
  refine ⟨i, rest, by rw [popBestValueFrom, hchosen]; exact hpop, hperm, mem_of_getElem? hi, fun j hj => ?_,
    fun hs j hj hsame => ?_⟩
  · obtain ⟨m, hm⟩ := hzip j hj
    exact hrelated.trans_le (hall _ hm)
  · obtain ⟨m, hm⟩ := hzip j hj
    exact hsmallest hs _ (mem_filter.2 ⟨hm, decide_eq_true (hsame.trans hrelated)⟩)

variable (rand : Nat → Nat) (neededMoney : UInt64)

/-- What is picked and what is left make up the unused indices, and the loop ends with enough or with nothing left. -/
theorem selectLoop_spec {fuel : Nat} (hfuel : unused.length ≤ fuel) (foundMoney : UInt64) :
    ∃ picked rest, (picked ++ rest).Perm unused ∧
      selectLoop transfers rand neededMoney fuel foundMoney unused selected =
        some (foundMoney + sumAmounts (picked.map transfers.get), selected ++ picked) ∧
      (neededMoney ≤ foundMoney + sumAmounts (picked.map transfers.get) ∨ rest = []) := by
  induction fuel generalizing unused selected foundMoney with
  | zero =>
    obtain rfl := eq_nil_of_length_eq_zero (Nat.le_zero.1 hfuel)
    exact ⟨[], [], .refl [], by simp [selectLoop, sumAmounts], .inr rfl⟩
  | succ fuel ih =>
    rw [selectLoop]
    split
    · rename_i hmore
      obtain ⟨i, left, hpop, hperm, -⟩ := popBestValueFrom_spec selected hmore.2 false (rand fuel)
      have hlength := hperm.length_eq
      rw [length_cons] at hlength
      obtain ⟨picked, rest, hpicked, hloop, hend⟩ := ih (selected ++ [i]) (by omega : left.length ≤ fuel)
        (foundMoney + (transfers.get i).amount)
      have hsum : sumAmounts ((i :: picked).map transfers.get) =
          (transfers.get i).amount + sumAmounts (picked.map transfers.get) := by
        rw [UInt64.add_comm]
        exact sumAmounts_middle [] _ _
      rw [UInt64.add_assoc, ← hsum] at hloop hend
      refine ⟨i :: picked, rest, (hpicked.cons i).trans hperm, ?_, hend⟩
      rw [hpop]
      simpa using hloop
    · rename_i hdone
      refine ⟨[], unused, .refl _, by simp [sumAmounts], ?_⟩
      rw [map_nil, sumAmounts, foldl_nil, UInt64.add_zero, ← UInt64.not_lt, ← not_ne_iff (a := unused)]
      exact not_and_or.1 hdone

theorem amountsTotal_get_le {picked : List (Fin transfers.length)} (h : picked.Nodup) :
    amountsTotal (picked.map transfers.get) ≤ amountsTotal transfers := by
  obtain ⟨part, hperm, hsub⟩ := h.subperm (fun i _ => mem_finRange i : _ ⊆ finRange transfers.length)
  have hmap := hsub.map transfers.get
  rw [map_get_finRange] at hmap
  refine (le_of_eq ?_).trans (amountsTotal_le hmap)
  unfold amountsTotal Wrapping.total
  exact (((hperm.symm.map _).map _).map _).sum_eq

/-- **Input selection** delivers distinct members of the list that are worth the returned sum, and enough unless they are
all. -/
theorem selection_sound (transfers : List TransferDetails) (rand : Nat → Nat) (neededMoney : UInt64)
    (unused selected : List (Fin transfers.length)) (hsum : amountsTotal transfers < 2 ^ 64) (hdistinct : unused.Nodup) :
    (∃ found picked, selectTransfers transfers rand neededMoney unused selected = some (found, selected ++ picked) ∧
      picked.Nodup ∧ picked ⊆ unused ∧ found.toNat = amountsTotal (picked.map transfers.get) ∧
      (neededMoney ≤ found ∨ picked.Perm unused)) ∧
    ∀ (unused selected : List (Fin transfers.length)) (smallest : Bool) (r : Nat), unused ≠ [] →
      ∃ i rest, popBestValueFrom transfers unused selected smallest r = some (i, rest) ∧ (i :: rest).Perm unused ∧
        BestAmong unused selected smallest i := by
  refine ⟨?_, fun unused selected smallest r h => popBestValueFrom_spec selected h smallest r⟩
  obtain ⟨picked, rest, hperm, hloop, hend⟩ := selectLoop_spec selected rand neededMoney (Nat.le_refl unused.length) 0
  rw [UInt64.zero_add] at hloop hend
  have hnodup : picked.Nodup := (hperm.nodup_iff.2 hdistinct).of_append_left
  refine ⟨_, picked, hloop, hnodup, fun i hi => hperm.subset (mem_append_left _ hi), ?_, hend.imp_right ?_⟩
  · exact toNat_sumAmounts ((amountsTotal_get_le hnodup).trans_lt hsum)
  · rintro rfl
    simpa using hperm

end

def selectionExample : List TransferDetails := [5, 7].map fun amount =>
  ⟨20, ⟨2, 0, [], [], []⟩, default, 0, 0, false, 0, default, default, amount, true, false, 0, ⟨0, 0⟩, false⟩

theorem selection_sound_two : ∃ found picked,
    selectTransfers selectionExample (fun _ => 1) 8 [⟨0, by decide⟩, ⟨1, by decide⟩] [] = some (found, picked) ∧
      picked.Nodup ∧ found.toNat = amountsTotal (picked.map selectionExample.get) := by
  obtain ⟨⟨found, picked, hselect, hnodup, -, hfound, -⟩, -⟩ :=
    selection_sound selectionExample (fun _ => 1) 8 [⟨0, by decide⟩, ⟨1, by decide⟩] [] (by decide) (by decide)
  exact ⟨found, picked, hselect, hnodup, hfound⟩

def splitPiece (numSplits : UInt64) (i : Nat) (dst : TxDestinationEntry) : TxDestinationEntry where
  -- the last split has the remainder
  amount := dst.amount / numSplits + if i + 1 = numSplits.toNat then dst.amount % numSplits else 0
  addr := dst.addr
  isSubaddress := false

def splitAmounts (dsts : List TxDestinationEntry) (numSplits : UInt64) : List (List TxDestinationEntry) :=
  if numSplits ≤ 1 then [dsts] else (range numSplits.toNat).map fun i => dsts.map (splitPiece numSplits i)

/-- The pieces are lists of one entry for each destination, in order and to its address, that add up to its amount. -/
structure SplitOf (dsts : List TxDestinationEntry) (numSplits : UInt64) (pieces : List (List TxDestinationEntry)) :
    Prop where
  count : pieces.length = max 1 numSplits.toNat
  addresses : ∀ piece ∈ pieces, piece.map (·.addr) = dsts.map (·.addr)
  sums : ∀ (j : Nat) (dst : TxDestinationEntry), dsts[j]? = some dst →
    ((pieces.filterMap fun piece => piece[j]?).map fun entry => entry.amount.toNat).sum = dst.amount.toNat

variable {dsts : List TxDestinationEntry} {numSplits : UInt64}

theorem toNat_splitPiece (h : 1 < numSplits) (i : Nat) (dst : TxDestinationEntry) :
    (splitPiece numSplits i dst).amount.toNat = dst.amount.toNat / numSplits.toNat +
      if i + 1 = numSplits.toNat then dst.amount.toNat % numSplits.toNat else 0 := by
  have hpos : 1 < numSplits.toNat := h
  have hlt := dst.amount.toNat_lt
  have hmul := Nat.div_add_mod dst.amount.toNat numSplits.toNat
  have hquot := Nat.le_mul_of_pos_left (dst.amount.toNat / numSplits.toNat) (Nat.zero_lt_of_lt hpos)
  unfold splitPiece
  split
  · rw [UInt64.toNat_add, UInt64.toNat_div, UInt64.toNat_mod, Nat.mod_eq_of_lt (by omega)]
  · rw [UInt64.add_zero, UInt64.toNat_div, Nat.add_zero]

theorem sum_splitPiece (h : 1 < numSplits) (dst : TxDestinationEntry) :
    ((range numSplits.toNat).map fun i => (splitPiece numSplits i dst).amount.toNat).sum = dst.amount.toNat := by
  have hpos : 1 < numSplits.toNat := h
  obtain ⟨n, hn⟩ := Nat.exists_eq_add_one_of_ne_zero (Nat.ne_zero_of_lt hpos)
  have hmul := Nat.div_add_mod dst.amount.toNat numSplits.toNat
  have hfirst : ∀ i ∈ range n, (splitPiece numSplits i dst).amount.toNat = dst.amount.toNat / numSplits.toNat := by
    intro i hi
    rw [toNat_splitPiece h, if_neg (by have := mem_range.1 hi; omega), Nat.add_zero]
  rw [hn, range_succ, map_append, sum_append, map_congr_left hfirst, map_const', sum_replicate_nat, length_range, map_singleton,
    sum_singleton, toNat_splitPiece h, if_pos hn.symm]
  rw [hn, Nat.add_mul] at hmul
  rw [hn]
  omega

theorem splitAmounts_splitOf (dsts : List TxDestinationEntry) (numSplits : UInt64) :
    SplitOf dsts numSplits (splitAmounts dsts numSplits) := by
  unfold splitAmounts
  split
  · rename_i hone
    have hle : numSplits.toNat ≤ 1 := hone
    exact ⟨by simp; omega, by simp, fun j dst h => by simp [h]⟩
  · rename_i hmany
    replace hmany : 1 < numSplits := UInt64.not_le.1 hmany
    have hlt : 1 < numSplits.toNat := hmany
    refine ⟨by simp; omega, fun piece hpiece => ?_, fun j dst hdst => ?_⟩
    · obtain ⟨i, -, rfl⟩ := mem_map.1 hpiece
      rw [map_map]
      rfl
    · rw [filterMap_map, filterMap_congr (g := fun i => some (splitPiece numSplits i dst)) fun i _ => by simp [hdst],
        filterMap_eq_map', map_map]
      exact sum_splitPiece hmany dst

/-- **Splitting** keeps every amount; it keeps every flag exactly if there is one piece or no destination is a subaddress.
-/
theorem splitAmounts_preserves_iff (dsts : List TxDestinationEntry) (numSplits : UInt64) :
    (SplitOf dsts numSplits (splitAmounts dsts numSplits) ∧
      ∀ piece ∈ splitAmounts dsts numSplits, piece.map (·.isSubaddress) = dsts.map (·.isSubaddress)) ↔
    numSplits ≤ 1 ∨ ∀ dst ∈ dsts, dst.isSubaddress = false := by
  rw [and_iff_right (splitAmounts_splitOf dsts numSplits)]
  unfold splitAmounts
  split
  · rename_i hone
    simp [hone]
  · rename_i hmany
    have hlt : 1 < numSplits.toNat := UInt64.not_le.1 hmany
    rw [or_iff_right hmany, forall_mem_map]
    constructor
    · intro h dst hdst
      have hflags := h 0 (mem_range.2 (by omega))
      rw [map_map, map_inj_left] at hflags
      exact (hflags dst hdst).symm
    · intro h i _
      rw [map_map, map_inj_left]
      exact fun dst hdst => (h dst hdst).symm

theorem splitAmounts_drops_flag :
    splitAmounts [⟨10, ⟨default, default⟩, true⟩] 2 = [[⟨5, ⟨default, default⟩, false⟩], [⟨5, ⟨default, default⟩, false⟩]] := by
  decide

end Electronero.Wire
