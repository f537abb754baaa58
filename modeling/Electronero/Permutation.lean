import Mathlib.Data.Fintype.EquivFin
import Mathlib.GroupTheory.Perm.Support
/-!
# Permuting in place (`src/common/apply_permutation.h`)

While `apply_permutation` is in the cycle of `i`, the element that was at `i` is at `current`, and the list still says `i`
for it: `Holds`. Each swap puts one element in its place, so `Equiv.Perm.card_support_swap_mul` ends the walk.
-/
namespace Electronero.Permutation
open List Equiv

/-- The inner loop: the calls of `swap` and the marked permutation; `none` if it goes on without fuel. -/
def walk (i : Nat) : Nat → Nat → List Nat → Option (List (Nat × Nat) × List Nat)
  | 0, _, _ => none
  | fuel + 1, current, permutation => do
    let next ← permutation[current]?
    let marked := permutation.set current current
    if i = next then return ([], marked)
    let (calls, permutation) ← walk i fuel next marked
    return ((current, next) :: calls, permutation)

def walkFrom (calls : List (Nat × Nat)) (permutation : List Nat) (i : Nat) : Option (List (Nat × Nat) × List Nat) := do
  let (more, permutation) ← walk i (permutation.length + 1) i permutation
  return (calls ++ more, permutation)

/-- The calls of `swap`, or the text of the exception. -/
def applyPermutation (permutation : List Nat) : Except String (Option (List (Nat × Nat))) :=
  if ∀ n ∈ range permutation.length, n ∈ permutation then
    .ok (((range permutation.length).foldlM (fun s i => walkFrom s.1 s.2 i) ([], permutation)).map (·.1))
  else .error "Bad permutation"

section
variable {T : Type}

def swapAt (v : List T) (call : Nat × Nat) : List T :=
  match v[call.1]?, v[call.2]? with
  | some x0, some x1 => (v.set call.1 x1).set call.2 x0
  | _, _ => v

def applyPermutationTo (permutation : List Nat) (v : List T) : Except String (Option (List T)) :=
  if permutation.length = v.length then (applyPermutation permutation).map (·.map (·.foldl swapAt v))
  else .error "Mismatched vector sizes"

variable {n : Nat}

theorem getElem?_swapAt {v : List T} (hv : v.length = n) (a b k : Fin n) :
    (swapAt v (a, b))[(swap a b k).val]? = v[k.val]? := by
  have ha : (a : Nat) < v.length := hv ▸ a.2
  have hb : (b : Nat) < v.length := hv ▸ b.2
  simp only [swapAt, List.getElem?_eq_getElem ha, List.getElem?_eq_getElem hb, swap_apply_def]
  grind

theorem length_swapAt (v : List T) (call : Nat × Nat) : (swapAt v call).length = v.length := by
  unfold swapAt
  split
  · simp
  · rfl

theorem length_foldl_swapAt (calls : List (Nat × Nat)) (v : List T) : (calls.foldl swapAt v).length = v.length := by
  induction calls generalizing v with
  | nil => rfl
  | cons call calls ih => rw [foldl_cons, ih, length_swapAt]

/-- What is wanted at `k` is at `π k`; the list says `i` for the element at `c`. -/
def Holds (q : List Nat) (π : Perm (Fin n)) (i c : Fin n) : Prop :=
  q.length = n ∧ ∀ k : Fin n, q[k.val]? = some (if π k = c then i else π k : Fin n).val

/-- The calls are in range and carry what is at `π k` to `π' k`. -/
def Carries (calls : List (Nat × Nat)) (π π' : Perm (Fin n)) : Prop :=
  (∀ call ∈ calls, call.1 < n ∧ call.2 < n) ∧
    ∀ (T : Type) (v : List T), v.length = n → ∀ k : Fin n, (calls.foldl swapAt v)[(π' k).val]? = v[(π k).val]?

variable {q : List Nat} {π π' : Perm (Fin n)} {i c : Fin n} {calls calls' : List (Nat × Nat)}

theorem holds_self (i : Fin n) : Holds q π i i ↔ q.length = n ∧ ∀ k : Fin n, q[k.val]? = some (π k).val := by
  have hite : ∀ k, (if π k = i then i else π k) = π k := fun k => by split <;> simp_all
  simp only [Holds, hite]

theorem Holds.step (h : Holds q π i c) (hc : π c ≠ c) : Holds (q.set c c) (swap c (π c) * π) i (π c) := by
  refine ⟨by simpa using h.1, fun k => ?_⟩
  rw [Perm.mul_apply]
  by_cases hk : k = c
  · subst hk
    rw [swap_apply_right, if_neg (Ne.symm hc)]
    simp [h.1]
  · have hset : (q.set c c)[k.val]? = q[k.val]? := by
      simpa using getElem?_set_ne (l := q) (a := (c : Nat)) fun he => hk (Fin.ext he.symm)
    rw [hset, h.2 k]
    by_cases hkc : π k = c
    · rw [if_pos hkc, hkc, swap_apply_left, if_pos rfl]
    · have hne : π k ≠ π c := fun he => hk (π.injective he)
      rw [if_neg hkc, swap_apply_of_ne_of_ne hkc hne, if_neg hne]

theorem Holds.stop (h : Holds q π i c) (hc : π c = c) : Holds (q.set c c) π i i := by
  refine (holds_self i).2 ⟨by simpa using h.1, fun k => ?_⟩
  by_cases hk : k = c
  · subst hk
    simp [h.1, hc]
  · have hset : (q.set c c)[k.val]? = q[k.val]? := by
      simpa using getElem?_set_ne (l := q) (a := (c : Nat)) fun he => hk (Fin.ext he.symm)
    rw [hset, h.2 k, if_neg fun he => hk (π.injective (he.trans hc.symm))]

theorem Carries.nil : Carries [] π π := ⟨by simp, fun _ _ _ _ => rfl⟩

theorem Carries.cons (a b : Fin n) (h : Carries calls (swap a b * π) π') : Carries ((↑a, ↑b) :: calls) π π' := by
  refine ⟨forall_mem_cons.2 ⟨⟨a.2, b.2⟩, h.1⟩, fun T v hv k => ?_⟩
  rw [foldl_cons, h.2 T _ ((length_swapAt v _).trans hv) k, Perm.mul_apply, getElem?_swapAt hv]

theorem Carries.append {π'' : Perm (Fin n)} (h : Carries calls π π') (h' : Carries calls' π' π'') :
    Carries (calls ++ calls') π π'' := by
  refine ⟨fun call hcall => (mem_append.1 hcall).elim (h.1 call) (h'.1 call), fun T v hv k => ?_⟩
  rw [foldl_append, h'.2 T _ ((length_foldl_swapAt calls v).trans hv) k, h.2 T v hv k]

/-- The walk ends: what was misplaced in the cycle of `i` is in place, and nothing else has moved. -/
theorem walk_spec {fuel : Nat} (hfuel : π.support.card < fuel) (h : Holds q π i c) (hi : c = i ∨ π i = i) :
    ∃ calls q' π', walk i fuel c q = some (calls, q') ∧ Holds q' π' i i ∧ Carries calls π π' ∧ π' i = i ∧
      ∀ k, π k = k → π' k = k := by
  induction fuel generalizing q π c with
  | zero => omega
  | succ fuel ih =>
    have hget := h.2 c
    by_cases hc : π c = c
    · rw [if_pos hc] at hget
      refine ⟨[], q.set c c, π, ?_, h.stop hc, .nil, ?_, fun _ hk => hk⟩
      · simp only [walk]
        rw [hget]
        simp
      · rcases hi with rfl | hi
        · exact hc
        · exact hi
    · rw [if_neg hc] at hget
      -- neither `i` nor a place that is filled is on the way
      have hkeep : ∀ k, π k = k → (swap c (π c) * π) k = k := by
        intro k hk
        have hkc : k ≠ c := fun he => hc (he ▸ hk)
        rw [Perm.mul_apply, hk, swap_apply_of_ne_of_ne hkc fun he => hkc (π.injective (hk.trans he))]
      have hne : π c ≠ i := fun he => hc <| by
        rcases hi with rfl | hi
        · exact he
        · rw [π.injective (he.trans hi.symm)]
          exact hi
      have hi' : π c = i ∨ (swap c (π c) * π) i = i := by
        rcases hi with rfl | hi
        · exact .inr (swap_apply_right _ _)
        · exact .inr (hkeep i hi)
      obtain ⟨calls, q', π', hwalk, hholds, hcarries, hfixed, hkept⟩ :=
        ih (Nat.lt_of_lt_of_le (Perm.card_support_swap_mul hc) (Nat.le_of_lt_succ hfuel)) (h.step hc) hi'
      refine ⟨(↑c, ↑(π c)) :: calls, q', π', ?_, hholds, hcarries.cons c (π c), hfixed,
        fun k hk => hkept k (hkeep k hk)⟩
      have hval : i.val ≠ (π c).val := fun he => hne (Fin.ext he.symm)
      simp [walk, hget, hval, hwalk]

theorem walks_spec {p : List Nat} (hp : p.length = n) (hget : ∀ k : Fin n, p[k.val]? = some (π k).val) {m : Nat}
    (hm : m ≤ n) :
    ∃ calls q π', (range m).foldlM (fun s i => walkFrom s.1 s.2 i) ([], p) = some (calls, q) ∧
      (q.length = n ∧ ∀ k : Fin n, q[k.val]? = some (π' k).val) ∧ Carries calls π π' ∧
      ∀ k : Fin n, k.val < m → π' k = k := by
  induction m with
  | zero => exact ⟨[], p, π, rfl, ⟨hp, hget⟩, .nil, by simp⟩
  | succ m ih =>
    obtain ⟨calls, q, π', hloop, hq, hcarries, hdone⟩ := ih (by omega)
    have hcard : π'.support.card < q.length + 1 := by
      have := Finset.card_le_univ π'.support
      rw [Fintype.card_fin] at this
      omega
    obtain ⟨more, q', π'', hwalk, hholds, hmore, hfixed, hkept⟩ :=
      walk_spec hcard ((holds_self ⟨m, by omega⟩).2 hq) (.inl rfl)
    refine ⟨calls ++ more, q', π'', ?_, (holds_self _).1 hholds, hcarries.append hmore, fun k hk => ?_⟩
    · rw [range_succ, foldlM_append, hloop]
      simp [walkFrom, hwalk]
    · rcases Nat.lt_succ_iff_lt_or_eq.1 hk with hlt | heq
      · exact hkept k (hdone k hlt)
      · rw [show k = ⟨m, by omega⟩ from Fin.ext heq]
        exact hfixed

theorem checked_iff (p : List Nat) : (∀ n ∈ range p.length, n ∈ p) ↔ p.Perm (range p.length) := by
  refine ⟨fun h => ?_, fun h n hn => h.mem_iff.2 hn⟩
  exact ((nodup_range.subperm h).perm_of_length_le (by simp)).symm

theorem exists_perm {p : List Nat} (h : p.Perm (range p.length)) :
    ∃ π : Perm (Fin p.length), ∀ k : Fin p.length, p[k.val]? = some (π k).val := by
  have hlt : ∀ k : Fin p.length, p.get k < p.length := fun k => mem_range.1 (h.mem_iff.1 (get_mem p k))
  have hinj : Function.Injective fun k => (⟨p.get k, hlt k⟩ : Fin p.length) := fun a b hab =>
    nodup_iff_injective_get.1 (h.nodup_iff.2 nodup_range) (congrArg Fin.val hab)
  exact ⟨.ofBijective _ (Finite.injective_iff_bijective.1 hinj), fun k => by simp⟩

end

/-- **Applying a permutation** ends, stays in range and puts `v[p[i]]` at every `i`; anything else is refused before the
first call. -/
theorem applyPermutation_correct (p : List Nat) :
    (p.Perm (range p.length) → ∃ calls, applyPermutation p = .ok (some calls) ∧
      (∀ call ∈ calls, call.1 < p.length ∧ call.2 < p.length) ∧
      ∀ (T : Type) (v : List T), v.length = p.length →
        applyPermutationTo p v = .ok (some (calls.foldl swapAt v)) ∧ (calls.foldl swapAt v).length = v.length ∧
        ∀ i j : Nat, p[i]? = some j → (calls.foldl swapAt v)[i]? = v[j]?) ∧
    (¬ p.Perm (range p.length) → applyPermutation p = .error "Bad permutation") := by
  refine ⟨fun h => ?_, fun h => ?_⟩
  · obtain ⟨π, hπ⟩ := exists_perm h
    obtain ⟨calls, q, π', hloop, -, hcarries, hdone⟩ := walks_spec rfl hπ (Nat.le_refl p.length)
    have happly : applyPermutation p = .ok (some calls) := by
      rw [applyPermutation, if_pos ((checked_iff p).2 h), hloop]
      rfl
    refine ⟨calls, happly, hcarries.1, fun T v hv => ⟨?_, length_foldl_swapAt calls v, fun i j hij => ?_⟩⟩
    · rw [applyPermutationTo, if_pos hv.symm, happly]
      rfl
    · obtain ⟨hi, -⟩ := List.getElem?_eq_some_iff.1 hij
      have hj := hcarries.2 T v hv ⟨i, hi⟩
      rw [hdone _ hi] at hj
      rw [hπ ⟨i, hi⟩] at hij
      rw [hj, Option.some.inj hij]
  · rw [applyPermutation, if_neg (mt (checked_iff p).1 h)]

theorem applyPermutation_correct_three : [2, 0, 1].Perm (range 3) ∧
    ∃ calls, applyPermutation [2, 0, 1] = .ok (some calls) ∧ ∀ call ∈ calls, call.1 < 3 ∧ call.2 < 3 := by
  have hperm : [2, 0, 1].Perm (range 3) := by decide
  obtain ⟨calls, hcalls, hrange, -⟩ := (applyPermutation_correct [2, 0, 1]).1 hperm
  exact ⟨hperm, calls, hcalls, hrange⟩

example : applyPermutation [2, 0, 1] = .ok (some [(0, 2), (2, 1)]) ∧
    applyPermutationTo [2, 0, 1] [7, 8, 9] = .ok (some [9, 7, 8]) := by
  decide

end Electronero.Permutation
