import Electronero.Basic
import Electronero.Lib.FiniteMap
import Electronero.Lib.Run
/-!
# The wallet's subaddresses (`src/wallet/wallet2.cpp:626, 913-963, 982`)

The loops of `expand_subaddresses` end *before* index plus look-ahead, so with a look-ahead of 0, which
`set_subaddress_lookahead` accepts, the key of the index that is handed out is not in the table.

With `2^32 - 1` labels `index.major + 1` is 0 and the vectors are indexed out of range (`HasRoom`).
-/
namespace Electronero
open Text FiniteMap List

structure SubaddressIndex where
  major : UInt32
  minor : UInt32
deriving DecidableEq

structure SubaddressKeys where
  spendKey : SubaddressIndex → PublicKey
  injective : Function.Injective spendKey

structure SubaddressTable where
  labels : List (List Bytes)
  subaddresses : UMap PublicKey SubaddressIndex
  lookaheadMajor : UInt32
  lookaheadMinor : UInt32
deriving DecidableEq

def getSubaddressClampedSum (idx extra : UInt32) : UInt32 :=
  if idx > 0xffffffff - extra then 0xffffffff else idx + extra

def upTo (start stop : UInt32) : List UInt32 :=
  (List.range' start.toNat (stop.toNat - start.toNat)).map UInt32.ofNat

def resize {α : Type} (n : Nat) (fill : α) (l : List α) : List α := l.take n ++ List.replicate (n - l.length) fill

namespace SubaddressTable
variable (K : SubaddressKeys)

def fresh : SubaddressTable := ⟨[], ∅, 50, 200⟩

def row (t : SubaddressTable) (major : UInt32) : List Bytes := t.labels.getD major.toNat []

def watch (subaddresses : UMap PublicKey SubaddressIndex) (indexes : List SubaddressIndex) :
    UMap PublicKey SubaddressIndex :=
  indexes.foldl (fun m index => m.insert (K.spendKey index) index) subaddresses

def newAccounts (t : SubaddressTable) (index : SubaddressIndex) : List SubaddressIndex :=
  (upTo (.ofNat t.labels.length) (getSubaddressClampedSum index.major t.lookaheadMajor)).flatMap fun major =>
    let stop := getSubaddressClampedSum (if major = index.major then index.minor else 0) t.lookaheadMinor
    (upTo 0 stop).map fun minor => ⟨major, minor⟩

def newSubaddresses (t : SubaddressTable) (index : SubaddressIndex) : List SubaddressIndex :=
  (upTo (.ofNat (t.row index.major).length) (getSubaddressClampedSum index.minor t.lookaheadMinor)).map
    fun minor => ⟨index.major, minor⟩

def expandSubaddresses (t : SubaddressTable) (index : SubaddressIndex) : SubaddressTable :=
  if t.labels.length ≤ index.major.toNat then
    { t with
      subaddresses := watch K t.subaddresses (t.newAccounts index)
      labels := (resize (index.major + 1).toNat [ascii "Untitled account"] t.labels).modify index.major.toNat
        (resize (index.minor + 1).toNat []) }
  else if (t.row index.major).length ≤ index.minor.toNat then
    { t with
      subaddresses := watch K t.subaddresses (t.newSubaddresses index)
      labels := t.labels.modify index.major.toNat (resize (index.minor + 1).toNat []) }
  else t

def setLabel (t : SubaddressTable) (index : SubaddressIndex) (label : Bytes) : SubaddressTable :=
  { t with labels := t.labels.modify index.major.toNat fun row => row.set index.minor.toNat label }

def addSubaddressAccount (t : SubaddressTable) (label : Bytes) : SubaddressTable :=
  let index : SubaddressIndex := ⟨.ofNat t.labels.length, 0⟩
  (t.expandSubaddresses K index).setLabel index label

def addSubaddress (t : SubaddressTable) (indexMajor : UInt32) (label : Bytes) : SubaddressTable :=
  if t.labels.length ≤ indexMajor.toNat then t
  else
    let index : SubaddressIndex := ⟨indexMajor, .ofNat (t.row indexMajor).length⟩
    (t.expandSubaddresses K index).setLabel index label

def setSubaddressLookahead (t : SubaddressTable) (major minor : UInt64) : SubaddressTable :=
  if major > 0xffffffff ∨ minor > 0xffffffff then t
  else { t with lookaheadMajor := major.toUInt32, lookaheadMinor := minor.toUInt32 }

def receive (t : SubaddressTable) (spendKey : PublicKey) : SubaddressTable :=
  match t.subaddresses.lookup spendKey with
  | none => t
  | some index => t.expandSubaddresses K index

end SubaddressTable

inductive SubaddressOp where
  | setLookahead (major minor : UInt64)
  | addAccount (label : Bytes)
  | addSubaddress (indexMajor : UInt32) (label : Bytes)
  | receive (spendKey : PublicKey)

namespace SubaddressTable

def apply (K : SubaddressKeys) (t : SubaddressTable) : SubaddressOp → SubaddressTable
  | .setLookahead major minor => t.setSubaddressLookahead major minor
  | .addAccount label => t.addSubaddressAccount K label
  | .addSubaddress indexMajor label => t.addSubaddress K indexMajor label
  | .receive spendKey => t.receive K spendKey

def Labelled (t : SubaddressTable) (index : SubaddressIndex) : Prop := index.minor.toNat < (t.row index.major).length

def Known (K : SubaddressKeys) (t : SubaddressTable) (index : SubaddressIndex) : Prop :=
  t.subaddresses.lookup (K.spendKey index) = some index

def Watched (K : SubaddressKeys) (t : SubaddressTable) : Prop := ∀ index, t.Labelled index → t.Known K index

instance (t : SubaddressTable) (index : SubaddressIndex) : Decidable (t.Labelled index) :=
  inferInstanceAs (Decidable (_ < _))

instance (K : SubaddressKeys) (t : SubaddressTable) (index : SubaddressIndex) : Decidable (t.Known K index) :=
  inferInstanceAs (Decidable (_ = _))

def target (t : SubaddressTable) : SubaddressOp → Option SubaddressIndex
  | .setLookahead _ _ => none
  | .addAccount _ => some ⟨.ofNat t.labels.length, 0⟩
  | .addSubaddress indexMajor _ =>
    if t.labels.length ≤ indexMajor.toNat then none else some ⟨indexMajor, .ofNat (t.row indexMajor).length⟩
  | .receive spendKey => t.subaddresses.lookup spendKey

def HasRoom (t : SubaddressTable) (op : SubaddressOp) : Prop :=
  ∀ index ∈ t.target op, index.major ≠ 0xffffffff ∧ index.minor ≠ 0xffffffff

instance (t : SubaddressTable) (op : SubaddressOp) : Decidable (t.HasRoom op) :=
  inferInstanceAs (Decidable (∀ index ∈ t.target op, _))

def Added (t : SubaddressTable) (index j : SubaddressIndex) : Prop :=
  if t.labels.length ≤ index.major.toNat then
    t.labels.length ≤ j.major.toNat ∧ j.major < index.major ∧ j.minor = 0 ∨
      j.major = index.major ∧ j.minor ≤ index.minor
  else j.major = index.major ∧ (t.row index.major).length ≤ j.minor.toNat ∧ j.minor ≤ index.minor

/-- The look-ahead for accounts matters to the account itself, if it is new; the look-ahead for subaddresses to all but
those of the account that lie before `index`. -/
def Ahead (t : SubaddressTable) (index j : SubaddressIndex) : Prop :=
  (t.labels.length ≤ index.major.toNat → j.major = index.major → t.lookaheadMajor ≠ 0) ∧
    (t.lookaheadMinor ≠ 0 ∨ j.major = index.major ∧ j.minor < index.minor)

def Reaches (K : SubaddressKeys) (t : SubaddressTable) (op : SubaddressOp) : Prop :=
  ∀ index ∈ t.target op, ∀ j, t.Added index j → t.Ahead index j ∨ t.Known K j

variable {K : SubaddressKeys} {t : SubaddressTable} {op : SubaddressOp}

theorem reaches_of_lookahead (hmajor : t.lookaheadMajor ≠ 0)
    (hminor : t.lookaheadMinor ≠ 0) (op : SubaddressOp) : t.Reaches K op :=
  fun _ _ _ _ => .inl ⟨fun _ _ => hmajor, .inl hminor⟩

theorem toNat_clampedSum (idx extra : UInt32) :
    (getSubaddressClampedSum idx extra).toNat = min (idx.toNat + extra.toNat) 0xffffffff := by
  have hidx := idx.toNat_lt
  have hextra := extra.toNat_lt
  have hsub : (0xffffffff - extra : UInt32).toNat = 2 ^ 32 - 1 - extra.toNat := by
    rw [UInt32.toNat_sub_of_le _ _ (by rw [UInt32.le_iff_toNat_le]; show extra.toNat ≤ 2 ^ 32 - 1; omega)]
    rfl
  unfold getSubaddressClampedSum
  split <;> rename_i h <;> rw [gt_iff_lt, UInt32.lt_iff_toNat_lt, hsub] at h
  · show 0xffffffff = _
    omega
  · rw [UInt32.toNat_add, Nat.mod_eq_of_lt (by omega)]
    omega

theorem mem_upTo {start stop i : UInt32} : i ∈ upTo start stop ↔ start ≤ i ∧ i < stop := by
  have hi := i.toNat_lt
  rw [UInt32.le_iff_toNat_le, UInt32.lt_iff_toNat_lt]
  simp only [upTo, List.mem_map, mem_range'_1]
  constructor
  · rintro ⟨n, ⟨hlo, hhi⟩, rfl⟩
    have hstop := stop.toNat_lt
    rw [UInt32.toNat_ofNat_of_lt' (by show n < 2 ^ 32; omega)]
    omega
  · rintro ⟨hlo, hhi⟩
    exact ⟨i.toNat, ⟨hlo, by omega⟩, UInt32.ofNat_toNat⟩

theorem length_resize {α : Type} (n : Nat) (fill : α) (l : List α) : (resize n fill l).length = n := by
  rw [resize, length_append, length_take, length_replicate]
  omega

section
variable {K : SubaddressKeys} {t : SubaddressTable} {index j : SubaddressIndex}

theorem lookup_watch {m : UMap PublicKey SubaddressIndex} {indexes : List SubaddressIndex} :
    (watch K m indexes).lookup (K.spendKey j) = some j ↔ j ∈ indexes ∨ m.lookup (K.spendKey j) = some j := by
  induction indexes generalizing m with
  | nil => simp [watch]
  | cons i indexes ih =>
    show (watch K (m.insert (K.spendKey i) i) indexes).lookup (K.spendKey j) = some j ↔ _
    rw [ih, lookup_insert_ite, mem_cons]
    by_cases h : j = i
    · simp [h]
    · rw [if_neg fun hk => h (K.injective hk)]
      simp [h]

theorem mem_newAccounts : j ∈ t.newAccounts index ↔
    .ofNat t.labels.length ≤ j.major ∧ j.major < getSubaddressClampedSum index.major t.lookaheadMajor ∧
      j.minor < getSubaddressClampedSum (if j.major = index.major then index.minor else 0) t.lookaheadMinor := by
  obtain ⟨major, minor⟩ := j
  grind [newAccounts, mem_upTo]

theorem mem_newSubaddresses : j ∈ t.newSubaddresses index ↔
    j.major = index.major ∧ .ofNat (t.row index.major).length ≤ j.minor ∧
      j.minor < getSubaddressClampedSum index.minor t.lookaheadMinor := by
  obtain ⟨major, minor⟩ := j
  grind [newSubaddresses, mem_upTo]

/-! ## Labels and keys after an expansion -/

theorem getElem?_resize {α : Type} {n i : Nat} {fill : α} {l : List α} (h : l.length ≤ n) :
    (resize n fill l)[i]? = if i < l.length then l[i]? else if i < n then some fill else none := by
  rw [resize, take_of_length_le h, getElem?_append, getElem?_replicate]
  grind

theorem toNat_succ {i : UInt32} (h : i ≠ 0xffffffff) : (i + 1).toNat = i.toNat + 1 := by
  have hi := i.toNat_lt
  have hne : i.toNat ≠ 2 ^ 32 - 1 := fun he => h (UInt32.toNat_inj.1 he)
  rw [UInt32.toNat_add]
  grind

theorem length_row_modify (labels : List (List Bytes)) (i n k : Nat) :
    ((labels.modify i (resize n [])).getD k []).length =
      if k = i ∧ i < labels.length then n else (labels.getD k []).length := by
  rw [getD_eq_getElem?_getD, getD_eq_getElem?_getD, getElem?_modify]
  grind [length_resize]

theorem labelled_expand (hmajor : index.major ≠ 0xffffffff) (hminor : index.minor ≠ 0xffffffff) :
    (t.expandSubaddresses K index).Labelled j ↔ t.Labelled j ∨ t.Added index j := by
  unfold Labelled Added expandSubaddresses
  rw [UInt32.lt_iff_toNat_lt, UInt32.le_iff_toNat_le, ← UInt32.toNat_inj (a := j.minor), UInt32.toNat_zero,
    ← UInt32.toNat_inj (a := j.major)]
  by_cases hnew : t.labels.length ≤ index.major.toNat
  · rw [if_pos hnew, if_pos hnew]
    simp only [row, length_row_modify, length_resize, toNat_succ hmajor, toNat_succ hminor]
    rw [getD_eq_getElem?_getD, getD_eq_getElem?_getD, getElem?_resize (hnew.trans (Nat.le_succ _))]
    by_cases hold : j.major.toNat < t.labels.length
    · rw [if_pos hold, if_neg (by omega)]
      omega
    · grind
  · rw [if_neg hnew, if_neg hnew]
    by_cases hlong : (t.row index.major).length ≤ index.minor.toNat
    · rw [if_pos hlong]
      simp only [row, length_row_modify, toNat_succ hminor] at hlong ⊢
      grind
    · rw [if_neg hlong]
      omega

theorem known_expand : (t.expandSubaddresses K index).Known K j ↔
    (if t.labels.length ≤ index.major.toNat then j ∈ t.newAccounts index
      else (t.row index.major).length ≤ index.minor.toNat ∧ j ∈ t.newSubaddresses index) ∨ t.Known K j := by
  unfold Known expandSubaddresses
  grind [lookup_watch]

theorem added_mem_iff (hmajor : index.major ≠ 0xffffffff) (hminor : index.minor ≠ 0xffffffff) (h : t.Added index j) :
    (if t.labels.length ≤ index.major.toNat then j ∈ t.newAccounts index
      else (t.row index.major).length ≤ index.minor.toNat ∧ j ∈ t.newSubaddresses index) ↔ t.Ahead index j := by
  have hM := toNat_succ hmajor
  have hN := toNat_succ hminor
  have hM' := (index.major + 1).toNat_lt
  have hN' := (index.minor + 1).toNat_lt
  have hmin0 : t.lookaheadMinor = 0 ↔ t.lookaheadMinor.toNat = 0 := UInt32.toNat_inj.symm
  have hmaj0 : t.lookaheadMajor = 0 ↔ t.lookaheadMajor.toNat = 0 := UInt32.toNat_inj.symm
  unfold Added at h
  unfold Ahead
  by_cases hnew : t.labels.length ≤ index.major.toNat
  · rw [if_pos hnew] at h ⊢
    rw [mem_newAccounts, UInt32.le_iff_toNat_le, UInt32.lt_iff_toNat_lt, UInt32.lt_iff_toNat_lt, toNat_clampedSum,
      toNat_clampedSum, UInt32.toNat_ofNat_of_lt' (by show _ < 2 ^ 32; omega)]
    rcases h with ⟨hlo, hhi, hz⟩ | ⟨heq, hle⟩
    · have hne : ¬ j.major = index.major := fun he => by simp [he] at hhi
      rw [UInt32.lt_iff_toNat_lt] at hhi
      rw [if_neg hne, hz]
      grind
    · rw [UInt32.le_iff_toNat_le] at hle
      rw [if_pos heq, heq]
      simp only [hnew, true_and, forall_const, ne_eq, hmin0, hmaj0, UInt32.lt_iff_toNat_lt]
      omega
  · rw [if_neg hnew] at h ⊢
    obtain ⟨heq, hlo, hle⟩ := h
    rw [UInt32.le_iff_toNat_le] at hle
    rw [mem_newSubaddresses, UInt32.le_iff_toNat_le, UInt32.lt_iff_toNat_lt, UInt32.lt_iff_toNat_lt, toNat_clampedSum,
      UInt32.toNat_ofNat_of_lt' (by show _ < 2 ^ 32; omega)]
    grind

theorem watched_expand_iff (hw : t.Watched K) (hmajor : index.major ≠ 0xffffffff) (hminor : index.minor ≠ 0xffffffff) :
    (t.expandSubaddresses K index).Watched K ↔ ∀ j, t.Added index j → t.Ahead index j ∨ t.Known K j := by
  unfold Watched
  constructor
  · intro h j hadded
    have hknown := h j ((labelled_expand hmajor hminor).2 (.inr hadded))
    rwa [known_expand, added_mem_iff hmajor hminor hadded] at hknown
  · intro h j hlabel
    rw [known_expand]
    rcases (labelled_expand hmajor hminor).1 hlabel with hold | hadded
    · exact .inr (hw j hold)
    · rw [added_mem_iff hmajor hminor hadded]
      exact h j hadded

theorem watched_setLabel {label : Bytes} : (t.setLabel index label).Watched K ↔ t.Watched K := by
  have hrow : ∀ major, ((t.setLabel index label).row major).length = (t.row major).length := by
    intro major
    simp only [setLabel, row, getD_eq_getElem?_getD, getElem?_modify]
    grind
  simp only [Watched, Labelled, hrow]
  exact Iff.rfl

end

theorem watched_apply_iff : (t.apply K op).Watched K ↔ ((t.target op).elim t (t.expandSubaddresses K)).Watched K := by
  cases op with
  | setLookahead major minor =>
    simp only [apply, target, setSubaddressLookahead]
    split_ifs
    · exact Iff.rfl
    · exact Iff.rfl
  | addAccount label => exact watched_setLabel
  | addSubaddress indexMajor label =>
    simp only [apply, target, addSubaddress]
    grind [watched_setLabel]
  | receive spendKey =>
    simp only [apply, target, receive]
    cases t.subaddresses.lookup spendKey <;> exact Iff.rfl

theorem apply_watched_iff (hw : t.Watched K) (hroom : t.HasRoom op) : (t.apply K op).Watched K ↔ t.Reaches K op := by
  rw [watched_apply_iff]
  unfold Reaches
  cases htarget : t.target op with
  | none => simpa using hw
  | some index =>
    obtain ⟨hmajor, hminor⟩ := hroom index htarget
    simpa using watched_expand_iff hw hmajor hminor

/-- **Every address handed out is watched, in every state of a run, exactly if every call labels only what its
look-ahead reaches or the table has already.** -/
theorem handed_out_watched_iff (K : SubaddressKeys) (ops : List SubaddressOp)
    (hroom : Machine.Meets (apply K) HasRoom fresh ops) :
    Machine.Always (apply K) (Watched K) fresh ops ↔ Machine.Meets (apply K) (Reaches K) fresh ops := by
  have hfresh : fresh.Watched K := fun index h => by simp [Labelled, row, fresh] at h
  exact Machine.always_iff_meets (fun _ _ hw hr => apply_watched_iff hw hr) hfresh hroom

def plainKeys : SubaddressKeys where
  spendKey index := ⟨[index.major.toNat, index.minor.toNat].flatMap (fun n =>
    [.ofNat (n % 256), .ofNat (n / 256 % 256), .ofNat (n / 65536 % 256), .ofNat (n / 16777216)]) ++ List.replicate 24 0,
    by simp⟩
  injective a b h := by
    have hbytes := congrArg Pod.bytes h
    simp only [flatMap_cons, flatMap_nil, append_nil, cons_append, nil_append, cons.injEq,
      ← UInt8.toNat_inj, UInt8.toNat_ofNat'] at hbytes
    have hmajor := a.major.toNat_lt
    have hmajor' := b.major.toNat_lt
    have hminor := a.minor.toNat_lt
    have hminor' := b.minor.toNat_lt
    have heq : a.major.toNat = b.major.toNat ∧ a.minor.toNat = b.minor.toNat := by omega
    cases a
    cases b
    simpa [UInt32.toNat_inj] using heq

def smallRun : List SubaddressOp :=
  [.setLookahead 1 1, .addAccount (ascii "Primary account"), .addSubaddress 0 (ascii "shop"),
    .receive (plainKeys.spendKey ⟨0, 1⟩)]

theorem handed_out_watched_small : Machine.Meets (apply plainKeys) HasRoom fresh smallRun ∧
    Machine.Always (apply plainKeys) (Watched plainKeys) fresh smallRun := by
  have hroom : Machine.Meets (apply plainKeys) HasRoom fresh smallRun := by decide +kernel
  refine ⟨hroom, (handed_out_watched_iff plainKeys smallRun hroom).2 ?_⟩
  -- every call after the first is made with a look-ahead of 1
  refine ⟨fun _ h => by (cases h), reaches_of_lookahead (by decide) (by decide) _, reaches_of_lookahead ?_ ?_ _,
    reaches_of_lookahead ?_ ?_ _, trivial⟩ <;> decide +kernel

theorem unwatched_primary :
    let t := Machine.run (apply plainKeys) fresh [.setLookahead 0 0, .addAccount (ascii "Primary account")]
    t.Labelled ⟨0, 0⟩ ∧ ¬ t.Known plainKeys ⟨0, 0⟩ := by decide +kernel

end SubaddressTable
end Electronero
