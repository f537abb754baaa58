import Electronero.Lib.PartialMap
import Electronero.Mnemonics.ElectrumWords
import Mathlib.Data.Bool.Basic
import Mathlib.Data.List.GetD
import Mathlib.Data.List.Nodup
/-!
# What a seed in words denotes

Three words are digits in base 1626, each but the first relative to the one before it. The code computes modulo 2^32 and
tests whether the value gives back the first word; a triple wraps at most once, so that is the test whether it fits.

Twelve words give sixteen bytes that are not repeated: the factor of eight is missing (electrum-words.cpp:310).
-/
namespace Electronero
open Text List

namespace Mnemonics

def tripleValue (w1 w2 w3 : UInt32) : Nat :=
  w1.toNat + 1626 * ((1626 - w1.toNat + w2.toNat) % 1626) + 1626 * 1626 * ((1626 - w2.toNat + w3.toNat) % 1626)

theorem toNat_step {w w' : UInt32} (h : w.toNat < 1626) (h' : w'.toNat < 1626) :
    ((1626 - w + w') % 1626).toNat = (1626 - w.toNat + w'.toNat) % 1626 := by
  have hsub : (1626 - w).toNat = 1626 - w.toNat := by
    rw [UInt32.toNat_sub_of_le]
    · rfl
    · rw [UInt32.le_iff_toNat_le]
      exact h.le
  have hadd : (1626 - w + w').toNat = 1626 - w.toNat + w'.toNat := by
    rw [UInt32.toNat_add, hsub, Nat.mod_eq_of_lt (by omega)]
  rw [UInt32.toNat_mod, hadd]
  rfl

variable {w b : Bytes} {w1 w2 w3 v : UInt32} {l : List UInt32} {key : Bytes → Bytes}

theorem toNat_tripleVal (h1 : w1.toNat < 1626) (h2 : w2.toNat < 1626) (h3 : w3.toNat < 1626) :
    (tripleVal 1626 w1 w2 w3).toNat = tripleValue w1 w2 w3 % 2 ^ 32 := by
  rw [tripleVal, tripleValue, UInt32.toNat_add, UInt32.toNat_add, UInt32.toNat_mul, UInt32.toNat_mul,
    toNat_step h1 h2, toNat_step h2 h3]
  simp_all

theorem restoreVal_iff (h1 : w1.toNat < 1626) (h2 : w2.toNat < 1626) (h3 : w3.toNat < 1626) :
    restoreVal 1626 w1 w2 w3 = some v ↔ tripleValue w1 w2 w3 = v.toNat := by
  have hval := toNat_tripleVal h1 h2 h3
  have hdef : tripleValue w1 w2 w3 = w1.toNat + 1626 * ((1626 - w1.toNat + w2.toNat) % 1626) +
    1626 * 1626 * ((1626 - w2.toNat + w3.toNat) % 1626) := rfl
  have hmod : tripleVal 1626 w1 w2 w3 % 1626 = w1 ↔ tripleValue w1 w2 w3 < 2 ^ 32 := by
    rw [← UInt32.toNat_inj, UInt32.toNat_mod, hval, show UInt32.toNat 1626 = 1626 from rfl]
    omega
  rw [restoreVal, Option.ite_none_right_eq_some, hmod, Option.some.injEq, ← UInt32.toNat_inj, hval]
  have := v.toNat_lt
  grind

theorem toNat_shift {q w : UInt32} (hq : q.toNat < 2 ^ 31) (hw : w.toNat < 1626) :
    ((q + w) % 1626).toNat = (q.toNat + w.toNat) % 1626 := by
  rw [UInt32.toNat_mod, UInt32.toNat_add, Nat.mod_eq_of_lt (show q.toNat + w.toNat < 2 ^ 32 by omega)]
  rfl

theorem step_undo (q : Nat) {w : Nat} (h : w < 1626) : (1626 - w + (q + w) % 1626) % 1626 = q % 1626 := by
  omega

theorem valWords_spec (v : UInt32) :
    ∃ w1 w2 w3, valWords 1626 v = [w1, w2, w3] ∧ w1.toNat < 1626 ∧ w2.toNat < 1626 ∧ w3.toNat < 1626 ∧
      tripleValue w1 w2 w3 = v.toNat := by
  have hv := v.toNat_lt
  have hw1 : (v % 1626).toNat = v.toNat % 1626 := UInt32.toNat_mod v 1626
  have hq : (v / 1626).toNat = v.toNat / 1626 := UInt32.toNat_div v 1626
  have hq' : (v / 1626 / 1626).toNat = v.toNat / 1626 / 1626 := by rw [UInt32.toNat_div, hq]; rfl
  have hw2 := toNat_shift (q := v / 1626) (w := v % 1626) (by omega) (by omega)
  have hw3 := toNat_shift (q := v / 1626 / 1626) (w := (v / 1626 + v % 1626) % 1626) (by omega) (by omega)
  refine ⟨_, _, _, rfl, by omega, by omega, by omega, ?_⟩
  rw [tripleValue, hw3, step_undo _ (by omega), hw2, step_undo _ (by omega), hw1, hq, hq']
  omega

theorem valWords_of_tripleValue (h1 : w1.toNat < 1626) (h2 : w2.toNat < 1626)
    (h3 : w3.toNat < 1626) (h : tripleValue w1 w2 w3 = v.toNat) : valWords 1626 v = [w1, w2, w3] := by
  obtain ⟨u1, u2, u3, hu, hu1, hu2, hu3, hval⟩ := valWords_spec v
  rw [hu]
  rw [← h, tripleValue, tripleValue] at hval
  -- the digits of the two sides are the same, from the first one on
  have e1 : u1.toNat = w1.toNat := by omega
  have e2 : u2.toNat = w2.toNat := by omega
  have e3 : u3.toNat = w3.toNat := by omega
  rw [UInt32.toNat_inj.1 e1, UInt32.toNat_inj.1 e2, UInt32.toNat_inj.1 e3]

def triples : List UInt32 → List (UInt32 × UInt32 × UInt32)
  | w1 :: w2 :: w3 :: rest => (w1, w2, w3) :: triples rest
  | _ => []

theorem length_lt_three (h : ∀ w1 w2 w3 rest, l = w1 :: w2 :: w3 :: rest → False) : l.length < 3 := by
  match l with
  | [] | [_] | [_, _] => simp
  | w1 :: w2 :: w3 :: rest => exact absurd rfl (h w1 w2 w3 rest)

theorem eq_nil_of_three_dvd (h : ∀ w1 w2 w3 rest, l = w1 :: w2 :: w3 :: rest → False)
    (hlen : 3 ∣ l.length) : l = [] := by
  have := length_lt_three h
  exact eq_nil_of_length_eq_zero (by omega)

theorem range_triples (l : List UInt32) :
    (List.range (l.length / 3)).map (fun i => (l.getD (i * 3) 0, l.getD (i * 3 + 1) 0, l.getD (i * 3 + 2) 0)) =
      triples l := by
  induction l using triples.induct with
  | case1 w1 w2 w3 rest ih =>
    rw [show (w1 :: w2 :: w3 :: rest).length / 3 = rest.length / 3 + 1 by simp; omega, range_succ_eq_map,
      map_cons, List.map_map, triples, ← ih]
    refine congrArg₂ _ rfl (map_congr_left fun i _ => ?_)
    simp only [Function.comp_apply, Nat.succ_mul]
    rfl
  | case2 l h =>
    rw [Nat.div_eq_of_lt (length_lt_three h), triples]
    · rfl
    · exact h

theorem length_triples (l : List UInt32) : (triples l).length = l.length / 3 := by
  rw [← range_triples, length_map, length_range]

theorem triples_append {tail : List UInt32} (h : 3 ∣ l.length) : triples (l ++ tail) = triples l ++ triples tail := by
  induction l using triples.induct with
  | case1 w1 w2 w3 rest ih =>
    have hrest : 3 ∣ rest.length := by
      simp only [length_cons] at h
      omega
    simp only [cons_append, triples, ih hrest]
  | case2 l hl =>
    rw [eq_nil_of_three_dvd hl h]
    rfl

theorem mem_of_mem_triples {t : UInt32 × UInt32 × UInt32} (h : t ∈ triples l) : t.1 ∈ l ∧ t.2.1 ∈ l ∧ t.2.2 ∈ l := by
  induction l using triples.induct with
  | case1 w1 w2 w3 rest ih =>
    rw [triples] at h
    grind
  | case2 l hl =>
    rw [triples] at h
    · simp at h
    · exact hl

def storeAll (vals : List UInt32) : Bytes := vals.flatMap fun val => Archive.putUint 4 val.toNat

def loadAll (src : Bytes) : List UInt32 := (List.range (src.length / 4)).map (load src)

theorem load_zero (val : UInt32) (rest : Bytes) : load (Archive.putUint 4 val.toNat ++ rest) 0 = val := by
  rw [load, Nat.mul_zero, drop_zero, Archive.getUint_putUint 4 val.toNat_lt, Option.map_some, Option.getD_some,
    UInt32.ofNat_toNat]

theorem load_succ {rest : Bytes} (h : b.length = 4) (i : Nat) : load (b ++ rest) (i + 1) = load rest i := by
  rw [load, load, show 4 * (i + 1) = b.length + 4 * i by omega, drop_length_add_append]

theorem loadAll_append (val : UInt32) (rest : Bytes) :
    loadAll (Archive.putUint 4 val.toNat ++ rest) = val :: loadAll rest := by
  have hlen := Archive.length_putUint 4 val.toNat
  rw [loadAll, length_append, hlen, show (4 + rest.length) / 4 = rest.length / 4 + 1 by omega,
    range_succ_eq_map, map_cons, List.map_map, load_zero, loadAll]
  exact congrArg _ (map_congr_left fun i _ => load_succ hlen i)

theorem loadAll_storeAll (vals : List UInt32) : loadAll (storeAll vals) = vals := by
  induction vals with
  | nil => rfl
  | cons val vals ih => rw [storeAll, flatMap_cons, loadAll_append, ← storeAll, ih]

theorem exists_putUint (h : b.length = 4) : ∃ val : UInt32, b = Archive.putUint 4 val.toNat := by
  obtain ⟨v, hread⟩ : ∃ v, Archive.getUint 4 b = some (v, []) := by
    match b, h with
    | [b0, b1, b2, b3], _ => exact ⟨_, rfl⟩
  obtain ⟨hlt, hb⟩ := Archive.putUint_of_getUint 4 hread
  refine ⟨UInt32.ofNat v, ?_⟩
  rw [UInt32.toNat_ofNat', Nat.mod_eq_of_lt (by omega), hb, append_nil]

theorem storeAll_loadAll {src : Bytes} (h : 4 ∣ src.length) : storeAll (loadAll src) = src := by
  obtain ⟨n, hn⟩ := h
  induction n generalizing src with
  | zero =>
    obtain rfl : src = [] := eq_nil_of_length_eq_zero hn
    rfl
  | succ n ih =>
    obtain ⟨val, hval⟩ := exists_putUint (b := src.take 4) (by rw [length_take]; omega)
    rw [← take_append_drop 4 src, hval, loadAll_append, storeAll, flatMap_cons, ← storeAll,
      ih (by rw [length_drop]; omega)]

theorem length_storeAll (vals : List UInt32) : (storeAll vals).length = 4 * vals.length := by
  induction vals with
  | nil => rfl
  | cons val vals ih => grind [storeAll, Archive.length_putUint]

theorem utf8Prefix_of_length_le {count : Nat} (hlen : w.length ≤ count) (hw : ∀ c ∈ w, c ≠ 0) :
    utf8Prefix w count = w := by
  induction w, count using utf8Prefix.induct with
  | case1 w => rw [utf8Prefix, eq_nil_of_length_eq_zero (Nat.le_zero.1 hlen)]
  | case2 => rw [utf8Prefix]
  | case3 w count => exact absurd rfl (hw 0 mem_cons_self)
  | case4 c w count hc ih =>
    have hrest : utf8Prefix (w.dropWhile isContinuation) count = w.dropWhile isContinuation := by
      refine ih ?_ fun c hc => hw c (mem_cons_of_mem _ ((dropWhile_sublist _).mem hc))
      have := (dropWhile_sublist isContinuation (l := w)).length_le
      rw [length_cons] at hlen
      omega
    rw [utf8Prefix, if_neg hc, hrest, cons_append, takeWhile_append_dropWhile]

theorem utf8Prefix_eq_trimWord (count : Nat) (hw : ∀ c ∈ w, c ≠ 0) : utf8Prefix w count = trimWord count w := by
  rw [trimWord]
  grind [utf8Prefix_of_length_le]

theorem foldl_update_of_notMem {k : Bytes} {ws : List (Bytes × Nat)} (h : ∀ w ∈ ws, key w.1 ≠ k)
    (map : Bytes → Option UInt32) :
    ws.foldl (fun map w => Function.update map (key w.1) (some (UInt32.ofNat w.2))) map k = map k := by
  induction ws generalizing map with
  | nil => rfl
  | cons w ws ih =>
    rw [foldl_cons, ih fun v hv => h v (mem_cons_of_mem w hv),
      Function.update_of_ne (h w mem_cons_self).symm]

theorem populate_append {front rest : List Bytes} (h : ((front ++ w :: rest).map key).Nodup) :
    populate key (front ++ w :: rest) (key w) = some (UInt32.ofNat front.length) := by
  have hrest : key w ∉ rest.map key := by grind
  rw [populate, zipIdx_append, zipIdx_cons, foldl_append, foldl_cons, foldl_update_of_notMem,
    Function.update_self, Nat.zero_add]
  grind

namespace WordList
variable {l : WordList} {i : UInt32}

theorem word_mem (hi : i.toNat < 1626) : l.word i ∈ l.words := by
  have hlt : i.toNat < l.words.length := by
    rw [l.count]
    exact hi
  rw [word, getD_eq_getElem _ _ hlt]
  exact getElem_mem hlt

theorem populate_word {key : Bytes → Bytes} (h : (l.words.map key).Nodup) (hi : i.toNat < 1626) :
    populate key l.words (key (l.word i)) = some i := by
  have hlt : i.toNat < l.words.length := by
    rw [l.count]
    exact hi
  have hsplit : l.words = l.words.take i.toNat ++ l.word i :: l.words.drop (i.toNat + 1) := by
    rw [word, getD_eq_getElem _ _ hlt, ← drop_eq_getElem_cons hlt, take_append_drop]
  have hfound := populate_append (hsplit ▸ h)
  rw [← hsplit, length_take_of_le hlt.le, UInt32.ofNat_toNat] at hfound
  exact hfound

theorem wordMap_word (h : l.Distinct) (hi : i.toNat < 1626) : l.wordMap (l.word i) = some i := by
  show populate id l.words (id (l.word i)) = some i
  refine populate_word ?_ hi
  rw [List.map_id]
  exact h.of_map _

theorem trimmedWordMap_word (h : l.Distinct) (hi : i.toNat < 1626) :
    l.trimmedWordMap (utf8Prefix (l.word i) l.uniquePrefixLength) = some i := by
  rw [utf8Prefix_eq_trimWord _ fun c hc => ((l.plain _ (word_mem hi)).2 c hc).1]
  exact populate_word h hi

end WordList

def InList (is : List UInt32) : Prop := ∀ i ∈ is, i.toNat < 1626

theorem matchWords_map_word {l : WordList} (h : l.Distinct) (hasChecksum : Bool) {is : List UInt32} (his : InList is) :
    matchWords l hasChecksum (is.map l.word) = some is := by
  rw [matchWords, PartialMap.mapM_eq_some_iff, forall₂_map_left_iff, forall₂_same]
  intro i hi
  split_ifs
  · exact WordList.trimmedWordMap_word h (his i hi)
  · exact WordList.wordMap_word h (his i hi)

section
variable {is vals : List UInt32}

def Denotes (is vals : List UInt32) : Prop :=
  List.Forall₂ (fun t val => tripleValue t.1 t.2.1 t.2.2 = val.toNat) (triples is) vals

def restoreAll (is : List UInt32) : Option (List UInt32) :=
  (triples is).mapM fun t => restoreVal 1626 t.1 t.2.1 t.2.2

theorem InList.restoreVal_iff (his : InList is) {t : UInt32 × UInt32 × UInt32} (ht : t ∈ triples is) (val : UInt32) :
    restoreVal 1626 t.1 t.2.1 t.2.2 = some val ↔ tripleValue t.1 t.2.1 t.2.2 = val.toNat := by
  obtain ⟨h1, h2, h3⟩ := mem_of_mem_triples ht
  exact Mnemonics.restoreVal_iff (his _ h1) (his _ h2) (his _ h3)

theorem restoreAll_iff (his : InList is) : restoreAll is = some vals ↔ Denotes is vals :=
  PartialMap.mapM_eq_some_iff_of fun _ ht => his.restoreVal_iff ht

theorem isSome_restoreAll_iff (his : InList is) :
    (restoreAll is).isSome = true ↔ ∀ t ∈ triples is, tripleValue t.1 t.2.1 t.2.2 < 2 ^ 32 := by
  rw [restoreAll, PartialMap.isSome_mapM]
  refine forall₂_congr fun t ht => ?_
  rw [Option.isSome_iff_exists]
  constructor
  · rintro ⟨val, hval⟩
    rw [(his.restoreVal_iff ht val).1 hval]
    exact val.toNat_lt
  · intro hlt
    refine ⟨UInt32.ofNat (tripleValue t.1 t.2.1 t.2.2), (his.restoreVal_iff ht _).2 ?_⟩
    rw [UInt32.toNat_ofNat', Nat.mod_eq_of_lt hlt]

theorem Denotes.flatMap_valWords (h : Denotes is vals) (his : InList is) (hlen : 3 ∣ is.length) :
    vals.flatMap (valWords 1626) = is := by
  induction is using triples.induct generalizing vals with
  | case1 w1 w2 w3 rest ih =>
    rw [Denotes, triples, forall₂_cons_left_iff] at h
    obtain ⟨val, vals, hval, hvals, rfl⟩ := h
    have hrest : 3 ∣ rest.length := by
      simp only [length_cons] at hlen
      omega
    rw [flatMap_cons, valWords_of_tripleValue (his _ (by simp)) (his _ (by simp)) (his _ (by simp)) hval,
      ih hvals (fun i hi => his i (by simp [hi])) hrest]
    rfl
  | case2 l hl =>
    obtain rfl := eq_nil_of_three_dvd hl hlen
    obtain rfl : vals = [] := forall₂_nil_left_iff.1 h
    rfl

theorem denotes_valWords (vals : List UInt32) :
    InList (vals.flatMap (valWords 1626)) ∧ Denotes (vals.flatMap (valWords 1626)) vals := by
  induction vals with
  | nil => exact ⟨fun i hi => absurd hi not_mem_nil, List.Forall₂.nil⟩
  | cons val vals ih =>
    obtain ⟨w1, w2, w3, hwords, h1, h2, h3, hval⟩ := valWords_spec val
    rw [flatMap_cons, hwords]
    refine ⟨fun i hi => ?_, List.Forall₂.cons hval ih.2⟩
    simp only [cons_append, nil_append, mem_cons] at hi
    rcases hi with rfl | rfl | rfl | hi
    · exact h1
    · exact h2
    · exact h3
    · exact ih.1 i hi

end

section
variable {crc32 : Bytes → UInt32} {lists : Language → WordList} {language : Language} {is : List UInt32} {text : Bytes}

def FullMatch (crc32 : Bytes → UInt32) (lists : Language → WordList) (seed : List Bytes) (hasChecksum : Bool)
    (language : Language) : Prop :=
  (matchWords (lists language) hasChecksum seed).isSome = true ∧
    (hasChecksum = true → checksumTest crc32 (lists language).uniquePrefixLength seed = true)

def OnlyMatch (crc32 : Bytes → UInt32) (lists : Language → WordList) (seed : List Bytes) (hasChecksum : Bool)
    (language : Language) : Prop :=
  ∀ other, FullMatch crc32 lists seed hasChecksum other → other = language

theorem mem_instances (language : Language) : language ∈ instances := by
  cases language <;> decide

variable {seed : List Bytes} {tried : List Language} {s : Bytes} {name : String} {vals : List UInt32} {j count : Nat}

theorem findLoop_of_onlyMatch {hasChecksum : Bool}
    (hmem : language ∈ tried) (honly : OnlyMatch crc32 lists seed hasChecksum language)
    (hmatch : matchWords (lists language) hasChecksum seed = some is)
    (htest : hasChecksum = true → checksumTest crc32 (lists language).uniquePrefixLength seed = true)
    (fallback : Option Language) : findLoop crc32 lists seed hasChecksum tried fallback = some (language, is) := by
  induction tried generalizing fallback with
  | nil => exact absurd hmem not_mem_nil
  | cons other rest ih =>
    rw [findLoop]
    by_cases hother : other = language
    · grind
    · have hrest := ih (mem_of_ne_of_mem (Ne.symm hother) hmem)
      cases hm : matchWords (lists other) hasChecksum seed with
      | none => exact hrest fallback
      | some js =>
        have hfails : (hasChecksum && !checksumTest crc32 (lists other).uniquePrefixLength seed) = true := by
          by_contra hfits
          refine hother (honly other ⟨by rw [hm]; rfl, fun hc => ?_⟩)
          simpa [hc] using hfits
        simpa [hfails] using hrest (some other)

theorem matchWords_of_findLoop (h : findLoop crc32 lists seed false tried none = some (language, is)) :
    matchWords (lists language) false seed = some is := by
  induction tried with
  | nil => simp [findLoop] at h
  | cons other rest ih => grind [findLoop, matchWords]

theorem wordsToBytes_eq_bind {dst : Bytes} {duplicate : Bool}
    (hsize : (seedOf text).length = 12 ∨ (seedOf text).length = 24 ∨ (seedOf text).length = 25) (hfound : ∀ language is,
      findSeedLanguage crc32 lists (seedOf text) (decide ((seedOf text).length = 25)) = some (language, is) →
      is.length = (seedOf text).length ∧ ((seedOf text).length = 25 →
        checksumTest crc32 (lists language).uniquePrefixLength (seedOf text) = true)) :
    wordsToBytes crc32 lists text dst 32 duplicate =
      (findSeedLanguage crc32 lists (seedOf text) (decide ((seedOf text).length = 25))).bind fun found =>
        (restoreAll found.2).map fun vals => (dst ++ storeAll vals, found.1.name) := by
  generalize hseed : seedOf text = seed at *
  have hchecksum : (if 32 ≠ 0 then decide (seed.length = 32 * 8 * 3 / 32 + 1) else true) = decide (seed.length = 25) :=
    rfl
  simp only [wordsToBytes, hseed]
  rw [if_neg (by decide), if_neg (by omega), hchecksum]
  refine Option.bind_congr fun found h => ?_
  obtain ⟨language, is⟩ := found
  obtain ⟨hlen, htest⟩ := hfound language is h
  -- the words without the checksum word
  obtain ⟨hrounds, hnoCopy⟩ :
      (if decide (seed.length = 25) then seed.dropLast else seed).length / 3 = is.length / 3 ∧
        (if decide (seed.length = 25) then seed.dropLast else seed).length ≠ 32 * 3 / 32 / 2 := by
    by_cases h25 : seed.length = 25
    · rw [if_pos (decide_eq_true h25), length_dropLast]
      omega
    · rw [if_neg (by simpa using h25)]
      omega
  have hok : ¬ (decide (seed.length = 25) && !checksumTest crc32 (lists language).uniquePrefixLength seed) = true := by
    simpa using htest
  rw [if_neg hok, hrounds, (lists language).count, restoreAll, ← range_triples, mapM_map]
  refine congrArg₂ Option.map (funext fun vals => ?_) rfl
  rw [if_neg fun h => hnoCopy h.2.2]
  rfl

def numbersOf (src : Bytes) : List UInt32 := (loadAll src).flatMap (valWords 1626)

def checksumWord (crc32 : Bytes → UInt32) (l : WordList) (words : List Bytes) : Bytes :=
  words.getD (createChecksumIndex crc32 l.uniquePrefixLength words) []

theorem languageOf_name (h : language ≠ .englishOld) : languageOf language.name = some language := by
  cases language with
  | englishOld => exact absurd rfl h
  | _ => decide

theorem length_numbersOf (src : Bytes) : (numbersOf src).length = 3 * (src.length / 4) := by
  have hsum : ((loadAll src).map fun val => (valWords 1626 val).length).sum = (loadAll src).length * 3 := by
    simp [valWords]
  rw [numbersOf, length_flatMap, hsum, loadAll, length_map, length_range, Nat.mul_comm]

theorem bytesToWords_eq {src : Bytes} (hlanguage : language ≠ .englishOld) (hlen : 4 ∣ src.length) (hne : src ≠ []) :
    bytesToWords crc32 lists src [] language.name =
      some (joinWords 32 ((numbersOf src).map (lists language).word ++
        [checksumWord crc32 (lists language) ((numbersOf src).map (lists language).word)])) := by
  have hpos : src.length ≠ 0 := fun h => hne (eq_nil_of_length_eq_zero h)
  have hstore : ((List.range (src.length / 4)).flatMap fun i => (valWords 1626 (load src i)).map (lists language).word) =
      (numbersOf src).map (lists language).word := by
    rw [numbersOf, loadAll, map_flatMap, flatMap_map]
  have hwords : (numbersOf src).map (lists language).word ≠ [] := by
    intro h
    have := length_numbersOf src
    rw [map_eq_nil_iff.1 h, length_nil] at this
    omega
  rw [bytesToWords, if_neg (by omega), languageOf_name hlanguage, Option.map_some]
  simp only [(lists language).count]
  rw [show UInt32.ofNat wordListLength = 1626 from rfl, hstore, nil_append, flatMap_append_sep hwords,
    dropLast_concat, joinWords_append hwords (cons_ne_nil _ _)]
  rfl

theorem seedOf_joinWords {ws : List Bytes} (hne : ws ≠ []) (h : ∀ w ∈ ws, w ≠ [] ∧ ∀ c ∈ w, isSpace c = false) :
    seedOf (joinWords 32 ws) = ws := by
  have hhead : (joinWords 32 ws).head?.all (!isSpace ·) = true := by
    obtain ⟨w, rest, rfl⟩ := exists_cons_of_ne_nil hne
    obtain ⟨hw, hplain⟩ := h w mem_cons_self
    rw [head?_joinWords rest hw, Option.all_eq_true]
    intro c hc
    simpa using hplain c (mem_of_mem_head? hc)
  have hlast : (joinWords 32 ws).getLast?.all (!isSpace ·) = true := by
    obtain ⟨front, w, rfl⟩ := (eq_nil_or_concat' ws).resolve_left hne
    obtain ⟨hw, hplain⟩ := h w (by simp)
    grind [getLast?_joinWords]
  rw [seedOf, trim_of_ends hhead hlast]
  refine splitRuns_joinWords hne fun w hw => ⟨(h w hw).1, fun hblank => ?_⟩
  exact absurd ((h w hw).2 32 hblank) (by decide)

theorem checksumTest_checksumWord (l : WordList) (words : List Bytes) :
    checksumTest crc32 l.uniquePrefixLength (words ++ [checksumWord crc32 l words]) = true := by
  rw [checksumTest, getLast?_concat]
  simp only [dropLast_concat]
  exact beq_self_eq_true _

theorem inList_numbersOf (src : Bytes) : InList (numbersOf src) := (denotes_valWords (loadAll src)).1

theorem exists_checksumWord (crc32 : Bytes → UInt32) (l : WordList) (his : InList is) (hlen : is.length = 24) :
    ∃ i : UInt32, i.toNat < 1626 ∧ checksumWord crc32 l (is.map l.word) = l.word i := by
  have hlt : createChecksumIndex crc32 l.uniquePrefixLength (is.map l.word) < is.length := by
    rw [hlen]
    exact Nat.mod_lt _ (by decide)
  refine ⟨_, his _ (getElem_mem hlt), ?_⟩
  rw [checksumWord, getD_eq_getElem _ _ (by rwa [length_map]), getElem_map]

theorem plain_of_inList (crc32 : Bytes → UInt32) (l : WordList) (his : InList is) (hlen : is.length = 24) :
    ∀ w ∈ is.map l.word ++ [checksumWord crc32 l (is.map l.word)], w ≠ [] ∧ ∀ c ∈ w, isSpace c = false := by
  have hword : ∀ i : UInt32, i.toNat < 1626 → l.word i ≠ [] ∧ ∀ c ∈ l.word i, isSpace c = false := by
    intro i hi
    obtain ⟨hne, hplain⟩ := l.plain _ (WordList.word_mem hi)
    exact ⟨hne, fun c hc => (hplain c hc).2⟩
  intro w hw
  rcases mem_append.1 hw with hw | hw
  · obtain ⟨i, hi, rfl⟩ := List.mem_map.1 hw
    exact hword i (his i hi)
  · obtain ⟨i, hi, heq⟩ := exists_checksumWord crc32 l his hlen
    rw [mem_singleton.1 hw, heq]
    exact hword i hi

theorem restoreAll_checksum (i : UInt32) (hlen : 3 ∣ is.length) : restoreAll (is ++ [i]) = restoreAll is := by
  rw [restoreAll, triples_append hlen, restoreAll]
  exact congrArg (List.mapM _) (append_nil _)

theorem wordsToBytes_of_words (hdistinct : (lists language).Distinct) (his : InList is)
    (hsize : is.length = 12 ∨ is.length = 24 ∨ is.length = 25) (hseed : seedOf text = is.map (lists language).word)
    (honly : OnlyMatch crc32 lists (seedOf text) (decide (is.length = 25)) language)
    (htest : is.length = 25 → checksumTest crc32 (lists language).uniquePrefixLength (seedOf text) = true)
    (dst : Bytes) (duplicate : Bool) : wordsToBytes crc32 lists text dst 32 duplicate =
      (restoreAll is).map fun vals => (dst ++ storeAll vals, language.name) := by
  have hlen : (seedOf text).length = is.length := by rw [hseed, length_map]
  have hmatch : matchWords (lists language) (decide (is.length = 25)) (seedOf text) = some is := by
    rw [hseed]
    exact matchWords_map_word hdistinct _ his
  have hfound : findSeedLanguage crc32 lists (seedOf text) (decide (is.length = 25)) = some (language, is) :=
    findLoop_of_onlyMatch (mem_instances language) honly hmatch (fun h => htest (of_decide_eq_true h)) none
  grind [wordsToBytes_eq_bind]

theorem wordsToKey_eq_some {k : SecretKey}
    (h : wordsToBytes crc32 lists text [] 32 true = some (s, name)) (hk : k.bytes = s) :
    wordsToKey crc32 lists text = some (k, name) := by
  subst hk
  rw [wordsToKey, h, Option.bind_some]
  exact dif_pos k.size

theorem wordsToKey_of_key (hdistinct : (lists language).Distinct) (k : SecretKey)
    (hseed : seedOf text = (numbersOf k.bytes).map (lists language).word ++
      [checksumWord crc32 (lists language) ((numbersOf k.bytes).map (lists language).word)])
    (honly : OnlyMatch crc32 lists (seedOf text) true language) :
    wordsToKey crc32 lists text = some (k, language.name) := by
  have his := inList_numbersOf k.bytes
  have hlen : (numbersOf k.bytes).length = 24 := by rw [length_numbersOf, k.size]
  have htest : checksumTest crc32 (lists language).uniquePrefixLength (seedOf text) = true := by
    rw [hseed]
    exact checksumTest_checksumWord _ _
  obtain ⟨i, hi, hword⟩ := exists_checksumWord crc32 (lists language) his hlen
  have his' : InList (numbersOf k.bytes ++ [i]) := by
    intro j hj
    rcases mem_append.1 hj with hj | hj
    · exact his j hj
    · rwa [mem_singleton.1 hj]
  have hlen' : (numbersOf k.bytes ++ [i]).length = 25 := by rw [length_append, hlen, length_singleton]
  rw [hword, ← map_singleton, ← map_append] at hseed
  have hread := wordsToBytes_of_words hdistinct his' (.inr (.inr hlen')) hseed (by rwa [decide_eq_true hlen'])
    (fun _ => htest) [] true
  have hvals :=
    (restoreAll_iff his).2 (denotes_valWords (loadAll k.bytes)).2
  rw [restoreAll_checksum i (by omega), hvals] at hread
  refine wordsToKey_eq_some hread ?_
  rw [nil_append, storeAll_loadAll (by rw [k.size]; decide)]

theorem bytesToWords_of_denotes (hlanguage : language ≠ .englishOld) (his : InList is)
    (hlen : is.length = 24) (hvals : Denotes is vals) : bytesToWords crc32 lists (storeAll vals) [] language.name =
      some (joinWords 32 (is.map (lists language).word ++
        [checksumWord crc32 (lists language) (is.map (lists language).word)])) := by
  have hnumbers : numbersOf (storeAll vals) = is := by
    rw [numbersOf, loadAll_storeAll]
    exact hvals.flatMap_valWords his (by omega)
  have hne : storeAll vals ≠ [] := by
    intro h
    rw [h] at hnumbers
    rw [← hnumbers] at hlen
    exact absurd hlen (by decide)
  rw [bytesToWords_eq hlanguage (by rw [length_storeAll]; exact Nat.dvd_mul_right _ _) hne, hnumbers]

def sampleWord (english : Bool) (j : Nat) : Bytes :=
  [if english then 97 else 98, UInt8.ofNat (97 + j / 676), UInt8.ofNat (97 + j / 26 % 26), UInt8.ofNat (97 + j % 26)]

theorem plain_letter : ∀ n < 26, UInt8.ofNat (97 + n) ≠ 0 ∧ isSpace (UInt8.ofNat (97 + n)) = false := by
  decide

theorem plain_sampleWord (english : Bool) (hj : j < 1626) : ∀ c ∈ sampleWord english j, c ≠ 0 ∧ isSpace c = false := by
  intro c hc
  simp only [sampleWord, mem_cons, not_mem_nil, or_false] at hc
  rcases hc with rfl | rfl | rfl | rfl
  · cases english <;> decide
  · exact plain_letter _ (by omega)
  · exact plain_letter _ (by omega)
  · exact plain_letter _ (by omega)

def sampleList (english : Bool) : WordList where
  words := (List.range 1626).map (sampleWord english)
  uniquePrefixLength := 4
  count := by rw [length_map, length_range]; rfl
  plain := by
    intro w hw
    obtain ⟨j, hj, rfl⟩ := List.mem_map.1 hw
    exact ⟨cons_ne_nil _ _, plain_sampleWord english (mem_range.1 hj)⟩

def sampleLists (language : Language) : WordList := sampleList (language == .english)

theorem sampleList_distinct (english : Bool) : (sampleList english).Distinct := by
  simp only [WordList.Distinct, sampleList, List.map_map]
  refine nodup_range.map_on fun i hi j hj h => ?_
  have hi := mem_range.1 hi
  have hj := mem_range.1 hj
  change sampleWord english i = sampleWord english j at h
  simp only [sampleWord, cons.injEq, true_and, and_true] at h
  obtain ⟨h1, h2, h3⟩ := h
  have e1 := congrArg UInt8.toNat h1
  have e2 := congrArg UInt8.toNat h2
  have e3 := congrArg UInt8.toNat h3
  simp only [UInt8.toNat_ofNat'] at e1 e2 e3
  omega

theorem populate_other {key : Bytes → Bytes} (hkey : ∀ j, key (sampleWord false j) = sampleWord false j) (j : Nat) :
    populate key (sampleList false).words (sampleWord true j) = none := by
  refine foldl_update_of_notMem (fun w hw => ?_) _
  have hmem := fst_mem_of_mem_zipIdx hw
  simp only [sampleList, List.mem_map] at hmem
  obtain ⟨i, -, hi⟩ := hmem
  rw [← hi, hkey]
  exact fun h => absurd (cons.inj h).1 (by decide)

theorem sample_onlyMatch (crc32 : Bytes → UInt32) (hasChecksum : Bool) (hj : j < 1626)
    (hmem : sampleWord true j ∈ seed) : OnlyMatch crc32 sampleLists seed hasChecksum .english := by
  rintro other ⟨hmatch, -⟩
  by_contra hother
  have hfound := PartialMap.isSome_mapM.1 hmatch _ hmem
  have hlist : sampleLists other = sampleList false := by
    rw [sampleLists, beq_eq_false_iff_ne.2 hother]
  have htrim : utf8Prefix (sampleWord true j) 4 = sampleWord true j :=
    utf8Prefix_of_length_le (le_refl 4) fun c hc => (plain_sampleWord true hj c hc).1
  rw [hlist] at hfound
  cases hasChecksum with
  | true =>
    have hnone : (sampleList false).trimmedWordMap (utf8Prefix (sampleWord true j) 4) = none := by
      rw [htrim]
      exact populate_other (fun _ => rfl) j
    rw [if_pos rfl] at hfound
    exact absurd (hnone ▸ hfound) (by decide)
  | false =>
    have hnone : (sampleList false).wordMap (sampleWord true j) = none := populate_other (fun _ => rfl) j
    grind

theorem sampleLists_word (i : UInt32) (hi : i.toNat < 1626) :
    (sampleLists .english).word i = sampleWord true i.toNat := by
  have hlt : i.toNat < ((List.range 1626).map (sampleWord true)).length := by
    rwa [length_map, length_range]
  simp only [WordList.word, sampleLists, sampleList, beq_self_eq_true]
  simp_all

def sampleText (count : Nat) : Bytes := joinWords 32 (List.replicate count (sampleWord true 0))

theorem seedOf_sampleText (h : count ≠ 0) :
    seedOf (sampleText count) = (List.replicate count 0).map (sampleLists .english).word := by
  rw [map_replicate, sampleLists_word 0 (by decide), sampleText]
  refine seedOf_joinWords (by simpa using h) fun w hw => ?_
  rw [eq_of_mem_replicate hw]
  exact ⟨cons_ne_nil _ _, fun c hc => (plain_sampleWord true (by decide) c hc).2⟩

theorem sampleLists_distinct : (sampleLists .english).Distinct := sampleList_distinct true

theorem sampleText_onlyMatch (crc32 : Bytes → UInt32) (h : count ≠ 0) :
    OnlyMatch crc32 sampleLists (seedOf (sampleText count)) false .english := by
  refine sample_onlyMatch crc32 false (show 0 < 1626 by decide) ?_
  rw [seedOf_sampleText h, map_replicate, sampleLists_word 0 (by decide)]
  exact mem_replicate.2 ⟨h, rfl⟩

theorem sampleKey_onlyMatch (crc32 : Bytes → UInt32) (k : SecretKey)
    (h : bytesToWords crc32 sampleLists k.bytes [] Language.english.name = some text) :
    OnlyMatch crc32 sampleLists (seedOf text) true .english := by
  have his := inList_numbersOf k.bytes
  have hlen : (numbersOf k.bytes).length = 24 := by rw [length_numbersOf, k.size]
  obtain ⟨i, rest, hi⟩ := exists_cons_of_length_eq_add_one hlen
  have hfirst : i.toNat < 1626 := his i (by rw [hi]; exact mem_cons_self)
  have hne : k.bytes ≠ [] := ne_nil_of_length_eq_add_one k.size
  rw [bytesToWords_eq (by decide) (by rw [k.size]; decide) hne, Option.some.injEq] at h
  rw [← h, seedOf_joinWords (by simp) (plain_of_inList crc32 _ his hlen)]
  grind [sample_onlyMatch, sampleLists_word]

theorem inList_replicate_zero (count : Nat) : InList (List.replicate count 0) := by
  intro i hi
  rw [eq_of_mem_replicate hi]
  decide

/-- **Seeds and keys correspond.** The old English list is never written, and its prefixes are not distinct. -/
theorem seeds_are_a_bijection (crc32 : Bytes → UInt32) (lists : Language → WordList) (language : Language)
    (hlanguage : language ≠ .englishOld) (hdistinct : (lists language).Distinct) :
    (∀ k : SecretKey, ∃ text, bytesToWords crc32 lists k.bytes [] language.name = some text ∧
      (OnlyMatch crc32 lists (seedOf text) true language →
        wordsToKey crc32 lists text = some (k, language.name))) ∧
    ∀ (text : Bytes) (is : List UInt32) (duplicate : Bool), is.length = 24 → InList is →
      seedOf text = is.map (lists language).word → OnlyMatch crc32 lists (seedOf text) false language →
      ((wordsToBytes crc32 lists text [] 32 duplicate).isSome = true ↔
        ∀ t ∈ triples is, tripleValue t.1 t.2.1 t.2.2 < 2 ^ 32) ∧
      ∀ dst name, wordsToBytes crc32 lists text [] 32 duplicate = some (dst, name) →
        bytesToWords crc32 lists dst [] name = some (joinWords 32 (is.map (lists language).word ++
          [checksumWord crc32 (lists language) (is.map (lists language).word)])) := by
  refine ⟨fun k => ?_, fun text is duplicate hlen his hseed honly => ?_⟩
  · have hne : k.bytes ≠ [] := ne_nil_of_length_eq_add_one k.size
    refine ⟨_, bytesToWords_eq hlanguage (by rw [k.size]; decide) hne, fun honly => ?_⟩
    have hlen : (numbersOf k.bytes).length = 24 := by rw [length_numbersOf, k.size]
    have hplain := plain_of_inList crc32 (lists language) (inList_numbersOf k.bytes) hlen
    exact wordsToKey_of_key hdistinct k (seedOf_joinWords (by simp) hplain) honly
  · have hread := wordsToBytes_of_words hdistinct his (.inr (.inl hlen)) hseed (by simpa [hlen] using honly)
      (fun h => absurd (hlen.symm.trans h) (by decide)) [] duplicate
    rw [hread]
    refine ⟨by rw [Option.isSome_map]; exact isSome_restoreAll_iff his, fun dst name h => ?_⟩
    obtain ⟨vals, hvals, h⟩ := Option.map_eq_some_iff.1 h
    grind [bytesToWords_of_denotes, restoreAll_iff]

theorem seeds_are_a_bijection_sample :
    (∃ text, bytesToWords (fun _ => 0) sampleLists (default : SecretKey).bytes [] "English" = some text ∧
      wordsToKey (fun _ => 0) sampleLists text = some (default, "English")) ∧
    (wordsToBytes (fun _ => 0) sampleLists (sampleText 24) [] 32 false).isSome = true := by
  obtain ⟨hkeys, htexts⟩ := seeds_are_a_bijection (fun _ => 0) sampleLists .english (by decide) sampleLists_distinct
  constructor
  · obtain ⟨text, htext, hback⟩ := hkeys default
    exact ⟨text, htext, hback (sampleKey_onlyMatch _ default htext)⟩
  · obtain ⟨haccepts, -⟩ := htexts (sampleText 24) (List.replicate 24 0) false (by decide) (inList_replicate_zero 24)
      (seedOf_sampleText (by decide)) (sampleText_onlyMatch _ (by decide))
    exact haccepts.2 (by simp [replicate_succ, triples, tripleValue])

theorem length_of_restoreAll (h : restoreAll is = some vals) : vals.length = is.length / 3 := by
  rw [← length_triples, (PartialMap.mapM_eq_some_iff.1 h).length_eq]

theorem length_of_short_seed (hlen : (seedOf text).length = 12)
    (h : wordsToBytes crc32 lists text [] 32 true = some (s, name)) : s.length = 16 := by
  have hfound : ∀ language is,
      findSeedLanguage crc32 lists (seedOf text) (decide ((seedOf text).length = 25)) = some (language, is) →
      is.length = (seedOf text).length := by
    intro language is hfound
    rw [hlen] at hfound
    exact (PartialMap.mapM_eq_some_iff.1 (matchWords_of_findLoop hfound)).length_eq.symm
  rw [wordsToBytes_eq_bind (.inl hlen) fun language is h => ⟨hfound language is h, fun h => by omega⟩] at h
  obtain ⟨⟨language, is⟩, hmatch, h⟩ := Option.bind_eq_some_iff.1 h
  obtain ⟨vals, hvals, h⟩ := Option.map_eq_some_iff.1 h
  grind [length_storeAll, length_of_restoreAll]

/-- **A text of twelve words is never a key.** -/
theorem short_seed_never_restored (crc32 : Bytes → UInt32) (lists : Language → WordList) (text : Bytes)
    (hlen : (seedOf text).length = 12) : wordsToKey crc32 lists text = none := by
  rw [wordsToKey, Option.bind_eq_none_iff]
  grind [length_of_short_seed]

theorem short_seed_never_restored_sample :
    (seedOf (sampleText 12)).length = 12 ∧ wordsToKey (fun _ => 0) sampleLists (sampleText 12) = none := by
  have hlen : (seedOf (sampleText 12)).length = 12 := by
    rw [seedOf_sampleText (by decide), length_map, length_replicate]
  exact ⟨hlen, short_seed_never_restored _ _ _ hlen⟩

theorem twelve_words_refused : seedOf (sampleText 12) = (List.replicate 12 0).map (sampleLists .english).word ∧
    OnlyMatch (fun _ => 0) sampleLists (seedOf (sampleText 12)) false .english ∧
    (∀ t ∈ triples (List.replicate 12 0), tripleValue t.1 t.2.1 t.2.2 < 2 ^ 32) ∧
    wordsToBytes (fun _ => 0) sampleLists (sampleText 12) [] 32 true = some (List.replicate 16 0, "English") ∧
    wordsToKey (fun _ => 0) sampleLists (sampleText 12) = none := by
  have hseed := seedOf_sampleText (show 12 ≠ 0 by decide)
  have honly := sampleText_onlyMatch (fun _ => 0) (show 12 ≠ 0 by decide)
  have hread : wordsToBytes (fun _ => 0) sampleLists (sampleText 12) [] 32 true =
      some (List.replicate 16 0, "English") := by
    rw [wordsToBytes_of_words sampleLists_distinct (inList_replicate_zero 12) (.inl rfl) hseed honly (by decide)]
    rfl
  refine ⟨hseed, honly, by simp [replicate_succ, triples, tripleValue], hread, ?_⟩
  rw [wordsToKey, hread, Option.bind_some]
  exact dif_neg (by decide)

end

end Mnemonics
end Electronero
