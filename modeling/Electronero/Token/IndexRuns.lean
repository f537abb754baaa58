import Electronero.Token.Index
import Electronero.Lib.Run
/-!
# Indexes over whole runs

The file (`load`, `save`, token.cpp:74-142) holds no index, so a reload shows whether those in memory were right.
-/
namespace Electronero
open Text FiniteMap Machine

namespace TokenStore
variable {env : Env} {s s' : TokenStore}

def Reloads (s : TokenStore) : Prop :=
  ∀ order, Enumerates order s.tokens →
    (∀ a, (load s.save order).getByAddress a = s.getByAddress a) ∧
    ∀ c, ((load s.save order).listByCreator c).Perm (s.listByCreator c)

structure Live (s : TokenStore) : Prop where
  named : ∀ n t, s.get n = some t → t.name = n
  addressLive : ∀ a n, s.addressIndex.lookup a = some n → ∃ t, s.get n = some t
  listLive : ∀ c n, n ∈ s.namesOf c → ∃ t, s.get n = some t

theorem load_save (order : List Bytes) : load s.save order = s.rebuildIndexes order := rfl

theorem Live.map_name_listByCreator (h : s.Live) (c : Bytes) : (s.listByCreator c).map (·.name) = s.namesOf c := by
  have key : ∀ ns : List Bytes, (∀ n ∈ ns, ∃ t, s.get n = some t) → (ns.filterMap s.get).map (·.name) = ns := by
    intro ns
    induction ns with
    | nil => intro _; rfl
    | cons n ns ih =>
      intro hns
      obtain ⟨t, hg⟩ := hns n List.mem_cons_self
      rw [List.filterMap_cons_some hg, List.map_cons, h.named n t hg, ih fun m hm => hns m (List.mem_cons_of_mem _ hm)]
  exact key _ (h.listLive c)

theorem Live.map_name_getByAddress (h : s.Live) (a : Bytes) :
    (s.getByAddress a).map (·.name) = s.addressIndex.lookup a := by
  unfold getByAddress
  cases hl : s.addressIndex.lookup a with
  | none => rfl
  | some n =>
    obtain ⟨t, hg⟩ := h.addressLive a n hl
    simp [hg, h.named n t hg]

theorem live_rebuild {order : List Bytes} (hn : ∀ n t, s.get n = some t → t.name = n) :
    (s.rebuildIndexes order).Live := by
  refine ⟨fun n t hg => ?_, fun a n hl => ?_, fun c n hm => ?_⟩
  · rw [rebuildIndexes_get] at hg
    exact hn n t hg
  · rw [rebuildIndexes_addressIndex] at hl
    obtain ⟨t, hg, -⟩ := hasAddress_iff.1 (List.find?_some hl)
    exact ⟨t, by rwa [rebuildIndexes_get]⟩
  · rw [rebuildIndexes_namesOf, List.mem_filter] at hm
    rw [rebuildIndexes_get]
    unfold createdBy at hm
    cases hg : s.get n with
    | none => simp [hg] at hm
    | some t => exact ⟨t, rfl⟩

theorem consistent_iff_reloads (h : s.Live) : s.Consistent ↔ s.Reloads := by
  constructor
  · intro hc order ho
    obtain ⟨haddr, hnames⟩ := hc order ho
    grind [load_save, getByAddress, rebuildIndexes_get, listByCreator]
  · intro hr order ho
    obtain ⟨haddr, hlist⟩ := hr order ho
    have hl : (s.rebuildIndexes order).Live := live_rebuild h.named
    rw [load_save] at haddr hlist
    refine ⟨Finmap.ext_lookup fun a => ?_, fun c => ?_⟩
    · rw [← h.map_name_getByAddress, ← hl.map_name_getByAddress, haddr]
    · rw [← h.map_name_listByCreator, ← hl.map_name_listByCreator]
      exact ((hlist c).map _).symm

theorem live_empty : TokenStore.empty.Live :=
  ⟨fun _ _ hg => by simp [get, empty] at hg, fun _ _ hl => by simp [empty] at hl,
    fun _ _ hm => by simp [namesOf, empty, getD] at hm⟩

variable {n n' : Bytes}

theorem exists_get_write (t' : TokenInfo) (recs : List TokenTransferRecord) (h : ∃ u, s.get n' = some u) :
    ∃ u, (s.write n t' recs).get n' = some u := by
  rw [get_write]
  split
  · exact ⟨t', rfl⟩
  · exact h

theorem named_write (h : s.Live) {t t' : TokenInfo} (hg : s.get n = some t) (hn : t'.name = t.name)
    (recs : List TokenTransferRecord) {u : TokenInfo} (hu : (s.write n t' recs).get n' = some u) : u.name = n' := by
  rw [get_write] at hu
  split at hu
  · rename_i e
    obtain rfl := Option.some.inj hu
    rw [hn, e]
    exact h.named n t hg
  · exact h.named n' u hu

theorem live_create (h : s.Live) {name symbol creator address : Bytes} {supply fee nonce : UInt64} :
    (s.create env name symbol supply creator fee address nonce).Live := by
  have hget : ∀ n, (∃ u, s.get n = some u) ∨ n = name →
      ∃ u, (s.create env name symbol supply creator fee address nonce).get n = some u := by
    intro n hn
    rw [get_create]
    by_cases e : n = name
    · exact ⟨_, if_pos e⟩
    · rw [if_neg e]
      exact hn.resolve_right e
  refine ⟨fun n t hg => ?_, fun a n hl => ?_, fun c n hm => ?_⟩
  · rw [get_create] at hg
    split at hg
    · rename_i e
      obtain rfl := Option.some.inj hg
      exact e.symm
    · exact h.named n t hg
  · rw [addressIndex_create] at hl
    split at hl
    · exact hget n (Or.inr (Option.some.inj hl).symm)
    · exact hget n (Or.inl (h.addressLive a n hl))
  · rw [namesOf_create] at hm
    split at hm
    · rcases List.mem_append.1 hm with hm | hm
      · exact hget n (Or.inl (h.listLive _ n hm))
      · exact hget n (Or.inr (List.mem_singleton.1 hm))
    · exact hget n (Or.inl (h.listLive c n hm))

theorem live_step {op : StoreOp} {b : Bool} (h : s.Live) (hs : s.step env op = (s', b)) : s'.Live := by
  cases hi : op.isIndexing with
  | false =>
    obtain rfl | ⟨c, ⟨n, t, recs, hg, -, -, rfl⟩, -⟩ := step_change hs hi
    · exact h
    · exact ⟨fun _ _ hu => named_write h hg (Change.apply_name t c) recs hu,
        fun a n' hl => exists_get_write _ recs (h.addressLive a n' hl),
        fun c' n' hm => exists_get_write _ recs (h.listLive c' n' hm)⟩
  | true =>
    cases op with
    | create name symbol supply creator fee address nonce =>
      obtain rfl := congrArg Prod.fst hs
      exact live_create h
    | transferOwnership address creator newOwner =>
      obtain rfl | ⟨n, t, hg, hc, rfl⟩ := transferOwnership_cases hs
      · exact h
      have hlive : ∀ n', (∃ u, s.get n' = some u) →
          ∃ u, ((s.write n { t with creator := newOwner } []).moveName n creator newOwner).get n' = some u :=
        fun n' hn' => exists_get_write _ [] hn'
      have hname : TokenInfo.name { t with creator := newOwner } = t.name := rfl
      refine ⟨fun _ _ hu => named_write h hg hname [] hu, fun a n' hl => hlive n' (h.addressLive a n' hl),
        fun c' n' hm => hlive n' ?_⟩
      rw [namesOf_moveName] at hm
      rcases List.mem_append.1 hm with hm | hm
      · split at hm
        · exact h.listLive creator n' (List.mem_filter.1 hm).1
        · exact h.listLive c' n' hm
      · grind
    | _ => simp [StoreOp.isIndexing] at hi

end TokenStore

structure StoreWithFile where
  store : TokenStore
  file : Option TokenStoreData

inductive StoreEvent where
  | call (op : StoreOp)
  | save
  | load (order : List Bytes)
  | rebuildIndexes (order : List Bytes)

namespace StoreWithFile

def start : StoreWithFile := ⟨TokenStore.empty, none⟩

/-- Without a file `load` fails and leaves the store as it is. -/
def step (env : Env) (p : StoreWithFile) : StoreEvent → StoreWithFile
  | .call op => { p with store := (p.store.step env op).1 }
  | .save => { p with file := some p.store.save }
  | .load order => match p.file with
    | none => p
    | some d => { p with store := TokenStore.load d order }
  | .rebuildIndexes order => { p with store := p.store.rebuildIndexes order }

def Visits (p : StoreWithFile) : StoreEvent → Prop
  | .load order => ∀ d, p.file = some d → Enumerates order d.tokens
  | .rebuildIndexes order => Enumerates order p.store.tokens
  | _ => True

def CreatesUnused (env : Env) (p : StoreWithFile) (e : StoreEvent) : Prop :=
  ∀ name symbol supply creator fee address nonce,
    e = .call (.create name symbol supply creator fee address nonce) →
    p.store.Unused name (p.store.createAddress env name symbol creator address nonce)

variable {env : Env}

def Sound (p : StoreWithFile) : Prop :=
  p.store.Indexed ∧ ∀ d, p.file = some d → TokenStore.UniqueAddresses d.tokens

theorem sound_step (p : StoreWithFile) (e : StoreEvent) (h : p.Sound)
    (hok : p.Visits e ∧ p.CreatesUnused env e) : (p.step env e).Sound := by
  obtain ⟨hi, hf⟩ := h
  obtain ⟨hv, hfresh⟩ := hok
  cases e with
  | call op =>
    refine ⟨TokenStore.indexed_step hi rfl ?_, hf⟩
    rintro name symbol supply creator fee address nonce rfl
    exact hfresh _ _ _ _ _ _ _ rfl
  | save =>
    refine ⟨hi, ?_⟩
    rintro d ⟨rfl⟩
    exact hi.uniqueAddresses
  | load order =>
    cases hfile : p.file with
    | none =>
      have hp : p.step env (.load order) = p := by simp [step, hfile]
      rw [hp]
      exact ⟨hi, hf⟩
    | some d =>
      have hp : p.step env (.load order) = { p with store := TokenStore.load d order } := by simp [step, hfile]
      rw [hp]
      exact ⟨TokenStore.indexed_rebuild (hf d hfile) (hv d hfile), hf⟩
  | rebuildIndexes order =>
    exact ⟨TokenStore.indexed_rebuild hi.uniqueAddresses hv, hf⟩

theorem createsUnused_of_consistent (p : StoreWithFile) (e : StoreEvent) (h : p.store.Consistent)
    (h' : (p.step env e).store.Consistent) : p.CreatesUnused env e := by
  rintro name symbol supply creator fee address nonce rfl
  exact TokenStore.unused_of_indexed_create (TokenStore.consistent_iff.1 h) (TokenStore.consistent_iff.1 h')

def FileLive (p : StoreWithFile) : Prop :=
  p.store.Live ∧ ∀ d, p.file = some d → ∀ n t, d.tokens.lookup n = some t → t.name = n

theorem fileLive_step (p : StoreWithFile) (e : StoreEvent) (h : p.FileLive) : (p.step env e).FileLive := by
  obtain ⟨hl, hf⟩ := h
  cases e with
  | call op => exact ⟨TokenStore.live_step hl rfl, hf⟩
  | save =>
    refine ⟨hl, ?_⟩
    rintro d ⟨rfl⟩
    exact hl.named
  | load order =>
    cases hfile : p.file with
    | none =>
      have hp : p.step env (.load order) = p := by simp [step, hfile]
      rw [hp]
      exact ⟨hl, hf⟩
    | some d =>
      have hp : p.step env (.load order) = { p with store := TokenStore.load d order } := by simp [step, hfile]
      rw [hp]
      exact ⟨TokenStore.live_rebuild (hf d hfile), hf⟩
  | rebuildIndexes order => exact ⟨TokenStore.live_rebuild hl.named, hf⟩

theorem fileLive_start : start.FileLive :=
  ⟨TokenStore.live_empty, fun d hd => by simp [start] at hd⟩

theorem always_consistent_iff (env : Env) (es : List StoreEvent) (hv : Meets (step env) Visits start es) :
    Always (step env) (fun p => p.store.Consistent) start es ↔
      Meets (step env) (CreatesUnused env) start es := by
  constructor
  · intro h
    exact meets_of_always createsUnused_of_consistent h
  · intro hfresh
    have hs : start.Sound := ⟨TokenStore.indexed_empty, fun d hd => by simp [start] at hd⟩
    exact always_of_invariant sound_step (fun p hp => TokenStore.consistent_iff.2 hp.1) hs (hv.and hfresh)

/-- **Index consistency** over a run, and across reloads, exactly if every `create` brings an unused name and address. -/
theorem always_consistent_iff_fresh (env : Env) (es : List StoreEvent) (hv : Meets (step env) Visits start es) :
    (Always (step env) (fun p => p.store.Consistent) start es ↔
      Meets (step env) (CreatesUnused env) start es) ∧
    (Always (step env) (fun p => p.store.Reloads) start es ↔
      Meets (step env) (CreatesUnused env) start es) := by
  have hlive := always_of_step (@fileLive_step env) es fileLive_start
  have hiff := always_consistent_iff env es hv
  refine ⟨hiff, ?_⟩
  rw [← hiff]
  exact (always_congr (fun p hp => TokenStore.consistent_iff_reloads hp.1) hlive).symm

section Example

def handOver : List StoreEvent :=
  [.call (.create (ascii "Gold") (ascii "GLD") 10 (ascii "alice") 0 (ascii "cEVM1") 0), .save,
    .call (.transferOwnership (ascii "cEVM1") (ascii "alice") (ascii "bob")), .load [ascii "Gold"]]

theorem handOver_consistent : Meets (step Env.plain) Visits start handOver ∧
    Meets (step Env.plain) (CreatesUnused Env.plain) start handOver ∧
    Always (step Env.plain) (fun p => p.store.Consistent) start handOver := by
  have hv : Meets (step Env.plain) Visits start handOver := by
    refine ⟨trivial, trivial, trivial, ?_, trivial⟩
    rintro d ⟨rfl⟩
    refine ⟨by simp, fun k => ?_⟩
    show k ∈ [ascii "Gold"] ↔ k ∈ Finmap.insert (ascii "Gold") _ ∅
    simp [Finmap.mem_insert, Finmap.notMem_empty]
  have hf : Meets (step Env.plain) (CreatesUnused Env.plain) start handOver := by
    refine ⟨?_, ?_, ?_, ?_, trivial⟩
    · rintro name symbol supply creator fee address nonce ⟨rfl⟩
      exact ⟨rfl, fun n t hg => by simp [TokenStore.get, start, TokenStore.empty] at hg⟩
    · intro _ _ _ _ _ _ _ h
      cases h
    · intro _ _ _ _ _ _ _ h
      cases h
    · intro _ _ _ _ _ _ _ h
      cases h
  exact ⟨hv, hf, (always_consistent_iff_fresh Env.plain handOver hv).1.2 hf⟩

def sameName : List StoreEvent :=
  [.call (.create (ascii "Gold") (ascii "GLD") 10 (ascii "alice") 0 (ascii "cEVM1") 0),
    .call (.create (ascii "Gold") (ascii "GLD") 10 (ascii "bob") 0 (ascii "cEVM2") 0)]

theorem sameName_inconsistent : ¬ Always (step Env.plain) (fun p => p.store.Consistent) start sameName ∧
    ((run (step Env.plain) start sameName).store.listByCreator (ascii "alice")).map (·.creator) = [ascii "bob"] ∧
    (run (step Env.plain) start (sameName ++ [.save, .load [ascii "Gold"]])).store.listByCreator (ascii "alice")
      = [] := by
  refine ⟨fun h => ?_, by decide +kernel, by decide +kernel⟩
  have hl := (TokenStore.consistent_iff.1 h.2.2).listed (ascii "alice") (ascii "Gold")
  revert hl
  decide +kernel

end Example

end StoreWithFile

end Electronero
