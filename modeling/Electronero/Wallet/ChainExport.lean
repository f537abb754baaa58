import Electronero.Wallet.Scan
/-!
# Exporting and importing the hash chain (`src/wallet/wallet2.h:108-138`, `src/wallet/wallet2.cpp:9759-9789`)

The importer pushes the genesis hash `offset` times and trims. But `trim` keeps one block, so the offset comes back one
less.
-/
namespace Electronero.Wire
open List

namespace Hashchain

def isInBounds (c : Hashchain) (idx : Nat) : Bool := c.offset ≤ idx ∧ idx < c.size

def at? (c : Hashchain) (idx : Nat) : Option Hash := c.blocks[idx - c.offset]?

def clear (c : Hashchain) : Hashchain := { c with offset := 0, blocks := [] }

def empty (c : Hashchain) : Bool := c.blocks = [] ∧ c.offset = 0

def trimLoop (height : Nat) : Nat → List Hash → Nat × List Hash
  | offset, first :: next :: rest =>
    if height > offset then trimLoop height (offset + 1) (next :: rest) else (offset, first :: next :: rest)
  | offset, blocks => (offset, blocks)

def trim (c : Hashchain) (height : Nat) : Hashchain :=
  { c with
    offset := (trimLoop height c.offset c.blocks).1
    blocks := (trimLoop height c.offset c.blocks).2 }

/-- The same offset, size and genesis hash, and the same hashes in bounds. -/
structure Same (c d : Hashchain) : Prop where
  offset : d.offset = c.offset
  size : d.size = c.size
  genesis : d.genesis = c.genesis
  hashes : ∀ idx, c.isInBounds idx = true → d.at? idx = c.at? idx

theorem same_self (c : Hashchain) : Same c c := ⟨rfl, rfl, rfl, fun _ _ => rfl⟩

theorem foldl_pushBack (hashes : List Hash) (c : Hashchain) :
    hashes.foldl pushBack c =
      ⟨c.offset, if c.empty then hashes.head?.getD c.genesis else c.genesis, c.blocks ++ hashes⟩ := by
  induction hashes generalizing c with
  | nil => simp
  | cons hash hashes ih =>
    rw [foldl_cons, ih]
    simp [pushBack, empty, and_comm]

theorem trimLoop_replicate (g : Hash) (height n offset : Nat) (h : offset + n < height) :
    trimLoop height offset (replicate (n + 1) g) = (offset + n, [g]) := by
  induction n generalizing offset with
  | zero => rfl
  | succ n ih =>
    show trimLoop height offset (g :: g :: replicate n g) = _
    rw [trimLoop, if_pos (by omega), ← replicate_succ, ih (offset + 1) (by omega), Nat.add_right_comm, Nat.add_assoc]

end Hashchain

namespace Wallet2

def exportBlockchain (w : Wallet2) : Nat × Hash × List Hash :=
  (w.chain.offset, if w.chain.empty then default else w.chain.genesis,
    (range' w.chain.offset (w.chain.size - w.chain.offset)).filterMap w.chain.at?)

def importedChain (c : Hashchain) (bc : Nat × Hash × List Hash) : Hashchain :=
  let filled := if bc.1 ≠ 0 then ((replicate bc.1 bc.2.1).foldl Hashchain.pushBack c.clear).trim bc.1 else c.clear
  bc.2.2.foldl Hashchain.pushBack filled

def importBlockchain (genesisHash : Hash) (w : Wallet2) (bc : Nat × Hash × List Hash) : Option Wallet2 :=
  let chain := importedChain w.chain bc
  if genesisHash ≠ chain.genesis then none else some { w with chain, localBcHeight := .ofNat chain.size }

theorem filterMap_range {T : Type} (l : List T) : (range l.length).filterMap (l[·]?) = l := by
  induction l with
  | nil => rfl
  | cons x l ih =>
    rw [length_cons, range_succ_eq_map, filterMap_cons_some (by rfl), filterMap_map]
    exact congrArg (x :: ·) ih

theorem exportBlockchain_hashes (w : Wallet2) : w.exportBlockchain.2.2 = w.chain.blocks := by
  rw [exportBlockchain, range'_eq_map_range, filterMap_map]
  unfold Hashchain.at? Hashchain.size
  simpa [Function.comp_def] using filterMap_range w.chain.blocks

theorem importedChain_untrimmed (c : Hashchain) (g : Hash) (hashes : List Hash) :
    importedChain c (0, g, hashes) = ⟨0, hashes.head?.getD c.genesis, hashes⟩ := by
  simp [importedChain, Hashchain.foldl_pushBack, Hashchain.clear, Hashchain.empty]

theorem importedChain_trimmed (c : Hashchain) (n : Nat) (g : Hash) (hashes : List Hash) :
    importedChain c (n + 1, g, hashes) = ⟨n, g, g :: hashes⟩ := by
  have htrim := Hashchain.trimLoop_replicate g (n + 1) n 0 (by omega)
  rw [Nat.zero_add] at htrim
  have hfilled : (replicate (n + 1) g).foldl Hashchain.pushBack c.clear = ⟨0, g, replicate (n + 1) g⟩ := by
    rw [Hashchain.foldl_pushBack]
    simp [Hashchain.clear, Hashchain.empty, replicate_succ]
  simp only [importedChain, if_pos (Nat.succ_ne_zero n), hfilled, Hashchain.trim, htrim]
  rw [Hashchain.foldl_pushBack]
  simp [Hashchain.empty]

theorem importBlockchain_iff {genesisHash : Hash} {w imported : Wallet2} {bc : Nat × Hash × List Hash} :
    importBlockchain genesisHash w bc = some imported ↔ genesisHash = (importedChain w.chain bc).genesis ∧
      { w with chain := importedChain w.chain bc, localBcHeight := .ofNat (importedChain w.chain bc).size } = imported := by
  simp [importBlockchain]

/-- **Export and import** give the chain back exactly if it is not trimmed and starts with the genesis hash. -/
theorem import_export_iff (genesisHash : Hash) (w w' : Wallet2) :
    (∃ imported, importBlockchain genesisHash w' w.exportBlockchain = some imported ∧ w.chain.Same imported.chain) ↔
    w.chain.offset = 0 ∧ w.chain.genesis = genesisHash ∧ w.chain.blocks.head?.getD w'.chain.genesis = genesisHash := by
  have hexport : w.exportBlockchain = (w.chain.offset, w.exportBlockchain.2.1, w.chain.blocks) :=
    congrArg (fun hashes => (w.chain.offset, w.exportBlockchain.2.1, hashes)) w.exportBlockchain_hashes
  simp only [importBlockchain_iff]
  rw [hexport]
  cases hoffset : w.chain.offset with
  | zero =>
    rw [importedChain_untrimmed]
    constructor
    · rintro ⟨imported, ⟨hhead, rfl⟩, hsame⟩
      exact ⟨rfl, hsame.genesis.symm.trans hhead.symm, hhead.symm⟩
    · rintro ⟨-, hgenesis, hhead⟩
      have hchain : w.chain = ⟨0, w.chain.blocks.head?.getD w'.chain.genesis, w.chain.blocks⟩ := by
        rw [hhead, ← hgenesis, ← hoffset]
      exact ⟨_, ⟨hhead.symm, rfl⟩, hchain ▸ Hashchain.same_self w.chain⟩
  | succ n =>
    rw [importedChain_trimmed]
    refine iff_of_false ?_ (by simp)
    rintro ⟨imported, ⟨-, rfl⟩, hsame⟩
    exact absurd (hsame.offset.trans hoffset) (Nat.ne_add_one n)

def trimmedWallet : Wallet2 :=
  { fresh .fresh ∅ 0 with
    chain := ([Env.plainKey 1, Env.plainKey 2, Env.plainKey 3].foldl Hashchain.pushBack ⟨0, default, []⟩).trim 1 }

theorem import_trimmedWallet :
    trimmedWallet.chain.offset = 1 ∧ trimmedWallet.chain.size = 3 ∧
      (importBlockchain (Env.plainKey 1) (fresh .fresh ∅ 0) trimmedWallet.exportBlockchain).map (·.chain.offset) = some 0 := by
  decide

end Wallet2
end Electronero.Wire
