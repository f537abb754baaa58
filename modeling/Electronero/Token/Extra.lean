import Electronero.Basic
/-!
# Token payloads (`src/token/token.cpp:424-477`)

The operation number and its fields, separated by tabs, and the signature as a last hex field. What is verified is the
re-serialised result of the parser. Without a signature the last field takes its place: an empty one is lost, and one that
reads as 64 bytes in hex is taken for the signature.
-/
namespace Electronero
open Text List

/-- The underlying type of `token_op_type` is `uint8_t`, so a value may also have no name. -/
inductive TokenOpType where
  | create
  | transfer
  | approve
  | transferFrom
  | setFee
  | burn
  | mint
  | transferOwnership
  | pause
  | freeze
  | lockFee
  | unnamed (code : UInt8) (beyond : 11 ≤ code.toNat)
deriving DecidableEq

namespace TokenOpType

def toInt : TokenOpType → Nat
  | create => 0
  | transfer => 1
  | approve => 2
  | transferFrom => 3
  | setFee => 4
  | burn => 5
  | mint => 6
  | transferOwnership => 7
  | pause => 8
  | freeze => 9
  | lockFee => 10
  | unnamed code _ => code.toNat

def ofCode (code : UInt8) : TokenOpType :=
  match h : code.toNat with
  | 0 => create
  | 1 => transfer
  | 2 => approve
  | 3 => transferFrom
  | 4 => setFee
  | 5 => burn
  | 6 => mint
  | 7 => transferOwnership
  | 8 => pause
  | 9 => freeze
  | 10 => lockFee
  | _ + 11 => unnamed code (by omega)

/-- `static_cast<token_op_type>(op_int)`: the integer is reduced to 8 bits. -/
def ofInt (v : Int) : TokenOpType := ofCode (UInt8.ofNat (v % 256).toNat)

theorem toInt_lt (op : TokenOpType) : op.toInt < 256 := by
  cases op with
  | unnamed code _ => exact code.toNat_lt
  | _ => decide

theorem ofCode_toInt (op : TokenOpType) : ofCode (UInt8.ofNat op.toInt) = op := by
  cases op with
  | unnamed code beyond =>
    have hcode : UInt8.ofNat code.toNat = code := by simp
    grind [toInt, ofCode]
  | _ => rfl

theorem ofInt_toInt (op : TokenOpType) : ofInt (op.toInt : Int) = op := by
  have hlt := toInt_lt op
  grind [ofInt, ofCode_toInt]

theorem toInt_injective {op op' : TokenOpType} (h : op.toInt = op'.toInt) : op = op' := by
  rw [← ofCode_toInt op, ← ofCode_toInt op', h]

end TokenOpType

structure TokenExtra where
  op : TokenOpType
  fields : List Bytes
  sig : Option Signature
deriving DecidableEq

def makeTokenExtra (op : TokenOpType) (fields : List Bytes) : Bytes := decimal op.toInt ++ joinFields tab fields

def makeSignedTokenExtra (env : Env) (op : TokenOpType) (fields : List Bytes) (pub : PublicKey) (sec : SecretKey) :
    Bytes :=
  let base := makeTokenExtra op fields
  base ++ tab :: podToHex (env.generateSignature (env.cnFastHash base) pub sec)

def splitSignature (fields : List Bytes) : List Bytes × Option Signature :=
  match fields.getLast? with
  | none => (fields, none)
  | some sigHex =>
    if sigHex.length = 64 * 2 then
      match hexToPod 64 sigHex with
      | some sig => (fields.dropLast, some sig)
      | none => (fields, none)
    else (fields, none)

def parseTokenExtra (data : Bytes) : Option TokenExtra :=
  match readInt data with
  | none => none
  | some (opInt, rest) =>
    -- `if (iss.peek() == '\t') iss.get()`
    let rest := if rest.head? = some tab then rest.tail else rest
    let r := splitSignature (splitFields tab rest)
    some ⟨TokenOpType.ofInt opInt, r.1, r.2⟩

def verifyTokenExtra (env : Env) (op : TokenOpType) (fields : List Bytes) (pub : PublicKey) (sig : Signature) : Bool :=
  env.checkSignature (env.cnFastHash (makeTokenExtra op fields)) pub sig

theorem splitSignature_subset {fields : List Bytes} {f : Bytes} (h : f ∈ (splitSignature fields).1) : f ∈ fields := by
  unfold splitSignature at h
  split at h
  · exact h
  · split at h
    · split at h
      · exact dropLast_subset _ h
      · exact h
    · exact h

theorem tab_not_mem_of_parse {data : Bytes} {e : TokenExtra} (h : parseTokenExtra data = some e) :
    ∀ f ∈ e.fields, tab ∉ f := by
  unfold parseTokenExtra at h
  grind [sep_not_mem_splitFields, splitSignature_subset]

theorem tab_not_mem_decimal (n : Nat) : tab ∉ decimal n := by
  intro h
  have hd := isDigit_of_mem_decimal h
  simp [isDigit, tab] at hd

theorem makeTokenExtra_injective {op op' : TokenOpType} {fs fs' : List Bytes} (hf : ∀ f ∈ fs, tab ∉ f)
    (hf' : ∀ f ∈ fs', tab ∉ f) (h : makeTokenExtra op fs = makeTokenExtra op' fs') : op = op' ∧ fs = fs' := by
  -- a tab in front makes the number the first of the joined fields
  have hj : joinFields tab (decimal op.toInt :: fs) = joinFields tab (decimal op'.toInt :: fs') := by
    rw [joinFields_cons, joinFields_cons]
    exact congrArg (tab :: ·) h
  have hall : ∀ (n : Nat) (gs : List Bytes), (∀ g ∈ gs, tab ∉ g) → ∀ g ∈ decimal n :: gs, tab ∉ g := by
    intro n gs hgs g hg
    rcases mem_cons.1 hg with rfl | hg
    · exact tab_not_mem_decimal n
    · exact hgs g hg
  obtain ⟨hn, hfs⟩ := cons.inj (joinFields_injective (hall _ _ hf) (hall _ _ hf') hj)
  exact ⟨TokenOpType.toInt_injective (decimal_injective hn), hfs⟩

theorem splitSignature_append (fields : List Bytes) (sig : Signature) :
    splitSignature (fields ++ [podToHex sig]) = (fields, some sig) := by
  simp [splitSignature, length_podToHex, hexToPod_podToHex]

theorem parseTokenExtra_make (op : TokenOpType) (fields : List Bytes) : parseTokenExtra (makeTokenExtra op fields) =
      some ⟨op, (splitSignature (splitFields tab (joinFields tab fields).tail)).1,
        (splitSignature (splitFields tab (joinFields tab fields).tail)).2⟩ := by
  -- the number is followed by a tab or by nothing
  have hstart : joinFields tab fields = [] ∨ ∃ l, joinFields tab fields = tab :: l := by
    cases fields with
    | nil => exact Or.inl rfl
    | cons f fs => exact Or.inr ⟨_, joinFields_cons f fs⟩
  have hhead : ∀ c ∈ (joinFields tab fields).head?, isDigit c = false := by
    intro c hc
    rcases hstart with h | ⟨l, h⟩
    · rw [h] at hc
      cases hc
    · rw [h] at hc
      obtain rfl := Option.some.inj hc
      rfl
  have hlt : op.toInt < 2 ^ 31 := Nat.lt_trans (TokenOpType.toInt_lt op) (by decide)
  unfold parseTokenExtra makeTokenExtra
  rw [readInt_decimal op.toInt hlt _ hhead]
  simp only [TokenOpType.ofInt_toInt]
  rcases hstart with h | ⟨l, h⟩
  · rw [h]
    rfl
  · rw [h]
    simp only [head?_cons, if_true, tail_cons]

theorem parseTokenExtra_makeSigned (env : Env) (op : TokenOpType) (fields : List Bytes) (pub : PublicKey)
    (sec : SecretKey) (hf : ∀ f ∈ fields, tab ∉ f) : parseTokenExtra (makeSignedTokenExtra env op fields pub sec) =
      some ⟨op, fields, some (env.generateSignature (env.cnFastHash (makeTokenExtra op fields)) pub sec)⟩ := by
  generalize hsig : env.generateSignature (env.cnFastHash (makeTokenExtra op fields)) pub sec = sig
  have hne : podToHex sig ≠ [] := by grind [length_podToHex]
  have hbytes : makeSignedTokenExtra env op fields pub sec = makeTokenExtra op (fields ++ [podToHex sig]) := by
    simp [makeSignedTokenExtra, makeTokenExtra, joinFields_append, ← hsig]
  have hcut := splitFields_joinFields fields (podToHex sig) hf (tab_not_mem_podToHex sig) hne
  rw [hbytes, parseTokenExtra_make, hcut, splitSignature_append]

/-- **A token signature authorises exactly one operation**, and what was signed is what is verified. -/
theorem signature_authorises_one_operation (env : Env) :
    (∀ (data data' : Bytes) (e e' : TokenExtra), parseTokenExtra data = some e → parseTokenExtra data' = some e' →
      e.sig.isSome → e'.sig.isSome → makeTokenExtra e.op e.fields = makeTokenExtra e'.op e'.fields →
      e.op = e'.op ∧ e.fields = e'.fields) ∧
    (∀ (op : TokenOpType) (fields : List Bytes) (pub : PublicKey) (sec : SecretKey), (∀ f ∈ fields, tab ∉ f) →
      ∃ e, parseTokenExtra (makeSignedTokenExtra env op fields pub sec) = some e ∧ e.op = op ∧ e.fields = fields ∧
        e.sig = some (env.generateSignature (env.cnFastHash (makeTokenExtra op fields)) pub sec) ∧
        makeTokenExtra e.op e.fields = makeTokenExtra op fields) := by
  constructor
  · grind [makeTokenExtra_injective, tab_not_mem_of_parse]
  · intro op fields pub sec hf
    exact ⟨_, parseTokenExtra_makeSigned env op fields pub sec hf, rfl, rfl, rfl, rfl⟩

theorem signature_authorises_loosePayload :
    let sig := Env.plain.generateSignature (Env.plain.cnFastHash (makeTokenExtra .transfer [ascii "x"])) default default
    let written := makeSignedTokenExtra Env.plain .transfer [ascii "x"] default default
    let loose := ascii " +257x" ++ tab :: podToHex sig
    ∃ e e', parseTokenExtra written = some e ∧ parseTokenExtra loose = some e' ∧ written ≠ loose ∧
      e.op = e'.op ∧ e.fields = e'.fields := by
  intro sig written loose
  have hw : parseTokenExtra written = some ⟨.transfer, [ascii "x"], some sig⟩ := by decide +kernel
  have hl : parseTokenExtra loose = some ⟨.transfer, [ascii "x"], some sig⟩ := by decide +kernel
  refine ⟨_, _, hw, hl, by decide +kernel, ?_⟩
  exact (signature_authorises_one_operation Env.plain).1 written loose _ _ hw hl rfl rfl rfl

theorem splitSignature_eq_self_iff (fields : List Bytes) (last : Bytes) :
    splitSignature (fields ++ [last]) = (fields ++ [last], none) ↔ readsAsPod 64 last = false := by
  have hpod := hexToPod_isSome_iff 64 last
  have hsplit : splitSignature (fields ++ [last]) =
      if last.length = 64 * 2 then
        match hexToPod 64 last with
        | some sig => (fields, some sig)
        | none => (fields ++ [last], none)
      else (fields ++ [last], none) := by
    simp [splitSignature]
  grind [hexToPod]

theorem length_splitSignature_le (fields : List Bytes) : (splitSignature fields).1.length ≤ fields.length := by
  unfold splitSignature
  grind

/-- **Round trip of an unsigned payload**: it loses nothing exactly if there is no field, or the last one is
neither empty nor readable as a signature. -/
theorem unsigned_payload_round_trip_iff (op : TokenOpType) (fields : List Bytes) (hf : ∀ f ∈ fields, tab ∉ f) :
    parseTokenExtra (makeTokenExtra op fields) = some ⟨op, fields, none⟩ ↔
      ∀ last, fields.getLast? = some last → last ≠ [] ∧ readsAsPod 64 last = false := by
  have hparse : parseTokenExtra (makeTokenExtra op fields) = some ⟨op, fields, none⟩ ↔
      splitSignature (splitFields tab (joinFields tab fields).tail) = (fields, none) := by grind [parseTokenExtra_make]
  rw [hparse]
  rcases eq_nil_or_concat fields with rfl | ⟨init, last, rfl⟩
  · exact iff_of_true rfl (by simp)
  · rw [concat_eq_append] at hf ⊢
    have hinit : ∀ f ∈ init, tab ∉ f := fun f h => hf f (mem_append_left _ h)
    have hlast : tab ∉ last := hf last (mem_append_right _ (mem_singleton_self _))
    rw [splitFields_joinFields_last init last hinit]
    by_cases hne : last = []
    · -- `getline` delivers one field less, and no signature adds one
      grind [length_splitSignature_le, splitFields]
    · rw [splitFields_last last hlast hne, splitSignature_eq_self_iff]
      simp [hne]

theorem unsigned_payload_round_trip_mint :
    parseTokenExtra (makeTokenExtra .mint [[], ascii "x", ascii "5"]) = some ⟨.mint, [[], ascii "x", ascii "5"], none⟩ :=
  (unsigned_payload_round_trip_iff .mint [[], ascii "x", ascii "5"] (by decide)).2 (by
    intro last h
    obtain rfl := Option.some.inj h
    decide)

/-- **An empty last field is lost, and one of 128 hex digits is taken for a signature.** -/
theorem unsigned_payload_misread :
    parseTokenExtra (makeTokenExtra .create [ascii "x", []]) = some ⟨.create, [ascii "x"], none⟩ ∧
      parseTokenExtra (makeTokenExtra .create [ascii "x", List.replicate 128 97]) =
        some ⟨.create, [ascii "x"], some ⟨List.replicate 64 170, length_replicate⟩⟩ := by
  decide +kernel

end Electronero
