import Electronero.Address
import Electronero.Basic
import Electronero.Core.Amounts
/-!
# Payment URIs (`src/wallet/wallet2.cpp:10175-10311`, `contrib/epee/include/net/http_client.h:114-218`)

Name and description are percent-encoded, but `=` is not among the unsafe characters, and `parse_uri` wants exactly one in
each parameter. `boost::split` is `List.splitOn`.
-/
namespace Electronero.Wire
open Text List

def hexVal (i : UInt8) : UInt8 := if i < 10 then 48 + i else 55 + i

def unsaveChars : Bytes := ascii "\"<>%\\^[]`+$,@:;!#&"

def isUnsafe (compareChar : UInt8) : Bool := compareChar ≤ 32 ∨ 123 ≤ compareChar ∨ compareChar ∈ unsaveChars

/-- `dec_to_hex(num, 16)`: the loop leaves the low digit, and a lone digit gets a zero. -/
def decToHex (num : UInt8) : Bytes := (if 16 ≤ num then [hexVal (num % 16), hexVal (num / 16)] else [hexVal num, 48]).reverse

def convert (c : UInt8) : Bytes := if isUnsafe c then 37 :: decToHex c else [c]

def converToUrlFormat (uri : Bytes) : Bytes := uri.flatMap convert

def getIndex (c : UInt8) : Option UInt8 :=
  ((range 16).find? fun i => hexVal (.ofNat i) = if 97 ≤ c ∧ c ≤ 122 then c - 32 else c).map UInt8.ofNat

def hexToDec2bytes (a b : UInt8) : Bytes :=
  match getIndex a, getIndex b with
  | some i0, some i1 => [i0 * 16 ||| i1]
  | _, _ => [37, a, b]

def convertFromUrlFormat : Bytes → Bytes
  | c :: a :: b :: rest =>
    if c = 37 then hexToDec2bytes a b ++ convertFromUrlFormat rest else c :: convertFromUrlFormat (a :: b :: rest)
  | c :: rest => c :: convertFromUrlFormat rest
  | [] => []

theorem convert_table : ∀ k : Fin 256, let c := UInt8.ofNat k
    38 ∉ convert c ∧ (61 ∈ convert c ↔ c = 61) ∧ (isUnsafe c = false → c ≠ 37) ∧
    decToHex c = [hexVal (c / 16), hexVal (c % 16)] ∧ hexToDec2bytes (hexVal (c / 16)) (hexVal (c % 16)) = [c] := by
  decide +kernel

theorem convert_spec (c : UInt8) : 38 ∉ convert c ∧ (61 ∈ convert c ↔ c = 61) ∧ (isUnsafe c = false → c ≠ 37) ∧
    decToHex c = [hexVal (c / 16), hexVal (c % 16)] ∧ hexToDec2bytes (hexVal (c / 16)) (hexVal (c % 16)) = [c] := by
  simpa using convert_table ⟨c.toNat, c.toNat_lt⟩

theorem convertFromUrlFormat_cons {c : UInt8} (h : c ≠ 37) (rest : Bytes) :
    convertFromUrlFormat (c :: rest) = c :: convertFromUrlFormat rest := by
  match rest with
  | [] | [_] => rfl
  | a :: b :: rest => rw [convertFromUrlFormat, if_neg h]

theorem convertFromUrlFormat_convert (c : UInt8) (rest : Bytes) :
    convertFromUrlFormat (convert c ++ rest) = c :: convertFromUrlFormat rest := by
  obtain ⟨-, -, hsafe, hhex, hbyte⟩ := convert_spec c
  unfold convert
  split
  · rw [hhex]
    show convertFromUrlFormat (37 :: hexVal (c / 16) :: hexVal (c % 16) :: rest) = _
    rw [convertFromUrlFormat, if_pos rfl, hbyte]
    rfl
  · rename_i hsafe'
    exact convertFromUrlFormat_cons (hsafe (Bool.not_eq_true _ ▸ hsafe')) rest

theorem convertFromUrlFormat_converToUrlFormat (s : Bytes) : convertFromUrlFormat (converToUrlFormat s) = s := by
  induction s with
  | nil => rfl
  | cons c s ih =>
    show convertFromUrlFormat (convert c ++ converToUrlFormat s) = c :: s
    rw [convertFromUrlFormat_convert, ih]

theorem amp_not_mem_converToUrlFormat (s : Bytes) : 38 ∉ converToUrlFormat s := by
  simp only [converToUrlFormat, mem_flatMap, not_exists, not_and]
  exact fun c _ => (convert_spec c).1

theorem equals_mem_converToUrlFormat (s : Bytes) : 61 ∈ converToUrlFormat s ↔ 61 ∈ s := by
  simp [converToUrlFormat, (convert_spec _).2.1]

def podOf (n : Nat) (data : Bytes) : Option (Pod n) := if h : data.length = n then some ⟨data, h⟩ else none

def addressOf (data : Bytes) : Option AccountPublicAddress := do
  return ⟨← podOf 32 (data.take 32), ← podOf 32 (data.drop 32)⟩

section
variable (cnFastHash : Bytes → Hash) (checkKey : PublicKey → Bool)

/-- The tag tells a plain, an integrated and a subaddress apart, by prefixes that are the same on all networks
(`src/cryptonote_config.h:195-228`). -/
def addressOfTag (tag : UInt64) (data : Bytes) : Option AddressParseInfo :=
  if tag = 18019 then do return ⟨← addressOf (data.take 64), false, true, ← podOf 8 (data.drop 64)⟩
  else if tag = 18018 ∨ tag = 42 then do return ⟨← addressOf data, tag = 42, false, default⟩
  else none

def getAccountAddressFromStr (str : Bytes) : Option AddressParseInfo :=
  if 132 ≠ str.length then
    (decodeAddr cnFastHash str).bind fun (tag, data) => (addressOfTag tag data).filter fun info =>
      checkKey info.address.spendPublicKey && checkKey info.address.viewPublicKey
  else
    -- the old format: a version, the keys and a sum
    (parseHexstrToBinbuff str).bind fun buff =>
      if buff.head? = some 0 ∧ buff.getLast? = some (buff.dropLast.foldl (· + ·) 0) then do
        return ⟨← addressOf (buff.tail.take 64), false, false, default⟩
      else none

end

def isPaymentId (paymentId : Bytes) : Bool :=
  (parseHexstrToBinbuff paymentId).any fun data => data.length = 32 ∨ data.length = 8

structure PaymentUri where
  address : Bytes := []
  paymentId : Bytes := []
  amount : UInt64 := 0
  txDescription : Bytes := []
  recipientName : Bytes := []
  unknownParameters : List Bytes := []
deriving DecidableEq

def parameter (field : Bytes × Bytes) : Bytes := field.1 ++ 61 :: field.2

def addField (uri : Bytes × Nat) (field : Bytes × Bytes) : Bytes × Nat :=
  (uri.1 ++ (if uri.2 ≠ 0 then 38 else 63) :: parameter field, uri.2 + 1)

def strchr (s : Bytes) (c : UInt8) : Option Nat := (s.takeWhile (· ≠ 0)).findIdx? (· = c)

section
variable (addressOfStr : Bytes → Option AddressParseInfo) (defaultDecimalPoint : Nat)

def uriFields (u : PaymentUri) : List (Bytes × Bytes) :=
  (if u.paymentId ≠ [] then [(ascii "tx_payment_id", u.paymentId)] else []) ++
  (if u.amount > 0 then [(ascii "tx_amount", printMoney defaultDecimalPoint u.amount none)] else []) ++
  (if u.recipientName ≠ [] then [(ascii "recipient_name", converToUrlFormat u.recipientName)] else []) ++
  if u.txDescription ≠ [] then [(ascii "tx_description", converToUrlFormat u.txDescription)] else []

def makeUri (u : PaymentUri) : Except Bytes Bytes :=
  match addressOfStr u.address with
  | none => .error (ascii "wrong address: " ++ u.address)
  | some info =>
    if info.hasPaymentId ∧ u.paymentId ≠ [] then .error (ascii "A single payment id is allowed")
    else if u.paymentId ≠ [] ∧ isPaymentId u.paymentId = false then .error (ascii "Invalid payment id")
    else .ok ((uriFields defaultDecimalPoint u).foldl addField (ascii "monero:" ++ u.address, 0)).1

def setParameter (info : AddressParseInfo) (u : PaymentUri) (arg key value : Bytes) : Except Bytes PaymentUri :=
  if key = ascii "tx_amount" then
    match parseAmount defaultDecimalPoint value with
    | none => .error (ascii "URI has invalid amount: " ++ value)
    | some amount => .ok { u with amount }
  else if key = ascii "tx_payment_id" then
    if info.hasPaymentId then .error (ascii "Separate payment id given with an integrated address")
    else if isPaymentId value then .ok { u with paymentId := value }
    else .error (ascii "Invalid payment id: " ++ value)
  else if key = ascii "recipient_name" then .ok { u with recipientName := convertFromUrlFormat value }
  else if key = ascii "tx_description" then .ok { u with txDescription := convertFromUrlFormat value }
  else .ok { u with unknownParameters := u.unknownParameters ++ [arg] }

def parseArgument (info : AddressParseInfo) (s : PaymentUri × List Bytes) (arg : Bytes) :
    Except Bytes (PaymentUri × List Bytes) :=
  match arg.splitOn 61 with
  | [key, value] =>
    if key ∈ s.2 then .error (ascii "URI has more than one instance of " ++ key)
    else (setParameter defaultDecimalPoint info s.1 arg key value).map (·, key :: s.2)
  | _ => .error (ascii "URI has wrong parameter: " ++ arg)

def parseUri (uri : Bytes) : Except Bytes PaymentUri :=
  if uri.take 7 ≠ ascii "monero:" then .error (ascii "URI has wrong scheme (expected \"monero:\"): " ++ uri)
  else
    let remainder := uri.drop 7
    let address := match strchr remainder 63 with
      | some i => remainder.take i
      | none => remainder
    match addressOfStr address with
    | none => .error (ascii "URI has wrong address: " ++ address)
    | some info =>
      let body := remainder.drop (address.length + 1)
      if strchr remainder 63 = none ∨ body = [] then .ok { address }
      else ((body.splitOn 38).foldlM (parseArgument defaultDecimalPoint info) ({ address }, [])).map (·.1)

end

theorem mem_encodeLoop (i : Nat) (num : UInt64) {res : Bytes} (hres : ∀ c ∈ res, c ∈ Base58.alphabet) :
    ∀ c ∈ Base58.encodeLoop i num res, c ∈ Base58.alphabet := by
  induction i generalizing num res with
  | zero => exact hres
  | succ i ih =>
    rw [Base58.encodeLoop]
    split
    · refine ih _ fun c hc => (mem_or_eq_of_mem_set hc).elim (hres c) ?_
      rintro rfl
      have hletter : ∀ k < 58, Base58.letter k ∈ Base58.alphabet := by decide +kernel
      exact hletter _ (by rw [UInt64.toNat_mod]; exact Nat.mod_lt _ (by decide))
    · exact hres

theorem mem_encode {data : Bytes} {c : UInt8} (h : c ∈ Base58.encode data) : c ∈ Base58.alphabet := by
  have hblock : ∀ block c, c ∈ Base58.encodeBlock block → c ∈ Base58.alphabet := fun block =>
    mem_encodeLoop _ _ fun c hc => by
      rw [eq_of_mem_replicate hc]
      decide
  unfold Base58.encode at h
  split at h
  · cases h
  · rcases mem_append.1 h with h | h
    · obtain ⟨block, hblocks, hc⟩ := mem_flatten.1 h
      obtain ⟨i, -, rfl⟩ := mem_map.1 hblocks
      exact hblock _ c hc
    · split at h
      · exact hblock _ c h
      · cases h

/-- A hex digit, or what `strtoul` takes in front of one. -/
def hexLike (c : UInt8) : Bool := (hexValue c).isSome || isSpace c || c == 43 || c == 45

theorem hexLike_of_hexPairs : ∀ {s : Bytes}, hexPairs s = true → ∀ c ∈ s, hexLike c = true
  | [], _, c, hc => by cases hc
  | [_], h, _, _ => by cases h
  | a :: b :: rest, h, c, hc => by
    simp only [hexPairs, Bool.and_eq_true, hexPair] at h
    obtain ⟨⟨hb, ha⟩, hrest⟩ := h
    rcases mem_cons.1 hc with rfl | hc
    · unfold hexLike
      grind
    · rcases mem_cons.1 hc with rfl | hc
      · simp [hexLike, hb]
      · exact hexLike_of_hexPairs hrest c hc

theorem hexLike_of_parse {s bin : Bytes} (h : parseHexstrToBinbuff s = some bin) : ∀ c ∈ s, hexLike c = true :=
  hexLike_of_hexPairs (by rw [← parseHexstrToBinbuff_isSome, h]; rfl)

section
variable {cnFastHash : Bytes → Hash} {checkKey : PublicKey → Bool} {address : Bytes} {info : AddressParseInfo}

theorem address_plain (h : getAccountAddressFromStr cnFastHash checkKey address = some info) :
    63 ∉ address ∧ 0 ∉ address := by
  unfold getAccountAddressFromStr at h
  split at h
  · obtain ⟨⟨tag, data⟩, hdecode, -⟩ := Option.bind_eq_some_iff.1 h
    obtain ⟨payload, hpayload, -⟩ := Option.bind_eq_some_iff.1 hdecode
    obtain ⟨-, rfl⟩ := Address.addrPayload_iff.1 hpayload
    have hnot : 63 ∉ Base58.alphabet ∧ 0 ∉ Base58.alphabet := by decide
    exact ⟨fun hc => hnot.1 (mem_encode hc), fun hc => hnot.2 (mem_encode hc)⟩
  · obtain ⟨buff, hparse, -⟩ := Option.bind_eq_some_iff.1 h
    have hhex := hexLike_of_parse hparse
    exact ⟨fun hc => absurd (hhex 63 hc) (by decide), fun hc => absurd (hhex 0 hc) (by decide)⟩

end

theorem paymentId_plain {paymentId : Bytes} (h : isPaymentId paymentId = true) : 38 ∉ paymentId ∧ 61 ∉ paymentId := by
  unfold isPaymentId at h
  cases hparse : parseHexstrToBinbuff paymentId with
  | none => simp [hparse] at h
  | some bin =>
    have hhex := hexLike_of_parse hparse
    exact ⟨fun hc => absurd (hhex 38 hc) (by decide), fun hc => absurd (hhex 61 hc) (by decide)⟩

theorem printMoney_plain (dp : Nat) (amount : UInt64) :
    38 ∉ printMoney dp amount none ∧ 61 ∉ printMoney dp amount none := by
  obtain ⟨ds, hdigits, -, -, hprint⟩ := Amounts.printMoney_eq dp amount
  have hplain : ∀ c ∈ printMoney dp amount none, isDigit c = true ∨ c = point := by
    intro c hc
    rw [hprint] at hc
    have hsub := hdigits c
    split at hc
    · rcases mem_append.1 hc with hc | hc
      · exact .inl (hsub (mem_of_mem_take hc))
      · rcases mem_cons.1 hc with rfl | hc
        · exact .inr rfl
        · exact .inl (hsub (mem_of_mem_drop hc))
    · exact .inl (hsub (mem_of_mem_take hc))
  exact ⟨fun hc => absurd (hplain 38 hc) (by decide), fun hc => absurd (hplain 61 hc) (by decide)⟩

theorem foldl_addField (fields : List (Bytes × Bytes)) {uri : Bytes} {n : Nat} (hn : n ≠ 0) :
    (fields.foldl addField (uri, n)).1 = uri ++ fields.flatMap fun field => 38 :: parameter field := by
  induction fields generalizing uri n with
  | nil => simp
  | cons field fields ih =>
    rw [foldl_cons, addField, if_pos hn, ih (Nat.succ_ne_zero n), flatMap_cons, append_assoc]

theorem splitOn_parameters (field : Bytes × Bytes) (fields : List (Bytes × Bytes))
    (h : ∀ f ∈ field :: fields, 38 ∉ parameter f) :
    (parameter field ++ fields.flatMap fun f => 38 :: parameter f).splitOn 38 = (field :: fields).map parameter := by
  induction fields generalizing field with
  | nil =>
    rw [flatMap_nil, append_nil, splitOn_eq_singleton (h field mem_cons_self)]
    rfl
  | cons next fields ih =>
    rw [flatMap_cons, cons_append, splitOn_append_cons_self_of_not_mem (h field mem_cons_self),
      ih next fun f hf => h f (mem_cons_of_mem _ hf)]
    rfl

theorem strchr_append {s : Bytes} (h : 63 ∉ s) (h0 : 0 ∉ s) (rest : Bytes) :
    strchr (s ++ 63 :: rest) 63 = some s.length := by
  have htake : (s ++ 63 :: rest).takeWhile (· ≠ 0) = s ++ 63 :: rest.takeWhile (· ≠ 0) := by
    rw [takeWhile_append_of_pos (by grind), takeWhile_cons_of_pos (by decide)]
  rw [strchr, htake, findIdx?_append, findIdx?_eq_none_iff.2 (by grind)]
  simp [findIdx?_cons]

theorem strchr_none {s : Bytes} (h : 63 ∉ s) : strchr s 63 = none := by
  refine findIdx?_eq_none_iff.2 fun c hc => decide_eq_false ?_
  rintro rfl
  exact h ((takeWhile_sublist _).subset hc)

section
variable {dp : Nat} {info : AddressParseInfo} {s : PaymentUri × List Bytes} {key value : Bytes}

theorem parseArgument_parameter (hkey : 61 ∉ key) (hvalue : 61 ∉ value) (hnew : key ∉ s.2) :
    parseArgument dp info s (parameter (key, value)) =
      (setParameter dp info s.1 (parameter (key, value)) key value).map (·, key :: s.2) := by
  have hsplit : (parameter (key, value)).splitOn 61 = [key, value] := by
    rw [parameter, splitOn_append_cons_self_of_not_mem hkey, splitOn_eq_singleton hvalue]
  rw [parseArgument, hsplit]
  exact if_neg hnew

theorem parseArgument_equals (dp : Nat) (info : AddressParseInfo) (s : PaymentUri × List Bytes) (hkey : 61 ∉ key)
    (hvalue : 61 ∈ value) :
    ∃ e, parseArgument dp info s (parameter (key, value)) = .error e := by
  obtain ⟨v, w, rfl⟩ := append_of_mem hvalue
  obtain ⟨x, xs, hx⟩ := exists_cons_of_ne_nil (splitOn_ne_nil 61 v)
  obtain ⟨y, ys, hy⟩ := exists_cons_of_ne_nil (splitOn_ne_nil 61 w)
  have hsplit : (parameter (key, v ++ 61 :: w)).splitOn 61 = key :: x :: (xs ++ y :: ys) := by
    rw [parameter, splitOn_append_cons_self_of_not_mem hkey, splitOn_append_cons_self, hx, hy]
    rfl
  rw [parseArgument, hsplit]
  cases xs <;> exact ⟨_, rfl⟩

theorem foldlM_optional {c : Prop} [Decidable c] {u : PaymentUri} (hkey : 61 ∉ key) (hvalue : c → 61 ∉ value)
    (hnew : key ∉ s.2) (hskip : ¬ c → u = s.1)
    (hset : c → setParameter dp info s.1 (parameter (key, value)) key value = .ok u) :
    ((if c then [(key, value)] else []).map parameter).foldlM (parseArgument dp info) s =
      .ok (u, if c then key :: s.2 else s.2) := by
  split
  · rename_i hc
    rw [map_singleton, foldlM_cons, parseArgument_parameter hkey (hvalue hc) hnew, hset hc]
    rfl
  · rename_i hc
    rw [hskip hc]
    rfl

end

section
variable {cnFastHash : Bytes → Hash} {checkKey : PublicKey → Bool} {dp : Nat} {u : PaymentUri} {uri : Bytes}

theorem makeUri_ok (h : makeUri (getAccountAddressFromStr cnFastHash checkKey) dp u = .ok uri) :
    ∃ info, getAccountAddressFromStr cnFastHash checkKey u.address = some info ∧
      (u.paymentId ≠ [] → info.hasPaymentId = false ∧ isPaymentId u.paymentId = true) ∧
      uri = ((uriFields dp u).foldl addField (ascii "monero:" ++ u.address, 0)).1 := by
  unfold makeUri at h
  split at h
  · cases h
  · rename_i info hinfo
    split at h
    · cases h
    · split at h
      · cases h
      · cases h
        grind

theorem amp_not_mem_parameter {key value : Bytes} (hkey : 38 ∉ key) (hvalue : 38 ∉ value) : 38 ∉ parameter (key, value) := by
  simp [parameter, hkey, hvalue]

theorem amp_not_mem_uriFields (dp : Nat) (hpid : u.paymentId ≠ [] → isPaymentId u.paymentId = true) :
    ∀ f ∈ uriFields dp u, 38 ∉ parameter f := by
  simp only [uriFields, forall_mem_append]
  refine ⟨⟨⟨fun f hf => ?_, fun f hf => ?_⟩, fun f hf => ?_⟩, fun f hf => ?_⟩ <;> split at hf <;>
    rename_i hgiven <;> simp only [mem_singleton, not_mem_nil] at hf <;> subst hf
  · exact amp_not_mem_parameter (by decide) (paymentId_plain (hpid hgiven)).1
  · exact amp_not_mem_parameter (by decide) (printMoney_plain dp u.amount).1
  · exact amp_not_mem_parameter (by decide) (amp_not_mem_converToUrlFormat _)
  · exact amp_not_mem_parameter (by decide) (amp_not_mem_converToUrlFormat _)

variable {addressOfStr : Bytes → Option AddressParseInfo} {address body : Bytes} {info : AddressParseInfo}

theorem parseUri_address (hinfo : addressOfStr address = some info) (hmark : 63 ∉ address) :
    parseUri addressOfStr dp (ascii "monero:" ++ address) = .ok { address } := by
  simp only [parseUri, take_left' (show (ascii "monero:").length = 7 from rfl),
    drop_left' (show (ascii "monero:").length = 7 from rfl), strchr_none hmark, hinfo]
  rfl

theorem parseUri_body (hinfo : addressOfStr address = some info) (hmark : 63 ∉ address) (hnul : 0 ∉ address)
    (hbody : body ≠ []) :
    parseUri addressOfStr dp (ascii "monero:" ++ (address ++ 63 :: body)) =
      ((body.splitOn 38).foldlM (parseArgument dp info) ({ address }, [])).map (·.1) := by
  have hdrop : (address ++ 63 :: body).drop (address.length + 1) = body := by
    rw [← drop_drop, drop_left]
    rfl
  simp only [parseUri, take_left' (show (ascii "monero:").length = 7 from rfl),
    drop_left' (show (ascii "monero:").length = 7 from rfl), strchr_append hmark hnul, take_left, hinfo, hdrop]
  rw [if_neg (by simp), if_neg (by simp [hbody])]

theorem parseUri_makeUri (h : makeUri (getAccountAddressFromStr cnFastHash checkKey) dp u = .ok uri) :
    ∃ info, (u.paymentId ≠ [] → info.hasPaymentId = false ∧ isPaymentId u.paymentId = true) ∧
      parseUri (getAccountAddressFromStr cnFastHash checkKey) dp uri =
        (((uriFields dp u).map parameter).foldlM (parseArgument dp info) ({ address := u.address }, [])).map (·.1) := by
  obtain ⟨info, hinfo, hpid, rfl⟩ := makeUri_ok h
  obtain ⟨hmark, hnul⟩ := address_plain hinfo
  have hamp := amp_not_mem_uriFields dp fun hne => (hpid hne).2
  refine ⟨info, hpid, ?_⟩
  cases hfields : uriFields dp u with
  | nil => exact parseUri_address hinfo hmark
  | cons field fields =>
    rw [hfields] at hamp
    rw [foldl_cons, addField, foldl_addField fields (by simp), append_assoc, append_assoc, cons_append,
      ← splitOn_parameters field fields hamp]
    exact parseUri_body hinfo hmark hnul (by simp [parameter])

theorem foldlM_equals (dp : Nat) (info : AddressParseInfo) (s : PaymentUri × List Bytes) {key text : Bytes}
    (hkey : 61 ∉ key) (htext : 61 ∈ text) :
    ∃ e, ((if text ≠ [] then [(key, converToUrlFormat text)] else []).map parameter).foldlM (parseArgument dp info) s =
      .error e := by
  rw [if_pos (ne_nil_of_mem htext)]
  obtain ⟨e, he⟩ := parseArgument_equals dp info s hkey ((equals_mem_converToUrlFormat text).2 htext)
  exact ⟨e, by rw [map_singleton, foldlM_cons, he]; rfl⟩

theorem parse_numbers (dp : Nat) (hpid : u.paymentId ≠ [] → info.hasPaymentId = false ∧ isPaymentId u.paymentId = true) :
    ∃ haveArg, ((uriFields dp u).map parameter).foldlM (parseArgument dp info) ({ address := u.address }, []) =
        (((if u.recipientName ≠ [] then [(ascii "recipient_name", converToUrlFormat u.recipientName)] else []) ++
          if u.txDescription ≠ [] then [(ascii "tx_description", converToUrlFormat u.txDescription)] else []).map
            parameter).foldlM (parseArgument dp info)
          ({ address := u.address, paymentId := u.paymentId, amount := u.amount }, haveArg) ∧
      ascii "recipient_name" ∉ haveArg ∧ ascii "tx_description" ∉ haveArg := by
  refine ⟨if u.amount > 0 then ascii "tx_amount" :: if u.paymentId ≠ [] then [ascii "tx_payment_id"] else []
    else if u.paymentId ≠ [] then [ascii "tx_payment_id"] else [], ?_, ?_⟩
  · rw [uriFields, append_assoc, append_assoc, map_append, foldlM_append,
      foldlM_optional (u := { address := u.address, paymentId := u.paymentId }) (by decide)
        (fun hne => (paymentId_plain (hpid hne).2).2) (by simp) (by simp) fun hne => by
          rw [setParameter, if_neg (by decide), if_pos rfl, if_neg (by simp [(hpid hne).1]), if_pos (hpid hne).2]]
    show List.foldlM _ _ (map parameter _) = _
    rw [map_append, foldlM_append,
      foldlM_optional (u := { address := u.address, paymentId := u.paymentId, amount := u.amount }) (by decide)
        (fun _ => (printMoney_plain dp u.amount).2) ?_ ?_ fun _ => by
          rw [setParameter, if_pos rfl, Amounts.parseAmount_printMoney]]
    · rfl
    · dsimp only
      split <;> decide
    · intro hzero
      rw [show u.amount = 0 from UInt64.le_antisymm (UInt64.not_lt.1 hzero) (UInt64.zero_le)]
  · constructor <;> split <;> split <;> decide

/-- **Payment URIs** are parsed back exactly if there is no `=` in the name and the description. -/
theorem uri_round_trip_iff (cnFastHash : Bytes → Hash) (checkKey : PublicKey → Bool) (dp : Nat) (u : PaymentUri)
    (uri : Bytes) (h : makeUri (getAccountAddressFromStr cnFastHash checkKey) dp u = .ok uri) :
    parseUri (getAccountAddressFromStr cnFastHash checkKey) dp uri = .ok { u with unknownParameters := [] } ↔
      61 ∉ u.recipientName ∧ 61 ∉ u.txDescription := by
  obtain ⟨info, hpid, hparse⟩ := parseUri_makeUri h
  obtain ⟨haveArg, hnumbers, hname, hdescription⟩ := parse_numbers dp hpid
  rw [hparse, hnumbers, map_append, foldlM_append]
  by_cases hn : 61 ∈ u.recipientName
  · obtain ⟨e, he⟩ := foldlM_equals dp info _ (by decide : 61 ∉ ascii "recipient_name") hn
    rw [he]
    exact iff_of_false nofun fun h => h.1 hn
  rw [foldlM_optional (u := { u with txDescription := [], unknownParameters := [] }) (by decide)
    (fun _ => mt (equals_mem_converToUrlFormat _).1 hn) hname (by simp) fun _ => by
      rw [setParameter, if_neg (by decide), if_neg (by decide), if_pos rfl, convertFromUrlFormat_converToUrlFormat]]
  show ((List.foldlM _ _ _ : Except _ _).map _ = _) ↔ _
  by_cases hd : 61 ∈ u.txDescription
  · obtain ⟨e, he⟩ := foldlM_equals dp info _ (by decide : 61 ∉ ascii "tx_description") hd
    rw [he]
    exact iff_of_false nofun fun h => h.2 hd
  rw [foldlM_optional (u := { u with unknownParameters := [] }) (by decide)
    (fun _ => mt (equals_mem_converToUrlFormat _).1 hd) ?_ ?_ fun _ => by
      rw [setParameter, if_neg (by decide), if_neg (by decide), if_neg (by decide), if_pos rfl,
        convertFromUrlFormat_converToUrlFormat]]
  · exact iff_of_true rfl ⟨hn, hd⟩
  · split
    · exact fun h => (mem_cons.1 h).elim (by decide) hdescription
    · exact hdescription
  · intro hempty
    rw [not_not.1 hempty]

end

def equalsUri : PaymentUri := { address := replicate 132 48, amount := 5, recipientName := ascii "a=b" }

/-- Any checksum and any key will do. -/
def laxAddress : Bytes → Option AddressParseInfo := getAccountAddressFromStr (fun _ => default) fun _ => true

theorem equalsUri_refused :
    let uri := ascii "monero:" ++ replicate 132 48 ++ ascii "?tx_amount=0.00000005&recipient_name=a=b"
    makeUri laxAddress 8 equalsUri = .ok uri ∧
    parseUri laxAddress 8 uri = .error (ascii "URI has wrong parameter: recipient_name=a=b") := by
  decide +kernel

theorem uri_round_trip_iff_name : ∃ uri, makeUri laxAddress 8 { equalsUri with recipientName := ascii "a&b" } = .ok uri ∧
    parseUri laxAddress 8 uri = .ok { equalsUri with recipientName := ascii "a&b" } := by
  have hmake : makeUri laxAddress 8 { equalsUri with recipientName := ascii "a&b" } =
      .ok (ascii "monero:" ++ replicate 132 48 ++ ascii "?tx_amount=0.00000005&recipient_name=a%26b") := by
    decide +kernel
  exact ⟨_, hmake, (uri_round_trip_iff (fun _ => default) (fun _ => true) 8 _ _ hmake).2 (by decide)⟩

end Electronero.Wire
