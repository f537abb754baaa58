import Electronero.Epee
/-!
# What the token code takes from the rest of the daemon

Curve arithmetic and the text form of addresses are functions of an `Env`.
-/
namespace Electronero
open Text

inductive NetworkType where
  | mainnet
  | testnet
  | stagenet
  | fakechain
  /-- before `core::init` -/
  | undefined
deriving DecidableEq, Repr

structure AccountPublicAddress where
  spendPublicKey : PublicKey
  viewPublicKey : PublicKey
deriving DecidableEq

structure AddressParseInfo where
  address : AccountPublicAddress
  isSubaddress : Bool
  hasPaymentId : Bool
  paymentId : Pod 8
deriving DecidableEq

inductive TxExtraField where
  | padding (size : Nat)
  | pubKey (key : PublicKey)
  | nonce (data : Bytes)
  | mergeMiningTag (depth : Nat) (merkleRoot : Hash)
  | additionalPubKeys (keys : List PublicKey)
  | mysteriousMinergate (data : Bytes)
  | tokenData (data : Bytes)
deriving DecidableEq

/-- `id` is `get_transaction_hash(tx)`, `extra` what `parse_tx_extra(tx.extra)` delivers
(`none` = it returns false). -/
structure Transaction where
  id : Hash
  version : Nat
  extra : Option (List TxExtraField)
deriving DecidableEq

structure Env where
  nettype : NetworkType
  cnFastHash : Bytes → Hash
  generateSignature : Hash → PublicKey → SecretKey → Signature
  checkSignature : Hash → PublicKey → Signature → Bool
  getAccountAddressFromStr : NetworkType → Bytes → Option AddressParseInfo
  getAccountAddressAsStr : NetworkType → Bool → AccountPublicAddress → Bytes

/-! ## A plain environment

Executable stand-ins with the shape of the real functions, for runs on concrete inputs: an address
prints as a tag and its two keys in hex, and a signature is the hash next to the signing key. -/

namespace Env

def plainHash (data : Bytes) : Hash :=
  ⟨(data ++ List.replicate 32 0).take 32, by simp⟩

def plainSign (h : Hash) (sec : SecretKey) : Signature :=
  ⟨h.bytes ++ sec.bytes, by simp [h.size, sec.size]⟩

def plainTag (isSubaddress : Bool) : UInt8 := if isSubaddress then 115 else 97

def plainPrint (isSubaddress : Bool) (a : AccountPublicAddress) : Bytes :=
  plainTag isSubaddress :: podToHex a.spendPublicKey ++ podToHex a.viewPublicKey

def plainParse (str : Bytes) : Option AddressParseInfo :=
  match str with
  | [] => none
  | tag :: rest =>
    if tag ≠ plainTag true ∧ tag ≠ plainTag false then none
    else match hexToPod 32 (rest.take 64), hexToPod 32 (rest.drop 64) with
      | some spend, some view => some ⟨⟨spend, view⟩, tag == plainTag true, false, default⟩
      | _, _ => none

def plain : Env where
  nettype := .mainnet
  cnFastHash := plainHash
  generateSignature h _ sec := plainSign h sec
  checkSignature h pub sig := sig == plainSign h pub
  getAccountAddressFromStr _ str := plainParse str
  getAccountAddressAsStr _ isSubaddress a := plainPrint isSubaddress a

def plainKey (k : UInt8) : Pod 32 := ⟨List.replicate 32 k, List.length_replicate⟩

def plainAddress (k : UInt8) : Bytes := plainPrint false ⟨plainKey k, plainKey k⟩

end Env

/-! ## Constants (`cryptonote_config.h:183-186`) -/

def tokenSignatureActivationHeight : UInt64 := 3559855

def governanceWalletAddress : Bytes :=
  ascii "etnk9ZeCkz6Dbb4EwVPq7CftzLfHA4zv1c33oQ5dACaJWmEcxyCKYzGK89D5VtjhxKNAeTNqyV5aYZvfPWr243gL9xGdNvGutm"

/-! ## The token payload of a transaction -/

def findTokenData : List TxExtraField → Option Bytes
  | [] => none
  | .tokenData data :: _ => some data
  | _ :: fs => findTokenData fs

/-- `parse_tx_extra` and `find_tx_extra_field_by_type<tx_extra_token_data>` in a row, as
`process_token_tx` and `rescan_token_operations` call them. -/
def Transaction.tokenExtra (tx : Transaction) : Option Bytes := tx.extra.bind findTokenData

end Electronero
