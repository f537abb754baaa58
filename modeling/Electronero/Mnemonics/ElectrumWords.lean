import Electronero.Core.Archive
import Electronero.Lib.WordLine
import Mathlib.Logic.Function.Basic
/-!
# Seeds in words (`src/mnemonics/electrum-words.cpp`, `src/mnemonics/language_base.h`)

Word lists and CRC are parameters; a word has no blanks and no zero byte. Integers go through memory in little-endian
order.
-/
namespace Electronero
open Text

namespace Mnemonics

inductive Language where
  | chineseSimplified
  | english
  | dutch
  | french
  | spanish
  | german
  | italian
  | portuguese
  | japanese
  | russian
  | esperanto
  | lojban
  | englishOld
deriving DecidableEq, Repr

def Language.name : Language → String
  | chineseSimplified => "简体中文 (中国)"
  | english => "English"
  | dutch => "Nederlands"
  | french => "Français"
  | spanish => "Español"
  | german => "Deutsch"
  | italian => "Italiano"
  | portuguese => "Português"
  | japanese => "日本語"
  | russian => "русский язык"
  | esperanto => "Esperanto"
  | lojban => "Lojban"
  | englishOld => "EnglishOld"

def instances : List Language :=
  [.chineseSimplified, .english, .dutch, .french, .spanish, .german, .italian, .portuguese, .japanese, .russian,
    .esperanto, .lojban, .englishOld]

/-- No comparison names the old English list. -/
def languageOf (languageName : String) : Option Language :=
  if languageName = "English" then some .english
  else if languageName = "Nederlands" then some .dutch
  else if languageName = "Français" then some .french
  else if languageName = "Español" then some .spanish
  else if languageName = "Português" then some .portuguese
  else if languageName = "日本語" then some .japanese
  else if languageName = "Italiano" then some .italian
  else if languageName = "Deutsch" then some .german
  else if languageName = "русский язык" then some .russian
  else if languageName = "简体中文 (中国)" then some .chineseSimplified
  else if languageName = "Esperanto" then some .esperanto
  else if languageName = "Lojban" then some .lojban
  else none

def wordListLength : Nat := 1626

structure WordList where
  words : List Bytes
  uniquePrefixLength : Nat
  count : words.length = wordListLength
  plain : ∀ w ∈ words, w ≠ [] ∧ ∀ c ∈ w, c ≠ 0 ∧ isSpace c = false

/-- `(c & 0xc0) == 0x80`: a byte inside a character. -/
def isContinuation (c : UInt8) : Bool := c &&& 0xc0 == 0x80

def utf8Prefix : Bytes → Nat → Bytes
  | _, 0 => []
  | [], _ + 1 => []
  | c :: s, count + 1 =>
    if c = 0 then [] else c :: s.takeWhile isContinuation ++ utf8Prefix (s.dropWhile isContinuation) count

def trimWord (uniquePrefixLength : Nat) (w : Bytes) : Bytes :=
  if uniquePrefixLength < w.length then utf8Prefix w uniquePrefixLength else w

def populate (key : Bytes → Bytes) (words : List Bytes) : Bytes → Option UInt32 :=
  words.zipIdx.foldl (fun map w => Function.update map (key w.1) (some (UInt32.ofNat w.2))) fun _ => none

namespace WordList
variable (l : WordList)

def wordMap : Bytes → Option UInt32 := populate id l.words

def trimmedWordMap : Bytes → Option UInt32 := populate (trimWord l.uniquePrefixLength) l.words

def word (i : UInt32) : Bytes := l.words.getD i.toNat []

def Distinct : Prop := (l.words.map (trimWord l.uniquePrefixLength)).Nodup

end WordList

section
variable (crc32 : Bytes → UInt32) (lists : Language → WordList)

def seedLength : Nat := 24

def createChecksumIndex (uniquePrefixLength : Nat) (wordList : List Bytes) : Nat :=
  (crc32 (wordList.flatMap (trimWord uniquePrefixLength))).toNat % seedLength

def checksumTest (uniquePrefixLength : Nat) (seed : List Bytes) : Bool :=
  match seed.getLast? with
  | none => false
  | some lastWord =>
    let seed := seed.dropLast
    let checksum := seed.getD (createChecksumIndex crc32 uniquePrefixLength seed) []
    trimWord uniquePrefixLength checksum == trimWord uniquePrefixLength lastWord

def matchWords (l : WordList) (hasChecksum : Bool) (seed : List Bytes) : Option (List UInt32) :=
  seed.mapM fun w => if hasChecksum then l.trimmedWordMap (utf8Prefix w l.uniquePrefixLength) else l.wordMap w

def findLoop (seed : List Bytes) (hasChecksum : Bool) : List Language → Option Language → Option (Language × List UInt32)
  | [], fallback => fallback.map fun language => (language, [])
  | language :: rest, fallback =>
    match matchWords (lists language) hasChecksum seed with
    | none => findLoop seed hasChecksum rest fallback
    | some matchedIndices =>
      if hasChecksum && !checksumTest crc32 (lists language).uniquePrefixLength seed then
        findLoop seed hasChecksum rest (some language)
      else some (language, matchedIndices)

def findSeedLanguage (seed : List Bytes) (hasChecksum : Bool) : Option (Language × List UInt32) :=
  findLoop crc32 lists seed hasChecksum instances none

def tripleVal (wordListLength w1 w2 w3 : UInt32) : UInt32 :=
  w1 + wordListLength * ((wordListLength - w1 + w2) % wordListLength) +
    wordListLength * wordListLength * ((wordListLength - w2 + w3) % wordListLength)

def restoreVal (wordListLength w1 w2 w3 : UInt32) : Option UInt32 :=
  let val := tripleVal wordListLength w1 w2 w3
  if val % wordListLength = w1 then some val else none

def seedOf (words : Bytes) : List Bytes := splitRuns 32 (trim words)

/-- `none` = it returns false; otherwise what `dst` holds, and the name of the language. -/
def wordsToBytes (words dst : Bytes) (len : Nat) (duplicate : Bool) : Option (Bytes × String) :=
  let seed := seedOf words
  let expected := len * 8 * 3 / 32
  if len % 4 ≠ 0 then none
  else if len ≠ 0 ∧ seed.length ≠ expected / 2 ∧ seed.length ≠ expected ∧ seed.length ≠ expected + 1 then none
  else
    let hasChecksum := if len ≠ 0 then decide (seed.length = expected + 1) else true
    (findSeedLanguage crc32 lists seed hasChecksum).bind fun (language, matchedIndices) =>
      let wordListLength := UInt32.ofNat (lists language).words.length
      if hasChecksum && !checksumTest crc32 (lists language).uniquePrefixLength seed then none
      else
        let seed := if hasChecksum then seed.dropLast else seed
        let restored := (List.range (seed.length / 3)).mapM fun i =>
          restoreVal wordListLength (matchedIndices.getD (i * 3) 0) (matchedIndices.getD (i * 3 + 1) 0)
            (matchedIndices.getD (i * 3 + 2) 0)
        restored.map fun vals =>
          let dst := dst ++ vals.flatMap fun val => Archive.putUint 4 val.toNat
          -- the parameter's half is computed without the factor of eight
          let dst := if 0 < len ∧ duplicate ∧ seed.length = len * 3 / 32 / 2 then dst ++ dst else dst
          (dst, language.name)

def wordsToKey (words : Bytes) : Option (SecretKey × String) :=
  (wordsToBytes crc32 lists words [] 32 true).bind fun (s, languageName) =>
    if h : s.length = 32 then some (⟨s, h⟩, languageName) else none

def load (src : Bytes) (i : Nat) : UInt32 := UInt32.ofNat (((Archive.getUint 4 (src.drop (4 * i))).map Prod.fst).getD 0)

def valWords (wordListLength val : UInt32) : List UInt32 :=
  let w1 := val % wordListLength
  let w2 := (val / wordListLength + w1) % wordListLength
  let w3 := (val / wordListLength / wordListLength + w2) % wordListLength
  [w1, w2, w3]

def bytesToWords (src words : Bytes) (languageName : String) : Option Bytes :=
  if src.length % 4 ≠ 0 ∨ src.length = 0 then none
  else
    (languageOf languageName).map fun language =>
      let l := lists language
      let wordsStore := (List.range (src.length / 4)).flatMap fun i =>
        (valWords (UInt32.ofNat l.words.length) (load src i)).map l.word
      -- every word is followed by a blank, and the last blank is taken off again
      let words := (words ++ wordsStore.flatMap (· ++ [32])).dropLast
      words ++ 32 :: wordsStore.getD (createChecksumIndex crc32 l.uniquePrefixLength wordsStore) []

end

end Mnemonics
end Electronero
