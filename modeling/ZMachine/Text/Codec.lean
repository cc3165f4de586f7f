/-
# The text codec

Strings of a story and words in dictionary form.  `Codec.read` reads the string at an address from
memory as it stands; `Codec.decode` does the same through a cache of the strings that start in
static memory.  `Charset.encodeWord` writes a word the way dictionaries hold it.
-/
import Std.Data.HashMap
import ZMachine.Text.LowerCase
import ZMachine.Text.Packed

namespace ZMachine
namespace Text

/-! ## Words in dictionary form -/

namespace Charset

/-- The number of codes in a dictionary word. -/
def wordCodes (cs : Charset) : Nat :=
  if cs.version < 4 then 6 else 9

/-- The code that shifts to a row for one character. -/
def shiftCode (cs : Charset) : Row → ZChar
  | .punctuation => if cs.version ≤ 2 then .ofNat 3 else .ofNat 5
  | _ => if cs.version ≤ 2 then .ofNat 2 else .ofNat 4

/-- The code of a place in a row. -/
def placeCode (place : Nat) : ZChar :=
  ZChar.ofNat (place + 6)

/-- The code that opens an escape in the third row. -/
def escapeCode : ZChar :=
  ZChar.ofNat 6

/-- The code that fills a dictionary word. -/
def fillCode : ZChar :=
  ZChar.ofNat 5

/-- The codes of one character: its place in a row, after a shift where the row asks for one, or
an escape with its ZSCII code. -/
def codesOfChar (cs : Charset) (ch : Char) : List ZChar :=
  match cs.alphabets.position? .lower ch with
  | some i => [placeCode i]
  | none =>
    match cs.alphabets.position? .upper ch with
    | some i => [cs.shiftCode .upper, placeCode i]
    | none =>
      match cs.alphabets.position? .punctuation ch with
      | some i => [cs.shiftCode .punctuation, placeCode i]
      | none =>
        let code := (Zscii.ofChar cs.extra ch).toNat
        [cs.shiftCode .punctuation, escapeCode, .ofNat (code / 32), .ofNat code]

/-- The codes of a text in dictionary form: lower case, cut or filled to the length of
a dictionary word. -/
def wordCodesOf (cs : Charset) (text : List Char) : List ZChar :=
  let codes := ((lowerCase text).flatMap cs.codesOfChar).take cs.wordCodes
  codes ++ List.replicate (cs.wordCodes - codes.length) fillCode

/-- A text in dictionary form. -/
def encodeWord (cs : Charset) (text : List Char) : List UInt8 :=
  (packWords (cs.wordCodesOf text)).flatMap fun w => [Word.high w, Word.low w]

/-- A run of ZSCII codes in dictionary form. -/
def encodeZscii (cs : Charset) (codes : List UInt8) : List UInt8 :=
  cs.encodeWord (Zscii.text cs.extra codes)

end Charset

/-! ## Strings of a story -/

/-- The tables of a story and its strings decoded so far. -/
structure Codec where
  charset : Charset
  /-- The address of the abbreviation table. -/
  abbreviations : Nat
  staticStart : Nat
  /-- Strings in static memory by address, each with the address after it. -/
  cache : Std.HashMap Nat (String × Nat)

namespace Codec

/-- The codec of a story with no string decoded yet. -/
def ofStory (m : Memory) (h : Header) : Codec where
  charset := .ofStory m h
  abbreviations := h.abbreviations
  staticStart := h.staticStart
  cache := ∅

/-- The text at an address, with abbreviations given by `expand`. -/
def textAt (c : Codec) (m : Memory) (expand : Nat → List Char) (address : Nat) : List Char :=
  Reader.render c.charset expand {} ((packedWords m address).1.flatMap codesOfWord)

/-- The text of an abbreviation; abbreviations inside it print nothing. -/
def abbreviation (c : Codec) (m : Memory) (index : Nat) : List Char :=
  c.textAt m (fun _ => []) (m.pointerAt (c.abbreviations + index * 2) * 2)

/-- The string at an address and the address after it, from memory as it stands. -/
def read (c : Codec) (m : Memory) (address : Nat) : String × Nat :=
  (String.ofList (c.textAt m (c.abbreviation m) address), (packedWords m address).2)

/-- The string at an address and the address after it.  A string already decoded is not read
again, and strings that start in static memory are remembered. -/
def decode (c : Codec) (m : Memory) (address : Nat) : (String × Nat) × Codec :=
  match c.cache[address]? with
  | some found => (found, c)
  | none =>
    let fresh := c.read m address
    if c.staticStart ≤ address then
      (fresh, { c with cache := c.cache.insert address fresh })
    else (fresh, c)

/-- The number of remembered strings. -/
def cachedStrings (c : Codec) : Nat :=
  c.cache.size

/-- The ZSCII code of a character. -/
def zsciiOf (c : Codec) (ch : Char) : UInt8 :=
  Zscii.ofChar c.charset.extra ch

end Codec
end Text
end ZMachine
