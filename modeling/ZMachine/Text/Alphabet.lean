/-
# Alphabets

Packed text draws its characters from three rows of twenty-six.  The third row starts with the
escape mark, which is never printed, and a line break.
-/
import ZMachine.Text.Zscii

namespace ZMachine
namespace Text

/-- The three rows: small letters, capitals, and digits with punctuation. -/
inductive Row where
  | lower
  | upper
  | punctuation
  deriving DecidableEq, Repr, Inhabited

/-- The next row, the first following the last. -/
def Row.next : Row → Row
  | lower => upper
  | upper => punctuation
  | punctuation => lower

/-- The row before, the last preceding the first. -/
def Row.previous : Row → Row
  | lower => punctuation
  | upper => lower
  | punctuation => upper

/-- The characters of the three rows. -/
structure Alphabets where
  lower : Vector Char 26
  upper : Vector Char 26
  punctuation : Vector Char 26
  deriving DecidableEq, Repr

namespace Alphabets

/-- The characters of one row. -/
def row (a : Alphabets) : Row → Vector Char 26
  | .lower => a.lower
  | .upper => a.upper
  | .punctuation => a.punctuation

/-- The row with the characters of a text, blanks past its end. -/
def rowOf (chars : String) : Vector Char 26 :=
  let cs := chars.toList.toArray
  Vector.ofFn fun i => cs.getD i ' '

/-- The third row of version 1, which has no line break. -/
def firstPunctuation : Vector Char 26 :=
  rowOf " 0123456789.,!?_#'\"/\\<-:()"

/-- The third row of the later versions. -/
def laterPunctuation : Vector Char 26 :=
  rowOf " \n0123456789.,!?_#'\"/\\-:()"

/-- The rows of a story that brings none of its own. -/
def standard (version : UInt8) : Alphabets where
  lower := rowOf "abcdefghijklmnopqrstuvwxyz"
  upper := rowOf "ABCDEFGHIJKLMNOPQRSTUVWXYZ"
  punctuation := if version = 1 then firstPunctuation else laterPunctuation

/-- The character that a byte of a story's own alphabet table stands for. -/
def customChar (extra : Zscii.ExtraChars) (b : UInt8) : Char :=
  if b.toNat = '^'.toNat then '\n'
  else if 155 ≤ b ∧ b ≤ 251 then extra.getD (b.toNat - Zscii.firstExtra) ' '
  else Char.ofNat b.toNat

/-- The row of a story's own table that starts at an address. -/
def customRow (m : Memory) (extra : Zscii.ExtraChars) (address : Nat) : Vector Char 26 :=
  Vector.ofFn fun i => customChar extra (m.byteAt (address + i))

/-- The rows of a story's own table; the first two places of the third row are fixed. -/
def custom (m : Memory) (extra : Zscii.ExtraChars) (table : Nat) : Alphabets where
  lower := customRow m extra table
  upper := customRow m extra (table + 26)
  punctuation := ((customRow m extra (table + 52)).set 0 ' ').set 1 '\n'

/-- The rows that a story uses. -/
def ofStory (m : Memory) (h : Header) (extra : Zscii.ExtraChars) : Alphabets :=
  if h.alphabet = 0 then standard h.version else custom m extra h.alphabet

/-- The first place of a character in a row.  The escape mark of the third row is no place. -/
def position? (a : Alphabets) (r : Row) (ch : Char) : Option Nat :=
  match r with
  | .punctuation => (a.punctuation.toList.tail.idxOf? ch).map (· + 1)
  | r => (a.row r).toList.idxOf? ch

end Alphabets
end Text
end ZMachine
