/-
# ZSCII

The character codes of stories.  Codes 32 to 126 are ASCII, 10 and 13 break a line, and codes from
155 on stand for the entries of a table of Unicode characters, which a story may bring itself.

Main definitions: `Zscii.char?` prints a code, `Zscii.ofChar` takes a character back to its code.
-/
import ZMachine.Header

namespace ZMachine
namespace Zscii

/-- The characters of the codes from 155 on, in order. -/
abbrev ExtraChars := Array Char

/-- The code of the first extra character. -/
def firstExtra : Nat := 155

/-- The code of `*`, which stands for a character that has none. -/
def asterisk : UInt8 := 42

/-- The character with a code point of at most sixteen bits; surrogates print as `*`. -/
def charOfCodePoint (n : Nat) : Char :=
  if n.isValidChar then Char.ofNat n else '*'

/-- The extra characters of a story that brings no table. -/
def standardExtra : ExtraChars :=
  #[0xe4, 0xf6, 0xfc, 0xc4, 0xd6, 0xdc, 0xdf, 0xbb, 0xab, 0xeb, 0xef, 0xff, 0xcb, 0xcf, 0xe1,
    0xe9, 0xed, 0xf3, 0xfa, 0xfd, 0xc1, 0xc9, 0xcd, 0xd3, 0xda, 0xdd, 0xe0, 0xe8, 0xec, 0xf2,
    0xf9, 0xc0, 0xc8, 0xcc, 0xd2, 0xd9, 0xe2, 0xea, 0xee, 0xf4, 0xfb, 0xc2, 0xca, 0xce, 0xd4,
    0xdb, 0xe5, 0xc5, 0xf8, 0xd8, 0xe3, 0xf1, 0xf5, 0xc3, 0xd1, 0xd5, 0xe6, 0xc6, 0xe7, 0xc7,
    0xfe, 0xf0, 0xde, 0xd0, 0xa3, 0x153, 0x152, 0xa1, 0xbf].map charOfCodePoint

/-- The extra characters of a story: its own table, a count byte and that many words, or the
standard one. -/
def extraOf (m : Memory) (h : Header) : ExtraChars :=
  if h.unicodeTable = 0 then standardExtra
  else
    Array.ofFn fun i : Fin (m.byteAt h.unicodeTable).toNat =>
      charOfCodePoint (m.pointerAt (h.unicodeTable + 1 + i * 2))

/-- The character that a code prints.  Code 0 prints nothing, and a code without a printable form
prints `*`. -/
def char? (extra : ExtraChars) (code : Nat) : Option Char :=
  if code = 0 then none
  else if code = 10 ∨ code = 13 then some '\n'
  else if 32 ≤ code ∧ code ≤ 126 then some (Char.ofNat code)
  else if 155 ≤ code ∧ code ≤ 251 then some (extra.getD (code - firstExtra) '*')
  else some '*'

/-- The last position of a character in the table. -/
def lastPosition? (extra : ExtraChars) (ch : Char) : Option Nat :=
  (extra.toList.reverse.idxOf? ch).map fun k => extra.size - 1 - k

/-- The code of a character, `*` for one that has none.  A character that the table lists twice
takes its last position, and positions wrap to eight bits. -/
def ofChar (extra : ExtraChars) (ch : Char) : UInt8 :=
  if ch = '\x00' then 0
  else if ch = '\n' ∨ ch = '\r' then 13
  else if ' ' ≤ ch ∧ ch ≤ '~' then ch.toUInt8
  else
    match lastPosition? extra ch with
    | some i => UInt8.ofNat (firstExtra + i)
    | none => asterisk

/-- The text that a run of codes prints. -/
def text (extra : ExtraChars) (codes : List UInt8) : List Char :=
  codes.filterMap fun code => char? extra code.toNat

end Zscii
end ZMachine
