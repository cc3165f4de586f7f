/-
# Packed text

A packed string is a run of words, each holding three codes of five bits; the top bit of the last
word is set.  The codes pick characters from a row, change the row, name an abbreviation or open a
ten-bit escape.

Reading is in two parts that do not depend on each other: `packedWords` finds the words and the
address after them, and `Reader` turns the codes into characters.
-/
import ZMachine.Text.Alphabet

namespace ZMachine
namespace Text

/-- One of the thirty-two codes of packed text. -/
abbrev ZChar := Fin 32

/-- The code of a number, of which only the low five bits count. -/
def ZChar.ofNat (n : Nat) : ZChar :=
  ⟨n % 32, Nat.mod_lt n (by decide)⟩

/-! ## Words -/

/-- The stop bit of a packed string. -/
def isLastWord (w : UInt16) : Bool :=
  0x8000 ≤ w

/-- The words of the packed string at an address and the address after them.  The string ends with
the first word that has the stop bit, or with the image. -/
def packedWords (m : Memory) (address : Nat) : List UInt16 × Nat :=
  let word := m.wordAt address
  if isLastWord word ∨ m.size ≤ address + 2 then ([word], address + 2)
  else
    let rest := packedWords m (address + 2)
    (word :: rest.1, rest.2)
termination_by m.size - address

/-- The three codes of a word. -/
def codesOfWord (w : UInt16) : List ZChar :=
  [.ofNat (w.toNat / 1024), .ofNat (w.toNat / 32), .ofNat w.toNat]

/-- The word that holds three codes. -/
def wordOfCodes (a b c : ZChar) : UInt16 :=
  UInt16.ofNat (a.val * 1024 + b.val * 32 + c.val)

/-- The words of a run of codes, three to a word, with the stop bit on the last.  A rest of fewer
than three codes is dropped. -/
def packWords : List ZChar → List UInt16
  | [a, b, c] => [0x8000 + wordOfCodes a b c]
  | a :: b :: c :: rest => wordOfCodes a b c :: packWords rest
  | _ => []

/-! ## Characters -/

/-- What the next code belongs to. -/
inductive Pending where
  | nothing
  /-- The number of an abbreviation in one of the three banks. -/
  | abbreviation (bank : Nat)
  /-- The upper half of an escaped character code. -/
  | escapeHigh
  /-- The lower half of an escaped character code. -/
  | escapeLow (high : ZChar)
  deriving DecidableEq, Repr

/-- The row to return to, the row in use and the sequence under way. -/
structure Reader where
  home : Row := .lower
  current : Row := .lower
  pending : Pending := .nothing
  deriving DecidableEq, Repr

/-- The tables that give codes their characters. -/
structure Charset where
  version : UInt8
  alphabets : Alphabets
  extra : Zscii.ExtraChars
  deriving DecidableEq, Repr

/-- The tables of a story. -/
def Charset.ofStory (m : Memory) (h : Header) : Charset :=
  let extra := Zscii.extraOf m h
  { version := h.version, alphabets := Alphabets.ofStory m h extra, extra }

namespace Reader

/-- The reader after a character has been printed: back in its home row. -/
def settled (s : Reader) : Reader :=
  { s with current := s.home, pending := .nothing }

/-- Changes the row for one character. -/
def shiftTo (s : Reader) (r : Row) : Reader :=
  { s with current := r, pending := .nothing }

/-- Changes the row until the next such change. -/
def lockedIn (r : Row) : Reader :=
  { home := r, current := r, pending := .nothing }

/-- Waits for the rest of a sequence. -/
def await (s : Reader) (p : Pending) : Reader :=
  { s with pending := p }

/-- One code outside every sequence: the reader after it and the characters it prints. -/
def plain (cs : Charset) (s : Reader) (z : ZChar) : Reader × List Char :=
  if z.val = 0 then (s.settled, [' '])
  else if z.val = 6 ∧ s.current = .punctuation then (s.await .escapeHigh, [])
  else if 6 ≤ z.val then (s.settled, [(cs.alphabets.row s.current).toArray.getD (z.val - 6) ' '])
  else if 3 ≤ cs.version then
    match z.val with
    | 4 => (s.shiftTo .upper, [])
    | 5 => (s.shiftTo .punctuation, [])
    | bank => (s.await (.abbreviation bank), [])
  else
    match z.val with
    | 1 => if cs.version = 2 then (s.await (.abbreviation 1), []) else (s.settled, ['\n'])
    | 2 => (s.shiftTo s.current.next, [])
    | 3 => (s.shiftTo s.current.previous, [])
    | 4 => (lockedIn s.home.next, [])
    | _ => (lockedIn s.home.previous, [])

/-- One code: the reader after it and the characters it prints.  `expand` gives the text of an
abbreviation by its number. -/
def step (cs : Charset) (expand : Nat → List Char) (s : Reader) (z : ZChar) :
    Reader × List Char :=
  match s.pending with
  | .nothing => s.plain cs z
  | .abbreviation bank => (s.settled, expand (32 * (bank - 1) + z.val))
  | .escapeHigh => (s.await (.escapeLow z), [])
  | .escapeLow high => (s.settled, (Zscii.char? cs.extra (high.val * 32 + z.val)).toList)

/-- The text of a run of codes. -/
def render (cs : Charset) (expand : Nat → List Char) : Reader → List ZChar → List Char
  | _, [] => []
  | s, z :: zs => (s.step cs expand z).2 ++ render cs expand (s.step cs expand z).1 zs

end Reader
end Text
end ZMachine
