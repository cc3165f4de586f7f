/-
# Tokens of an input line

An input line is split at blanks and separators, and each word is looked up in a dictionary.  The
result is a parse buffer: a count and, for each word, its dictionary entry, length and position.
-/
import ZMachine.Dictionary.Basic
import ZMachine.Text.Codec

namespace ZMachine

/-! ## Splitting -/

/-- A word of a line: where it starts and how long it is. -/
structure Token where
  position : Nat
  length : Nat
  deriving DecidableEq, Repr

namespace Token

/-- The code of a blank. -/
def blank : UInt8 := 32

/-- The word that is open at the position `here`, if any. -/
def closing (start : Option Nat) (here : Nat) : List Token :=
  match start with
  | some s => [⟨s, here - s⟩]
  | none => []

/-- The words of the rest of a line from the position `here` on, where `start` is the beginning of
an open word. -/
def splitFrom (isSeparator : UInt8 → Bool) (here : Nat) (start : Option Nat) :
    List UInt8 → List Token
  | [] => closing start here
  | b :: rest =>
      if b = blank then closing start here ++ splitFrom isSeparator (here + 1) none rest
      else if isSeparator b then
        closing start here ++ ⟨here, 1⟩ :: splitFrom isSeparator (here + 1) none rest
      else splitFrom isSeparator (here + 1) (start.or (some here)) rest

/-- The words of a line.  Blanks divide words; a separator ends a word and is one itself. -/
def split (isSeparator : UInt8 → Bool) (line : List UInt8) : List Token :=
  splitFrom isSeparator 0 none line

/-- The bytes of a word. -/
def of (t : Token) (line : List UInt8) : List UInt8 :=
  (line.drop t.position).take t.length

end Token

/-! ## Text and parse buffers -/

/-- The line in a text buffer and where in the buffer it starts.  Before version 5 it ends with a
zero byte; from then on a length byte stands before it. -/
def typedLine (m : Memory) (version : UInt8) (textBuffer : Nat) : List UInt8 × Nat :=
  if version < 5 then ((m.slice (textBuffer + 1) 255).takeWhile (· ≠ 0), 1)
  else (m.slice (textBuffer + 2) (m.byteAt (textBuffer + 1)).toNat, 2)

/-- Looks up the words of a line and writes them to consecutive slots.  With `skipUnknown` the slot
of a word that the dictionary lacks stays as it is. -/
def writeTokens (cs : Text.Charset) (d : Dictionary) (line : List UInt8) (offset : Nat)
    (skipUnknown : Bool) (m : Memory) (slot : Nat) : List Token → Memory
  | [] => m
  | t :: rest =>
      let found := d.lookup m (cs.encodeZscii (t.of line))
      let m' :=
        if skipUnknown && found == 0 then m
        else
          ((m.setWord slot (UInt16.ofNat found)).setByte (slot + 2) (UInt8.ofNat t.length)).setByte
            (slot + 3) (UInt8.ofNat (t.position + offset))
      writeTokens cs d line offset skipUnknown m' (slot + 4) rest

/-- Splits the line in a text buffer and fills a parse buffer, whose first byte says how many words
fit. -/
def tokenise (cs : Text.Charset) (m : Memory) (textBuffer parseBuffer dictionary : Nat)
    (skipUnknown : Bool) : Memory :=
  let (line, offset) := typedLine m cs.version textBuffer
  let d := Dictionary.read m dictionary
  let tokens := (Token.split d.isSeparator line).take (m.byteAt parseBuffer).toNat
  (writeTokens cs d line offset skipUnknown m (parseBuffer + 2) tokens).setByte
    (parseBuffer + 1) (UInt8.ofNat tokens.length)

end ZMachine
