/-
# Tables

The instructions that copy, search, print and encode stretches of memory.
-/
import ZMachine.Text.Codec

namespace ZMachine
namespace Table

/-- Copies `count` bytes one after another from the front, so that a copy forward into an
overlapping stretch repeats its beginning. -/
def copyForward (m : Memory) (first second : Nat) : Nat → Memory
  | 0 => m
  | count + 1 =>
      copyForward (m.setByte second (m.byteAt first)) (first + 1) (second + 1) count

/-- Copies a table.  A destination of zero clears the source, and a negative size asks for a copy
from the front even where the stretches overlap. -/
def copy (m : Memory) (first second : Nat) (size : Int) : Memory :=
  if second = 0 then m.setBytes first (List.replicate size.natAbs 0)
  else if size < 0 then copyForward m first second size.natAbs
  else m.setBytes second (m.slice first size.natAbs)

/-- The form of a table of words without gaps. -/
def wordForm : UInt16 := 0x82

/-- The address of the first field equal to a value, or zero.  Bit 7 of the form asks for words, and
its low bits are the distance between fields. -/
def scan (m : Memory) (value : UInt16) (table : Nat) (count form : UInt16) : Nat :=
  let field := form.toNat % 128
  let read (address : Nat) : UInt16 :=
    if form.toNat / 128 % 2 = 1 then m.wordAt address else (m.byteAt address).toUInt16
  if field = 0 then 0
  else
    (((List.range count.toNat).map fun i => table + i * field).find? fun address =>
      read address = value).getD 0

/-- The rows of a rectangle of characters, `skip` bytes apart. -/
def rows (cs : Text.Charset) (m : Memory) (text : Nat) (width height skip : UInt16) :
    List String :=
  (List.range height.toNat).map fun row =>
    let bytes := m.slice (text + row * (width.toNat + skip.toNat)) width.toNat
    String.ofList (Zscii.text cs.extra bytes)

/-- Writes some of a text in dictionary form. -/
def encode (cs : Text.Charset) (m : Memory) (text : Nat) (length start : UInt16) (coded : Nat) :
    Memory :=
  m.setBytes coded (cs.encodeZscii (m.slice (text + start.toNat) length.toNat))

end Table
end ZMachine
