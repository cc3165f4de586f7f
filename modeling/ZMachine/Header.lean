/-
# The story header

The first sixty-four bytes of an image say which version the story is for and where its tables
lie.  The version picks the object layout, the scale of packed addresses and the opcode set.
-/
import ZMachine.Fault
import ZMachine.Memory

namespace ZMachine

/-! ## Field positions -/

namespace Field

abbrev version : Nat := 0x00
abbrev flags1 : Nat := 0x01
abbrev release : Nat := 0x02
abbrev highMemory : Nat := 0x04
abbrev initialPc : Nat := 0x06
abbrev dictionary : Nat := 0x08
abbrev objects : Nat := 0x0A
abbrev globals : Nat := 0x0C
abbrev staticMemory : Nat := 0x0E
/-- The low byte of the second flags word: printing, fixed pitch and screen bits. -/
abbrev flags2Low : Nat := 0x11
abbrev serial : Nat := 0x12
abbrev abbreviations : Nat := 0x18
abbrev checksum : Nat := 0x1C
abbrev interpreterNumber : Nat := 0x1E
abbrev interpreterVersion : Nat := 0x1F
abbrev screenHeight : Nat := 0x20
abbrev screenWidth : Nat := 0x21
abbrev screenWidthUnits : Nat := 0x22
abbrev screenHeightUnits : Nat := 0x24
abbrev fontWidth : Nat := 0x26
abbrev fontHeight : Nat := 0x27
abbrev routineOffset : Nat := 0x28
abbrev stringOffset : Nat := 0x2A
abbrev terminators : Nat := 0x2E
abbrev standardRevision : Nat := 0x32
abbrev alphabet : Nat := 0x34
abbrev extension : Nat := 0x36

end Field

/-! ## The parsed header -/

/-- The header fields that the machine uses, read once when a story is loaded. -/
structure Header where
  version : UInt8
  release : UInt16
  serial : Vector UInt8 6
  checksum : UInt16
  highMemory : Nat
  initialPc : Nat
  dictionary : Nat
  objects : Nat
  globals : Nat
  staticStart : Nat
  abbreviations : Nat
  /-- The address of a custom alphabet table, zero for the standard one. -/
  alphabet : Nat
  extension : Nat
  /-- The address of a Unicode table, zero for the standard one. -/
  unicodeTable : Nat
  routineOffset : Nat
  stringOffset : Nat
  deriving DecidableEq, Repr

namespace Header

/-- The number of bytes in a header. -/
def length : Nat := 0x40

/-- The address of the Unicode table that the header extension names, if it is long enough. -/
def unicodeTableOf (m : Memory) (extension : Nat) : Nat :=
  if extension ≠ 0 ∧ 3 ≤ m.wordAt extension then m.pointerAt (extension + 6) else 0

/-- The fields of an image whose size and version have been checked. -/
def fields (m : Memory) : Header :=
  let version := m.byteAt Field.version
  let extension := m.pointerAt Field.extension
  { version
    release := m.wordAt Field.release
    serial := Vector.ofFn fun i => m.byteAt (Field.serial + i)
    checksum := m.wordAt Field.checksum
    highMemory := m.pointerAt Field.highMemory
    initialPc := m.pointerAt Field.initialPc
    dictionary := m.pointerAt Field.dictionary
    objects := m.pointerAt Field.objects
    globals := m.pointerAt Field.globals
    staticStart := m.pointerAt Field.staticMemory
    abbreviations := m.pointerAt Field.abbreviations
    alphabet := if 5 ≤ version then m.pointerAt Field.alphabet else 0
    extension
    unicodeTable := unicodeTableOf m extension
    routineOffset := if version = 7 then m.pointerAt Field.routineOffset * 8 else 0
    stringOffset := if version = 7 then m.pointerAt Field.stringOffset * 8 else 0 }

/-- Reads the header of an image.  The image must hold a whole header, be of version 1 to 5, 7 or
8, and have its static memory start after the header and within the image. -/
def parse (m : Memory) : Except Fault Header := do
  if m.size < length then
    throw (.malformed ("story is " ++ toString m.size ++ " bytes, shorter than its header"))
  let version := m.byteAt Field.version
  if version = 6 then
    throw (.notImplemented "version 6 stories")
  if version = 0 ∨ 8 < version then
    throw (.unsupportedVersion version)
  let staticStart := m.pointerAt Field.staticMemory
  if staticStart < length ∨ m.size < staticStart then
    throw (.malformed ("static memory starts at " ++ hexNumber 4 staticStart ++ ", outside " ++
      hexNumber 4 length ++ "..=" ++ hexNumber 4 m.size))
  return fields m

/-- How many bytes one step of a packed address covers. -/
def packingScale (h : Header) : Nat :=
  if h.version ≤ 3 then 2 else if h.version ≤ 7 then 4 else 8

/-- The address of a routine from its packed address. -/
def unpackRoutine (h : Header) (packed : UInt16) : Nat :=
  packed.toNat * h.packingScale + h.routineOffset

/-- The address of a string from its packed address. -/
def unpackString (h : Header) (packed : UInt16) : Nat :=
  packed.toNat * h.packingScale + h.stringOffset

/-- The address of a global variable. -/
def globalAddress (h : Header) (index : UInt8) : Nat :=
  h.globals + index.toNat * 2

/-- The number of bytes of an encoded dictionary word. -/
def dictionaryWordLength (h : Header) : Nat :=
  if h.version < 4 then 4 else 6

end Header
end ZMachine
