/-
# Dictionaries

A dictionary starts with its separator characters, then the length of an entry and a signed number
of entries.  A negative number marks entries in no order, which are tried one after another;
otherwise they ascend and are searched by halving.

Main definitions: `Dictionary.binarySearch`, `Dictionary.linearSearch` and `Dictionary.lookup`,
which picks between the two.
-/
import ZMachine.Memory

namespace ZMachine

/-- The head of a dictionary table. -/
structure Dictionary where
  address : Nat
  /-- Characters that end a word and are words themselves. -/
  separators : List UInt8
  entryLength : Nat
  entryCount : Nat
  /-- Whether the entries ascend. -/
  sorted : Bool
  /-- The address of the first entry. -/
  entriesStart : Nat
  deriving DecidableEq, Repr

namespace Dictionary

/-- Reads the head of the dictionary at an address. -/
def read (m : Memory) (address : Nat) : Dictionary :=
  let separatorCount := (m.byteAt address).toNat
  let count := Word.signed (m.wordAt (address + 2 + separatorCount))
  { address
    separators := m.slice (address + 1) separatorCount
    entryLength := (m.byteAt (address + 1 + separatorCount)).toNat
    entryCount := count.natAbs
    sorted := 0 ≤ count
    entriesStart := address + 4 + separatorCount }

/-- Whether a character code is a separator. -/
def isSeparator (d : Dictionary) (code : UInt8) : Bool :=
  d.separators.contains code

/-- The address of an entry. -/
def entry (d : Dictionary) (index : Nat) : Nat :=
  d.entriesStart + index * d.entryLength

/-- How the bytes at an address compare with a key, byte by byte. -/
def compareAt (m : Memory) (address : Nat) : List UInt8 → Ordering
  | [] => .eq
  | b :: key => (compare (m.byteAt address) b).then (compareAt m (address + 1) key)

/-- The address of the entry between `low` and `high` that matches a key, or zero, halving the
range in each step. -/
def binarySearch (d : Dictionary) (m : Memory) (key : List UInt8) (low high : Nat) : Nat :=
  if low < high then
    let middle := low + (high - low) / 2
    match compareAt m (d.entry middle) key with
    | .eq => d.entry middle
    | .lt => binarySearch d m key (middle + 1) high
    | .gt => binarySearch d m key low middle
  else 0
termination_by high - low

/-- The address of the first entry that matches a key, or zero. -/
def linearSearch (d : Dictionary) (m : Memory) (key : List UInt8) : Nat :=
  (((List.range d.entryCount).map d.entry).find? fun e => compareAt m e key == .eq).getD 0

/-- The address of the entry that matches a key, or zero. -/
def lookup (d : Dictionary) (m : Memory) (key : List UInt8) : Nat :=
  if d.entryLength = 0 then 0
  else if d.sorted then d.binarySearch m key 0 d.entryCount
  else d.linearSearch m key

end Dictionary
end ZMachine
