/-
# The status line

Stories of versions 1 to 3 leave their status line to the machine.  Global 0 holds the location,
and globals 1 and 2 hold score and moves, or hours and minutes if the header says so.
-/
import ZMachine.Machine.Basic

namespace ZMachine
namespace StatusLine

/-- The location and the two numbers of a status line. -/
structure Content where
  name : List Char
  first : UInt16
  second : UInt16
  isTime : Bool
  deriving DecidableEq, Repr

/-- A number with at least two digits. -/
def twoDigits (n : Nat) : String :=
  padLeft '0' 2 (toString n)

/-- The texts for the right side, the longest first. -/
def rightSides (c : Content) : List String :=
  let first := toString c.first.toNat
  let second := toString c.second.toNat
  [if c.isTime then first ++ ":" ++ twoDigits c.second.toNat
    else "Score: " ++ first ++ "  Moves: " ++ second,
   " S:" ++ first ++ " M:" ++ second,
   " " ++ first ++ "/" ++ second]

/-- The status line for a width.  The right side is the first text that leaves a blank beside the
name, or nothing; a name that is too long is cut and marked. -/
def render (c : Content) (width : Nat) : List Char :=
  if width < c.name.length then c.name.take (width - 3) ++ ['.', '.', '.']
  else
    let right := ((rightSides c).find? fun text => c.name.length + text.length < width).getD ""
    c.name ++ List.replicate (width - (c.name.length + right.length)) ' ' ++ right.toList

end StatusLine

namespace Machine

/-- The address of the name of the location, if it has one. -/
def locationName? (m : Machine) : Option Nat :=
  let location := m.memory.wordAt (m.header.globalAddress 0)
  if location = 0 ∨ m.objects.nameIsEmpty m.memory location then none
  else some (m.objects.nameAddress m.memory location)

/-- The status line for a width; there is none from version 4 on.  The name goes through the string
cache. -/
def statusLine (m : Machine) (width : Nat) : Option String × Machine :=
  if 3 < m.version then (none, m)
  else
    let (name, codec) := match m.locationName? with
      | some address =>
          let ((text, _), codec) := m.codec.decode m.memory address
          (text.toList, codec)
      | none => ([], m.codec)
    let content : StatusLine.Content :=
      { name
        first := m.memory.wordAt (m.header.globalAddress 1)
        second := m.memory.wordAt (m.header.globalAddress 2)
        isTime := m.memory.byteAt Field.flags1 &&& 0x02 ≠ 0 }
    (some (String.ofList (StatusLine.render content width)), { m with codec })

end Machine
end ZMachine
