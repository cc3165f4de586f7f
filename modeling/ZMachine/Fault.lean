/-
# Faults

A fault is a condition that no story can go on from: a malformed image, an instruction that does
not exist, an empty stack.  Each has a stable code and a message; the wording lives here and
nowhere else.
-/
import ZMachine.Numeral

namespace ZMachine

/-- The causes for which the machine halts. -/
inductive Fault where
  /-- A feature that the machine leaves out on purpose. -/
  | notImplemented (feature : String)
  /-- An opcode that the story's version does not have. -/
  | noHandler (opcode pc : Nat)
  /-- An opcode byte of zero, nearly always a jump into data. -/
  | nullOpcode (pc : Nat)
  /-- More than sixteen nested memory streams. -/
  | streamOverflow
  /-- A memory stream closed while none is open. -/
  | streamUnderflow
  /-- A stream number that names no output stream. -/
  | badOutputStream (number : Int)
  /-- A property asked for its successor on an object that lacks it. -/
  | noNextProperty (object property : UInt16)
  /-- The program counter left the image. -/
  | pcOutOfRange (pc size : Nat)
  /-- A throw to a frame that is not on the call stack. -/
  | badThrow (cookie : UInt16) (depth : Nat)
  /-- A value taken from an empty evaluation stack. -/
  | stackUnderflow (pc : Nat)
  /-- A return with no routine to return from. -/
  | returnFromMain (pc : Nat)
  /-- A timed interrupt asked for while one is still running. -/
  | nestedInterrupt
  /-- A version byte that no story format has. -/
  | unsupportedVersion (version : UInt8)
  /-- A division or remainder by zero. -/
  | divisionByZero
  /-- A character code outside ZSCII. -/
  | illegalCharacter (code : Int)
  /-- A write to a property that the object does not own. -/
  | noSuchProperty (object property : UInt16)
  /-- A write to a property longer than a word. -/
  | badPropertyLength (object property : UInt16) (length : Nat)
  /-- Story or save data that does not follow its format. -/
  | malformed (detail : String)
  deriving DecidableEq, Repr, Inhabited

namespace Fault

/-- The number by which hosts report a fault. -/
def code : Fault → Nat
  | notImplemented _ => 101
  | noHandler .. => 200
  | nullOpcode _ => 201
  | streamOverflow => 202
  | streamUnderflow => 203
  | badOutputStream _ => 204
  | noNextProperty .. => 205
  | pcOutOfRange .. => 206
  | badThrow .. => 207
  | stackUnderflow _ => 208
  | returnFromMain _ => 209
  | nestedInterrupt => 210
  | unsupportedVersion _ => 311
  | divisionByZero => 701
  | illegalCharacter _ => 702
  | noSuchProperty .. => 704
  | badPropertyLength .. => 705
  | malformed _ => 999

/-- The fault in words. -/
def message : Fault → String
  | notImplemented feature => feature ++ " not implemented"
  | noHandler opcode pc =>
      "no handler for opcode " ++ toString opcode ++ " at " ++ hexNumber 4 pc
  | nullOpcode pc => "lost in space: null opcode at " ++ hexNumber 4 pc
  | streamOverflow => "too many nested memory streams"
  | streamUnderflow => "memory stream closed while none is open"
  | badOutputStream number => "unknown output stream " ++ toString number
  | noNextProperty object property =>
      "object " ++ toString object.toNat ++ " has no property " ++ toString property.toNat ++
        " to continue from"
  | pcOutOfRange pc size =>
      "program counter " ++ hexNumber 1 pc ++ " outside story of " ++ hexNumber 1 size ++ " bytes"
  | badThrow cookie depth =>
      "throw to frame " ++ toString cookie.toNat ++ " with call depth " ++ toString depth
  | stackUnderflow pc => "evaluation stack underflow at " ++ hexNumber 4 pc
  | returnFromMain pc => "return with an empty call stack at " ++ hexNumber 4 pc
  | nestedInterrupt => "interrupt requested while another interrupt is active"
  | unsupportedVersion version => "unsupported story version " ++ toString version.toNat
  | divisionByZero => "division by zero"
  | illegalCharacter code => "illegal character code " ++ toString code
  | noSuchProperty object property =>
      "object " ++ toString object.toNat ++ " has no property " ++ toString property.toNat
  | badPropertyLength object property length =>
      "property " ++ toString property.toNat ++ " of object " ++ toString object.toNat ++
        " has length " ++ toString length
  | malformed detail => "malformed data: " ++ detail

end Fault
end ZMachine
