/-
# Arithmetic of words

Arithmetic is signed, in sixteen bits, and wraps.  Division goes toward zero.
-/
import ZMachine.Word

namespace ZMachine
namespace Word

/-- The quotient toward zero of two words as signed numbers. -/
def signedDiv (a b : UInt16) : UInt16 :=
  ofInt (Int.tdiv (signed a) (signed b))

/-- The remainder of the quotient toward zero. -/
def signedMod (a b : UInt16) : UInt16 :=
  ofInt (Int.tmod (signed a) (signed b))

/-- A word shifted to the left; sixteen places or more leave nothing. -/
def shiftLeft (a : UInt16) (places : Nat) : UInt16 :=
  UInt16.ofNat (a.toNat <<< min places 16)

/-- A word shifted by a signed number of places, to the right with zeros coming in. -/
def logicalShift (a : UInt16) (places : Int) : UInt16 :=
  if 0 ≤ places then shiftLeft a places.natAbs
  else UInt16.ofNat (a.toNat >>> min places.natAbs 16)

/-- A word shifted by a signed number of places, to the right with its sign coming in. -/
def arithmeticShift (a : UInt16) (places : Int) : UInt16 :=
  if 0 ≤ places then shiftLeft a places.natAbs
  else ofInt (signed a >>> min places.natAbs 15)

end Word
end ZMachine
