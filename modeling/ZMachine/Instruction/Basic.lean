/-
# Instructions

A decoded instruction: what it does, its operands as they are written, and what follows them.
-/
import ZMachine.Instruction.Opcode

namespace ZMachine

/-- An operand as it is written: a word, a byte, or the variable that holds it. -/
inductive Operand where
  | large (value : UInt16)
  | small (value : UInt8)
  | var (code : UInt8)
  deriving DecidableEq, Repr

/-- Where a branch leads: out of the routine with a truth value, or to an address. -/
inductive BranchTarget where
  | returnFalse
  | returnTrue
  | address (target : Nat)
  deriving DecidableEq, Repr

/-- Branch data: the outcome that is branched on and where to. -/
structure Branch where
  onTrue : Bool
  target : BranchTarget
  deriving DecidableEq, Repr

/-- A decoded instruction. -/
structure Instruction where
  address : Nat
  op : Op
  /-- The opcode number by form. -/
  number : Nat
  operands : List Operand
  /-- The address after the operands. -/
  operandsEnd : Nat
  /-- The variable that receives the result. -/
  store : Option UInt8
  branch : Option Branch
  /-- The text that follows. -/
  text : Option String
  /-- The address of the next instruction. -/
  next : Nat
  deriving DecidableEq, Repr

end ZMachine
