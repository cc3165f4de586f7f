/-
# Variables

A variable code names where a value lives: 0 is the evaluation stack, 1 to 15 are the locals of the
running routine and 16 to 255 are globals.  An instruction that takes a variable by reference sees
the top of the stack in place, where one that takes its value pops it.
-/
import ZMachine.Machine.Basic

namespace ZMachine
namespace Machine

/-- Pops the evaluation stack; an empty one is a fault at the given address. -/
def popStack (address : Nat) : Exec UInt16 := do
  let m ← get
  match m.stack.pop? with
  | some (value, stack) =>
      set { m with stack }
      return value
  | none => fault (.stackUnderflow address)

/-- Pushes a value on the evaluation stack. -/
def pushStack (value : UInt16) : Exec Unit :=
  modify fun m => { m with stack := m.stack.push value }

/-- The value of a local variable or a global one. -/
def namedVariable (m : Machine) (code : UInt8) : UInt16 :=
  if code ≤ 15 then m.stack.locals.toArray.getD (code.toNat - 1) 0
  else m.memory.wordAt (m.header.globalAddress (code - 16))

/-- The machine with a local variable or a global one changed. -/
def withNamedVariable (m : Machine) (code : UInt8) (value : UInt16) : Machine :=
  if code ≤ 15 then { m with stack := m.stack.setLocal (code.toNat - 1) value }
  else { m with memory := m.memory.setWord (m.header.globalAddress (code - 16)) value }

/-- Takes the value of a variable, from the stack by popping it. -/
def readVariable (code : UInt8) : Exec UInt16 := do
  let m ← get
  if code = 0 then popStack m.pc else return m.namedVariable code

/-- Gives a variable a value, on the stack by pushing it. -/
def writeVariable (code : UInt8) (value : UInt16) : Exec Unit :=
  if code = 0 then pushStack value else modify fun m => m.withNamedVariable code value

/-- Reads a variable by reference; the stack keeps its top. -/
def readIndirect (code : UInt8) : Exec UInt16 := do
  let m ← get
  if code = 0 then
    match m.stack.peek? with
    | some value => return value
    | none => fault (.stackUnderflow m.pc)
  else return m.namedVariable code

/-- Writes a variable by reference; the top of the stack is replaced. -/
def writeIndirect (code : UInt8) (value : UInt16) : Exec Unit := do
  let m ← get
  if code = 0 then
    match m.stack.setTop? value with
    | some stack => set { m with stack }
    | none => fault (.stackUnderflow m.pc)
  else set (m.withNamedVariable code value)

/-- Stores a result if there is a variable for it. -/
def storeResult (store : Option UInt8) (value : UInt16) : Exec Unit :=
  match store with
  | some code => writeVariable code value
  | none => pure ()

end Machine
end ZMachine
