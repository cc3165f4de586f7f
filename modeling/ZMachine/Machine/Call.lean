/-
# Calls and returns

A call puts a frame on the stack and goes to the code of the routine; a return takes the frame away
with all that the routine left on the evaluation stack, and delivers a value.

The routine of a timed input returns to address zero, which is never a place to go on from.  Its
value decides the input that waits: true ends it as if an empty line had been typed, false asks the
host again.
-/
import ZMachine.Dictionary.Tokens
import ZMachine.Machine.Variable

namespace ZMachine
namespace Machine

/-! ## Finishing input -/

/-- The code of the return key. -/
def returnKey : UInt8 := 13

/-- How many characters a text buffer holds.  Before version 5 its first byte counts one more, for
the zero at the end. -/
def textCapacity (m : Machine) (textBuffer : Nat) : UInt8 :=
  let size := m.memory.byteAt textBuffer
  if 5 ≤ m.version then size else if size = 0 then 0 else size - 1

/-- A typed line as codes: lower case, without line breaks, cut to the capacity. -/
def lineCodes (m : Machine) (capacity : Nat) (line : String) : List UInt8 :=
  (((Text.lowerCase line.toList).filter fun ch => ch ≠ '\n' ∧ ch ≠ '\r').map
    m.codec.zsciiOf).take capacity

/-- Memory with codes in a text buffer, after a length byte or before a zero. -/
def writeLine (version : UInt8) (textBuffer : Nat) (codes : List UInt8) (m : Memory) : Memory :=
  if 5 ≤ version then
    (m.setByte (textBuffer + 1) (UInt8.ofNat codes.length)).setBytes (textBuffer + 2) codes
  else
    (m.setBytes (textBuffer + 1) codes).setByte (textBuffer + 1 + codes.length) 0

/-- What a line input stores for its terminator. -/
def terminatorWord (terminator : Int) : UInt16 :=
  if terminator = returnKey.toNat then 10 else Word.ofInt terminator

/-- Finishes an input with a terminator or key and a line. -/
def finishInput (input : PendingInput) (terminator : Int) (line : String) : Exec Unit :=
  match input with
  | .line textBuffer parseBuffer store _ _ => do
      modify fun m =>
        let codes := m.lineCodes (m.textCapacity textBuffer).toNat line
        { m with memory := writeLine m.version textBuffer codes m.memory }
      if parseBuffer ≠ 0 then
        modify fun m =>
          { m with
            memory := tokenise m.codec.charset m.memory textBuffer parseBuffer
              m.header.dictionary false }
      storeResult store (terminatorWord terminator)
  | .char store _ _ => writeVariable store (Word.ofInt (terminator % 1024))

/-! ## Calling -/

/-- The return address of a timeout routine. -/
def fromInterrupt : Nat := 0

/-- The initial values of a routine's locals, which stand in its head before version 5. -/
def initialLocals (m : Machine) (target count : Nat) : List UInt16 :=
  if m.version < 5 then (List.range count).map fun i => m.memory.wordAt (target + 1 + 2 * i)
  else List.replicate count 0

/-- The frame of a call to the routine at an address. -/
def calleeFrame (m : Machine) (target : Nat) (args : List UInt16) (returnPc : Nat)
    (result : Option UInt8) : Frame :=
  let count := min (m.memory.byteAt target).toNat maxLocals
  let initial := m.initialLocals target count
  let values := (args.take count ++ initial.drop args.length).toArray
  { returnPc
    locals := Vector.ofFn fun i => values.getD i 0
    localCount := count
    argCount := min args.length 7
    result
    evalFloor := m.stack.eval.size }

/-- The address of a routine's first instruction. -/
def routineCode (m : Machine) (target : Nat) : Nat :=
  if m.version < 5 then target + 1 + 2 * min (m.memory.byteAt target).toNat maxLocals
  else target + 1

/-- Enters the routine at an address.  A call to address zero gives false at once. -/
def call (target : Nat) (args : List UInt16) (returnPc : Nat) (result : Option UInt8) :
    Exec Flow := do
  let m ← get
  if target = 0 then
    setPc returnPc
    storeResult result 0
    return .jump
  else if m.memory.size ≤ target then
    fault (.pcOutOfRange target m.memory.size)
  else
    set { m with
      stack := m.stack.pushFrame (m.calleeFrame target args returnPc result)
      pc := m.routineCode target }
    return .jump

/-! ## Returning -/

/-- The routine of a timed input returned a value. -/
def finishInterrupt (value : UInt16) : Exec Flow := do
  let m ← get
  match m.parked with
  | none => fault (.malformed "interrupt return with no pending input")
  | some parked =>
      set { m with parked := none, pc := parked.pc }
      if value = 0 then
        suspend parked.request (.input parked.input)
      else
        modify fun m => { m with replies := [] }
        finishInput parked.input 0 ""
        return .jump

/-- Returns a value from the running routine. -/
def returnValue (value : UInt16) : Exec Flow := do
  let m ← get
  match m.stack.popFrame? with
  | none => fault (.returnFromMain m.pc)
  | some (frame, stack) =>
      set { m with stack }
      if frame.returnPc = fromInterrupt then finishInterrupt value
      else
        setPc frame.returnPc
        storeResult frame.result value
        return .jump

/-- The stack with the newest frames taken away until `depth` are left. -/
def unwind (depth : Nat) (s : CallStack) : CallStack :=
  dropFrames (s.depth - depth) s
where
  /-- Takes away a number of frames. -/
  dropFrames : Nat → CallStack → CallStack
    | 0, s => s
    | n + 1, s =>
        match s.popFrame? with
        | some (_, s) => dropFrames n s
        | none => s

/-- Returns a value from the routine that is `cookie` deep, whatever runs above it. -/
def throwTo (value cookie : UInt16) : Exec Flow := do
  let m ← get
  let depth := m.stack.depth
  if cookie = 0 ∨ depth < cookie.toNat then
    fault (.badThrow cookie depth)
  set { m with stack := unwind cookie.toNat m.stack }
  returnValue value

/-- Follows a branch if the condition is the one it waits for. -/
def takeBranch (branch : Branch) (condition : Bool) : Exec Flow :=
  if condition ≠ branch.onTrue then return .next
  else
    match branch.target with
    | .returnFalse => returnValue 0
    | .returnTrue => returnValue 1
    | .address target => do
        setPc target
        return .jump

end Machine
end ZMachine
