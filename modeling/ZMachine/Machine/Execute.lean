/-
# Executing instructions

`Machine.execute` carries out one decoded instruction.  The program counter already points past it,
so an instruction changes the counter only to go elsewhere.  Operands are evaluated from left to
right first, and a variable operand that names the stack pops it.
-/
import ZMachine.Machine.Arithmetic
import ZMachine.Machine.Input
import ZMachine.Machine.Output
import ZMachine.Machine.Save
import ZMachine.Machine.Table
import ZMachine.Object.Property

namespace ZMachine
namespace Machine

/-! ## Operands and results -/

/-- The value of an operand. -/
def operandValue : Operand → Exec UInt16
  | .large value => return value
  | .small value => return value.toUInt16
  | .var code => readVariable code

/-- The values of operands, from left to right. -/
def operandValues : List Operand → Exec (List UInt16)
  | [] => return []
  | operand :: rest => do
      let value ← operandValue operand
      let values ← operandValues rest
      return value :: values

/-- Stores the result of an instruction and goes on. -/
def store (ins : Instruction) (value : UInt16) : Exec Flow := do
  storeResult ins.store value
  return .next

/-- Branches on the outcome of an instruction. -/
def branch (ins : Instruction) (condition : Bool) : Exec Flow :=
  match ins.branch with
  | some b => takeBranch b condition
  | none => return .next

/-- Stores the result of an instruction and branches on whether there is one. -/
def storeAndBranch (ins : Instruction) (value : UInt16) (condition : Bool) : Exec Flow := do
  storeResult ins.store value
  branch ins condition

/-- Changes memory and goes on. -/
def change (f : Machine → Memory) : Exec Flow := do
  modify fun m => { m with memory := f m }
  return .next

/-- Changes memory as far as that comes to an end, and goes on. -/
def change? (f : Machine → Option Memory) : Exec Flow := do
  let m ← get
  match f m with
  | some memory =>
      set { m with memory }
      return .next
  | none => throw .endless

/-- How a save or restore instruction reports its result. -/
def deliveryOf (ins : Instruction) : Exec Delivery :=
  match ins.store, ins.branch with
  | some code, _ => return .store code
  | none, some b => return .branch b
  | none, none =>
      fault (.malformed (ins.op.name ++ " at " ++ hexNumber 4 ins.address ++ " has no result"))

/-! ## Instructions with more than one step -/

/-- Adds to a variable taken by reference, and gives its new value. -/
def adjust (code : UInt8) (amount : UInt16) : Exec UInt16 := do
  let value := (← readIndirect code) + amount
  writeIndirect code value
  return value

/-- Goes to the instruction at a signed distance. -/
def jump (offset : Int) : Exec Flow := do
  let m ← get
  let target : Int := m.pc + offset - 2
  if target < 0 ∨ m.memory.size ≤ target.toNat then
    fault (.pcOutOfRange target.toNat m.memory.size)
  setPc target.toNat
  return .jump

/-- Calls the routine at a packed address with arguments. -/
def callPacked (ins : Instruction) (values : List UInt16) : Exec Flow := do
  let m ← get
  let packed := values.headD 0
  let target := if packed = 0 then 0 else m.header.unpackRoutine packed
  call target values.tail m.pc ins.store

/-- Returns true and prints a line. -/
def printAndReturn (text : String) : Exec Flow := do
  let flow ← returnValue 1
  match ← print (text ++ "\n") with
  | .suspend => return .suspend
  | _ => return flow

/-- Prints the short name of an object. -/
def printObject (object : UInt16) : Exec Flow := do
  let m ← get
  if object = 0 ∨ m.objects.nameIsEmpty m.memory object then return .next
  else printAt (m.objects.nameAddress m.memory object)

/-- Asks the host to keep a save file.  Saving a stretch of memory fails. -/
def save (ins : Instruction) (values : List UInt16) : Exec Flow := do
  let delivery ← deliveryOf ins
  if values.isEmpty then
    suspend (.save ((← get).saveFile ins.operandsEnd)) (.save delivery)
  else deliver delivery 0

/-- Asks the host for a save file.  Restoring a stretch of memory fails. -/
def restore (ins : Instruction) (values : List UInt16) : Exec Flow := do
  let delivery ← deliveryOf ins
  if values.isEmpty then suspend .restore (.restore delivery)
  else deliver delivery 0

/-- A draw from the random generator. -/
def drawRandom (arg : Int) : Exec UInt16 := do
  let m ← get
  let (value, random) := m.random.random arg
  set { m with random }
  return value

/-- The standard that the machine follows, for the first question of a gestalt. -/
def gestalt (selector : UInt16) : UInt16 :=
  if selector = 1 then 0x0102 else 0

/-! ## One instruction -/

/-- Carries out an instruction whose operands have the given values. -/
def executeWith (ins : Instruction) (v : List UInt16) : Exec Flow :=
  let a (i : Nat) : UInt16 := v.getD i 0
  let s (i : Nat) : Int := Word.signed (a i)
  let address (i : Nat) : Nat := (a i).toNat
  let code : UInt8 := Word.low (a 0)
  match ins.op with
  -- comparisons
  | .je => branch ins (v.tail.contains (a 0))
  | .jl => branch ins (s 0 < s 1)
  | .jg => branch ins (s 1 < s 0)
  | .jz => branch ins (a 0 = 0)
  | .test => branch ins (a 0 &&& a 1 = a 1)
  | .jump => jump (s 0)
  | .incChk => do
      let value ← adjust code 1
      branch ins (s 1 < Word.signed value)
  | .decChk => do
      let value ← adjust code 0xFFFF
      branch ins (Word.signed value < s 1)
  | .checkArgCount => do
      let m ← get
      branch ins (address 0 ≤ m.stack.argCount)
  -- arithmetic and bits
  | .add => store ins (a 0 + a 1)
  | .sub => store ins (a 0 - a 1)
  | .mul => store ins (a 0 * a 1)
  | .div => if a 1 = 0 then fault .divisionByZero else store ins (Word.signedDiv (a 0) (a 1))
  | .mod => if a 1 = 0 then fault .divisionByZero else store ins (Word.signedMod (a 0) (a 1))
  | .or => store ins (a 0 ||| a 1)
  | .and => store ins (a 0 &&& a 1)
  | .not => store ins (~~~(a 0))
  | .logShift => store ins (Word.logicalShift (a 0) (s 1))
  | .artShift => store ins (Word.arithmeticShift (a 0) (s 1))
  -- variables and the stack
  | .store => do
      writeIndirect code (a 1)
      return .next
  | .load => do
      let value ← readIndirect code
      store ins value
  | .inc => do
      let _ ← adjust code 1
      return .next
  | .dec => do
      let _ ← adjust code 0xFFFF
      return .next
  | .push => do
      pushStack (a 0)
      return .next
  | .pull => do
      let value ← popStack ins.address
      writeIndirect code value
      return .next
  | .pop => do
      let _ ← popStack ins.address
      return .next
  -- memory
  | .loadw => do
      let m ← get
      store ins (m.memory.wordAt (a 0 + a 1 * 2).toNat)
  | .loadb => do
      let m ← get
      store ins (m.memory.byteAt (a 0 + a 1).toNat).toUInt16
  | .storew => change fun m => m.memory.setWord (a 0 + a 1 * 2).toNat (a 2)
  | .storeb => change fun m => m.memory.setByte (a 0 + a 1).toNat (Word.low (a 2))
  | .copyTable => change fun m => Table.copy m.memory (address 0) (address 1) (s 2)
  | .scanTable => do
      let m ← get
      let found := Table.scan m.memory (a 0) (address 1) (a 2) (v.getD 3 Table.wordForm)
      storeAndBranch ins (UInt16.ofNat found) (found ≠ 0)
  -- calls and returns
  | .call1s | .call1n | .call2s | .call2n | .callVs | .callVs2 | .callVn | .callVn2 =>
      callPacked ins v
  | .ret => returnValue (a 0)
  | .rtrue => returnValue 1
  | .rfalse => returnValue 0
  | .retPopped => do
      let value ← popStack ins.address
      returnValue value
  | .catchFrame => do
      let m ← get
      store ins (UInt16.ofNat m.stack.depth)
  | .throwFrame => throwTo (a 0) (a 1)
  -- objects
  | .jin => do
      let m ← get
      branch ins (m.objects.parent m.memory (a 0) = a 1)
  | .testAttr => do
      let m ← get
      branch ins (m.objects.testAttribute m.memory (a 0) (a 1))
  | .setAttr => change fun m => m.objects.setAttribute m.memory (a 0) (a 1)
  | .clearAttr => change fun m => m.objects.clearAttribute m.memory (a 0) (a 1)
  | .insertObj => change? fun m => m.objects.insert? m.memory (a 0) (a 1)
  | .removeObj => change? fun m => m.objects.remove? m.memory (a 0)
  | .getParent => do
      let m ← get
      store ins (m.objects.parent m.memory (a 0))
  | .getSibling => do
      let m ← get
      let sibling := m.objects.sibling m.memory (a 0)
      storeAndBranch ins sibling (sibling ≠ 0)
  | .getChild => do
      let m ← get
      let child := m.objects.child m.memory (a 0)
      storeAndBranch ins child (child ≠ 0)
  | .getProp => do
      let m ← get
      store ins (m.objects.getProp m.memory (a 0) (a 1))
  | .getPropAddr => do
      let m ← get
      store ins (UInt16.ofNat (m.objects.propAddress m.memory (a 0) (a 1)))
  | .getNextProp => do
      let m ← get
      let next ← orFault (m.objects.nextProp m.memory (a 0) (a 1))
      store ins next
  | .getPropLen => do
      let m ← get
      store ins (UInt16.ofNat (m.objects.propLength m.memory (address 0)))
  | .putProp => do
      let m ← get
      let memory ← orFault (m.objects.putProp m.memory (a 0) (a 1) (a 2))
      set { m with memory }
      return .next
  -- printing
  | .print => print (ins.text.getD "")
  | .printRet => printAndReturn (ins.text.getD "")
  | .newLine => print "\n"
  | .printAddr => printAt (address 0)
  | .printPaddr => do
      let m ← get
      printAt (m.header.unpackString (a 0))
  | .printObj => printObject (a 0)
  | .printNum => print (toString (s 0))
  | .printChar => printZscii (a 0)
  | .printUnicode => printUnicode (a 0)
  | .checkUnicode => store ins 3
  | .printTable => do
      let m ← get
      raise (.printTable
        (Table.rows m.codec.charset m.memory (address 0) (a 1) (v.getD 2 1) (a 3)))
  | .outputStream => do
      selectStream (s 0) (address 1)
      return .next
  -- input
  | .read => do
      let m ← get
      startInput (.line (address 0) (address 1) ins.store (a 2) (m.timeoutRoutine (a 2) (a 3)))
  | .readChar =>
      match ins.store with
      | some variableCode => do
          let m ← get
          startInput (.char variableCode (a 1) (m.timeoutRoutine (a 1) (a 2)))
      | none => return .next
  | .tokenise => change fun m =>
      tokenise m.codec.charset m.memory (address 0) (address 1)
        (if a 2 = 0 then m.header.dictionary else address 2) (a 3 ≠ 0)
  | .encodeText => change fun m =>
      Table.encode m.codec.charset m.memory (address 0) (a 1) (a 2) (address 3)
  -- the screen
  | .showStatus | .nop => return .next
  | .splitWindow => raise (.splitWindow (a 0))
  | .setWindow => raise (.setWindow (a 0))
  | .eraseWindow => raise (.eraseWindow (s 0))
  | .eraseLine => raise (.eraseLine (a 0))
  | .setCursor => raise (.setCursor (s 0) (a 1))
  | .getCursor => suspend (.getCursor (address 0)) (.getCursor (address 0))
  | .setTextStyle => raise (.setStyle (s 0) 0 0)
  | .setColour => raise (.setStyle (-1) (a 0) (a 1))
  | .bufferMode => raise (.bufferMode (a 0))
  | .inputStream => raise (.inputStream (a 0))
  | .soundEffect => raise (.sound (Vector.ofFn fun i => a i))
  | .setFont => store ins (Word.ofBool (a 0 < 2))
  -- the game
  | .save => save ins v
  | .restore => restore ins v
  | .saveUndo => do
      let result ← saveUndo ins.operandsEnd
      store ins result
  | .restoreUndo => restoreUndo ins.store
  | .restart => raise .restart
  | .quit => do
      modify fun m => { m with finished := true }
      raise .quit
  | .verify => do
      let m ← get
      branch ins (m.memory.checksum = m.header.checksum)
  | .piracy =>
      match ins.branch with
      | some b => suspend .piracy (.piracy b)
      | none => return .next
  | .random => do
      let value ← drawRandom (s 0)
      store ins value
  | .gestalt => store ins (gestalt (a 0))

/-- Carries out an instruction. -/
def execute (ins : Instruction) : Exec Flow := do
  let values ← operandValues ins.operands
  executeWith ins values

end Machine
end ZMachine
