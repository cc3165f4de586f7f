/-
# Decoding instructions

An instruction starts with its form: the opcode number and the kinds of its operands.  The
operands follow, then a store variable, branch data and text, as the opcode asks.

`Instruction.decodeBody` reads all of it up to the text from memory alone.  `Instruction.decode`
adds the text through the string cache, and `Instruction.read` adds it from memory as it stands.
-/
import ZMachine.Instruction.Basic
import ZMachine.Text.Codec

namespace ZMachine

/-! ## Forms -/

/-- How an operand is written. -/
inductive OperandKind where
  | large
  | small
  | var
  deriving DecidableEq, Repr

namespace OperandKind

/-- The kind of two type bits; three stands for an omitted operand. -/
def ofBits? : Nat → Option OperandKind
  | 0 => some large
  | 1 => some small
  | 2 => some var
  | _ => none

/-- The kinds before the first omitted one. -/
def leading : List (Option OperandKind) → List OperandKind
  | some kind :: rest => kind :: leading rest
  | _ => []

/-- The kinds that a type byte lists, from the top bits down. -/
def ofTypes (types : UInt8) : List OperandKind :=
  leading ([64, 16, 4, 1].map fun unit => ofBits? (types.toNat / unit % 4))

/-- The kinds that two type bytes list; the second counts only if the first is full. -/
def ofTypePair (first second : UInt8) : List OperandKind :=
  if (ofTypes first).length = 4 then ofTypes first ++ ofTypes second else ofTypes first

/-- The kind of an operand of the long form, by its bit. -/
def ofLongBit (isVariable : Bool) : OperandKind :=
  if isVariable then var else small

end OperandKind

/-- An opcode number, the kinds of its operands, and the address where they start. -/
structure Form where
  number : Nat
  kinds : List OperandKind
  operandsStart : Nat
  deriving DecidableEq, Repr

namespace Form

/-- The extended form: a marker, the opcode and a type byte. -/
def extended (m : Memory) (address : Nat) : Form where
  number := Op.extendedBase + (m.byteAt (address + 1)).toNat
  kinds := OperandKind.ofTypes (m.byteAt (address + 2))
  operandsStart := address + 3

/-- Whether an opcode of the variable form has two type bytes. -/
def hasTypePair (number : Nat) : Bool :=
  number == 236 || number == 250

/-- The variable form: an opcode byte and one or two type bytes. -/
def varying (m : Memory) (address : Nat) : Form :=
  let byte := m.byteAt address
  let number := if byte.toNat / 32 % 2 = 0 then byte.toNat % 32 else byte.toNat
  if hasTypePair number then
    { number
      kinds := OperandKind.ofTypePair (m.byteAt (address + 1)) (m.byteAt (address + 2))
      operandsStart := address + 3 }
  else
    { number, kinds := OperandKind.ofTypes (m.byteAt (address + 1)), operandsStart := address + 2 }

/-- The short form: one operand, or none. -/
def short (byte : UInt8) (address : Nat) : Form :=
  match OperandKind.ofBits? (byte.toNat / 16 % 4) with
  | some kind =>
      { number := 128 + byte.toNat % 16, kinds := [kind], operandsStart := address + 1 }
  | none => { number := 176 + byte.toNat % 16, kinds := [], operandsStart := address + 1 }

/-- The long form: two operands, each a byte or a variable. -/
def long (byte : UInt8) (address : Nat) : Form where
  number := byte.toNat % 32
  kinds := [.ofLongBit (byte.toNat / 64 % 2 = 1), .ofLongBit (byte.toNat / 32 % 2 = 1)]
  operandsStart := address + 1

/-- The form of the instruction at an address. -/
def read (version : UInt8) (m : Memory) (address : Nat) : Form :=
  let byte := m.byteAt address
  if byte = 0xBE ∧ 5 ≤ version then extended m address
  else if 0xC0 ≤ byte then varying m address
  else if 0x80 ≤ byte then short byte address
  else long byte address

end Form

/-! ## Operands and branches -/

namespace Operand

/-- The operand of a kind at an address, and the address after it. -/
def read (m : Memory) (address : Nat) : OperandKind → Operand × Nat
  | .large => (.large (m.wordAt address), address + 2)
  | .small => (.small (m.byteAt address), address + 1)
  | .var => (.var (m.byteAt address), address + 1)

/-- The operands of the given kinds from an address on, and the address after them. -/
def readAll (m : Memory) (address : Nat) : List OperandKind → List Operand × Nat
  | [] => ([], address)
  | kind :: kinds =>
      let (operand, address) := read m address kind
      let (operands, address) := readAll m address kinds
      (operand :: operands, address)

end Operand

namespace Branch

/-- Where an offset leads from the end of the branch data.  Offsets 0 and 1 return from the
routine, and no branch leads below address zero. -/
def targetOf (after : Nat) (offset : Int) : BranchTarget :=
  if offset = 0 then .returnFalse
  else if offset = 1 then .returnTrue
  else .address ((after : Int) + offset - 2).toNat

/-- The number that fourteen bits stand for in two's complement. -/
def signed14 (raw : Nat) : Int :=
  if 0x2000 ≤ raw then (raw : Int) - 0x4000 else raw

/-- The branch data at an address and the address after it.  One byte holds an offset up to 63 if
its bit 6 is set; otherwise two bytes hold a signed offset. -/
def read (m : Memory) (address : Nat) : Branch × Nat :=
  let first := m.byteAt address
  let onTrue := 0x80 ≤ first
  let low := first.toNat % 64
  if first.toNat / 64 % 2 = 1 then
    ({ onTrue, target := targetOf (address + 1) low }, address + 1)
  else
    let offset := signed14 (low * 256 + (m.byteAt (address + 1)).toNat)
    ({ onTrue, target := targetOf (address + 2) offset }, address + 2)

end Branch

/-! ## Instructions -/

namespace Instruction

/-- The store variable at an address, if there is one, and the address after it. -/
def readStore (m : Memory) (address : Nat) (present : Bool) : Option UInt8 × Nat :=
  if present then (some (m.byteAt address), address + 1) else (none, address)

/-- The branch data at an address, if there is any, and the address after it. -/
def readBranch (m : Memory) (address : Nat) (present : Bool) : Option Branch × Nat :=
  if present then
    let (branch, after) := Branch.read m address
    (some branch, after)
  else (none, address)

/-- The instruction at an address up to its text. -/
def decodeBody (version : UInt8) (m : Memory) (address : Nat) : Except Fault Instruction :=
  if m.size ≤ address then .error (.pcOutOfRange address m.size)
  else if m.byteAt address = 0 then .error (.nullOpcode address)
  else
    let form := Form.read version m address
    match Op.lookup? version form.number with
    | none => .error (.noHandler form.number address)
    | some op =>
        let (operands, operandsEnd) := Operand.readAll m form.operandsStart form.kinds
        let (store, afterStore) := readStore m operandsEnd (op.stores version)
        let (branch, next) := readBranch m afterStore (op.branches version)
        .ok { address, op, number := form.number, operands, operandsEnd, store, branch,
              text := none, next }

/-- The instruction with the text that follows it and the address after that. -/
def withText (ins : Instruction) (text : String × Nat) : Instruction :=
  { ins with text := some text.1, next := text.2 }

/-- The instruction at an address; its text goes through the string cache. -/
def decode (c : Text.Codec) (m : Memory) (address : Nat) :
    Except Fault (Instruction × Text.Codec) :=
  match decodeBody c.charset.version m address with
  | .error fault => .error fault
  | .ok ins =>
      if ins.op.hasText then
        let (text, c) := c.decode m ins.next
        .ok (ins.withText text, c)
      else .ok (ins, c)

/-- The instruction at an address from memory as it stands. -/
def read (c : Text.Codec) (m : Memory) (address : Nat) : Except Fault Instruction :=
  match decodeBody c.charset.version m address with
  | .error fault => .error fault
  | .ok ins => .ok (if ins.op.hasText then ins.withText (c.read m ins.next) else ins)

end Instruction
end ZMachine
