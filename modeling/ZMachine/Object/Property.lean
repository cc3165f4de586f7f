/-
# Properties

The property table of an object is its short name, a length byte that counts words and packed
text, and then property records in descending order of their numbers up to a zero byte.

    versions 1-3  one byte, 32 * (length - 1) + number
    from 4 on     one byte, whose bit 6 tells length 2 from 1, or with bit 7 set two bytes, the
                  second holding the length, where 0 stands for 64

`records` lists the records of a table and `search` walks that list; every record lies at least
two bytes after the one before, so the list is finite for any bytes.
-/
import ZMachine.Object.Tree

namespace ZMachine

/-- A property: its number, where its data lies, and whether the object has it itself or it comes
from the defaults. -/
structure Property where
  number : UInt16
  data : Nat
  length : Nat
  owned : Bool
  deriving DecidableEq, Repr

/-- What a search for a property finds. -/
inductive PropertySearch where
  /-- A record of the object. -/
  | found (p : Property)
  /-- The default of a property that the object lacks. -/
  | default (p : Property)
  /-- Nothing, because the property before was the last one. -/
  | last
  /-- Nothing. -/
  | missing
  deriving DecidableEq, Repr

namespace ObjectTable

/-! ## Records -/

/-- The length that the second byte of a long record head gives. -/
def longLength (size : UInt8) : Nat :=
  if size.toNat % 64 = 0 then 64 else size.toNat % 64

/-- The number of bytes in a record's head. -/
def headLength (t : ObjectTable) (m : Memory) (address : Nat) : Nat :=
  if t.wide ∧ 0x80 ≤ m.byteAt address then 2 else 1

/-- The number of a record, zero at the end of the table. -/
def recordNumber (t : ObjectTable) (m : Memory) (address : Nat) : UInt16 :=
  UInt16.ofNat ((m.byteAt address).toNat % if t.wide then 64 else 32)

/-- The number of data bytes in a record. -/
def dataLength (t : ObjectTable) (m : Memory) (address : Nat) : Nat :=
  let size := m.byteAt address
  if t.wide then
    if 0x80 ≤ size then longLength (m.byteAt (address + 1))
    else if 0x40 ≤ size then 2
    else 1
  else size.toNat / 32 + 1

/-- The record at an address. -/
def recordAt (t : ObjectTable) (m : Memory) (address : Nat) : Property where
  number := t.recordNumber m address
  data := address + t.headLength m address
  length := t.dataLength m address
  owned := true

/-- A record that does not end the table lies inside the image. -/
theorem lt_size_of_recordNumber_ne_zero (t : ObjectTable) (m : Memory) (address : Nat)
    (h : t.recordNumber m address ≠ 0) : address < m.size := by
  apply m.lt_size_of_byteAt_ne_zero
  intro hz
  apply h
  simp [recordNumber, hz]

/-- The data of a record follows its head. -/
theorem lt_data_recordAt (t : ObjectTable) (m : Memory) (address : Nat) :
    address < (t.recordAt m address).data := by
  simp only [recordAt, headLength]
  split <;> omega

/-- The records from an address to the end of the table. -/
def records (t : ObjectTable) (m : Memory) (address : Nat) : List Property :=
  if _h : t.recordNumber m address = 0 then []
  else
    let r := t.recordAt m address
    r :: records t m (r.data + r.length)
termination_by m.size - address
decreasing_by
  have h₁ := t.lt_size_of_recordNumber_ne_zero m address _h
  have h₂ := t.lt_data_recordAt m address
  omega

/-- The address of an object's first record, after its short name. -/
def firstRecord (t : ObjectTable) (m : Memory) (object : UInt16) : Nat :=
  let table := t.propertyTable m object
  table + 1 + (m.byteAt table).toNat * 2

/-! ## Searching -/

/-- The default of a property; there is none for number zero. -/
def defaultProperty (t : ObjectTable) (number : UInt16) : PropertySearch :=
  if number = 0 then .missing
  else
    .default
      { number, data := t.base + (number.toNat - 1) * 2, length := 2, owned := false }

/-- Searches a list of records for the number `wanted`, or for the record after the number
`previous`; `seen` says that `previous` has been passed. -/
def searchRecords (t : ObjectTable) (wanted previous : Option UInt16) (seen : Bool) :
    List Property → PropertySearch
  | [] =>
      match wanted with
      | some number => t.defaultProperty number
      | none => if previous.isSome && seen then .last else .missing
  | r :: rest =>
      if wanted = some r.number then .found r
      else if wanted.any (r.number < ·) then t.defaultProperty (wanted.getD 0)
      else if previous.isSome && seen then .found r
      else if previous.any (r.number < ·) then .missing
      else searchRecords t wanted previous (previous == some r.number) rest

/-- Searches the properties of an object.  A `wanted` number that the object lacks is served from
the defaults; a `previous` number asks for the record after it, and zero for the first. -/
def search (t : ObjectTable) (m : Memory) (object : UInt16) (wanted previous : Option UInt16) :
    PropertySearch :=
  if object = 0 then .missing
  else
    t.searchRecords wanted previous (previous == some 0) (t.records m (t.firstRecord m object))

/-! ## Reading and writing -/

/-- The value of a property: one byte, or the first two. -/
def valueOf (m : Memory) (p : Property) : UInt16 :=
  if p.length = 1 then (m.byteAt p.data).toUInt16 else m.wordAt p.data

/-- The value of an object's property or its default. -/
def getProp (t : ObjectTable) (m : Memory) (object number : UInt16) : UInt16 :=
  match t.search m object (some number) none with
  | .found p => valueOf m p
  | .default p => valueOf m p
  | _ => 0

/-- The address of a property's data, zero if the object lacks it. -/
def propAddress (t : ObjectTable) (m : Memory) (object number : UInt16) : Nat :=
  match t.search m object (some number) none with
  | .found p => p.data
  | _ => 0

/-- The number of the property after another, of the first one for zero, and zero after the
last. -/
def nextProp (t : ObjectTable) (m : Memory) (object number : UInt16) : Except Fault UInt16 :=
  if object = 0 then .ok 0
  else
    match t.search m object none (some number) with
    | .found p => .ok p.number
    | .last => .ok 0
    | _ => .error (.noNextProperty object number)

/-- Overwrites a property of one or two bytes that the object itself has. -/
def putProp (t : ObjectTable) (m : Memory) (object number value : UInt16) :
    Except Fault Memory :=
  if object = 0 then .ok m
  else
    match t.search m object (some number) none with
    | .found p =>
        if p.length = 1 then .ok (m.setByte p.data (Word.low value))
        else if p.length = 2 then .ok (m.setWord p.data value)
        else .error (.badPropertyLength object number p.length)
    | _ => .error (.noSuchProperty object number)

/-- The length of the property whose data starts at an address, zero for address zero. -/
def propLength (t : ObjectTable) (m : Memory) (data : Nat) : Nat :=
  if data = 0 then 0
  else
    let size := m.byteAt (data - 1)
    if t.wide then
      if 0x80 ≤ size then longLength size
      else if 0x40 ≤ size then 2
      else 1
    else size.toNat / 32 + 1

end ObjectTable
end ZMachine
