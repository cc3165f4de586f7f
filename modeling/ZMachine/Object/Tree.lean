/-
# The object tree

Objects are records after the table of property defaults.

                  attributes  parent sibling child   properties   record
    versions 1-3  4 bytes     byte   byte    byte    word at 7    9 bytes
    from 4 on     6 bytes     word   word    word    word at 12   14 bytes

Object 0 is nothing: its links read as zero and cannot be written.  A record has only forward
links, so taking an object out of the tree walks along its siblings.  A damaged table can make
that walk endless; `insert?` and `remove?` then have no result.
-/
import ZMachine.Header

namespace ZMachine

/-- A link of an object record. -/
inductive Link where
  | parent
  | sibling
  | child
  deriving DecidableEq, Repr

/-- Where the objects lie and which of the two layouts they have. -/
structure ObjectTable where
  /-- The address of the property defaults, which stand before the first object. -/
  base : Nat
  wide : Bool
  deriving DecidableEq, Repr

/-- What the walk along the siblings of an object finds. -/
inductive SiblingWalk where
  /-- The sibling just before the object. -/
  | found (older : UInt16)
  /-- The object is not among its parent's children. -/
  | absent
  /-- The links run in a circle. -/
  | endless
  deriving DecidableEq, Repr

namespace ObjectTable

/-- The object table of a story. -/
def ofHeader (h : Header) : ObjectTable where
  base := h.objects
  wide := 4 ≤ h.version

/-! ## Records -/

/-- The number of bytes of property defaults. -/
def defaultsLength (t : ObjectTable) : Nat :=
  if t.wide then 126 else 62

/-- The number of bytes of a record. -/
def recordLength (t : ObjectTable) : Nat :=
  if t.wide then 14 else 9

/-- The number of attributes of an object. -/
def attributeCount (t : ObjectTable) : Nat :=
  if t.wide then 48 else 32

/-- The address of an object's record. -/
def entry (t : ObjectTable) (object : UInt16) : Nat :=
  t.base + t.defaultsLength + (object.toNat - 1) * t.recordLength

/-- Where in a record a link stands. -/
def linkOffset (t : ObjectTable) (link : Link) : Nat :=
  match t.wide, link with
  | true, .parent => 6
  | true, .sibling => 8
  | true, .child => 10
  | false, .parent => 4
  | false, .sibling => 5
  | false, .child => 6

/-- The address of a link of an object. -/
def linkAddress (t : ObjectTable) (object : UInt16) (link : Link) : Nat :=
  t.entry object + t.linkOffset link

/-- The object that a link leads to. -/
def link (t : ObjectTable) (m : Memory) (object : UInt16) (l : Link) : UInt16 :=
  if object = 0 then 0
  else if t.wide then m.wordAt (t.linkAddress object l)
  else (m.byteAt (t.linkAddress object l)).toUInt16

/-- Makes a link lead to an object. -/
def setLink (t : ObjectTable) (m : Memory) (object : UInt16) (l : Link) (value : UInt16) :
    Memory :=
  if object = 0 then m
  else if t.wide then m.setWord (t.linkAddress object l) value
  else m.setByte (t.linkAddress object l) (Word.low value)

/-- The object that an object is in. -/
def parent (t : ObjectTable) (m : Memory) (object : UInt16) : UInt16 :=
  t.link m object .parent

/-- The next object with the same parent. -/
def sibling (t : ObjectTable) (m : Memory) (object : UInt16) : UInt16 :=
  t.link m object .sibling

/-- The first object in an object. -/
def child (t : ObjectTable) (m : Memory) (object : UInt16) : UInt16 :=
  t.link m object .child

/-- The address of an object's property table. -/
def propertyTable (t : ObjectTable) (m : Memory) (object : UInt16) : Nat :=
  if object = 0 then 0 else m.pointerAt (t.entry object + if t.wide then 12 else 7)

/-- The address of an object's short name, which follows its length byte. -/
def nameAddress (t : ObjectTable) (m : Memory) (object : UInt16) : Nat :=
  t.propertyTable m object + 1

/-- Whether an object's short name is empty. -/
def nameIsEmpty (t : ObjectTable) (m : Memory) (object : UInt16) : Bool :=
  m.byteAt (t.propertyTable m object) = 0

/-! ## Attributes -/

/-- The byte and the bit of an attribute, the first attribute being the topmost bit. -/
def attributeSlot? (t : ObjectTable) (object attr : UInt16) : Option (Nat × UInt8) :=
  if object = 0 ∨ t.attributeCount ≤ attr.toNat then none
  else
    some (t.entry object + attr.toNat / 8, 0x80 >>> UInt8.ofNat (attr.toNat % 8))

/-- Whether an object has an attribute. -/
def testAttribute (t : ObjectTable) (m : Memory) (object attr : UInt16) : Bool :=
  match t.attributeSlot? object attr with
  | some (address, bit) => m.byteAt address &&& bit ≠ 0
  | none => false

/-- Gives an object an attribute; an attribute number out of range changes nothing. -/
def setAttribute (t : ObjectTable) (m : Memory) (object attr : UInt16) : Memory :=
  match t.attributeSlot? object attr with
  | some (address, bit) => m.setByte address (m.byteAt address ||| bit)
  | none => m

/-- Takes an attribute from an object; an attribute number out of range changes nothing. -/
def clearAttribute (t : ObjectTable) (m : Memory) (object attr : UInt16) : Memory :=
  match t.attributeSlot? object attr with
  | some (address, bit) => m.setByte address (m.byteAt address &&& ~~~bit)
  | none => m

/-! ## Moving objects -/

/-- The number of sibling steps after which a walk has met some object twice. -/
def walkLimit : Nat := 65536

/-- Walks along the siblings from `older` on to the one just before `mover`, in at most the given
number of steps. -/
def olderSibling (t : ObjectTable) (m : Memory) (mover : UInt16) : Nat → UInt16 → SiblingWalk
  | 0, _ => .endless
  | steps + 1, older =>
      if older = 0 then .absent
      else if t.sibling m older = mover then .found older
      else olderSibling t m mover steps (t.sibling m older)

/-- Takes an object out of its parent's children and leaves it without parent and sibling. -/
def detach? (t : ObjectTable) (m : Memory) (mover : UInt16) : Option Memory :=
  let parent := t.parent m mover
  if parent = 0 then some m
  else
    let next := t.sibling m mover
    let first := t.child m parent
    let cut (m : Memory) : Memory :=
      t.setLink (t.setLink m mover .parent 0) mover .sibling 0
    if first = mover then some (cut (t.setLink m parent .child next))
    else
      match t.olderSibling m mover walkLimit first with
      | .found older => some (cut (t.setLink m older .sibling next))
      | .absent => some (cut m)
      | .endless => none

/-- Makes an object the first child of another.  A new parent of zero only takes it out. -/
def insert? (t : ObjectTable) (m : Memory) (mover newParent : UInt16) : Option Memory :=
  if mover = 0 then some m
  else
    (t.detach? m mover).map fun m =>
      if newParent = 0 then m
      else
        let first := t.child m newParent
        let m := t.setLink m mover .sibling first
        let m := t.setLink m mover .parent newParent
        t.setLink m newParent .child mover

/-- Takes an object out of the tree. -/
def remove? (t : ObjectTable) (m : Memory) (mover : UInt16) : Option Memory :=
  t.insert? m mover 0

end ObjectTable
end ZMachine
