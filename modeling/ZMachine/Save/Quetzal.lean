/-
# Save files

A saved game is a container of type `IFZS` with three chunks: `IFhd` names the story and where to
go on, `CMem` holds the compressed memory, or `UMem` the plain bytes of it, and `Stks` holds the
stacks.

Main definitions: `Quetzal.write` and `Quetzal.read`.
-/
import ZMachine.Header
import ZMachine.Save.Container
import ZMachine.Save.Memory
import ZMachine.Save.Snapshot
import ZMachine.Save.Stacks

namespace ZMachine

/-- What tells one story from another. -/
structure StoryId where
  release : UInt16
  serial : Vector UInt8 6
  checksum : UInt16
  deriving DecidableEq, Repr

/-- The identity of a loaded story. -/
def Header.storyId (h : Header) : StoryId where
  release := h.release
  serial := h.serial
  checksum := h.checksum

namespace Quetzal

/-- The form type `IFZS`. -/
def formType : Tag := #v[73, 70, 90, 83]

/-- The chunk id `IFhd`. -/
def headTag : Tag := #v[73, 70, 104, 100]

/-- The chunk id `CMem`. -/
def compressedTag : Tag := #v[67, 77, 101, 109]

/-- The chunk id `UMem`. -/
def plainTag : Tag := #v[85, 77, 101, 109]

/-- The chunk id `Stks`. -/
def stacksTag : Tag := #v[83, 116, 107, 115]

/-! ## Writing -/

/-- The data of the chunk that names the story and the place. -/
def headBytes (id : StoryId) (pc : Nat) : List UInt8 :=
  Save.bytes16 id.release ++ id.serial.toList ++ Save.bytes16 id.checksum ++ Save.bytes24 pc

/-- The container of a snapshot. -/
def container (id : StoryId) (s : Snapshot) (loaded : List UInt8) : Container where
  type := formType
  chunks :=
    [{ id := headTag, data := headBytes id s.pc },
     { id := compressedTag, data := Save.compress s.dynamic loaded },
     { id := stacksTag, data := Save.stackBytes s.stack }]

/-- The bytes of a snapshot. -/
def write (id : StoryId) (s : Snapshot) (loaded : List UInt8) : List UInt8 :=
  (container id s loaded).toBytes

/-! ## Reading -/

/-- The place to go on from, if the chunk names the right story.  The checksum is not looked at. -/
def readHead (id : StoryId) (data : List UInt8) : Except SaveError Nat :=
  match data with
  | r₁ :: r₀ :: s₀ :: s₁ :: s₂ :: s₃ :: s₄ :: s₅ :: _ :: _ :: p₂ :: p₁ :: p₀ :: _ =>
      let release := Word.ofBytes r₁ r₀
      let serial := #v[s₀, s₁, s₂, s₃, s₄, s₅]
      if release = id.release ∧ serial = id.serial then .ok (Save.number [p₂, p₁, p₀])
      else .error (.storyMismatch release (Text.ofBytes serial.toList))
  | _ => .error (.badChunkLength headTag.text data.length 13)

/-- The memory of a container, compressed or plain. -/
def readMemory (f : Container) (loaded : List UInt8) : Except SaveError (List UInt8) :=
  match f.find? compressedTag with
  | some data => Save.decompress data loaded
  | none =>
    match f.find? plainTag with
    | some data =>
        if data.length = loaded.length then .ok data
        else .error (.badChunkLength plainTag.text data.length loaded.length)
    | none => .error (.missingChunk compressedTag.text)

/-- The snapshot of a container. -/
def ofContainer (f : Container) (id : StoryId) (loaded : List UInt8) :
    Except SaveError Snapshot := do
  if f.type ≠ formType then
    throw (.wrongFormType f.type.text)
  let some head := f.find? headTag | throw (.missingChunk headTag.text)
  let pc ← readHead id head
  let dynamic ← readMemory f loaded
  let some frames := f.find? stacksTag | throw (.missingChunk stacksTag.text)
  let stack ← Save.readStacks frames
  return { pc, dynamic, stack }

/-- The snapshot of a save file of the story `id`, whose dynamic memory was loaded as
`loaded`. -/
def read (bytes : List UInt8) (id : StoryId) (loaded : List UInt8) :
    Except SaveError Snapshot := do
  let f ← Container.parse bytes
  ofContainer f id loaded

end Quetzal
end ZMachine
