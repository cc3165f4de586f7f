/-
# Chunked files

A container is a form type and a list of chunks, each an id and some bytes.  Written out it is

    "FORM" length type { id length data [pad] }*

with four-byte numbers; data of odd length is followed by one zero byte that its length does not
count.
-/
import ZMachine.Save.Bytes
import ZMachine.Save.Error

namespace ZMachine

/-- The four bytes that name a chunk or a form type. -/
abbrev Tag := Vector UInt8 4

/-- A piece of a container. -/
structure Chunk where
  id : Tag
  data : List UInt8
  deriving DecidableEq, Repr

/-- A form type and its chunks. -/
structure Container where
  type : Tag
  chunks : List Chunk
  deriving DecidableEq, Repr

/-- The tag as text. -/
def Tag.text (t : Tag) : String :=
  Text.ofBytes t.toList

namespace Container

/-- The tag at the front of every container, `FORM`. -/
def formTag : Tag := #v[70, 79, 82, 77]

/-! ## Writing -/

/-- The byte that fills data of odd length. -/
def padding (data : List UInt8) : List UInt8 :=
  if data.length % 2 = 1 then [0] else []

/-- The bytes of a chunk. -/
def chunkBytes (c : Chunk) : List UInt8 :=
  c.id.toList ++ Save.bytes32 c.data.length ++ c.data ++ padding c.data

/-- The bytes after the length: the form type and the chunks. -/
def bodyBytes (f : Container) : List UInt8 :=
  f.type.toList ++ f.chunks.flatMap chunkBytes

/-- The bytes of a container. -/
def toBytes (f : Container) : List UInt8 :=
  formTag.toList ++ Save.bytes32 f.bodyBytes.length ++ f.bodyBytes

/-! ## Reading -/

/-- The chunks of a body.  Fewer than eight bytes at the end are left over; a chunk that claims
more than there is makes the body invalid. -/
def parseChunks (body : List UInt8) : Except SaveError (List Chunk) :=
  match body with
  | i₀ :: i₁ :: i₂ :: i₃ :: l₀ :: l₁ :: l₂ :: l₃ :: rest =>
      let id : Tag := #v[i₀, i₁, i₂, i₃]
      let length := Save.number [l₀, l₁, l₂, l₃]
      match Save.split? length rest with
      | none => .error (.truncatedChunk id.text length rest.length)
      | some (data, _) =>
          match parseChunks (rest.drop (length + length % 2)) with
          | .error e => .error e
          | .ok chunks => .ok ({ id, data } :: chunks)
  | _ => .ok []
termination_by body.length
decreasing_by
  simp only [List.length_drop, List.length_cons]
  omega

/-- Reads a container.  A length that claims more than there is counts as all there is, and bytes
after the claimed length are ignored. -/
def parse (bytes : List UInt8) : Except SaveError Container :=
  match bytes with
  | f₀ :: f₁ :: f₂ :: f₃ :: l₀ :: l₁ :: l₂ :: l₃ :: t₀ :: t₁ :: t₂ :: t₃ :: rest =>
      if #v[f₀, f₁, f₂, f₃] = formTag then
        match parseChunks (rest.take (Save.number [l₀, l₁, l₂, l₃] - 4)) with
        | .error e => .error e
        | .ok chunks => .ok { type := #v[t₀, t₁, t₂, t₃], chunks }
      else .error .notContainer
  | _ => .error .notContainer

/-- The data of the first chunk with an id. -/
def find? (f : Container) (id : Tag) : Option (List UInt8) :=
  (f.chunks.find? fun c => c.id = id).map (·.data)

end Container
end ZMachine
