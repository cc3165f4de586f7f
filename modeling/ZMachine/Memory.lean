/-
# Story memory

The image of a story: a flat array of bytes, a copy of it as it was loaded, and the address where
static memory starts.

    0 ........ staticStart ........ end of image
    |  dynamic  |  static and high      |

Reading past the end of the image gives zero and writing there changes nothing, so neither can
fail.  Main facts: what `byteAt` reads after `setByte`, and that every operation keeps the size.
-/
import ZMachine.Word

namespace ZMachine

/-- A story image together with its loaded state. -/
structure Memory where
  /-- The bytes as they are now. -/
  bytes : Array UInt8
  /-- The bytes as they were loaded. -/
  loaded : Array UInt8
  /-- The first address that a save does not cover. -/
  staticStart : Nat
  /-- The image never grows or shrinks. -/
  size_eq : bytes.size = loaded.size
  deriving DecidableEq

namespace Memory

/-! ## Loading and reading -/

/-- A freshly loaded image.  The word at `0x0E` says where static memory starts; an image too
short to have one is dynamic throughout. -/
def ofImage (image : Array UInt8) : Memory where
  bytes := image
  loaded := image
  staticStart :=
    if 0x10 ≤ image.size then (Word.ofBytes (image.getD 0x0E 0) (image.getD 0x0F 0)).toNat
    else image.size
  size_eq := rfl

/-- The number of bytes in the image. -/
def size (m : Memory) : Nat :=
  m.bytes.size

/-- The byte at an address, zero past the end. -/
def byteAt (m : Memory) (address : Nat) : UInt8 :=
  m.bytes.getD address 0

/-- The word at an address, high byte first. -/
def wordAt (m : Memory) (address : Nat) : UInt16 :=
  Word.ofBytes (m.byteAt address) (m.byteAt (address + 1))

/-- The word at an address read as an address. -/
def pointerAt (m : Memory) (address : Nat) : Nat :=
  (m.wordAt address).toNat

/-- The `count` bytes from an address on, zeros past the end. -/
def slice (m : Memory) (address count : Nat) : List UInt8 :=
  (List.range count).map fun i => m.byteAt (address + i)

/-- The part of the image that a story may write and a save covers. -/
def dynamic (m : Memory) : List UInt8 :=
  m.bytes.toList.take m.staticStart

/-- The sum of the loaded bytes after the header, modulo `65536`. -/
def checksum (m : Memory) : UInt16 :=
  (m.loaded.toList.drop 0x40).foldl (fun total b => total + b.toUInt16) 0

/-! ## Writing -/

/-- Writes a byte; a write past the end is dropped.  That the address lies below `staticStart` is an
assertion of debug builds only: as in a release build, a write from there on is carried out. -/
def setByte (m : Memory) (address : Nat) (value : UInt8) : Memory :=
  { m with
    bytes := m.bytes.setIfInBounds address value
    size_eq := by rw [Array.size_setIfInBounds]; exact m.size_eq }

/-- Writes a word, high byte first. -/
def setWord (m : Memory) (address : Nat) (value : UInt16) : Memory :=
  (m.setByte address (Word.high value)).setByte (address + 1) (Word.low value)

/-- Writes a list of bytes from an address on. -/
def setBytes (m : Memory) (address : Nat) : List UInt8 → Memory
  | [] => m
  | b :: rest => (m.setByte address b).setBytes (address + 1) rest

/-- Replaces dynamic memory by `saved`; what `saved` does not cover returns to its loaded state. -/
def restoreDynamic (m : Memory) (saved : List UInt8) : Memory :=
  let saved := saved.toArray
  { m with
    bytes := m.bytes.mapIdx fun i b =>
      if i < m.staticStart then saved.getD i (m.loaded.getD i 0) else b
    size_eq := by rw [Array.size_mapIdx]; exact m.size_eq }

/-- Returns the whole image to its loaded state. -/
def reset (m : Memory) : Memory :=
  { m with bytes := m.loaded, size_eq := rfl }

/-! ## What reading sees after writing -/

/-- Two memories with the same bytes, loaded bytes and boundary are equal. -/
@[ext]
theorem ext {m n : Memory} (hb : m.bytes = n.bytes) (ho : m.loaded = n.loaded)
    (hs : m.staticStart = n.staticStart) : m = n := by
  cases m
  cases n
  simp_all

/-- Reading at or past the end gives zero. -/
theorem byteAt_of_size_le (m : Memory) (a : Nat) (h : m.size ≤ a) : m.byteAt a = 0 := by
  unfold byteAt size at *
  simp [Array.getD, Nat.not_lt.mpr h]

/-- A nonzero byte lies inside the image. -/
theorem lt_size_of_byteAt_ne_zero (m : Memory) (a : Nat) (h : m.byteAt a ≠ 0) : a < m.size := by
  apply Nat.lt_of_not_le
  intro hc
  exact h (m.byteAt_of_size_le a hc)

/-- A write is seen at its own address, if that is inside the image, and nowhere else. -/
theorem byteAt_setByte (m : Memory) (a : Nat) (v : UInt8) (b : Nat) :
    (m.setByte a v).byteAt b = if b = a ∧ a < m.size then v else m.byteAt b := by
  unfold byteAt setByte size
  simp only [Array.getD_eq_getD_getElem?, Array.getElem?_setIfInBounds]
  by_cases hab : a = b
  · subst hab
    by_cases ha : a < m.bytes.size
    · simp [ha]
    · simp [ha]
  · have : ¬ b = a := fun h => hab h.symm
    simp [hab, this]

/-- A write elsewhere is not seen. -/
theorem byteAt_setByte_of_ne (m : Memory) (a : Nat) (v : UInt8) (b : Nat) (h : b ≠ a) :
    (m.setByte a v).byteAt b = m.byteAt b := by
  simp [byteAt_setByte, h]

@[simp]
theorem size_setByte (m : Memory) (a : Nat) (v : UInt8) : (m.setByte a v).size = m.size := by
  simp [size, setByte]

@[simp]
theorem size_setWord (m : Memory) (a : Nat) (v : UInt16) : (m.setWord a v).size = m.size := by
  simp [setWord]

@[simp]
theorem staticStart_setByte (m : Memory) (a : Nat) (v : UInt8) :
    (m.setByte a v).staticStart = m.staticStart := rfl

@[simp]
theorem loaded_setByte (m : Memory) (a : Nat) (v : UInt8) :
    (m.setByte a v).loaded = m.loaded := rfl

@[simp]
theorem length_slice (m : Memory) (a n : Nat) : (m.slice a n).length = n := by
  simp [slice]

end Memory
end ZMachine
