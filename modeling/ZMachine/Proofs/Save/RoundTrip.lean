/-
# Reading back a save file

A snapshot written to a save file is read back exactly: program counter, memory, every field of
every frame and the evaluation stack.

The three chunks are found by their ids, and each is read back by its own codec: `readHead` here,
`Save.decompress` and `Save.readStacks` in the modules on memory and stacks.
-/
import ZMachine.Proofs.Save.Memory
import ZMachine.Proofs.Save.Stacks
import ZMachine.Save.Quetzal

namespace ZMachine
namespace Quetzal

/-! ## The chunk of the story and the place -/

/-- A serial is its six bytes. -/
theorem exists_serial_eq (v : Vector UInt8 6) : ∃ a b c d e f, v = #v[a, b, c, d, e, f] := by
  refine ⟨v[0], v[1], v[2], v[3], v[4], v[5], ?_⟩
  apply Vector.ext
  intro i hi
  match i, hi with
  | 0, _ => rfl
  | 1, _ => rfl
  | 2, _ => rfl
  | 3, _ => rfl
  | 4, _ => rfl
  | 5, _ => rfl

/-- The place is read back by the story that wrote it. -/
theorem readHead_headBytes (id : StoryId) (pc : Nat) (h : pc < 16777216) :
    readHead id (headBytes id pc) = .ok pc := by
  obtain ⟨a, b, c, d, e, f, hserial⟩ := exists_serial_eq id.serial
  have hpc := Save.number_bytes24 pc h
  have hbytes : headBytes id pc
      = Word.high id.release :: Word.low id.release :: a :: b :: c :: d :: e :: f
        :: Word.high id.checksum :: Word.low id.checksum :: Save.bytes24 pc := by
    simp [headBytes, Save.bytes16, hserial]
  rw [Save.bytes24] at hpc
  rw [hbytes, Save.bytes24, readHead]
  simp only [Word.ofBytes_high_low, ← hserial, and_self, ↓reduceIte, hpc]

/-! ## What a container holds -/

/-- **A container is read as a snapshot** if it has the right type, a head of the right story, memory
and stacks, and each of them is read as the part of the snapshot. -/
theorem ofContainer_eq_ok_iff {f : Container} {id : StoryId} {loaded : List UInt8}
    {s : Snapshot} :
    ofContainer f id loaded = .ok s ↔
      f.type = formType ∧ (∃ head, f.find? headTag = some head ∧ readHead id head = .ok s.pc) ∧
        readMemory f loaded = .ok s.dynamic ∧
        ∃ frames, f.find? stacksTag = some frames ∧ Save.readStacks frames = .ok s.stack := by
  constructor
  · intro h
    simp only [ofContainer, bind, Except.bind] at h
    split at h
    · cases h
    rename_i htype
    split at h
    · rename_i head hhead
      split at h
      · cases h
      rename_i pc hpc
      split at h
      · cases h
      rename_i dynamic hdynamic
      split at h
      · rename_i frames hframes
        split at h
        · cases h
        · rename_i stack hstack
          cases h
          exact ⟨not_not.mp htype, ⟨head, hhead, hpc⟩, hdynamic, frames, hframes, hstack⟩
      · cases h
    · cases h
  · rintro ⟨htype, ⟨head, hhead, hpc⟩, hdynamic, frames, hframes, hstack⟩
    unfold ofContainer
    rw [if_neg (not_not.mpr htype), hhead, hframes]
    simp only [hpc, hdynamic, hstack]
    rfl

/-! ## The chunks of a written snapshot -/

/-- The head chunk is the first. -/
theorem find?_headTag (id : StoryId) (s : Snapshot) (loaded : List UInt8) :
    (container id s loaded).find? headTag = some (headBytes id s.pc) := rfl

/-- The memory chunk is found behind the head. -/
theorem find?_compressedTag (id : StoryId) (s : Snapshot) (loaded : List UInt8) :
    (container id s loaded).find? compressedTag = some (Save.compress s.dynamic loaded) := rfl

/-- The stack chunk is found behind the memory. -/
theorem find?_stacksTag (id : StoryId) (s : Snapshot) (loaded : List UInt8) :
    (container id s loaded).find? stacksTag = some (Save.stackBytes s.stack) := rfl

/-- The container of a snapshot gives the snapshot back. -/
theorem ofContainer_container (id : StoryId) (s : Snapshot) (loaded : List UInt8)
    (hpc : s.pc < 16777216) (hdynamic : s.dynamic.length = loaded.length)
    (hstack : s.stack.Storable) :
    ofContainer (container id s loaded) id loaded = .ok s := by
  have hhead := readHead_headBytes id s.pc hpc
  have hmemory : readMemory (container id s loaded) loaded = .ok s.dynamic := by
    rw [readMemory, find?_compressedTag]
    exact Save.decompress_compress s.dynamic loaded hdynamic
  have hstacks := Save.readStacks_stackBytes s.stack hstack
  exact ofContainer_eq_ok_iff.mpr ⟨rfl, ⟨_, find?_headTag id s loaded, hhead⟩, hmemory,
    _, find?_stacksTag id s loaded, hstacks⟩

/-- **A saved game is read back.**  For the story that wrote it, a save file holds exactly the
snapshot, if the numbers of the snapshot fit their fields. -/
theorem read_write (id : StoryId) (s : Snapshot) (loaded : List UInt8)
    (hpc : s.pc < 16777216) (hdynamic : s.dynamic.length = loaded.length)
    (hstack : s.stack.Storable) (hsize : (write id s loaded).length < 4294967296) :
    read (write id s loaded) id loaded = .ok s := by
  have hbody : (container id s loaded).bodyBytes.length < 4294967296 := by
    rw [write, Container.toBytes, List.length_append] at hsize
    omega
  have hparse := Container.parse_toBytes (container id s loaded) hbody
  have hsnapshot := ofContainer_container id s loaded hpc hdynamic hstack
  rw [read, write, hparse]
  exact hsnapshot

/-- A story to save. -/
def sampleId : StoryId where
  release := 88
  serial := #v[56, 52, 48, 55, 50, 54]
  checksum := 0xA129

/-- A snapshot inside two nested routines, with a run of unchanged bytes longer than one piece. -/
def nestedSnapshot : Snapshot where
  pc := 0x4E21
  dynamic := 5 :: List.replicate 299 0 ++ [1, 0, 0]
  stack :=
    { frames :=
        [{ returnPc := 0x2345, locals := (Vector.replicate maxLocals 0).set 0 0xFFFF,
           localCount := 1, result := none, evalFloor := 3 },
         { returnPc := 0x1234, locals := (Vector.replicate maxLocals 0).set 1 2, localCount := 3,
           argCount := 2, result := some 0x10, evalFloor := 1 }]
      eval := #[7, 8, 9, 10] }

/-- The nested snapshot can be stored and is read back. -/
theorem read_write_nestedSnapshot :
    nestedSnapshot.stack.Storable ∧
      read (write sampleId nestedSnapshot (List.replicate 303 0)) sampleId (List.replicate 303 0)
        = .ok nestedSnapshot := by
  have hstack : nestedSnapshot.stack.Storable := by decide
  have hdynamic : nestedSnapshot.dynamic.length = (List.replicate 303 (0 : UInt8)).length := by
    decide +kernel
  exact ⟨hstack, read_write sampleId nestedSnapshot _ (by decide) hdynamic hstack
    (by decide +kernel)⟩

end Quetzal
end ZMachine
