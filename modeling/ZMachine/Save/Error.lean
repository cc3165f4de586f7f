/-
# Errors of save files

Why a file cannot be read as a saved game.
-/
import ZMachine.Fault
import ZMachine.Text.Utf8

namespace ZMachine

/-- The causes for which a save file is refused. -/
inductive SaveError where
  /-- The file does not start as a container. -/
  | notContainer
  /-- The container is of another type. -/
  | wrongFormType (type : String)
  /-- A chunk runs past the end. -/
  | truncatedChunk (id : String) (claimed available : Nat)
  /-- A chunk that every save has is not there. -/
  | missingChunk (id : String)
  /-- A chunk is shorter or longer than it can be. -/
  | badChunkLength (id : String) (length expected : Nat)
  /-- The compressed memory is broken off or covers too much. -/
  | memoryOverrun
  /-- The stacks end inside a frame. -/
  | truncatedStacks
  /-- The save belongs to another story. -/
  | storyMismatch (release : UInt16) (serial : String)
  deriving DecidableEq, Repr

namespace SaveError

/-- The error in words. -/
def message : SaveError → String
  | notContainer => "not an IFF file"
  | wrongFormType type => "form type " ++ Text.quoted type ++ " is not a save file"
  | truncatedChunk id claimed available =>
      "chunk " ++ id ++ " claims " ++ toString claimed ++ " bytes but only " ++
        toString available ++ " remain"
  | missingChunk id => "required chunk " ++ id ++ " missing"
  | badChunkLength id length expected =>
      "chunk " ++ id ++ " is " ++ toString length ++ " bytes, expected " ++ toString expected
  | memoryOverrun => "compressed memory overruns dynamic memory"
  | truncatedStacks => "stack data ends inside a frame"
  | storyMismatch release serial =>
      "save belongs to release " ++ toString release.toNat ++ ", serial " ++ serial

/-- The fault of a machine that meets the error. -/
def toFault (e : SaveError) : Fault :=
  .malformed e.message

end SaveError
end ZMachine
