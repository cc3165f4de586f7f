/-
# Output streams

Text goes to the screen (stream 1), the transcript (stream 2) and the command script (stream 4), or
into a table in memory (stream 3).  While a memory stream is open it takes all text; memory streams
nest.
-/

namespace ZMachine

/-- An open memory stream: its table and the number of characters in it. -/
structure MemoryStream where
  table : Nat
  written : Nat := 0
  deriving DecidableEq, Repr

/-- The selected streams and the text that the host has not taken yet. -/
structure OutputStreams where
  screen : Bool := true
  transcript : Bool := false
  script : Bool := false
  /-- The open memory streams, the innermost first. -/
  tables : List MemoryStream := []
  /-- Text for the screen. -/
  console : String := ""
  /-- Text for the transcript. -/
  transcriptText : String := ""
  deriving DecidableEq, Repr

namespace OutputStreams

/-- How deep memory streams nest. -/
def maxTables : Nat := 16

/-- The initial selection; text that the host has not taken stays. -/
def reset (s : OutputStreams) : OutputStreams :=
  { console := s.console, transcriptText := s.transcriptText }

end OutputStreams
end ZMachine
