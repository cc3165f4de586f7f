/-
# Printing

Text goes to the innermost memory stream if one is open, and otherwise to the screen and the
transcript as they are selected.  If the story changed the printing bits of the header since the
last print, the text is held back and the host is told first.
-/
import ZMachine.Machine.Basic

namespace ZMachine
namespace Machine

/-- The machine after text has gone to its streams. -/
def emitText (m : Machine) (text : String) : Machine :=
  match m.streams.tables with
  | stream :: outer =>
      let codes := text.toList.map m.codec.zsciiOf
      let memory := m.memory.setBytes (stream.table + 2 + stream.written) codes
      let stream := { stream with written := stream.written + codes.length }
      { m with memory, streams := { m.streams with tables := stream :: outer } }
  | [] =>
      let s := m.streams
      { m with
        streams :=
          { s with
            console := if s.screen then s.console ++ text else s.console
            transcriptText :=
              if s.transcript then s.transcriptText ++ text else s.transcriptText } }

/-- Sends text to the streams. -/
def emit (text : String) : Exec Unit :=
  modify fun m => m.emitText text

/-- Prints text, or holds it back if the printing bits changed. -/
def print (text : String) : Exec Flow := do
  let m ← get
  let bits := m.headerPrintingBits
  if bits ≠ m.printingBits then
    set { m with printingBits := bits, streams := { m.streams with transcript := bits &&& 1 ≠ 0 } }
    suspend .flagsChanged (.printLeftovers text)
  else
    emit text
    return .next

/-- Prints a character by its ZSCII code. -/
def printZscii (code : UInt16) : Exec Flow := do
  if 1023 < code then
    fault (.illegalCharacter code.toNat)
  match Zscii.char? (← get).codec.charset.extra code.toNat with
  | some ch => print (String.singleton ch)
  | none => return .next

/-- Prints a character by its code point, a surrogate as `?`. -/
def printUnicode (code : UInt16) : Exec Flow :=
  print (String.singleton (if code.toNat.isValidChar then Char.ofNat code.toNat else '?'))

/-- The string at an address, decoded through the cache. -/
def decodeText (address : Nat) : Exec String := do
  let m ← get
  let ((text, _), codec) := m.codec.decode m.memory address
  set { m with codec }
  return text

/-- Prints the string at an address. -/
def printAt (address : Nat) : Exec Flow := do
  print (← decodeText address)

/-- Turns the transcript on or off, in the header as well. -/
def selectTranscript (on : Bool) (m : Machine) : Machine :=
  let flags := m.memory.byteAt Field.flags2Low
  let flags := if on then flags ||| 0x01 else flags &&& ~~~0x01
  { m with
    streams := { m.streams with transcript := on }
    memory := m.memory.setByte Field.flags2Low flags
    printingBits := flags &&& 0x03 }

/-- Opens a memory stream. -/
def openTable (table : Nat) : Exec Unit := do
  let m ← get
  if OutputStreams.maxTables ≤ m.streams.tables.length then
    fault .streamOverflow
  set { m with streams := { m.streams with tables := { table } :: m.streams.tables } }

/-- Closes the innermost memory stream and writes its length before its text. -/
def closeTable : Exec Unit := do
  let m ← get
  match m.streams.tables with
  | [] => fault .streamUnderflow
  | stream :: outer =>
      set { m with
        streams := { m.streams with tables := outer }
        memory := m.memory.setWord stream.table (UInt16.ofNat stream.written) }

/-- Selects an output stream, or with a negative number deselects it. -/
def selectStream (number : Int) (table : Nat) : Exec Unit :=
  if number = 0 then pure ()
  else if number = 1 ∨ number = -1 then
    modify fun m => { m with streams := { m.streams with screen := 0 < number } }
  else if number = 2 ∨ number = -2 then
    modify fun m => selectTranscript (0 < number) m
  else if number = 3 then openTable table
  else if number = -3 then closeTable
  else if number = 4 ∨ number = -4 then
    modify fun m => { m with streams := { m.streams with script := 0 < number } }
  else fault (.badOutputStream number)

end Machine
end ZMachine
