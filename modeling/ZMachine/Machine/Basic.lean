/-
# The machine

The state of a loaded story and the monad in which instructions act on it.  An action may stop the
machine; what it did to the state before stays.
-/
import ZMachine.Config
import ZMachine.Instruction.Block
import ZMachine.Machine.Request
import ZMachine.Machine.Stream
import ZMachine.Object.Tree
import ZMachine.Random
import ZMachine.Save.Snapshot

namespace ZMachine

/-- A loaded story and its execution state. -/
structure Machine where
  config : Config
  memory : Memory
  header : Header
  codec : Text.Codec
  blocks : BlockCache := {}
  stack : CallStack := .empty
  random : RandomGenerator := .start config.random
  undo : History
  streams : OutputStreams := {}
  /-- The address of the next instruction. -/
  pc : Nat
  /-- What the host is asked for. -/
  request : Option Request := none
  /-- The host's replies by slot. -/
  replies : List Reply := []
  /-- The work to do before execution goes on. -/
  completion : Option Completion := none
  /-- The input whose timeout routine runs. -/
  parked : Option ParkedInput := none
  /-- The fault that stopped the machine for good. -/
  halted : Option Fault := none
  /-- Whether the story has quit. -/
  finished : Bool := false
  /-- The printing bits of the header as of the last print. -/
  printingBits : UInt8 := 0

/-- Why an action stops the machine: for a fault, or because a damaged object table sends it round
in circles. -/
inductive Stop where
  | fault (f : Fault)
  | endless
  deriving DecidableEq, Repr

/-- An action on the machine. -/
abbrev Exec := ExceptT Stop (StateM Machine)

/-- How control leaves an instruction: to the next one, to the program counter, or to the host. -/
inductive Flow where
  | next
  | jump
  | suspend
  deriving DecidableEq, Repr

namespace Machine

/-! ## Views -/

/-- The objects of the story. -/
def objects (m : Machine) : ObjectTable :=
  .ofHeader m.header

/-- The version of the story. -/
def version (m : Machine) : UInt8 :=
  m.header.version

/-- The printing bits of the header: transcript and fixed pitch. -/
def headerPrintingBits (m : Machine) : UInt8 :=
  m.memory.byteAt Field.flags2Low &&& 0x03

/-- The reply in a slot. -/
def reply? (m : Machine) (slot : Nat) : Option Reply :=
  m.replies[slot]?

/-- The number replied in a slot. -/
def replyNumber? (m : Machine) (slot : Nat) : Option Int :=
  (m.reply? slot).bind Reply.toNumber?

/-! ## Loading -/

/-- Memory with the abilities of the machine written into the header. -/
def setUpHeader (config : Config) (version : UInt8) (m : Memory) : Memory :=
  let m := m.setByte Field.interpreterNumber config.interpreterNumber
  let m := m.setByte Field.interpreterVersion config.interpreterVersion
  let flags1 := m.byteAt Field.flags1
  let m := m.setByte Field.flags1
    (if version ≤ 3 then (flags1 ||| 0x20) &&& ~~~0x10 else flags1 ||| 0x1D)
  let m :=
    if 4 ≤ version then
      (m.setByte Field.screenHeight config.screenHeight).setByte Field.screenWidth
        config.screenWidth
    else m
  let m :=
    if 5 ≤ version then
      let m := m.setWord Field.screenWidthUnits config.screenWidth.toUInt16
      let m := m.setWord Field.screenHeightUnits config.screenHeight.toUInt16
      (m.setByte Field.fontWidth 1).setByte Field.fontHeight 1
    else m
  (m.setByte Field.standardRevision 1).setByte (Field.standardRevision + 1) 2

/-- Memory whose printing bits are replaced. -/
def withPrintingBits (bits : UInt8) (m : Memory) : Memory :=
  m.setByte Field.flags2Low ((m.byteAt Field.flags2Low &&& ~~~0x03) ||| bits)

/-- Loads a story. -/
def load (image : Array UInt8) (config : Config) : Except Fault Machine := do
  let memory := Memory.ofImage image
  let header ← Header.parse memory
  let codec := Text.Codec.ofStory memory header
  let memory := setUpHeader config header.version memory
  let random := RandomGenerator.start config.random
  return {
    config, memory, header, codec
    random := match config.randomSeed with
      | some seed => random.setSeed seed
      | none => random
    undo := { limit := config.undoDepth }
    pc := header.initialPc
    printingBits := memory.byteAt Field.flags2Low &&& 0x03 }

/-- Starts the story again from its loaded image.  Text that the host has not taken and the
printing bits of the header survive. -/
def restart (m : Machine) : Machine :=
  let bits := m.headerPrintingBits
  let memory := withPrintingBits bits m.memory.reset
  { m with
    memory := setUpHeader m.config m.header.version memory
    codec := .ofStory memory m.header
    blocks := m.blocks.clear
    stack := .empty
    undo := m.undo.clear
    streams := { m.streams.reset with transcript := bits &&& 0x01 ≠ 0 }
    pc := m.header.initialPc
    request := none
    replies := []
    completion := none
    parked := none
    halted := none
    finished := false
    printingBits := bits }

/-! ## The host's side -/

/-- Puts a reply into a slot; slots before it that have none become the number zero. -/
def answer (m : Machine) (slot : Nat) (reply : Reply) : Machine :=
  let filled := m.replies ++ List.replicate (slot + 1 - m.replies.length) (.number 0)
  { m with replies := filled.set slot reply }

/-- Takes the text for the screen. -/
def takeOutput (m : Machine) : String × Machine :=
  (m.streams.console, { m with streams := { m.streams with console := "" } })

/-- Takes the text for the transcript. -/
def takeTranscript (m : Machine) : String × Machine :=
  (m.streams.transcriptText, { m with streams := { m.streams with transcriptText := "" } })

/-- Sets the seed of the random generator; zero makes it unpredictable. -/
def setRandomSeed (m : Machine) (seed : Int) : Machine :=
  { m with random := m.random.setSeed seed }

/-! ## Actions -/

/-- Stops with a fault. -/
def fault {α : Type} (f : Fault) : Exec α :=
  throw (.fault f)

/-- Goes on with a value, or stops with its fault. -/
def orFault {α : Type} : Except Fault α → Exec α
  | .ok a => pure a
  | .error f => fault f

/-- Sets the program counter. -/
def setPc (pc : Nat) : Exec Unit :=
  modify fun m => { m with pc }

/-- Makes a request that leaves no work over. -/
def raise (request : Request) : Exec Flow := do
  modify fun m => { m with request := some request }
  return .suspend

/-- Makes a request and notes the work that it leaves over. -/
def suspend (request : Request) (completion : Completion) : Exec Flow := do
  modify fun m => { m with completion := some completion }
  raise request

end Machine
end ZMachine
