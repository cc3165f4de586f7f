/-
# A session at the terminal

The host of a machine: it runs the machine until that waits for the player, keeps what was printed,
and turns keys and save files into replies.  A session is a plain value; the file that saves go to
is part of it, and the outer program carries it to the disk.
-/
import ZMachine.Machine.Run
import ZMachine.Machine.StatusLine
import ZMachine.Terminal.Pane

namespace ZMachine
namespace Terminal

/-- The file that saves go to. -/
structure SaveSlot where
  path : String
  /-- Whether its directory exists. -/
  reachable : Bool := true
  contents : Option (List UInt8) := none
  deriving DecidableEq, Repr

namespace SaveSlot

/-- What the system reports for a file that is not there. -/
def notFound : String :=
  "No such file or directory (os error 2)"

/-- Writes the file. -/
def write (s : SaveSlot) (data : List UInt8) : Except String SaveSlot :=
  if s.reachable then .ok { s with contents := some data } else .error notFound

/-- Reads the file. -/
def read (s : SaveSlot) : Except String (List UInt8) :=
  match s.contents with
  | some data => .ok data
  | none => .error notFound

end SaveSlot

/-- The pane that has the focus. -/
inductive Focus where
  | story
  | machine
  deriving DecidableEq, Repr

/-- The other pane. -/
def Focus.next : Focus → Focus
  | story => machine
  | machine => story

/-- The input that the story waits for. -/
inductive InputMode where
  | none
  | line (capacity : Nat)
  | char
  deriving DecidableEq, Repr

/-- A key of the terminal. -/
inductive Key where
  | enter | backspace | delete | escape
  | up | down | left | right
  | home | insert | tab | pageUp | pageDown
  | char (ch : Char)
  | function (n : Nat)
  deriving DecidableEq, Repr

/-- The code of a key that has no printable form. -/
def Key.code? : Key → Option Int
  | enter => some 13
  | backspace | delete => some 8
  | escape => some 27
  | up => some 129
  | down => some 130
  | left => some 131
  | right => some 132
  | function n => if 1 ≤ n ∧ n ≤ 12 then some (132 + n) else none
  | _ => none

/-- The state of the host. -/
structure Session where
  machine : Machine
  storyName : String
  slot : SaveSlot
  /-- The lines printed so far; the last one is still open. -/
  lines : Array String := #[""]
  /-- The line being typed. -/
  input : String := ""
  mode : InputMode := .none
  focus : Focus := .story
  /-- How many rows the story is scrolled back. -/
  scroll : Nat := 0
  /-- The name of the newest request. -/
  lastRequest : Option String := none
  /-- The story has ended, and the next key ends the session. -/
  finished : Bool := false
  /-- The session has ended. -/
  quit : Bool := false
  status : String := "Ready!"

namespace Session

/-! ## Running -/

/-- Adds printed text to the lines. -/
def append (s : Session) (text : String) : Session :=
  match fields '\n' text.toList with
  | [] => s
  | first :: rest =>
      let lines := match s.lines.back? with
        | some last => s.lines.pop.push (last ++ String.ofList first)
        | none => s.lines
      { s with lines := lines ++ (rest.map String.ofList).toArray }

/-- Empties the screen. -/
def clearLines (s : Session) : Session :=
  { s with lines := #[""] }

/-- Gives the machine a reply. -/
def answer (s : Session) (slot : Nat) (reply : Reply) : Session :=
  { s with machine := s.machine.answer slot reply }

/-- Writes a save file and tells the machine how it went. -/
def keepSave (s : Session) (data : List UInt8) : Session :=
  match s.slot.write data with
  | .ok slot => { s with slot, status := "Saved to " ++ slot.path }.answer 0 (.number 1)
  | .error message => { s with status := "Save failed: " ++ message }.answer 0 (.number 0)

/-- Gives the machine the save file, if there is one. -/
def offerSave (s : Session) : Session :=
  match s.slot.read with
  | .ok data => s.answer 0 (.bytes data)
  | .error message => { s with status := "Restore failed: " ++ message }

/-- Serves a request of the machine. -/
def serve (s : Session) : Request → Session
  | .lineInput _ _ capacity _ => { s with mode := .line capacity.toNat, input := "" }
  | .charInput _ => { s with mode := .char }
  | .save data => s.keepSave data
  | .restore => s.offerSave
  | .quit => { s with finished := true, status := "The story has ended. Press any key." }
  | .restart => { s with machine := s.machine.restart }.clearLines
  | .eraseWindow window => if window = -1 ∨ window = 0 then s.clearLines else s
  | .printTable lines => s.append ("\n".intercalate lines)
  | .getCursor _ => (s.answer 0 (.number 1)).answer 1 (.number 1)
  | .piracy => s.answer 0 (.number 1)
  | _ => s

/-- What the session says about a machine that stopped. -/
def stopMessage : Stop → String
  | .fault f => "Error " ++ toString f.code ++ ": " ++ f.message
  | .endless => "The story runs in circles."

/-- Runs the machine once and shows what it printed. -/
def runMachine (s : Session) : Except Stop Unit × Session :=
  let (result, machine) := s.machine.run
  let (output, machine) := machine.takeOutput
  (result, { s with machine }.append output)

/-- Runs the machine until it waits for the player, ends, halts or yields, at most the given number
of times. -/
def pump : Nat → Session → Session
  | 0, s => s
  | fuel + 1, s =>
      if s.mode ≠ .none ∨ s.finished ∨ s.machine.halted.isSome then s
      else
        match s.runMachine with
        | (.error stop, s) => { s with status := stopMessage stop }
        | (.ok _, s) =>
            match s.machine.request with
            | none => s
            | some request =>
                let s := { s with lastRequest := some request.name }
                if request = .housekeeping then s else pump fuel (s.serve request)

/-! ## Drawing -/

/-- What the machine pane shows. -/
def machineView (s : Session) : MachineView where
  version := s.machine.version
  pc := s.machine.pc
  callDepth := s.machine.stack.depth
  eval := s.machine.stack.eval.toList
  undoEntries := s.machine.undo.size
  blocksDecoded := s.machine.blocks.decoded
  lastRequest := s.lastRequest
  halted := s.machine.halted.map Fault.message

/-- What the story pane shows. -/
def storyView (s : Session) : StoryView where
  title := s.storyName
  lines := s.lines
  input := match s.mode with
    | .line _ => some s.input
    | _ => none

/-- What the session waits for. -/
def waiting (s : Session) : Waiting :=
  if s.machine.halted.isSome then .halted
  else if s.finished then .finished
  else
    match s.mode with
    | .line _ => .line
    | .char => .char
    | .none => .running

/-- The screen in a given size.  Drawing brings the scrolling into its range. -/
def draw (s : Session) (width height : Nat) : List (List Char) × Session :=
  let left := share width 75
  let (story, scroll) := s.storyView.draw left (height - 1) s.scroll
  let machinePane := s.machineView.draw (width - left) (height - 1)
  let (statusLine, machine) := s.machine.statusLine (width * 6 / 10 - 10)
  let bar := statusBar width s.waiting (statusLine.getD s.status)
  (List.zipWith (· ++ ·) story machinePane ++ [bar], { s with scroll, machine })

/-! ## Keys -/

/-- Ends the line being typed and gives it to the machine. -/
def enterLine (s : Session) : Session :=
  let line := s.input
  let s := ({ s with input := "" }.append line).append "\n"
  { (s.answer 0 (.number 13)).answer 1 (.text line) with mode := .none, scroll := 0 }

/-- A key while a line is typed. -/
def editLine (s : Session) (capacity : Nat) : Key → Session
  | .enter => s.enterLine
  | .backspace => { s with input := String.ofList s.input.toList.dropLast }
  | .char ch => if s.input.length < capacity then { s with input := s.input.push ch } else s
  | _ => s

/-- A key while a single one is waited for; keys without a code are ignored. -/
def typeKey (s : Session) (key : Key) : Session :=
  let reply? : Option Reply := match key with
    | .char ch => some (.char ch)
    | key => key.code?.map .number
  match reply? with
  | some reply => { s.answer 0 reply with mode := .none, scroll := 0 }
  | none => s

/-- Whether a key ends the session at once. -/
def isQuitKey (s : Session) (key : Key) (ctrl : Bool) : Bool :=
  (key = .char 'c' && ctrl) || (key = .escape && s.mode ≠ .char)

/-- A key press. -/
def press (s : Session) (key : Key) (ctrl : Bool) : Session :=
  if s.isQuitKey key ctrl ∨ s.finished ∨ s.machine.halted.isSome then { s with quit := true }
  else
    match key with
    | .tab => { s with focus := s.focus.next }
    | .pageUp => { s with scroll := s.scroll + 10 }
    | .pageDown => { s with scroll := s.scroll - 10 }
    | key =>
      match s.mode with
      | .line capacity => s.editLine capacity key
      | .char => s.typeKey key
      | .none => s

end Session
end Terminal
end ZMachine
