/-
# The player

Plays a story in a terminal that sends whole lines.  Everything is decided by the session; this
module reads lines, draws the screen and carries the save file to the disk and back.
-/
import ZMachine.Terminal.Options
import ZMachine.Terminal.Random
import ZMachine.Terminal.Session

namespace ZMachine
namespace Player

open Terminal

/-- How often the machine may run between two keys. -/
def patience : Nat := 1000000000

/-- The width of the screen. -/
def screenWidth : Nat := 120

/-- The height of the screen. -/
def screenHeight : Nat := 24

/-- The bytes of a file, if it can be read. -/
def readFile? (path : String) : IO (Option (List UInt8)) := do
  try
    let data ← IO.FS.readBinFile path
    return some data.toList
  catch _ => return none

/-- Whether a directory exists. -/
def directoryExists (path : String) : IO Bool := do
  try
    let _ ← IO.FS.realPath path
    return true
  catch _ => return false

/-- A number from the system's entropy. -/
def entropy : IO Nat := do
  let data ← IO.getRandomBytes 8
  return data.toList.foldl (fun n b => 256 * n + b.toNat) 0

/-- Runs the session and writes its save file if that changed. -/
def advance (s : Session) : IO Session := do
  let before := s.slot.contents
  let s := s.pump patience
  match s.slot.contents with
  | some data =>
      if before ≠ some data then
        IO.FS.writeBinFile s.slot.path ⟨data.toArray⟩
  | none => pure ()
  return s

/-- Draws the screen. -/
def display (s : Session) : IO Session := do
  let (rows, s) := s.draw screenWidth screenHeight
  let stdout ← IO.getStdout
  stdout.putStr "\x1b[2J\x1b[H"
  for row in rows do
    stdout.putStrLn (trimRow row)
  stdout.flush
  return s

/-- The keys of a line: its characters and, unless a single key is waited for, the enter key. -/
def keysOf (s : Session) (line : String) : List Key :=
  match s.mode, line.toList with
  | .char, ch :: _ => [.char ch]
  | _, chars => chars.map Key.char ++ [.enter]

/-- Plays until the session or the input ends. -/
partial def play (s : Session) : IO Unit := do
  let s ← display (← advance s)
  if s.quit then return
  let line ← (← IO.getStdin).getLine
  if line.isEmpty then return
  let line := String.ofList (line.toList.filter fun ch => ch ≠ '\n' ∧ ch ≠ '\r')
  play ((keysOf s line).foldl (fun s key => s.press key false) s)

/-- Loads a story and plays it. -/
def start (o : Options) (story : String) : IO UInt32 := do
  match ← readFile? story with
  | none =>
      IO.eprintln ("Error: File '" ++ story ++ "' not found")
      return 1
  | some image =>
      match Machine.load image.toArray o.config with
      | .error f =>
          IO.eprintln ("Cannot load story: " ++ f.message ++ " (error " ++ toString f.code ++ ")")
          return 1
      | .ok machine =>
          let path := o.savePath story
          let contents ← readFile? path
          let reachable ← directoryExists o.saveDirectory
          play { machine, storyName := Options.stem story, slot := { path, reachable, contents } }
          return 0

end Player
end ZMachine

/-- The command line of the player. -/
def main (args : List String) : IO UInt32 := do
  let random := ZMachine.Terminal.congruential (← ZMachine.Player.entropy)
  match ZMachine.Terminal.Options.parse random args with
  | some o =>
      match o.story with
      | some story => ZMachine.Player.start o story
      | none =>
          IO.eprintln ZMachine.Terminal.Options.usage
          return 2
  | none =>
      IO.eprintln ZMachine.Terminal.Options.usage
      return 2
