/-
# Command-line options

What the command line of the player says: the story, the directory for save files and the options of
the machine.
-/
import ZMachine.Config

namespace ZMachine
namespace Terminal

/-- The choices of the command line. -/
structure Options where
  /-- The path of the story file. -/
  story : Option String := none
  /-- The directory for save files. -/
  saveDirectory : String := "."
  config : Config

namespace Options

/-- How the program is called. -/
def usage : String :=
  "usage: STORY [--seed N] [--undo-depth N] [--width N] [--height N] [--save-dir DIR]"

/-- A number that fits in a byte. -/
def byte? (text : String) : Option UInt8 :=
  match text.toNat? with
  | some n => if n < 256 then some (UInt8.ofNat n) else none
  | none => none

/-- Sets an option that takes a value. -/
def set? (o : Options) (name value : String) : Option Options :=
  match name with
  | "--seed" => value.toInt?.map fun n => { o with config.randomSeed := some n }
  | "--undo-depth" => value.toNat?.map fun n => { o with config.undoDepth := n }
  | "--width" => (byte? value).map fun b => { o with config.screenWidth := b }
  | "--height" => (byte? value).map fun b => { o with config.screenHeight := b }
  | "--save-dir" => some { o with saveDirectory := value }
  | _ => none

/-- Reads arguments from left to right; there is one story and every option has a value. -/
def parseFrom (o : Options) : List String → Option Options
  | [] => some o
  | [arg] =>
      if arg.startsWith "--" ∨ o.story.isSome then none else some { o with story := some arg }
  | arg :: value :: rest =>
      if arg.startsWith "--" then
        match o.set? arg value with
        | some o => parseFrom o rest
        | none => none
      else if o.story.isSome then none
      else parseFrom { o with story := some arg } (value :: rest)

/-- Reads the arguments of the command line, for a machine with a source of random numbers. -/
def parse (random : RandomSource) (args : List String) : Option Options :=
  parseFrom { config := { random } } args

/-- The file name of a path without its directory and its ending. -/
def stem (path : String) : String :=
  let name := (path.splitOn "/").getLastD ""
  match name.splitOn "." with
  | [] => name
  | [only] => only
  | pieces => ".".intercalate pieces.dropLast

/-- The path of the save file of a story. -/
def savePath (o : Options) (story : String) : String :=
  o.saveDirectory ++ "/" ++ stem story ++ ".qzl"

end Options
end Terminal
end ZMachine
