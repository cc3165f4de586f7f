/-
# Panes

The three parts of the screen: the text of the story, the state of the machine, and the status bar.
Panes know nothing of the machine; they are given plain data.
-/
import ZMachine.Numeral
import ZMachine.Terminal.Box
import ZMachine.Terminal.Wrap
import ZMachine.Word

namespace ZMachine
namespace Terminal

/-! ## The story -/

/-- What the story pane shows. -/
structure StoryView where
  title : String
  /-- The lines printed so far; the last one is still open. -/
  lines : Array String
  /-- The line being typed. -/
  input : Option String := none
  deriving DecidableEq, Repr

/-- The mark after the line being typed. -/
def cursor : Char := '█'

namespace StoryView

/-- The rows of the open line with what is being typed and the cursor. -/
def openRows (width : Nat) (line : String) (input : Option String) : List (List Char) :=
  match input with
  | none => wrap width line.toList
  | some typed =>
      let rows := wrap width (line.toList ++ typed.toList)
      rows.dropLast ++ [rows.getLastD [] ++ [cursor]]

/-- All rows of the story. -/
def rows (v : StoryView) (width : Nat) : List (List Char) :=
  match v.lines.toList.reverse with
  | [] => []
  | last :: older =>
      older.reverse.flatMap (fun line => wrap width line.toList) ++ openRows width last v.input

/-- The pane in a given size, scrolled back from the bottom by a number of rows, and how far it
could be scrolled. -/
def draw (v : StoryView) (width height scroll : Nat) : List (List Char) × Nat :=
  let rows := v.rows (max (width - 4) 1)
  let shown := max (height - 2) 1
  let furthest := rows.length - shown
  let scroll := min scroll furthest
  let window := (rows.drop (furthest - scroll)).take shown
  (boxed (" " ++ v.title ++ " ") 1 width height window, scroll)

end StoryView

/-! ## The machine -/

/-- What the machine pane shows. -/
structure MachineView where
  version : UInt8
  pc : Nat
  callDepth : Nat
  /-- The evaluation stack, the oldest entry first. -/
  eval : List UInt16
  undoEntries : Nat
  blocksDecoded : Nat
  lastRequest : Option String
  halted : Option String
  deriving DecidableEq, Repr

namespace MachineView

/-- A label and a value. -/
def row (label value : String) : String :=
  padRight 10 label ++ value

/-- The rows that are always there. -/
def registers (v : MachineView) : List String :=
  [row "version" (toString v.version.toNat),
   row "pc" (hexNumber 5 v.pc),
   row "calls" (toString v.callDepth),
   row "stack" (toString v.eval.length),
   row "undo" (toString v.undoEntries),
   row "blocks" (toString v.blocksDecoded),
   row "effect" (v.lastRequest.getD "-")]

/-- The newest stack entries, as many as there are rows for, under a heading. -/
def stackRows (v : MachineView) (room : Nat) : List String :=
  if v.eval.isEmpty ∨ room = 0 then []
  else
    "eval stack" :: (v.eval.reverse.take (room - 1)).map fun value =>
      "  " ++ hexNumber 4 value.toNat ++ " " ++ toString (Word.signed value)

/-- The row of a machine that has halted. -/
def haltedRows (v : MachineView) : List String :=
  match v.halted with
  | some message => ["halted: " ++ message]
  | none => []

/-- The pane in a given size. -/
def draw (v : MachineView) (width height : Nat) : List (List Char) :=
  let rows := v.registers ++ v.stackRows (height - (3 + v.registers.length)) ++ v.haltedRows
  boxed " Machine " 0 width height (rows.map String.toList)

end MachineView

/-! ## The status bar -/

/-- What the screen waits for. -/
inductive Waiting where
  | line
  | char
  | finished
  | halted
  | running
  deriving DecidableEq, Repr

/-- The mark at the left of the status bar. -/
def Waiting.badge : Waiting → String
  | line => " LINE "
  | char => " KEY "
  | finished => " END "
  | halted => " HALTED "
  | running => " RUN "

/-- The keys that the status bar names. -/
def keyHelp : String :=
  " PgUp/PgDn  scroll │  Tab  focus │  Esc  quit "

/-- The share of a width, in hundredths, to the nearest column. -/
def share (width percent : Nat) : Nat :=
  (width * percent + 50) / 100

/-- The status bar in a given width. -/
def statusBar (width : Nat) (waiting : Waiting) (text : String) : List Char :=
  let left := share width 60
  fit ' ' left (waiting.badge ++ " " ++ text ++ " ").toList ++
    fitRight (width - left) keyHelp.toList

end Terminal
end ZMachine
