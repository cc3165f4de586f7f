/-
# Boxes

Rows of characters with a border around them and a title in the upper edge.
-/

namespace ZMachine
namespace Terminal

/-- Whether a character takes no place on the screen. -/
def isControl (ch : Char) : Bool :=
  ch.toNat < 0x20 || (0x7F ≤ ch.toNat && ch.toNat < 0xA0)

/-- A text without the characters that take no place. -/
def visible (text : List Char) : List Char :=
  text.filter fun ch => !isControl ch

/-- A text cut or filled with a character to a width. -/
def fit (fill : Char) (width : Nat) (text : List Char) : List Char :=
  let shown := (visible text).take width
  shown ++ List.replicate (width - shown.length) fill

/-- A text cut or filled with blanks on the left to a width. -/
def fitRight (width : Nat) (text : List Char) : List Char :=
  let shown := (visible text).take width
  List.replicate (width - shown.length) ' ' ++ shown

/-- A row without the blanks at its end. -/
def trimRow (row : List Char) : String :=
  String.ofList (row.reverse.dropWhile (· = ' ')).reverse

/-- A box of a given size around rows, with `padding` blanks inside each side.  Rows that do not fit
are left out. -/
def boxed (title : String) (padding width height : Nat) (rows : List (List Char)) :
    List (List Char) :=
  let inner := width - 2
  let margin := List.replicate padding ' '
  let middle := (List.range (height - 2)).map fun i =>
    '│' :: margin ++ fit ' ' (inner - 2 * padding) (rows.getD i []) ++ margin ++ ['│']
  ('┌' :: fit '─' inner title.toList ++ ['┐']) :: middle ++
    [('└' :: List.replicate inner '─' ++ ['┘'])]

end Terminal
end ZMachine
