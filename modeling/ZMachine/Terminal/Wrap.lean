/-
# Wrapping lines

A line is broken at blanks into rows of a given width.  A word that is longer than a row is cut into
pieces, and the last piece stays open for the words that follow.
-/

namespace ZMachine
namespace Terminal

/-- The stretches of a text between the occurrences of a character; there is always one. -/
def fields (mark : Char) : List Char → List (List Char)
  | [] => [[]]
  | c :: cs =>
      if c = mark then [] :: fields mark cs
      else
        match fields mark cs with
        | f :: fs => (c :: f) :: fs
        | [] => [[c]]

/-- A word in pieces of a given width; a width of zero counts as one. -/
def pieces (width : Nat) (word : List Char) : List (List Char) :=
  if word.length ≤ max width 1 then [word]
  else word.take (max width 1) :: pieces width (word.drop (max width 1))
termination_by word.length
decreasing_by
  simp only [List.length_drop]
  omega

/-- A row followed by a word, with a blank between them. -/
def joinWord (row word : List Char) : List Char :=
  if row.isEmpty then word else row ++ ' ' :: word

/-- A row as a list of rows, without an empty one. -/
def closedRow (row : List Char) : List (List Char) :=
  if row.isEmpty then [] else [row]

/-- The rows of some words after a row that is still open. -/
def wrapWords (width : Nat) (row : List Char) : List (List Char) → List (List Char)
  | [] => [row]
  | word :: rest =>
      if (joinWord row word).length ≤ width then wrapWords width (joinWord row word) rest
      else
        closedRow row ++ (pieces width word).dropLast ++
          wrapWords width ((pieces width word).getLastD []) rest

/-- The rows of a line.  An empty line is one empty row, and the least width is one. -/
def wrap (width : Nat) (line : List Char) : List (List Char) :=
  wrapWords (max width 1) [] (fields ' ' line)

end Terminal
end ZMachine
