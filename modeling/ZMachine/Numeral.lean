/-
# Written numbers

Messages and panes show addresses in hexadecimal with a fixed least number of digits, and labels
are padded to a column.  This module holds the three writers that do it.
-/

namespace ZMachine

/-- The text `s` repeated on its left with `fill` up to `width` characters. -/
def padLeft (fill : Char) (width : Nat) (s : String) : String :=
  String.ofList (List.replicate (width - s.length) fill) ++ s

/-- The text `s` followed by blanks up to `width` characters. -/
def padRight (width : Nat) (s : String) : String :=
  s ++ String.ofList (List.replicate (width - s.length) ' ')

/-- The number `n` as `0x` and at least `digits` lower-case hexadecimal digits. -/
def hexNumber (digits n : Nat) : String :=
  "0x" ++ padLeft '0' digits (String.ofList (Nat.toDigits 16 n))

end ZMachine
