/-
# Bytes as text

Reading bytes as UTF-8 where they may be anything: each longest piece that starts a character but
does not finish it, and each byte that starts none, becomes U+FFFD.  Also texts in quotes, with
control characters written as escapes.
-/

namespace ZMachine
namespace Text

/-! ## Reading bytes -/

/-- A character under way: how many bytes are missing, the range of the next one, and the bits so
far. -/
structure PartialChar where
  missing : Nat
  low : UInt8
  high : UInt8
  bits : Nat
  deriving DecidableEq, Repr

/-- The character that stands for bytes that are none. -/
def replacementChar : Char := Char.ofNat 0xFFFD

/-- What the first byte of a character says: the character itself, the bytes to come, or
nothing. -/
def leadByte (b : UInt8) : List Char × Option PartialChar :=
  if b < 0x80 then ([Char.ofNat b.toNat], none)
  else if 0xC2 ≤ b ∧ b ≤ 0xDF then ([], some ⟨1, 0x80, 0xBF, b.toNat - 0xC0⟩)
  else if b = 0xE0 then ([], some ⟨2, 0xA0, 0xBF, 0⟩)
  else if b = 0xED then ([], some ⟨2, 0x80, 0x9F, 0xD⟩)
  else if 0xE1 ≤ b ∧ b ≤ 0xEF then ([], some ⟨2, 0x80, 0xBF, b.toNat - 0xE0⟩)
  else if b = 0xF0 then ([], some ⟨3, 0x90, 0xBF, 0⟩)
  else if b = 0xF4 then ([], some ⟨3, 0x80, 0x8F, 4⟩)
  else if 0xF1 ≤ b ∧ b ≤ 0xF3 then ([], some ⟨3, 0x80, 0xBF, b.toNat - 0xF0⟩)
  else ([replacementChar], none)

/-- One byte: the characters that it completes and the character under way after it. -/
def readByte (state : Option PartialChar) (b : UInt8) : List Char × Option PartialChar :=
  match state with
  | none => leadByte b
  | some p =>
      if p.low ≤ b ∧ b ≤ p.high then
        let bits := p.bits * 64 + b.toNat % 64
        if p.missing ≤ 1 then ([Char.ofNat bits], none)
        else ([], some ⟨p.missing - 1, 0x80, 0xBF, bits⟩)
      else
        let (chars, state) := leadByte b
        (replacementChar :: chars, state)

/-- The characters of the bytes after a character under way. -/
def readBytes (state : Option PartialChar) : List UInt8 → List Char
  | [] => if state.isSome then [replacementChar] else []
  | b :: rest => (readByte state b).1 ++ readBytes (readByte state b).2 rest

/-- The text of a run of bytes. -/
def ofBytes (bytes : List UInt8) : String :=
  String.ofList (readBytes none bytes)

/-! ## Quoting -/

/-- A character as it stands between quotes. -/
def quotedChar (ch : Char) : List Char :=
  if ch = '"' then ['\\', '"']
  else if ch = '\\' then ['\\', '\\']
  else if ch = '\n' then ['\\', 'n']
  else if ch = '\r' then ['\\', 'r']
  else if ch = '\t' then ['\\', 't']
  else if ch = '\x00' then ['\\', '0']
  else if ch.toNat < 0x20 ∨ (0x7F ≤ ch.toNat ∧ ch.toNat < 0xA0) then
    ['\\', 'u', '\x7b'] ++ Nat.toDigits 16 ch.toNat ++ ['\x7d']
  else [ch]

/-- A text in double quotes. -/
def quoted (text : String) : String :=
  String.ofList ('"' :: text.toList.flatMap quotedChar ++ ['"'])

end Text
end ZMachine
