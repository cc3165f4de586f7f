/-
# Opcodes

Opcodes are numbered by form, so that one table serves every version.

    1-31        two operands
    128-143     one operand
    176-191     no operand
    224-255     a variable number of operands
    1000-1255   extended

The table is the instruction set of version 5; earlier versions lack some of it and use some
numbers otherwise.  What follows an instruction's operands, a store variable, branch data or text,
depends on the opcode alone, and in a few cases on the version.
-/

namespace ZMachine

/-- The operations, under their customary names. -/
inductive Op where
  | je | jl | jg | decChk | incChk | jin
  | test | or | and | testAttr | setAttr | clearAttr
  | store | insertObj | loadw | loadb | getProp | getPropAddr
  | getNextProp | add | sub | mul | div | mod
  | call2s | call2n | setColour | throwFrame
  | jz | getSibling | getChild | getParent | getPropLen | inc
  | dec | printAddr | call1s | removeObj | printObj | ret
  | jump | printPaddr | load | call1n | not
  | rtrue | rfalse | print | printRet | nop | restart
  | retPopped | catchFrame | pop | quit | newLine | showStatus
  | verify | piracy
  | callVs | storew | storeb | putProp | read | printChar
  | printNum | random | push | pull | splitWindow | setWindow
  | callVs2 | eraseWindow | eraseLine | setCursor | getCursor | setTextStyle
  | bufferMode | outputStream | inputStream | soundEffect | readChar | scanTable
  | callVn | callVn2 | tokenise | encodeText | copyTable | printTable
  | checkArgCount
  | save | restore | logShift | artShift | setFont | saveUndo
  | restoreUndo | printUnicode | checkUnicode | gestalt
  deriving DecidableEq, Repr, Inhabited

namespace Op

/-- The number of the first extended opcode. -/
def extendedBase : Nat := 1000

/-- The instruction set of version 5. -/
def standard? : Nat → Option Op
  | 1 => some .je
  | 2 => some .jl
  | 3 => some .jg
  | 4 => some .decChk
  | 5 => some .incChk
  | 6 => some .jin
  | 7 => some .test
  | 8 => some .or
  | 9 => some .and
  | 10 => some .testAttr
  | 11 => some .setAttr
  | 12 => some .clearAttr
  | 13 => some .store
  | 14 => some .insertObj
  | 15 => some .loadw
  | 16 => some .loadb
  | 17 => some .getProp
  | 18 => some .getPropAddr
  | 19 => some .getNextProp
  | 20 => some .add
  | 21 => some .sub
  | 22 => some .mul
  | 23 => some .div
  | 24 => some .mod
  | 25 => some .call2s
  | 26 => some .call2n
  | 27 => some .setColour
  | 28 => some .throwFrame
  | 128 => some .jz
  | 129 => some .getSibling
  | 130 => some .getChild
  | 131 => some .getParent
  | 132 => some .getPropLen
  | 133 => some .inc
  | 134 => some .dec
  | 135 => some .printAddr
  | 136 => some .call1s
  | 137 => some .removeObj
  | 138 => some .printObj
  | 139 => some .ret
  | 140 => some .jump
  | 141 => some .printPaddr
  | 142 => some .load
  | 143 => some .call1n
  | 176 => some .rtrue
  | 177 => some .rfalse
  | 178 => some .print
  | 179 => some .printRet
  | 180 => some .nop
  | 183 => some .restart
  | 184 => some .retPopped
  | 185 => some .catchFrame
  | 186 => some .quit
  | 187 => some .newLine
  | 189 => some .verify
  | 191 => some .piracy
  | 224 => some .callVs
  | 225 => some .storew
  | 226 => some .storeb
  | 227 => some .putProp
  | 228 => some .read
  | 229 => some .printChar
  | 230 => some .printNum
  | 231 => some .random
  | 232 => some .push
  | 233 => some .pull
  | 234 => some .splitWindow
  | 235 => some .setWindow
  | 236 => some .callVs2
  | 237 => some .eraseWindow
  | 238 => some .eraseLine
  | 239 => some .setCursor
  | 240 => some .getCursor
  | 241 => some .setTextStyle
  | 242 => some .bufferMode
  | 243 => some .outputStream
  | 244 => some .inputStream
  | 245 => some .soundEffect
  | 246 => some .readChar
  | 247 => some .scanTable
  | 248 => some .not
  | 249 => some .callVn
  | 250 => some .callVn2
  | 251 => some .tokenise
  | 252 => some .encodeText
  | 253 => some .copyTable
  | 254 => some .printTable
  | 255 => some .checkArgCount
  | 1000 => some .save
  | 1001 => some .restore
  | 1002 => some .logShift
  | 1003 => some .artShift
  | 1004 => some .setFont
  | 1009 => some .saveUndo
  | 1010 => some .restoreUndo
  | 1011 => some .printUnicode
  | 1012 => some .checkUnicode
  | 1030 => some .gestalt
  | _ => none

/-- Numbers that versions 1 to 3 do not have. -/
def absentFromThree (number : Nat) : Bool :=
  (25 ≤ number && number ≤ 28) || number == 136 || number == 190 || number == 191 ||
    (236 ≤ number && number ≤ 242) || (246 ≤ number && number ≤ 255) || extendedBase ≤ number

/-- Numbers that version 4 does not have. -/
def absentFromFour (number : Nat) : Bool :=
  (26 ≤ number && number ≤ 28) || number == 190 || number == 191 ||
    (248 ≤ number && number ≤ 255) || extendedBase ≤ number

/-- Numbers that versions 1 to 4 use for an operation of their own. -/
def early? : Nat → Option Op
  | 143 => some .not
  | 181 => some .save
  | 182 => some .restore
  | 185 => some .pop
  | _ => none

/-- The operation of a number in a version, if that version has it. -/
def lookup? (version : UInt8) (number : Nat) : Option Op :=
  if 1 ≤ version ∧ version ≤ 3 then
    if absentFromThree number then none
    else if number = 188 then some .showStatus
    else (early? number).or (standard? number)
  else if version = 4 then
    if absentFromFour number then none else (early? number).or (standard? number)
  else standard? number

/-- Whether a store variable follows the operands. -/
def stores (op : Op) (version : UInt8) : Bool :=
  match op with
  | or | and | loadw | loadb | getProp | getPropAddr | getNextProp | add | sub | mul | div
  | mod | call2s | getSibling | getChild | getParent | getPropLen | call1s | load | not | catchFrame
  | callVs | random | callVs2 | readChar | scanTable | logShift | artShift | setFont | saveUndo
  | restoreUndo | checkUnicode | gestalt => true
  | save | restore => 4 ≤ version
  | read => 5 ≤ version
  | _ => false

/-- Whether branch data follows. -/
def branches (op : Op) (version : UInt8) : Bool :=
  match op with
  | je | jl | jg | decChk | incChk | jin | test | testAttr | jz | getSibling | getChild
  | verify | piracy | scanTable | checkArgCount => true
  | save | restore => version ≤ 3
  | _ => false

/-- Whether packed text follows. -/
def hasText : Op → Bool
  | print | printRet => true
  | _ => false

/-- Whether a block ends here, because control does not go on to the next instruction or the host
has to be asked first. -/
def endsBlock : Op → Bool
  | jump | ret | rtrue | rfalse | printRet | retPopped | throwFrame | quit | restart | call1s
  | call1n | call2s | call2n | callVs | callVs2 | callVn | callVn2 | save | restore | saveUndo
  | restoreUndo | read | readChar | splitWindow | setWindow | eraseWindow | eraseLine
  | setCursor | getCursor | setTextStyle | setColour | bufferMode | inputStream | soundEffect
  | printTable | piracy => true
  | _ => false

/-- The name of an operation in messages. -/
def name : Op → String
  | je => "Je"
  | jl => "Jl"
  | jg => "Jg"
  | decChk => "DecChk"
  | incChk => "IncChk"
  | jin => "Jin"
  | test => "Test"
  | or => "Or"
  | and => "And"
  | testAttr => "TestAttr"
  | setAttr => "SetAttr"
  | clearAttr => "ClearAttr"
  | store => "Store"
  | insertObj => "InsertObj"
  | loadw => "Loadw"
  | loadb => "Loadb"
  | getProp => "GetProp"
  | getPropAddr => "GetPropAddr"
  | getNextProp => "GetNextProp"
  | add => "Add"
  | sub => "Sub"
  | mul => "Mul"
  | div => "Div"
  | mod => "Mod"
  | call2s => "Call2s"
  | call2n => "Call2n"
  | setColour => "SetColour"
  | throwFrame => "Throw"
  | jz => "Jz"
  | getSibling => "GetSibling"
  | getChild => "GetChild"
  | getParent => "GetParent"
  | getPropLen => "GetPropLen"
  | inc => "Inc"
  | dec => "Dec"
  | printAddr => "PrintAddr"
  | call1s => "Call1s"
  | removeObj => "RemoveObj"
  | printObj => "PrintObj"
  | ret => "Ret"
  | jump => "Jump"
  | printPaddr => "PrintPaddr"
  | load => "Load"
  | call1n => "Call1n"
  | not => "Not"
  | rtrue => "Rtrue"
  | rfalse => "Rfalse"
  | print => "Print"
  | printRet => "PrintRet"
  | nop => "Nop"
  | restart => "Restart"
  | retPopped => "RetPopped"
  | catchFrame => "Catch"
  | pop => "Pop"
  | quit => "Quit"
  | newLine => "NewLine"
  | showStatus => "ShowStatus"
  | verify => "Verify"
  | piracy => "Piracy"
  | callVs => "CallVs"
  | storew => "Storew"
  | storeb => "Storeb"
  | putProp => "PutProp"
  | read => "Read"
  | printChar => "PrintChar"
  | printNum => "PrintNum"
  | random => "Random"
  | push => "Push"
  | pull => "Pull"
  | splitWindow => "SplitWindow"
  | setWindow => "SetWindow"
  | callVs2 => "CallVs2"
  | eraseWindow => "EraseWindow"
  | eraseLine => "EraseLine"
  | setCursor => "SetCursor"
  | getCursor => "GetCursor"
  | setTextStyle => "SetTextStyle"
  | bufferMode => "BufferMode"
  | outputStream => "OutputStream"
  | inputStream => "InputStream"
  | soundEffect => "SoundEffect"
  | readChar => "ReadChar"
  | scanTable => "ScanTable"
  | callVn => "CallVn"
  | callVn2 => "CallVn2"
  | tokenise => "Tokenise"
  | encodeText => "EncodeText"
  | copyTable => "CopyTable"
  | printTable => "PrintTable"
  | checkArgCount => "CheckArgCount"
  | save => "Save"
  | restore => "Restore"
  | logShift => "LogShift"
  | artShift => "ArtShift"
  | setFont => "SetFont"
  | saveUndo => "SaveUndo"
  | restoreUndo => "RestoreUndo"
  | printUnicode => "PrintUnicode"
  | checkUnicode => "CheckUnicode"
  | gestalt => "Gestalt"

end Op
end ZMachine
