/-
# Requests and replies

The machine does no input or output.  When an instruction needs the host, the machine stops with a
request; the host gives its replies by slot and lets the machine go on, and the work that the
instruction left over is done before anything else.

    request     slot 0                                  slot 1
    lineInput   terminator, negative for a timeout      the line
    charInput   key, negative for a timeout
    save        0 failed, 1 saved, 2 restored
    restore     the saved bytes
    getCursor   line                                    column
    piracy      0 for an illegal copy

Every other request needs no reply.
-/
import ZMachine.Instruction.Basic

namespace ZMachine

/-- What the machine asks of its host. -/
inductive Request where
  /-- Read a line of at most `capacity` characters; `recap` of them are already in the buffer. -/
  | lineInput (timeout : UInt16) (recap capacity : UInt8) (terminators : List UInt8)
  | charInput (timeout : UInt16)
  /-- Keep the bytes of a save file. -/
  | save (data : List UInt8)
  | restore
  | quit
  | restart
  /-- The iteration cap is reached; nothing is asked. -/
  | housekeeping
  /-- The printing bits of the header changed since the last print. -/
  | flagsChanged
  | piracy
  /-- Set the style bits, or with `-1` only the colours. -/
  | setStyle (style : Int) (foreground background : UInt16)
  | splitWindow (lines : UInt16)
  | setWindow (window : UInt16)
  | eraseWindow (window : Int)
  | eraseLine (value : UInt16)
  | setCursor (line : Int) (column : UInt16)
  | getCursor (table : Nat)
  | bufferMode (mode : UInt16)
  | inputStream (stream : UInt16)
  | sound (args : Vector UInt16 5)
  /-- Print the rows of a rectangle. -/
  | printTable (lines : List String)
  deriving DecidableEq, Repr

/-- The name of a request. -/
def Request.name : Request → String
  | lineInput .. => "line-input"
  | charInput _ => "char-input"
  | save _ => "save"
  | restore => "restore"
  | quit => "quit"
  | restart => "restart"
  | housekeeping => "housekeeping"
  | flagsChanged => "flags-changed"
  | piracy => "piracy"
  | setStyle .. => "set-style"
  | splitWindow _ => "split-window"
  | setWindow _ => "set-window"
  | eraseWindow _ => "erase-window"
  | eraseLine _ => "erase-line"
  | setCursor .. => "set-cursor"
  | getCursor _ => "get-cursor"
  | bufferMode _ => "buffer-mode"
  | inputStream _ => "input-stream"
  | sound _ => "sound"
  | printTable _ => "print-table"

/-- A value that the host supplies. -/
inductive Reply where
  | number (n : Int)
  | char (ch : Char)
  | text (line : String)
  | bytes (data : List UInt8)
  deriving DecidableEq, Repr

/-- The reply as a number, a character by its code point. -/
def Reply.toNumber? : Reply → Option Int
  | number n => some n
  | char ch => some ch.toNat
  | _ => none

/-- How an instruction reports its result. -/
inductive Delivery where
  | store (code : UInt8)
  | branch (b : Branch)
  deriving DecidableEq, Repr

/-- An input that waits for the host.  The routine, a packed address, runs when the time is up. -/
inductive PendingInput where
  | line (textBuffer parseBuffer : Nat) (store : Option UInt8) (timeout : UInt16)
      (routine : Option UInt16)
  | char (store : UInt8) (timeout : UInt16) (routine : Option UInt16)
  deriving DecidableEq, Repr

/-- The work left over by the instruction that made the request. -/
inductive Completion where
  /-- Print the text that was held back. -/
  | printLeftovers (text : String)
  | input (pending : PendingInput)
  | save (delivery : Delivery)
  | restore (delivery : Delivery)
  | piracy (branch : Branch)
  | getCursor (table : Nat)
  deriving DecidableEq, Repr

/-- An input set aside while its timeout routine runs. -/
structure ParkedInput where
  input : PendingInput
  request : Request
  /-- Where execution goes on after the input. -/
  pc : Nat
  deriving DecidableEq, Repr

end ZMachine
