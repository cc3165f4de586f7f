/-
# Line and character input

An input makes a request and is finished when the host replies.  A negative reply means that the
time ran out: the routine of the input runs and decides whether it goes on.
-/
import ZMachine.Machine.Call

namespace ZMachine
namespace Machine

/-- The codes of function keys that may end a line. -/
def isFunctionKey (b : UInt8) : Bool :=
  (129 ≤ b && b ≤ 154) || 252 ≤ b

/-- The bytes from an address to the next zero. -/
def bytesToZero (m : Memory) (address : Nat) : List UInt8 :=
  if h : m.byteAt address = 0 then [] else m.byteAt address :: bytesToZero m (address + 1)
termination_by m.size - address
decreasing_by
  have := m.lt_size_of_byteAt_ne_zero address h
  omega

/-- The codes that end a line: return, and from version 5 the function keys that the story
lists. -/
def terminators (m : Machine) : List UInt8 :=
  let table := m.memory.pointerAt Field.terminators
  if m.version < 5 ∨ table = 0 then [returnKey]
  else returnKey :: (bytesToZero m.memory table).filter isFunctionKey

/-- The request for a line. -/
def lineRequest (m : Machine) (textBuffer : Nat) (timeout : UInt16) : Request :=
  .lineInput timeout (if 5 ≤ m.version then m.memory.byteAt (textBuffer + 1) else 0)
    (m.textCapacity textBuffer) m.terminators

/-- The request for an input. -/
def inputRequest (m : Machine) : PendingInput → Request
  | .line textBuffer _ _ timeout _ => m.lineRequest textBuffer timeout
  | .char _ timeout _ => .charInput timeout

/-- The routine of a timed input, which takes a time and a version from 4 on. -/
def timeoutRoutine (m : Machine) (timeout routine : UInt16) : Option UInt16 :=
  if 4 ≤ m.version ∧ timeout ≠ 0 ∧ routine ≠ 0 then some routine else none

/-- The routine of an input. -/
def routineOf : PendingInput → Option UInt16
  | .line _ _ _ _ routine => routine
  | .char _ _ routine => routine

/-- Asks for an input. -/
def startInput (input : PendingInput) : Exec Flow := do
  suspend ((← get).inputRequest input) (.input input)

/-- Sets an input aside and runs its routine. -/
def interrupt (routine : UInt16) (input : PendingInput) : Exec Flow := do
  let m ← get
  if m.parked.isSome then
    fault .nestedInterrupt
  set { m with parked := some { input, request := m.inputRequest input, pc := m.pc } }
  call (m.header.unpackRoutine routine) [] fromInterrupt none

/-- The terminator that the host replied to a line input. -/
def repliedTerminator (m : Machine) : Int :=
  (m.replyNumber? 0).getD returnKey.toNat

/-- The line that the host replied. -/
def repliedLine (m : Machine) : String :=
  match m.reply? 1 with
  | some (.text line) => line
  | _ => ""

/-- The key that the host replied to a character input. -/
def repliedKey (m : Machine) : Int :=
  match m.reply? 0 with
  | some (.char ch) =>
      if ch = '\n' ∨ ch = '\r' then returnKey.toNat else (m.codec.zsciiOf ch).toNat
  | some (.number n) => if n = 10 then returnKey.toNat else n
  | _ => returnKey.toNat

/-- What the host replied to an input. -/
def repliedEnd (m : Machine) : PendingInput → Int
  | .line .. => m.repliedTerminator
  | .char .. => m.repliedKey

/-- Finishes an input with the host's reply, or runs its routine if the time ran out.  Without a
routine a timeout counts as terminator zero. -/
def resumeInput (input : PendingInput) : Exec Flow := do
  let m ← get
  let ended := m.repliedEnd input
  match routineOf input, decide (ended < 0) with
  | some routine, true => interrupt routine input
  | _, timedOut => do
      finishInput input (if timedOut then 0 else ended) m.repliedLine
      return .next

end Machine
end ZMachine
