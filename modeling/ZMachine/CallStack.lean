/-
# The call stack

Routine frames and one evaluation stack that all frames share.  Each frame records how deep the
evaluation stack was when its routine was entered, its floor; the entries above the floor belong
to it and go away when it returns.  Code that runs outside every routine owns the stack from the
bottom and has a set of base locals of its own.
-/

namespace ZMachine

/-- The number of local variables a routine can have. -/
abbrev maxLocals : Nat := 15

/-- The local variables of a routine, those past its count included. -/
abbrev Locals := Vector UInt16 maxLocals

/-- The activation record of a routine. -/
structure Frame where
  /-- Where execution goes on after the return. -/
  returnPc : Nat
  locals : Locals := Vector.replicate maxLocals 0
  localCount : Nat := 0
  argCount : Nat := 0
  /-- The variable that receives the returned value; none discards it. -/
  result : Option UInt8
  /-- The depth of the evaluation stack at entry. -/
  evalFloor : Nat
  deriving DecidableEq, Repr

/-- Frames and evaluation stack. -/
structure CallStack where
  /-- The routines being run, the newest first. -/
  frames : List Frame := []
  /-- The evaluation stack, the oldest entry first. -/
  eval : Array UInt16 := #[]
  /-- The locals of code outside every routine. -/
  baseLocals : Locals := Vector.replicate maxLocals 0
  deriving DecidableEq, Repr

namespace CallStack

/-- The stack with no frame and no entry. -/
def empty : CallStack := {}

/-- The number of routines being run. -/
def depth (s : CallStack) : Nat :=
  s.frames.length

/-- The frame of the running routine. -/
def current? (s : CallStack) : Option Frame :=
  s.frames.head?

/-- The depth below which the running routine may not reach. -/
def floor (s : CallStack) : Nat :=
  match s.frames with
  | [] => 0
  | frame :: _ => frame.evalFloor

/-! ## Frames -/

/-- Enters a routine. -/
def pushFrame (s : CallStack) (frame : Frame) : CallStack :=
  { s with frames := frame :: s.frames }

/-- Leaves the running routine and drops the entries it owns. -/
def popFrame? (s : CallStack) : Option (Frame × CallStack) :=
  match s.frames with
  | [] => none
  | frame :: older => some (frame, { s with frames := older, eval := s.eval.take frame.evalFloor })

/-! ## The evaluation stack -/

/-- Pushes a value. -/
def push (s : CallStack) (value : UInt16) : CallStack :=
  { s with eval := s.eval.push value }

/-- The newest entry that belongs to the running routine. -/
def peek? (s : CallStack) : Option UInt16 :=
  if s.eval.size ≤ s.floor then none else s.eval.back?

/-- Removes the newest entry if it belongs to the running routine. -/
def pop? (s : CallStack) : Option (UInt16 × CallStack) :=
  s.peek?.map fun value => (value, { s with eval := s.eval.pop })

/-- Replaces the newest entry if it belongs to the running routine. -/
def setTop? (s : CallStack) (value : UInt16) : Option CallStack :=
  s.peek?.map fun _ => { s with eval := s.eval.pop.push value }

/-! ## Locals -/

/-- The locals of the running code. -/
def locals (s : CallStack) : Locals :=
  match s.frames with
  | [] => s.baseLocals
  | frame :: _ => frame.locals

/-- Writes a local of the running code; there are only `maxLocals` to write. -/
def setLocal (s : CallStack) (index : Nat) (value : UInt16) : CallStack :=
  match s.frames with
  | [] => { s with baseLocals := s.baseLocals.setIfInBounds index value }
  | frame :: older =>
      { s with frames := { frame with locals := frame.locals.setIfInBounds index value } :: older }

/-- The number of arguments the running routine was called with. -/
def argCount (s : CallStack) : Nat :=
  match s.frames with
  | [] => 0
  | frame :: _ => frame.argCount

end CallStack
end ZMachine
