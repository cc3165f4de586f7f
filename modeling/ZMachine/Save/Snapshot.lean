/-
# Snapshots

The machine state that a save keeps, and the undo history: a list of snapshots of limited length
whose oldest entry goes first.
-/
import ZMachine.CallStack

namespace ZMachine

/-- A saved machine state.  The program counter points to what follows the saving instruction's
operands, so that the restored machine can report its own success. -/
structure Snapshot where
  pc : Nat
  /-- The bytes of dynamic memory. -/
  dynamic : List UInt8
  stack : CallStack
  deriving DecidableEq, Repr

/-- The bytes that a snapshot holds, its frames apart: its memory and two for each stack entry. -/
def Snapshot.heldBytes (s : Snapshot) : Nat :=
  s.dynamic.length + s.stack.eval.size * 2

/-- The snapshots that can be undone to. -/
structure History where
  /-- The snapshots, the newest first. -/
  entries : List Snapshot := []
  /-- How many snapshots are kept. -/
  limit : Nat
  deriving DecidableEq, Repr

namespace History

/-- Adds a snapshot and drops the oldest one if there are too many.  Nothing is kept, and false
returned, if the limit is zero. -/
def push (h : History) (s : Snapshot) : Bool × History :=
  if h.limit = 0 then (false, h)
  else (true, { h with entries := (s :: h.entries).take h.limit })

/-- Takes the newest snapshot out. -/
def pop? (h : History) : Option (Snapshot × History) :=
  match h.entries with
  | [] => none
  | s :: older => some (s, { h with entries := older })

/-- Forgets all snapshots. -/
def clear (h : History) : History :=
  { h with entries := [] }

/-- The number of snapshots. -/
def size (h : History) : Nat :=
  h.entries.length

/-- The bytes that all snapshots hold. -/
def heldBytes (h : History) : Nat :=
  h.entries.foldl (fun total s => total + s.heldBytes) 0

end History
end ZMachine
