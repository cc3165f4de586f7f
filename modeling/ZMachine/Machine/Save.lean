/-
# Saving and restoring

A snapshot holds the address of the saving instruction's own result: its store variable from
version 4 on, its branch data before.  Restoring goes there and reports success, so that the story
goes on as if its save had just returned.
-/
import ZMachine.Machine.Call
import ZMachine.Save.Quetzal

namespace ZMachine
namespace Machine

/-- What a save returns in the restored machine. -/
def restoredCode : UInt16 := 2

/-- The state of the machine with its result at an address. -/
def snapshot (m : Machine) (pc : Nat) : Snapshot where
  pc
  dynamic := m.memory.dynamic
  stack := m.stack

/-- Dynamic memory as it was loaded. -/
def loadedDynamic (m : Machine) : List UInt8 :=
  m.memory.loaded.toList.take m.memory.staticStart

/-- The save file of the machine with its result at an address. -/
def saveFile (m : Machine) (pc : Nat) : List UInt8 :=
  Quetzal.write m.header.storyId (m.snapshot pc) m.loadedDynamic

/-- The snapshot in a save file of this story. -/
def readSave (m : Machine) (data : List UInt8) : Except SaveError Snapshot :=
  Quetzal.read data m.header.storyId m.loadedDynamic

/-- Reports the result of a save or restore. -/
def deliver (delivery : Delivery) (value : UInt16) : Exec Flow :=
  match delivery with
  | .store code => do
      writeVariable code value
      return .next
  | .branch b => takeBranch b (value ≠ 0)

/-- The machine with the memory and stack of a snapshot.  The printing bits of the header belong to
the session and stay. -/
def withSnapshot (m : Machine) (s : Snapshot) : Machine :=
  let memory := setUpHeader m.config m.version (m.memory.restoreDynamic s.dynamic)
  { m with
    memory := withPrintingBits m.headerPrintingBits memory
    stack := s.stack
    parked := none }

/-- Goes back to a snapshot and on after its save. -/
def restoreSnapshot (s : Snapshot) : Exec Flow := do
  modify fun m => m.withSnapshot s
  let m ← get
  if 4 ≤ m.version then
    setPc (s.pc + 1)
    writeVariable (m.memory.byteAt s.pc) restoredCode
    return .jump
  else
    let (branch, after) := Branch.read m.memory s.pc
    setPc after
    match ← takeBranch branch true with
    | .next => return .jump
    | flow => return flow

/-- Finishes a restore with the bytes that the host replied; without any, or with bytes that are no
save of this story, it fails. -/
def resumeRestore (delivery : Delivery) : Exec Flow := do
  let m ← get
  match m.reply? 0 with
  | some (.bytes data) =>
      match m.readSave data with
      | .ok s => restoreSnapshot s
      | .error _ => deliver delivery 0
  | _ => deliver delivery 0

/-- Adds a snapshot to the undo history: one if it was kept, minus one if none are. -/
def saveUndo (pc : Nat) : Exec UInt16 := do
  let m ← get
  let (kept, undo) := m.undo.push (m.snapshot pc)
  set { m with undo }
  return if kept then 1 else 0xFFFF

/-- Goes back to the newest snapshot of the undo history, or stores zero if there is none. -/
def restoreUndo (store : Option UInt8) : Exec Flow := do
  let m ← get
  match m.undo.pop? with
  | some (s, undo) =>
      set { m with undo }
      restoreSnapshot s
  | none =>
      storeResult store 0
      return .next

/-- Restores a save file that the host chose by itself. -/
def restoreFile (data : List UInt8) : Exec Unit := do
  let m ← get
  match m.readSave data with
  | .error e => fault e.toFault
  | .ok s =>
      set { m with request := none, completion := none, replies := [], finished := false }
      let _ ← restoreSnapshot s

/-- Loads a save file that the host chose by itself: the machine after it, and a fault if the file
was refused. -/
def loadSavedGame (m : Machine) (data : List UInt8) : Except Stop Unit × Machine :=
  (restoreFile data).run m

end Machine
end ZMachine
