/-
# Running

A run finishes the work left over by the last request and then executes block after block until the
story needs its host or the iteration cap is reached.
-/
import ZMachine.Machine.Execute

namespace ZMachine
namespace Machine

/-- Finishes what the last request left over. -/
def resume : Completion → Exec Flow
  | .printLeftovers text => do
      emit text
      return .next
  | .input input => resumeInput input
  | .save delivery => do
      let m ← get
      let code := max 0 (min 2 ((m.replyNumber? 0).getD 0))
      deliver delivery (Word.ofInt code)
  | .restore delivery => resumeRestore delivery
  | .piracy b => do
      let m ← get
      takeBranch b (m.replyNumber? 0 ≠ some 0)
  | .getCursor table => do
      modify fun m =>
        let line := (m.replyNumber? 0).getD 1
        let column := (m.replyNumber? 1).getD 1
        { m with
          memory := (m.memory.setWord table (Word.ofInt line)).setWord (table + 2)
            (Word.ofInt column) }
      return .next

/-- Executes instructions one after another until control leaves their sequence. -/
def runInstructions : List Instruction → Exec Flow
  | [] => return .next
  | ins :: rest => do
      setPc ins.next
      match ← execute ins with
      | .next => runInstructions rest
      | flow => return flow

/-- The block at the program counter, from the cache if it is there. -/
def fetchBlock : Exec Block := do
  let m ← get
  let (block, blocks, codec) ← orFault (m.blocks.fetch m.codec m.memory m.pc)
  set { m with blocks, codec }
  return block

/-- Executes at most a number of blocks, and then yields to the host. -/
def runBlocks : Nat → Exec Unit
  | 0 => do
      let _ ← raise .housekeeping
  | count + 1 => do
      let block ← fetchBlock
      match ← runInstructions block.instructions with
      | .suspend => return
      | _ => runBlocks count

/-- Forgets the host's replies. -/
def clearReplies : Exec Unit :=
  modify fun m => { m with replies := [] }

/-- Finishes what is left over and executes blocks. -/
def runStory : Exec Unit := do
  let m ← get
  if m.finished then
    set { m with request := some .quit }
  else
    set { m with request := none, completion := none }
    let flow ← match m.completion with
      | some completion => resume completion
      | none => pure .next
    clearReplies
    if flow ≠ .suspend then
      runBlocks m.config.iterationCap

/-- Runs the machine until it needs its host; what it needs is its request.  A machine that has
halted gives its fault again. -/
def run (m : Machine) : Except Stop Unit × Machine :=
  match m.halted with
  | some f => (.error (.fault f), m)
  | none =>
    match runStory.run m with
    | (.error (.fault f), m) => (.error (.fault f), { m with halted := some f })
    | result => result

end Machine
end ZMachine
