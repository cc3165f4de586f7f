/-
# Calls and restores that fail

A routine that goes back to a snapshot gives up the stack of its caller, but one that tries to and
fails should find everything as it was.  So it is where a save file is refused.  But before version
4 going back ends with the branch of the saving instruction, and where that returns from a routine
without a caller (`Machine.Strands`) it fails when stack and memory are already in place.

* `CarriesOn` : whatever machine and host do, unless they succeed in going back to a snapshot or
  start the story again;
* `CarriesOn.continues_or_strands` : such a thing leaves the snapshots alone, or it strands;
* `call_isolated_unless_stranded` : so a call is isolated from its caller unless something strands
  on the way, which takes a story from before version 4;
* `call_not_isolated_straySave` : a save file that strands, and a call that comes back elsewhere.
-/
import ZMachine.Proofs.Machine.CallIsolation
import ZMachine.Proofs.Machine.Interrupt
import ZMachine.Proofs.Machine.Loading

namespace ZMachine
namespace Machine

/-! ## What strands -/

/-- Whether a snapshot strands depends on memory, header and options only. -/
theorem Strands.same {m m' : Machine} {s : Snapshot} (h : m'.Strands s)
    (hmemory : m'.memory = m.memory) (hheader : m'.header = m.header)
    (hconfig : m'.config = m.config) : m.Strands s := by
  have hbranch : m'.answeringBranch s = m.answeringBranch s := by
    simp only [answeringBranch, withSnapshot, Machine.version, headerPrintingBits, hmemory,
      hheader, hconfig]
  refine ⟨?_, hbranch ▸ h.onTrue, hbranch ▸ h.returns, h.noCaller⟩
  have hversion := h.version
  unfold Machine.version at hversion ⊢
  rwa [hheader] at hversion

/-- Before version 4, going back to a snapshot leaves what the branch of its save leaves, taken in
the restored machine. -/
theorem restoreSnapshot_run_snd {m : Machine} {s : Snapshot} {b : Branch} {stop : Nat}
    (hversion : m.version < 4) (hread : Branch.read (m.withSnapshot s).memory s.pc = (b, stop)) :
    ((restoreSnapshot s).run m).2
      = ((takeBranch b true).run { m.withSnapshot s with pc := stop }).2 := by
  have hold : ¬ 4 ≤ (m.withSnapshot s).version := UInt8.not_le.mpr hversion
  rw [restoreSnapshot, run_modify_bind, run_bind, run_get]
  dsimp only
  rw [if_neg hold, hread, setPc, run_modify_bind, run_bind]
  dsimp only
  rcases (takeBranch b true).run { m.withSnapshot s with pc := stop } with ⟨_ | flow, after⟩
  · rfl
  · cases flow <;> rfl

/-- A machine runs a story of one version. -/
theorem lasting_version (version : UInt8) : Lasting fun m => m.version = version :=
  OfEquipment.lasting
    { work := fun {m m'} hequipment _ hm => by
        have hheader : m'.header = m.header := congrArg Equipment.header hequipment
        unfold Machine.version at hm ⊢
        rw [hheader]
        exact hm
      decode := fun _ hm => hm
      fetchBlock := fun {m} hm => by
        obtain ⟨blocks, codec, hfetch⟩ := fetchBlock_run_snd m
        rw [hfetch]
        exact hm
      restart := id }

end Machine

namespace Moment

open Machine

/-- What nothing breaks survives everything that does not go back. -/
theorem Continues.lasting {P : Machine → Prop} (hP : Lasting P) {μ ν : Moment}
    (h : Continues μ ν) (hμ : P μ.machine) : P ν.machine := by
  cases h with
  | step => exact hP.step hμ
  | run => exact hP.begin hμ
  | attend h => exact hP.attend hμ h
  | refuse _ data => exact hP.loadSavedGame hμ data

/-! ## Restores that fail -/

/-- The next instruction fails. -/
def Fails : Moment → Prop
  | ⟨m, .executing (ins :: _) _⟩ =>
      ∃ e, ((execute ins).run { m with pc := ins.next }).1 = .error e
  | _ => False

/-- One thing that machine and host do without success in going back to a snapshot, and without a
restart: a step, the beginning of a run, what the host does between two runs, or a load.  Restores
and loads are among them if they fail. -/
inductive CarriesOn : Moment → Moment → Prop
  | step (μ : Moment) (h : μ.Undoes → μ.Fails) : CarriesOn μ μ.step
  | run (m : Machine) (h : ∀ s, BeginsRestoring m s →
      ∃ e, ((leftover m.completion).run (taken m)).1 = .error e) : CarriesOn ⟨m, .host⟩ (begin m)
  | attend {m m' : Machine} (h : Attends m m') : CarriesOn ⟨m, .host⟩ ⟨m', .host⟩
  | load (m : Machine) (data : List UInt8) (e : Stop) (h : (m.loadSavedGame data).1 = .error e) :
      CarriesOn ⟨m, .host⟩ ⟨(m.loadSavedGame data).2, .host⟩

theorem CarriesOn.of_step {μ ν : Moment} (hstep : μ.step = ν) (h : μ.Undoes → μ.Fails) :
    CarriesOn μ ν := by
  rw [← hstep]
  exact .step μ h

/-- Machine and host go back to a snapshot: out of the undo history, out of the save file that a
restore has asked for, or out of one that the host loads by itself. -/
inductive GoesBack (s : Snapshot) : Moment → Moment → Prop
  | undo {m m₁ : Machine} {ins : Instruction} {rest : List Instruction} {blocks : Nat}
      {values : List UInt16} {older : History} (hop : ins.op = .restoreUndo)
      (hvalues : (operandValues ins.operands).run { m with pc := ins.next } = (.ok values, m₁))
      (hpop : m₁.undo.pop? = some (s, older)) :
      GoesBack s ⟨m, .executing (ins :: rest) blocks⟩ (step ⟨m, .executing (ins :: rest) blocks⟩)
  | restore {m : Machine} (h : BeginsRestoring m s) : GoesBack s ⟨m, .host⟩ (begin m)
  | load {m : Machine} {data : List UInt8} (h : m.readSave data = .ok s) :
      GoesBack s ⟨m, .host⟩ ⟨(m.loadSavedGame data).2, .host⟩

/-- An undo that fails strands. -/
theorem exists_strands_of_undoes {μ : Moment} (hundoes : μ.Undoes) (hfails : μ.Fails) :
    ∃ s, GoesBack s μ μ.step ∧ μ.machine.Strands s := by
  rcases μ with ⟨m, _ | _ | ⟨_ | ⟨ins, rest⟩, blocks⟩ | _⟩
  case executing.cons =>
    obtain ⟨hop, values, m₁, hvalues, hne⟩ := hundoes
    obtain ⟨s, older, hpop⟩ : ∃ s older, m₁.undo.pop? = some (s, older) := by
      unfold History.pop?
      cases hentries : m₁.undo.entries with
      | nil => exact absurd hentries hne
      | cons s older => exact ⟨s, _, rfl⟩
    obtain ⟨e, he⟩ := hfails
    rw [execute_run hvalues, executeWith, hop] at he
    dsimp only at he
    rw [restoreUndo_run hpop] at he
    have hstrands := (restoreSnapshot_error_iff { m₁ with undo := older } s).mp ⟨e, he⟩
    -- the operands have been read from the same story
    have hmemory : m₁.memory = m.memory := by
      have h := memory_operandValues ins.operands { m with pc := ins.next }
      rwa [hvalues] at h
    have hequipment : m₁.equipment = m.equipment := by
      have h := (plain_operandValues ins.operands).works { m with pc := ins.next }
      rw [hvalues] at h
      exact h.equipment
    exact ⟨s, .undo hop hvalues hpop, hstrands.same hmemory (congrArg Equipment.header hequipment)
      (congrArg Equipment.config hequipment)⟩
  all_goals exact hundoes.elim

/-- So does a restore that fails with a save file of the story. -/
theorem strands_of_beginsRestoring {m : Machine} {s : Snapshot} (h : BeginsRestoring m s) {e : Stop}
    (hfails : ((leftover m.completion).run (taken m)).1 = .error e) : m.Strands s := by
  obtain ⟨-, -, completion, hcompletion, delivery, data, rfl, hreply, hread⟩ := h
  obtain ⟨replies, hleftover, -⟩ := leftover_run (.restore delivery) (taken m)
  have hrun : (resume (.restore delivery)).run (taken m) = (restoreSnapshot s).run (taken m) :=
    resumeRestore_run (m := taken m) hreply hread delivery
  rw [hcompletion, hleftover, hrun] at hfails
  have hstrands := (restoreSnapshot_error_iff (taken m) s).mp ⟨e, hfails⟩
  exact hstrands.same rfl rfl rfl

/-- **What does not succeed in going back leaves the snapshots alone, or it strands.** -/
theorem CarriesOn.continues_or_strands {μ ν : Moment} (h : CarriesOn μ ν) :
    Continues μ ν ∨ ∃ s, GoesBack s μ ν ∧ μ.machine.Strands s := by
  cases h with
  | step _ hfails =>
      by_cases hundoes : μ.Undoes
      · exact Or.inr (exists_strands_of_undoes hundoes (hfails hundoes))
      · exact Or.inl (.step μ hundoes)
  | run m hfails =>
      by_cases hrestoring : ∃ s, BeginsRestoring m s
      · obtain ⟨s, hs⟩ := hrestoring
        obtain ⟨e, he⟩ := hfails s hs
        exact Or.inr ⟨s, .restore hs, strands_of_beginsRestoring hs he⟩
      · exact Or.inl (.run m fun s hs => hrestoring ⟨s, hs⟩)
  | attend h => exact Or.inl (.attend h)
  | load m data e he =>
      cases hread : m.readSave data with
      | error refusal => exact Or.inl (.refuse m data refusal hread)
      | ok s => exact Or.inr ⟨s, .load hread, (loadSavedGame_error_iff_of_ok hread).mp ⟨e, he⟩⟩

/-! ## Calls -/

/-- Carrying on from a moment at which more than `depth` routines are being run. -/
def CarriesOnAbove (depth : Nat) (μ ν : Moment) : Prop :=
  depth < μ.depth ∧ CarriesOn μ ν

/-- Something strands on the way, and nothing has gone back to a snapshot before. -/
def StrandsBetween (depth : Nat) (μ ν : Moment) : Prop :=
  ∃ κ κ' s, Relation.ReflTransGen (ContinuesAbove depth) μ κ ∧ depth < κ.depth ∧
    GoesBack s κ κ' ∧ κ.machine.Strands s ∧ Relation.ReflTransGen (CarriesOnAbove depth) κ' ν

/-- A way on which nothing goes back to a snapshot, or on which something strands. -/
theorem continues_or_strandsBetween {depth : Nat} {μ ν : Moment}
    (hpath : Relation.ReflTransGen (CarriesOnAbove depth) μ ν) :
    Relation.ReflTransGen (ContinuesAbove depth) μ ν ∨ StrandsBetween depth μ ν := by
  induction hpath using Relation.ReflTransGen.head_induction_on with
  | refl => exact Or.inl .refl
  | @head μ κ hstep hrest ih =>
      obtain ⟨hdepth, hcarries⟩ := hstep
      obtain hcontinues | ⟨s, hback, hstrands⟩ := hcarries.continues_or_strands
      · obtain hall | ⟨κ₁, κ₂, s, hbefore, hafter⟩ := ih
        · exact Or.inl (.head ⟨hdepth, hcontinues⟩ hall)
        · exact Or.inr ⟨κ₁, κ₂, s, .head ⟨hdepth, hcontinues⟩ hbefore, hafter⟩
      · exact Or.inr ⟨μ, κ, s, .refl, hdepth, hback, hstrands, hrest⟩

/-- What strands runs a story from before version 4. -/
theorem StrandsBetween.version_lt {depth : Nat} {μ ν : Moment} (h : StrandsBetween depth μ ν) :
    μ.machine.version < 4 := by
  obtain ⟨κ, -, s, hbefore, -, -, hstrands, -⟩ := h
  have hversion : κ.machine.version = μ.machine.version := by
    clear hstrands
    induction hbefore with
    | refl => rfl
    | tail _ hstep ih => exact hstep.2.lasting (lasting_version _) ih
  rw [← hversion]
  exact hstrands.version

/-- **Calls are isolated from their callers, unless something strands.**  A machine executes a call
whose operands have values and whose target lies in the story.  Whatever goes on after that, unless
a restore, an undo or a load succeeds or the story starts again, when for the first time just as
many routines are being run as before the call, the program counter is at the address after the
call, and the stack is what it was when the operands had been evaluated, but for the returned value
in its variable.  The only other way, before version 4, is that one of those has failed as it
stranded. -/
theorem call_isolated_unless_stranded {m m₁ : Machine} {ins : Instruction}
    {rest : List Instruction} {blocks : Nat} {values : List UInt16} {ν : Moment}
    (hdecoded : ins.Decoded) (hcall : calls ins.op = true)
    (hvalues : (operandValues ins.operands).run { m with pc := ins.next } = (.ok values, m₁))
    (hpos : callTarget m₁ values ≠ 0) (hlt : callTarget m₁ values < m₁.memory.size)
    (hpath : Relation.ReflTransGen (CarriesOnAbove m.stack.depth)
      (step ⟨m, .executing (ins :: rest) blocks⟩) ν)
    (hdepth : ν.depth = m.stack.depth) :
    (ν.machine.pc = ins.next ∧
      ∃ value, ν.machine.stack
        = CallStack.receive { m.stack with eval := m₁.stack.eval } ins.store value) ∨
    m.version < 4 ∧
      StrandsBetween m.stack.depth (step ⟨m, .executing (ins :: rest) blocks⟩) ν := by
  obtain hcontinues | hstrands := continues_or_strandsBetween hpath
  · exact Or.inl (call_isolated hdecoded hcall hvalues hpos hlt hcontinues hdepth)
  · right
    refine ⟨?_, hstrands⟩
    have hversion : (step ⟨m, .executing (ins :: rest) blocks⟩).machine.version = m.version :=
      (lasting_version m.version).step rfl
    rw [← hversion]
    exact hstrands.version_lt

/-- A story of version 5 with a routine at `0x20` that pushes seven and returns it, and behind it a
call of that routine that keeps the result in the first local. -/
def pushingStory : Memory :=
  .ofImage (List.replicate 14 (0 : UInt8) ++ [0x00, 0x40] ++ List.replicate 16 (0 : UInt8)
    ++ [0x00, 0xE8, 0x7F, 0x07, 0xB8] ++ [0xE0, 0x2F, 0x00, 0x08, 0x00, 0x01]).toArray

/-- A machine that runs a routine of that story, with two entries on its evaluation stack. -/
def pushingCaller : Machine :=
  let header : Header :=
    { version := 5, release := 1, serial := Vector.replicate 6 0, checksum := 0, highMemory := 0x40,
      initialPc := 0x25, dictionary := 0, objects := 0, globals := 0, staticStart := 0x40,
      abbreviations := 0, alphabet := 0, extension := 0, unicodeTable := 0, routineOffset := 0,
      stringOffset := 0 }
  { config := { random := .lowest }
    memory := pushingStory
    header
    codec := .ofStory pushingStory header
    stack := { frames := [{ returnPc := 9, localCount := 1, result := none, evalFloor := 0 }],
               eval := #[5, 6] }
    undo := { limit := 10 }
    pc := 0x25 }

/-- The call, with an entry of the evaluation stack as argument. -/
def pushingCall : Instruction where
  address := 0x25
  op := .callVs
  number := 224
  operands := [.large 0x08, .var 0]
  operandsEnd := 0x2A
  store := some 1
  branch := none
  text := none
  next := 0x2B

/-- The instructions of the routine. -/
def pushingRoutine : List Instruction :=
  [{ address := 0x21, op := .push, number := 232, operands := [.small 7], operandsEnd := 0x24,
     store := none, branch := none, text := none, next := 0x24 },
   { address := 0x24, op := .retPopped, number := 184, operands := [], operandsEnd := 0x25,
     store := none, branch := none, text := none, next := 0x25 }]

/-- The machine in the routine. -/
def pushingCallee : Machine :=
  (step ⟨pushingCaller, .executing [pushingCall] 1⟩).machine

/-- The machine in the routine, whose instructions have been fetched. -/
def fetchedCallee : Machine :=
  { pushingCallee with blocks := { decoded := 1 } }

/-- The routine comes back to its caller with its own entry gone and the value in the local. -/
theorem call_isolated_pushingCall :
    ∃ ν : Moment, Relation.ReflTransGen (CarriesOnAbove pushingCaller.stack.depth)
        (step ⟨pushingCaller, .executing [pushingCall] 1⟩) ν ∧
      ν.depth = pushingCaller.stack.depth ∧ ν.machine.pc = 0x2B ∧
      ∃ value, ν.machine.stack
        = CallStack.receive { pushingCaller.stack with eval := #[5] } (some 1) value := by
  have hroutine : step ⟨pushingCallee, .fetching 1⟩
      = ⟨fetchedCallee, .executing pushingRoutine 0⟩ :=
    step_fetching_of_dynamic ⟨0x21, pushingRoutine⟩ Std.HashMap.getElem?_empty (by decide) rfl
  have hfetch : CarriesOnAbove 1 ⟨pushingCallee, .fetching 1⟩
      ⟨fetchedCallee, .executing pushingRoutine 0⟩ :=
    ⟨by decide, .of_step hroutine False.elim⟩
  have hpush : CarriesOnAbove 1 ⟨fetchedCallee, .executing pushingRoutine 0⟩
      (step ⟨fetchedCallee, .executing pushingRoutine 0⟩) :=
    ⟨by decide, .step _ fun h => nomatch h.1⟩
  have hreturn : CarriesOnAbove 1 (step ⟨fetchedCallee, .executing pushingRoutine 0⟩)
      (step (step ⟨fetchedCallee, .executing pushingRoutine 0⟩)) :=
    ⟨by decide, .step _ fun h => nomatch h.1⟩
  have hpath : Relation.ReflTransGen (CarriesOnAbove pushingCaller.stack.depth)
      (step ⟨pushingCaller, .executing [pushingCall] 1⟩) _ :=
    ((Relation.ReflTransGen.single hfetch).tail hpush).tail hreturn
  have hdecoded : pushingCall.Decoded :=
    ⟨pushingCaller.codec, pushingStory, 0x25, pushingCaller.codec, rfl⟩
  have hvalues : (operandValues pushingCall.operands).run
      { pushingCaller with pc := pushingCall.next }
        = (.ok [0x08, 6], { pushingCaller with
            pc := 0x2B, stack := { pushingCaller.stack with eval := #[5] } }) := rfl
  have hversion : ¬ pushingCaller.version < 4 := by decide
  have hisolated := call_isolated_unless_stranded hdecoded rfl hvalues (by decide) (by decide)
    hpath rfl
  exact ⟨_, hpath, rfl, hisolated.resolve_right fun h => hversion h.1⟩

/-! ## A save file that strands -/

/-- A story of version 3 that calls a routine and keeps the result in its first global.  The routine
saves, to return false where that is restored, and returns true. -/
def savingCallImage : Array UInt8 :=
  (3 :: List.replicate 6 (0 : UInt8) ++ 0x40 :: List.replicate 4 (0 : UInt8) ++
    [0, 0x50, 0, 0x58] ++ List.replicate 48 (0 : UInt8) ++
    [0xE0, 0x3F, 0, 0x24, 0x10, 0xBA, 0xBA, 0] ++ [0, 0xB5, 0xC0, 0xB0] ++
    List.replicate 20 (0 : UInt8)).toArray

/-- The machine of that story. -/
def savingCallMachine : Machine :=
  (load savingCallImage { iterationCap := 2, random := .lowest }).toOption.get rfl

/-- The call. -/
def savingCall : Instruction :=
  (Instruction.read savingCallMachine.codec savingCallMachine.memory 0x40).toOption.get rfl

/-- The save. -/
def saving : Instruction :=
  (Instruction.read savingCallMachine.codec savingCallMachine.memory 0x49).toOption.get rfl

/-- The return behind it. -/
def returningAfterSave : Instruction :=
  (Instruction.read savingCallMachine.codec savingCallMachine.memory 0x4B).toOption.get rfl

/-- The machine that is about to call. -/
def savingCaller : Machine :=
  { savingCallMachine with blocks := { decoded := 1 } }

/-- The machine in the routine. -/
def savingCallee : Machine :=
  { savingCaller with
    stack := CallStack.empty.pushFrame (savingCaller.calleeFrame 0x48 [] 0x45 (some 0x10))
    pc := 0x49 }

/-- The machine that waits for its host to save. -/
def savingMachine : Machine :=
  { savingCallee with
    blocks := { decoded := 2 }
    pc := 0x4B
    request := some (.save (savingCallee.saveFile 0x4A))
    completion := some (.save (.branch ⟨true, .returnFalse⟩)) }

/-- A frame that returns to an address. -/
def returningTo (returnPc : Nat) : Frame where
  returnPc
  localCount := 0
  result := none
  evalFloor := 0

/-- A snapshot of the story in which the save stands in a routine that was called from nowhere, and
that in one that returns past the call. -/
def straySnapshot : Snapshot :=
  { savingMachine.snapshot 0x4A with stack := { frames := [returningTo 0, returningTo 0x46] } }

/-- Its save file. -/
def straySave : List UInt8 :=
  Quetzal.write savingMachine.header.storyId straySnapshot savingMachine.loadedDynamic

/-- The machine after the load of that file has failed. -/
def strandedMachine : Machine :=
  { savingMachine with
    stack := { frames := [returningTo 0x46] }
    request := none
    completion := none }

theorem readSave_straySave : savingMachine.readSave straySave = .ok straySnapshot :=
  eq_ok_of_toOption (by decide +kernel)

/-- The file is read, but the load fails and leaves one of its frames behind. -/
theorem loadSavedGame_straySave :
    (∃ e, (savingMachine.loadSavedGame straySave).1 = .error e) ∧
      (savingMachine.loadSavedGame straySave).2 = strandedMachine := by
  have hmemory : (savingMachine.withSnapshot straySnapshot).memory = savingMachine.memory := by
    decide +kernel
  have hread : Branch.read savingMachine.memory 0x4A = (⟨true, .returnFalse⟩, 0x4B) := by
    decide +kernel
  have hbranch : savingMachine.answeringBranch straySnapshot = ⟨true, .returnFalse⟩ := by
    rw [answeringBranch, hmemory]
    exact congrArg Prod.fst hread
  have hstrands : savingMachine.Strands straySnapshot :=
    ⟨by decide, by rw [hbranch], by rw [hbranch]; nofun, by rintro _ ⟨⟩; rfl⟩
  refine ⟨(loadSavedGame_error_iff_of_ok readSave_straySave).mpr hstrands, ?_⟩
  let ready : Machine :=
    { savingMachine with request := none, completion := none, replies := [], finished := false }
  have hrestored : ready.withSnapshot straySnapshot
      = { ready with stack := straySnapshot.stack } := by
    change { ready with
      memory := (savingMachine.withSnapshot straySnapshot).memory
      stack := straySnapshot.stack } = _
    rw [hmemory]
  have hversion : ready.version < 4 := by decide
  have hbranches : Branch.read (ready.withSnapshot straySnapshot).memory straySnapshot.pc
      = (⟨true, .returnFalse⟩, 0x4B) := by
    rw [hrestored]
    exact hread
  rw [loadSavedGame_taken readSave_straySave]
  change ((restoreSnapshot straySnapshot).run ready).2 = _
  rw [restoreSnapshot_run_snd hversion hbranches, hrestored]
  rfl

/-- The call runs until its routine asks the host to save. -/
theorem reaches_savingMachine :
    Relation.ReflTransGen (CarriesOnAbove savingCaller.stack.depth)
      (step ⟨savingCaller, .executing [savingCall] 1⟩) ⟨savingMachine, .host⟩ := by
  have hcall : step ⟨savingCaller, .executing [savingCall] 1⟩ = ⟨savingCallee, .fetching 1⟩ := rfl
  have hfetch : step ⟨savingCallee, .fetching 1⟩
      = ⟨{ savingCallee with blocks := { decoded := 2 } }, .executing [saving] 0⟩ :=
    step_fetching_of_dynamic ⟨0x49, [saving]⟩ Std.HashMap.getElem?_empty (by decide) rfl
  have hsave : step ⟨{ savingCallee with blocks := { decoded := 2 } }, .executing [saving] 0⟩
      = ⟨savingMachine, .host⟩ := rfl
  have hasks := CarriesOn.of_step hsave fun h => nomatch h.1
  rw [hcall]
  exact .head ⟨by decide, .of_step hfetch False.elim⟩ (.single ⟨by decide, hasks⟩)

/-- The machine after the routine has returned to where the file says. -/
def returnedAstray : Machine :=
  { strandedMachine with
    blocks := { decoded := 3 }
    stack := .empty
    pc := 0x46 }

/-- After the failed load the routine goes on and returns. -/
theorem reaches_returnedAstray :
    Relation.ReflTransGen (CarriesOnAbove savingCaller.stack.depth) ⟨strandedMachine, .host⟩
      ⟨returnedAstray, .fetching 1⟩ := by
  have hbegin : begin strandedMachine = ⟨strandedMachine, .fetching 2⟩ := rfl
  have hrun : CarriesOn ⟨strandedMachine, .host⟩ ⟨strandedMachine, .fetching 2⟩ := by
    rw [← hbegin]
    refine .run strandedMachine fun s hs => ?_
    -- the load has taken the completion of the save away
    obtain ⟨-, -, completion, hcompletion, -⟩ := hs
    cases hcompletion
  have hfetch : step ⟨strandedMachine, .fetching 2⟩
      = ⟨{ strandedMachine with blocks := { decoded := 3 } }, .executing [returningAfterSave] 1⟩ :=
    step_fetching_of_dynamic ⟨0x4B, [returningAfterSave]⟩ Std.HashMap.getElem?_empty (by decide) rfl
  have hreturn : step ⟨{ strandedMachine with blocks := { decoded := 3 } },
      .executing [returningAfterSave] 1⟩ = ⟨returnedAstray, .fetching 1⟩ := rfl
  have hreturns := CarriesOn.of_step hreturn fun h => nomatch h.1
  exact .head ⟨by decide, hrun⟩ (.head ⟨by decide, .of_step hfetch False.elim⟩
    (.single ⟨by decide, hreturns⟩))

/-- The routine returns past the call, and nothing is stored. -/
theorem call_not_isolated_straySave :
    begin savingCallMachine = ⟨savingCallMachine, .fetching 2⟩ ∧
      step ⟨savingCallMachine, .fetching 2⟩ = ⟨savingCaller, .executing [savingCall] 1⟩ ∧
      calls savingCall.op = true ∧ savingCall.next = 0x45 ∧ savingCall.store = some 0x10 ∧
      (∃ e, (savingMachine.loadSavedGame straySave).1 = .error e) ∧
      ∃ ν, Relation.ReflTransGen (CarriesOnAbove savingCaller.stack.depth)
          (step ⟨savingCaller, .executing [savingCall] 1⟩) ν ∧
        ν.depth = savingCaller.stack.depth ∧ ν.machine.pc = 0x46 ∧
        ν.machine.memory = savingCaller.memory := by
  have hfetch : step ⟨savingCallMachine, .fetching 2⟩
      = ⟨savingCaller, .executing [savingCall] 1⟩ :=
    step_fetching_of_dynamic ⟨0x40, [savingCall]⟩ Std.HashMap.getElem?_empty (by decide) rfl
  obtain ⟨⟨e, he⟩, hload⟩ := loadSavedGame_straySave
  have hloads : CarriesOn ⟨savingMachine, .host⟩ ⟨strandedMachine, .host⟩ := by
    rw [← hload]
    exact .load savingMachine straySave e he
  refine ⟨rfl, hfetch, rfl, rfl, rfl, ⟨e, he⟩, ⟨returnedAstray, .fetching 1⟩, ?_, rfl, rfl, rfl⟩
  exact reaches_savingMachine.trans (.head ⟨by decide, hloads⟩ reaches_returnedAstray)

end Moment
end ZMachine
