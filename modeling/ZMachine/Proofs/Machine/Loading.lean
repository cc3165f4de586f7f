/-
# Loading a save file

A host may load a save file at any time.  A file that is refused leaves the machine exactly as it
was, request, replies and left over work included, and from version 4 on a file that is taken is
always loaded.  Before version 4 the saving instruction branches on its result, and the branch may
return from a routine.  If there is no caller to return to, the load fails when the snapshot is
already in place.

* `Strands` : going back to a snapshot returns from a routine without a caller;
* `restoreSnapshot_error_iff` : it fails exactly then;
* `loadSavedGame_error_iff` : so a load fails without a change, or it strands.
-/
import ZMachine.Proofs.Machine.Restore

namespace ZMachine
namespace Machine

open Moment (loadSavedGame_refused)

/-- What follows an action does not matter for whether it fails, if it cannot fail itself. -/
theorem run_bind_error_iff {α β : Type} {x : Exec α} {f : α → Exec β}
    (hf : ∀ a m, ∃ b, ((f a).run m).1 = .ok b) (m : Machine) :
    (∃ e, ((x >>= f).run m).1 = .error e) ↔ ∃ e, (x.run m).1 = .error e := by
  rw [run_bind]
  rcases x.run m with ⟨e | a, m'⟩
  · exact ⟨fun _ => ⟨e, rfl⟩, fun _ => ⟨e, rfl⟩⟩
  · obtain ⟨b, hb⟩ := hf a m'
    simp [hb]

/-! ## Returns without a caller -/

/-- There is no caller to return to: no routine runs, or it is a timeout routine, whose input
waits for it. -/
def NoCaller (s : CallStack) : Prop :=
  ∀ frame, s.current? = some frame → frame.returnPc = fromInterrupt

/-- **A return fails exactly if there is no caller**, where no input waits. -/
theorem returnValue_error_iff {m : Machine} (hparked : m.parked = none) (value : UInt16) :
    (∃ e, ((returnValue value).run m).1 = .error e) ↔ NoCaller m.stack := by
  unfold returnValue NoCaller CallStack.popFrame? CallStack.current?
  rw [run_bind, run_get]
  dsimp only
  cases m.stack.frames with
  | nil => exact ⟨fun _ => nofun, fun _ => ⟨_, rfl⟩⟩
  | cons frame older =>
      dsimp only
      rw [run_set_bind]
      by_cases hreturn : frame.returnPc = fromInterrupt
      · rw [if_pos hreturn, finishInterrupt_of_none (by exact hparked)]
        refine ⟨fun _ top htop => ?_, fun _ => ⟨_, rfl⟩⟩
        cases htop
        exact hreturn
      · rw [if_neg hreturn, setPc, run_modify_bind, run_bind]
        refine ⟨fun ⟨e, he⟩ => ?_, fun hcaller => absurd (hcaller frame rfl) hreturn⟩
        cases hresult : frame.result with
        | none =>
            rw [hresult] at he
            cases he
        | some code =>
            rw [hresult, storeResult, writeVariable_run] at he
            cases he

/-- A branch on true fails exactly if it returns without a caller. -/
theorem takeBranch_error_iff {m : Machine} (hparked : m.parked = none) (b : Branch) :
    (∃ e, ((takeBranch b true).run m).1 = .error e) ↔
      b.onTrue = true ∧ (∀ target, b.target ≠ .address target) ∧ NoCaller m.stack := by
  unfold takeBranch
  cases honTrue : b.onTrue with
  | false =>
      refine ⟨fun ⟨e, he⟩ => ?_, fun h => ?_⟩
      · cases he
      · cases h.1
  | true =>
      rw [if_neg (by simp)]
      cases htarget : b.target with
      | returnFalse => simpa using returnValue_error_iff hparked 0
      | returnTrue => simpa using returnValue_error_iff hparked 1
      | address target =>
          refine ⟨fun ⟨e, he⟩ => ?_, fun h => absurd rfl (h.2.1 target)⟩
          cases he

/-! ## Snapshots without a caller -/

/-- The branch that answers the saving instruction of a snapshot, as restored memory has it. -/
def answeringBranch (m : Machine) (s : Snapshot) : Branch :=
  (Branch.read (m.withSnapshot s).memory s.pc).1

/-- Going back to a snapshot returns from a routine without a caller. -/
structure Strands (m : Machine) (s : Snapshot) : Prop where
  version : m.version < 4
  onTrue : (m.answeringBranch s).onTrue = true
  returns : ∀ target, (m.answeringBranch s).target ≠ .address target
  noCaller : NoCaller s.stack

/-- **Going back to a snapshot fails exactly if it strands.** -/
theorem restoreSnapshot_error_iff (m : Machine) (s : Snapshot) :
    (∃ e, ((restoreSnapshot s).run m).1 = .error e) ↔ m.Strands s := by
  by_cases hversion : 4 ≤ m.version
  · rw [restoreSnapshot_run hversion]
    refine ⟨fun ⟨e, he⟩ => ?_, fun h => absurd h.version (UInt8.not_lt.mpr hversion)⟩
    cases he
  · have hrestored : ¬ 4 ≤ (m.withSnapshot s).version := hversion
    unfold restoreSnapshot
    rw [run_modify_bind, run_bind, run_get]
    dsimp only
    rw [if_neg hrestored, setPc, run_modify_bind, run_bind_error_iff fun flow _ => ?_]
    have hstrands : m.Strands s ↔ (m.answeringBranch s).onTrue = true ∧
        (∀ target, (m.answeringBranch s).target ≠ .address target) ∧ NoCaller s.stack :=
      ⟨fun h => ⟨h.onTrue, h.returns, h.noCaller⟩,
        fun h => ⟨UInt8.not_le.mp hversion, h.1, h.2.1, h.2.2⟩⟩
    · rw [hstrands]
      exact takeBranch_error_iff (by rfl) (m.answeringBranch s)
    · cases flow <;> exact ⟨_, rfl⟩

/-! ## Loading -/

/-- A file that is taken is loaded if its snapshot can be gone back to. -/
theorem loadSavedGame_error_iff_of_ok {m : Machine} {data : List UInt8} {s : Snapshot}
    (h : m.readSave data = .ok s) :
    (∃ e, (m.loadSavedGame data).1 = .error e) ↔ m.Strands s := by
  unfold loadSavedGame restoreFile
  rw [run_bind, run_get]
  dsimp only
  rw [h]
  dsimp only
  rw [run_set_bind, run_bind_error_iff fun _ _ => ⟨(), rfl⟩, restoreSnapshot_error_iff]
  -- the host's side of the machine has no say in it
  exact ⟨fun h => ⟨h.version, h.onTrue, h.returns, h.noCaller⟩,
    fun h => ⟨h.version, h.onTrue, h.returns, h.noCaller⟩⟩

/-- **A load that fails changes nothing, or it strands.**  Loading any bytes into any machine fails
if they are refused as a save file of the story, and then the machine is the same as before; and
otherwise exactly if the snapshot in the file strands, which is possible before version 4 only. -/
theorem loadSavedGame_error_iff (m : Machine) (data : List UInt8) :
    (∃ e, (m.loadSavedGame data).1 = .error e) ↔
      (∃ refusal, m.readSave data = .error refusal ∧
        m.loadSavedGame data = (.error (.fault refusal.toFault), m)) ∨
      ∃ s, m.readSave data = .ok s ∧ m.Strands s := by
  cases hread : m.readSave data with
  | error refusal =>
      have hrefused := loadSavedGame_refused hread
      refine ⟨fun _ => Or.inl ⟨refusal, rfl, hrefused⟩, fun _ => ?_⟩
      rw [hrefused]
      exact ⟨_, rfl⟩
  | ok s =>
      rw [loadSavedGame_error_iff_of_ok hread]
      refine ⟨fun h => Or.inr ⟨s, rfl, h⟩, ?_⟩
      rintro (⟨refusal, hrefusal, -⟩ | ⟨s', hs', hstrands⟩)
      · cases hrefusal
      · cases hs'
        exact hstrands

/-- A story of version 3 that saves outside every routine, to return false if that succeeds. -/
def strandingImage : Array UInt8 :=
  (3 :: List.replicate 6 (0 : UInt8) ++ 0x40 :: List.replicate 7 (0 : UInt8) ++
    0x48 :: List.replicate 48 (0 : UInt8) ++ [0xB5, 0xC0, 0xBA, 0, 0, 0, 0, 0]).toArray

/-- The machine of that story. -/
def strandingMachine : Machine :=
  (load strandingImage { random := .lowest }).toOption.get rfl

/-- Its own save file is read, but loading it fails at the return and moves the program counter. -/
theorem loadSavedGame_strandingMachine :
    (strandingMachine.loadSavedGame (strandingMachine.saveFile 0x41)).1
        = .error (.fault (.returnFromMain 0x42)) ∧
      (strandingMachine.loadSavedGame (strandingMachine.saveFile 0x41)).2 ≠ strandingMachine := by
  refine ⟨by decide +kernel, fun hsame => ?_⟩
  have hpc : (strandingMachine.loadSavedGame (strandingMachine.saveFile 0x41)).2.pc = 0x42 := by
    decide +kernel
  rw [hsame] at hpc
  revert hpc
  decide +kernel

end Machine
end ZMachine
