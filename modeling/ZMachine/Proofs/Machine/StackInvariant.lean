/-
# Stacks stay well formed

A host can load a story, run it, answer its requests, load save files with any bytes and restart it,
in any order.  Whatever it does, the stack of the machine and the stacks in its undo history are
well formed, between two runs and at every moment of a run.

* `Sound` : all stacks of a machine are well formed;
* `Passage.sound` and `Restores.sound` : neither a passage nor a restore breaks one;
* `Reachable.sound` : the machines that a host can bring about are sound;
* `reachable_stacks_wellFormed` : so their stacks can be saved at any moment.
-/
import ZMachine.Proofs.Machine.Moment
import ZMachine.Proofs.Save.WellFormed

namespace ZMachine
namespace Machine

/-- The stack and all stacks in the undo history are well formed. -/
structure Sound (m : Machine) : Prop where
  stack : m.stack.WellFormed
  undo : ∀ s ∈ m.undo.entries, s.stack.WellFormed

/-! ## Passages and restores -/

/-- Edits do not break a stack, nor the snapshots taken on the way. -/
theorem Stays.sound {m m' : Machine} (h : Stays m m') (hm : Sound m) : Sound m' where
  stack := h.stack.wellFormed hm.stack
  undo s hs := by
    rcases h.undo s hs with hs | hs
    · exact hm.undo s hs
    · exact hs.wellFormed hm.stack

/-- Unwinding does not break a stack. -/
theorem wellFormed_dropFrames {s : CallStack} (h : s.WellFormed) (n : Nat) :
    (unwind.dropFrames n s).WellFormed := by
  induction n generalizing s with
  | zero => exact h
  | succ n ih =>
      unfold unwind.dropFrames
      split
      · rename_i hpop
        exact ih (h.popFrame hpop)
      · exact h

/-- **A passage keeps all stacks well formed.** -/
theorem Passage.sound {m m' : Machine} (h : Passage m m') (hm : Sound m) : Sound m' := by
  cases h with
  | stays h => exact h.sound hm
  | returns m₁ depth frame s result value hstays hpop hstack hundo hcaller =>
      have hm₁ := hstays.sound hm
      have hs : s.WellFormed := (wellFormed_dropFrames hm₁.stack _).popFrame hpop
      refine ⟨?_, ?_⟩
      · rw [hstack]
        exact (CallStack.edits_receive s result value).wellFormed hs
      · rw [hundo]
        exact hm₁.undo

/-- A restore keeps all stacks well formed if the one of its snapshot is. -/
theorem Restores.sound {s : Snapshot} {m m' : Machine} (h : Restores s m m') (hm : Sound m)
    (hs : s.stack.WellFormed) : Sound m' := by
  obtain ⟨m₁, hstack, hundo, hpassage⟩ := h
  apply hpassage.sound
  refine ⟨?_, fun e he => hm.undo e (hundo e he)⟩
  rw [hstack]
  exact hs

end Machine

namespace Moment

open Machine

/-! ## Moments of a run -/

/-- A step keeps all stacks well formed. -/
theorem sound_step {μ : Moment} (h : Sound μ.machine) : Sound μ.step.machine := by
  by_cases hundoes : μ.Undoes
  · obtain ⟨m₁, s, hstays, hs, hrestores⟩ := restores_step hundoes
    have hm₁ := hstays.sound h
    exact hrestores.sound hm₁ (hm₁.undo s hs)
  · exact (passage_step hundoes).sound h

/-- So does the beginning of a run, also if it restores a save file with any bytes. -/
theorem sound_begin {m : Machine} (h : Sound m) : Sound (begin m).machine := by
  by_cases hrestoring : ∃ s, BeginsRestoring m s
  · obtain ⟨s, hs⟩ := hrestoring
    have hrestores := restores_begin hs
    obtain ⟨-, -, completion, -, delivery, data, -, -, hread⟩ := hs
    exact hrestores.sound h (Save.wellFormed_of_read hread)
  · exact (passage_begin fun s hs => hrestoring ⟨s, hs⟩).sound h

/-- All moments that steps lead to. -/
theorem Leads.sound {μ ν : Moment} (h : Leads μ ν) (hμ : Sound μ.machine) : Sound ν.machine := by
  induction h with
  | refl => exact hμ
  | tail _ hstep ih =>
      rw [hstep]
      exact sound_step ih

end Moment

namespace Machine

open Moment

/-- A run keeps all stacks well formed. -/
theorem Sound.run {m : Machine} (h : Sound m) : Sound m.run.2 := by
  have houtcome := (leads_run m).sound (sound_begin h)
  have hmachine : (outcome m.run).machine = m.run.2 := by
    rcases m.run with ⟨(_ | _) | _, m'⟩ <;> rfl
  rw [hmachine] at houtcome
  exact houtcome

/-- Loading a save file with any bytes keeps all stacks well formed. -/
theorem Sound.loadSavedGame {m : Machine} (h : Sound m) (data : List UInt8) :
    Sound (m.loadSavedGame data).2 := by
  cases hread : m.readSave data with
  | error e =>
      rw [loadSavedGame_refused hread]
      exact h
  | ok s =>
      have hrestores := restores_restoreSnapshot s
        { m with request := none, completion := none, replies := [], finished := false }
      rw [loadSavedGame_taken hread]
      exact Restores.sound hrestores ⟨h.stack, h.undo⟩ (Save.wellFormed_of_read hread)

/-! ## Whatever the host does -/

/-- The machines that a host can bring about from an image: it loads the story, runs it, attends to
it between the runs, loads save files and restarts the story. -/
inductive Reachable (image : Array UInt8) (config : Config) : Machine → Prop
  | load {m : Machine} (h : load image config = .ok m) : Reachable image config m
  | run {m : Machine} (h : Reachable image config m) : Reachable image config m.run.2
  | attend {m m' : Machine} (h : Reachable image config m) (ha : Attends m m') :
      Reachable image config m'
  | loadSavedGame {m : Machine} (h : Reachable image config m) (data : List UInt8) :
      Reachable image config (m.loadSavedGame data).2
  | restart {m : Machine} (h : Reachable image config m) : Reachable image config m.restart

/-- A story that is loaded has a header, and everything but header, memory and codec is as in a new
machine. -/
theorem load_eq_ok {image : Array UInt8} {config : Config} {m : Machine}
    (h : load image config = .ok m) :
    ∃ header random, Header.parse (Memory.ofImage image) = .ok header ∧ m =
      { config
        memory := setUpHeader config header.version (Memory.ofImage image)
        header
        codec := .ofStory (Memory.ofImage image) header
        random
        undo := { limit := config.undoDepth }
        pc := header.initialPc
        printingBits :=
          (setUpHeader config header.version (Memory.ofImage image)).byteAt Field.flags2Low
            &&& 0x03 } := by
  simp only [Machine.load, bind, Except.bind] at h
  split at h
  · cases h
  · rename_i header hparse
    cases h
    exact ⟨header, _, hparse, rfl⟩

/-- A loaded story starts with empty stacks. -/
theorem sound_load {image : Array UInt8} {config : Config} {m : Machine}
    (h : load image config = .ok m) : Sound m := by
  obtain ⟨header, random, -, rfl⟩ := load_eq_ok h
  exact ⟨CallStack.wellFormed_empty, List.forall_mem_nil _⟩

/-- **The machines that a host can bring about are sound.** -/
theorem Reachable.sound {image : Array UInt8} {config : Config} {m : Machine}
    (h : Reachable image config m) : Sound m := by
  induction h with
  | load h => exact sound_load h
  | run _ ih => exact ih.run
  | attend _ ha ih => exact ha.quiet.stays.sound ih
  | loadSavedGame _ data ih => exact ih.loadSavedGame data
  | restart _ _ =>
      refine ⟨CallStack.wellFormed_empty, fun s hs => ?_⟩
      cases hs

/-- A stack that a machine holds: the one in use, or one in the undo history. -/
def HoldsStack (m : Machine) (s : CallStack) : Prop :=
  s = m.stack ∨ ∃ entry ∈ m.undo.entries, s = entry.stack

/-- **Stacks stay well formed.**  Take any machine that a host can bring about from any image, as it
is between two runs or at any moment of the next run, and any stack that it holds then.  The floors
of its frames never decrease from the oldest to the newest and lie within the evaluation stack, and
no frame has too many locals.  So each stretch of the evaluation stack that a save writes has
ordered ends within it, and the stack can be written from checked slices. -/
theorem reachable_stacks_wellFormed {image : Array UInt8} {config : Config} {m : Machine}
    (h : Reachable image config m) {μ : Moment} (hμ : μ = ⟨m, .host⟩ ∨ Leads (begin m) μ)
    {s : CallStack} (hs : HoldsStack μ.machine s) :
    s.WellFormed ∧ (∀ p ∈ s.stretches, p.1 ≤ p.2 ∧ p.2 ≤ s.eval.size) ∧
      Save.checkedStackBytes? s = some (Save.stackBytes s) := by
  have hsound : Sound μ.machine := by
    rcases hμ with rfl | hμ
    · exact h.sound
    · exact hμ.sound (sound_begin h.sound)
  have hformed : s.WellFormed := by
    rcases hs with rfl | ⟨entry, hentry, rfl⟩
    · exact hsound.stack
    · exact hsound.undo entry hentry
  exact ⟨hformed, hformed.stretches_ordered, Save.checkedStackBytes?_eq_some hformed⟩

/-- A story that is no more than a header. -/
def bareImage : Array UInt8 :=
  (5 :: List.replicate 14 (0 : UInt8) ++ 0x40 :: List.replicate 48 (0 : UInt8)).toArray

/-- The machine of that story. -/
def bareMachine : Machine :=
  (load bareImage { random := .lowest }).toOption.get rfl

/-- The stack of two nested routines. -/
def nestedStack : CallStack where
  frames :=
    [{ returnPc := 0x30, localCount := 1, result := none, evalFloor := 3 },
     { returnPc := 0x28, localCount := 3, argCount := 2, result := some 0x10, evalFloor := 1 }]
  eval := #[7, 8, 9, 10]

/-- A save file with that stack. -/
def nestedSave : List UInt8 :=
  Quetzal.write bareMachine.header.storyId
    { pc := 0x20, dynamic := bareMachine.memory.dynamic, stack := nestedStack }
    bareMachine.loadedDynamic

/-- The machine that has loaded the save file holds its frames and can save them again. -/
theorem reachable_stacks_wellFormed_nestedSave :
    ∃ m : Machine, Reachable bareImage { random := .lowest } m ∧
      m.stack.frames = nestedStack.frames ∧
      m.stack.WellFormed ∧ (∀ p ∈ m.stack.stretches, p.1 ≤ p.2 ∧ p.2 ≤ m.stack.eval.size) ∧
      Save.checkedStackBytes? m.stack = some (Save.stackBytes m.stack) := by
  have hreachable :
      Reachable bareImage { random := .lowest } (bareMachine.loadSavedGame nestedSave).2 :=
    .loadSavedGame (.load rfl) nestedSave
  have hframes : (bareMachine.loadSavedGame nestedSave).2.stack.frames = nestedStack.frames := by
    decide +kernel
  exact ⟨_, hreachable, hframes,
    reachable_stacks_wellFormed hreachable (Or.inl rfl) (Or.inl rfl)⟩

end Machine
end ZMachine
