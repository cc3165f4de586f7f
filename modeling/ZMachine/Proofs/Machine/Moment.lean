/-
# The moments of a run

A run taken apart into steps: the fetch of a block, or one instruction.  A moment is a machine
together with what it does next, and a run passes from `begin m` through one moment after another
until the host has control again.

Main results:

* `leads_run` : the steps from `begin m` on lead to the outcome of `m.run`;
* `passage_step` and `passage_begin` : every step, and the beginning of a run, is a passage unless
  it goes back to a snapshot;
* `Continues.passage` : so is everything that host and machine do without going back to one.
-/
import Mathlib.Logic.Relation
import ZMachine.Machine.StatusLine
import ZMachine.Proofs.Machine.Passage

namespace ZMachine

/-- What a machine does next. -/
inductive Phase where
  /-- The host has control. -/
  | host
  /-- The block at the program counter is fetched, if any more blocks may run. -/
  | fetching (blocks : Nat)
  /-- The rest of a block is executed before more blocks. -/
  | executing (rest : List Instruction) (blocks : Nat)
  /-- A damaged object table keeps the machine going round in circles. -/
  | endless

/-- A machine and what it does next. -/
structure Moment where
  machine : Machine
  phase : Phase

namespace Moment

open Machine

/-- The number of routines being run. -/
def depth (μ : Moment) : Nat :=
  μ.machine.stack.depth

/-! ## Steps -/

/-- The moment after an action has stopped the machine. -/
def stopped : Stop → Machine → Moment
  | .fault f, m => ⟨{ m with halted := some f }, .host⟩
  | .endless, m => ⟨m, .endless⟩

/-- The moment after control has left a sequence of instructions. -/
def left (blocks : Nat) : Except Stop Flow × Machine → Moment
  | (.ok .suspend, m) => ⟨m, .host⟩
  | (.ok _, m) => ⟨m, .fetching blocks⟩
  | (.error e, m) => stopped e m

/-- One step of a run. -/
def step : Moment → Moment
  | ⟨m, .host⟩ => ⟨m, .host⟩
  | ⟨m, .endless⟩ => ⟨m, .endless⟩
  | ⟨m, .fetching 0⟩ => ⟨{ m with request := some .housekeeping }, .host⟩
  | ⟨m, .fetching (blocks + 1)⟩ =>
      match fetchBlock.run m with
      | (.ok block, m) => ⟨m, .executing block.instructions blocks⟩
      | (.error e, m) => stopped e m
  | ⟨m, .executing [] blocks⟩ => ⟨m, .fetching blocks⟩
  | ⟨m, .executing (ins :: rest) blocks⟩ =>
      match (execute ins).run { m with pc := ins.next } with
      | (.ok .next, m) => ⟨m, .executing rest blocks⟩
      | result => left blocks result

/-- The work left over by the last request, after which the host's replies are forgotten. -/
def leftover (completion : Option Completion) : Exec Flow := do
  let flow ← match completion with
    | some completion => resume completion
    | none => pure .next
  clearReplies
  return flow

/-- The machine whose last request is being dealt with. -/
def taken (m : Machine) : Machine :=
  { m with request := none, completion := none }

/-- The first moment of a run. -/
def begin (m : Machine) : Moment :=
  if m.halted.isSome then ⟨m, .host⟩
  else if m.finished then ⟨{ m with request := some .quit }, .host⟩
  else left m.config.iterationCap ((leftover m.completion).run (taken m))

/-- The moment at which a run has ended. -/
def ended : Except Stop Unit × Machine → Moment
  | (.error e, m) => stopped e m
  | (.ok _, m) => ⟨m, .host⟩

/-- Any number of steps. -/
abbrev Leads : Moment → Moment → Prop :=
  Relation.ReflTransGen fun μ ν => ν = μ.step

/-- The first of several steps. -/
theorem Leads.of_step {μ ν : Moment} (h : Leads μ.step ν) : Leads μ ν :=
  Relation.ReflTransGen.head rfl h

/-! ## Steps make up a run -/

/-- The steps through a sequence of instructions. -/
theorem leads_runInstructions (rest : List Instruction) (blocks : Nat) (m : Machine) :
    Leads ⟨m, .executing rest blocks⟩ (left blocks ((runInstructions rest).run m)) := by
  induction rest generalizing m with
  | nil => exact Leads.of_step Relation.ReflTransGen.refl
  | cons ins rest ih =>
      apply Leads.of_step
      have hrun : (runInstructions (ins :: rest)).run m
          = match (execute ins).run { m with pc := ins.next } with
            | (.ok .next, m) => (runInstructions rest).run m
            | result => result := by
        show (execute ins >>= _).run { m with pc := ins.next } = _
        rw [run_bind]
        rcases (execute ins).run { m with pc := ins.next } with ⟨e | flow, m'⟩
        · rfl
        · cases flow <;> rfl
      rw [hrun, step]
      rcases (execute ins).run { m with pc := ins.next } with ⟨e | flow, m'⟩
      · exact Relation.ReflTransGen.refl
      · cases flow with
        | next => exact ih m'
        | jump => exact Relation.ReflTransGen.refl
        | suspend => exact Relation.ReflTransGen.refl

/-- The steps through a number of blocks. -/
theorem leads_runBlocks (blocks : Nat) (m : Machine) :
    Leads ⟨m, .fetching blocks⟩ (ended ((runBlocks blocks).run m)) := by
  induction blocks generalizing m with
  | zero => exact Leads.of_step Relation.ReflTransGen.refl
  | succ blocks ih =>
      apply Leads.of_step
      rw [runBlocks, run_bind, step]
      rcases fetchBlock.run m with ⟨e | block, m'⟩
      · exact Relation.ReflTransGen.refl
      · dsimp only
        refine (leads_runInstructions block.instructions blocks m').trans ?_
        rw [run_bind]
        rcases (runInstructions block.instructions).run m' with ⟨e | flow, m''⟩
        · exact Relation.ReflTransGen.refl
        · cases flow with
          | suspend => exact Relation.ReflTransGen.refl
          | next => exact ih m''
          | jump => exact ih m''

/-- A machine that is not stopped begins with the work left over. -/
theorem begin_eq {m : Machine} (hhalted : m.halted = none) (hfinished : m.finished = false) :
    begin m = left m.config.iterationCap ((leftover m.completion).run (taken m)) := by
  simp [begin, hhalted, hfinished]

/-- A story that has quit only says so again. -/
theorem runStory_of_finished {m : Machine} (h : m.finished = true) :
    runStory.run m = (.ok (), { m with request := some .quit }) := by
  unfold runStory
  rw [run_bind, run_get]
  dsimp only
  rw [if_pos h]
  rfl

/-- What is left over, and then block after block. -/
theorem runStory_run {m : Machine} (h : m.finished = false) :
    runStory.run m
      = match (leftover m.completion).run (taken m) with
        | (.ok .suspend, m₁) => (.ok (), m₁)
        | (.ok _, m₁) => (runBlocks m.config.iterationCap).run m₁
        | (.error e, m₁) => (.error e, m₁) := by
  have hrest : ∀ (x : Exec Flow) (blocks : Nat) (m' : Machine),
      (do
        let flow ← x
        clearReplies
        if flow ≠ Flow.suspend then runBlocks blocks : Exec Unit).run m'
      = match (do
          let flow ← x
          clearReplies
          return flow : Exec Flow).run m' with
        | (.ok .suspend, m₁) => (.ok (), m₁)
        | (.ok _, m₁) => (runBlocks blocks).run m₁
        | (.error e, m₁) => (.error e, m₁) := by
    intro x blocks m'
    rw [run_bind, run_bind]
    rcases x.run m' with ⟨e | flow, m₁⟩
    · rfl
    · cases flow <;> rfl
  unfold runStory leftover
  rw [run_bind, run_get]
  dsimp only
  rw [if_neg (by simp [h]), run_set_bind]
  cases m.completion with
  | some completion => exact hrest (resume completion) _ _
  | none => exact hrest (pure .next) _ _

/-- The moment at which a run has given its result. -/
def outcome : Except Stop Unit × Machine → Moment
  | (.error .endless, m) => ⟨m, .endless⟩
  | (_, m) => ⟨m, .host⟩

/-- **The steps from the first moment of a run lead to its outcome.** -/
theorem leads_run (m : Machine) : Leads (begin m) (outcome m.run) := by
  cases hhalted : m.halted with
  | some f =>
      have hrun : m.run = (.error (.fault f), m) := by
        rw [run, hhalted]
      rw [hrun, begin, hhalted]
      exact Relation.ReflTransGen.refl
  | none =>
      have hrun : outcome m.run = ended (runStory.run m) := by
        rw [run, hhalted]
        rcases runStory.run m with ⟨(f | _) | _, m'⟩ <;> rfl
      rw [hrun]
      cases hfinished : m.finished with
      | true =>
          rw [runStory_of_finished hfinished]
          simp only [begin, hhalted, hfinished]
          exact Relation.ReflTransGen.refl
      | false =>
          -- the leftover work either ends the run or is followed by blocks
          rw [runStory_run hfinished, begin_eq hhalted hfinished]
          rcases (leftover m.completion).run (taken m) with ⟨e | flow, m₁⟩
          · exact Relation.ReflTransGen.refl
          · cases flow with
            | suspend => exact Relation.ReflTransGen.refl
            | next => exact leads_runBlocks _ m₁
            | jump => exact leads_runBlocks _ m₁

theorem machine_outcome (r : Except Stop Unit × Machine) : (outcome r).machine = r.2 := by
  rcases r with ⟨(_ | _) | _, m⟩ <;> rfl

/-- A moment that a step does not change leads nowhere else. -/
theorem Leads.eq_of_step_eq {μ ν : Moment} (h : Leads μ ν) (hμ : μ.step = μ) : ν = μ := by
  induction h with
  | refl => rfl
  | tail _ hstep ih => rw [hstep, ih, hμ]

/-- **A run ends where its steps come back to the host.** -/
theorem outcome_of_leads {m m' : Machine} (h : Leads (begin m) ⟨m', .host⟩) :
    outcome m.run = ⟨m', .host⟩ := by
  have hunique : Relator.RightUnique fun μ ν : Moment => ν = μ.step :=
    fun _ _ _ hν hν' => hν.trans hν'.symm
  -- one of the two moments leads to the other, and neither changes any more
  rcases Relation.ReflTransGen.total_of_right_unique hunique (leads_run m) h with hlater | hlater
  · refine (Leads.eq_of_step_eq hlater ?_).symm
    rcases m.run with ⟨(_ | _) | _, _⟩ <;> rfl
  · exact Leads.eq_of_step_eq hlater rfl

theorem run_snd_of_leads {m m' : Machine} (h : Leads (begin m) ⟨m', .host⟩) : m.run.2 = m' := by
  rw [← machine_outcome, outcome_of_leads h]

/-- A run that ends with a fault leaves a machine that has halted. -/
theorem halted_run {m : Machine} {f : Fault} (h : m.run.1 = .error (.fault f)) :
    m.run.2.halted = some f := by
  unfold Machine.run at h ⊢
  cases hhalted : m.halted with
  | some f' =>
      rw [hhalted] at h
      cases h
      exact hhalted
  | none =>
      rw [hhalted] at h
      revert h
      dsimp only
      rcases runStory.run m with ⟨(f' | _) | _, m₁⟩
      · intro h
        cases h
        rfl
      · nofun
      · nofun

/-- So a run that comes back to the host with another machine ends well. -/
theorem run_of_leads {m m' : Machine} (h : Leads (begin m) ⟨m', .host⟩) (hm' : m'.halted = none) :
    m.run = (.ok (), m') := by
  have houtcome := outcome_of_leads h
  have hhalted := @halted_run m
  revert houtcome hhalted
  rcases m.run with ⟨(f | _) | _, m₁⟩
  · intro houtcome hhalted
    cases houtcome
    rw [hhalted rfl] at hm'
    cases hm'
  · intro houtcome _
    cases houtcome
  · intro houtcome _
    cases houtcome
    rfl

/-! ## What a moment adds to an action -/

/-- A stop leaves its fault behind. -/
theorem machine_stopped (e : Stop) (m : Machine) :
    ∃ halted, (stopped e m).machine = { m with halted } := by
  cases e with
  | fault f => exact ⟨some f, rfl⟩
  | endless => exact ⟨m.halted, rfl⟩

theorem machine_left (blocks : Nat) (r : Except Stop Flow × Machine) :
    ∃ halted, (left blocks r).machine = { r.2 with halted } := by
  rcases r with ⟨e | flow, m⟩
  · exact machine_stopped e m
  · cases flow <;> exact ⟨m.halted, rfl⟩

/-- The moment after an instruction has the machine that it leaves, but for a fault. -/
theorem machine_step_executing (m : Machine) (ins : Instruction) (rest : List Instruction)
    (blocks : Nat) :
    ∃ halted, (step ⟨m, .executing (ins :: rest) blocks⟩).machine
      = { ((execute ins).run { m with pc := ins.next }).2 with halted } := by
  rw [step]
  split
  · rename_i m₁ hrun
    rw [hrun]
    exact ⟨m₁.halted, rfl⟩
  · exact machine_left blocks _

/-- The replies are forgotten after the work that was left over, unless it fails. -/
theorem leftover_run (completion : Completion) (m : Machine) :
    ∃ replies, (leftover (some completion)).run m
        = (((resume completion).run m).1, { ((resume completion).run m).2 with replies }) ∧
      ∀ flow, ((resume completion).run m).1 = .ok flow → replies = [] := by
  unfold leftover
  rw [run_bind]
  rcases (resume completion).run m with ⟨e | flow, m₁⟩
  · exact ⟨m₁.replies, rfl, nofun⟩
  · exact ⟨[], rfl, fun _ _ => rfl⟩

/-! ## What a step does to the stack -/

theorem quiet_stopped (e : Stop) (m : Machine) : Quiet m (stopped e m).machine := by
  obtain ⟨halted, hmachine⟩ := machine_stopped e m
  rw [hmachine]
  exact ⟨rfl, rfl, rfl⟩

theorem quiet_left (blocks : Nat) (result : Except Stop Flow × Machine) :
    Quiet result.2 (left blocks result).machine := by
  obtain ⟨halted, hmachine⟩ := machine_left blocks result
  rw [hmachine]
  exact ⟨rfl, rfl, rfl⟩

theorem quiet_step_executing (ins : Instruction) (rest : List Instruction) (blocks : Nat)
    (m : Machine) :
    Quiet ((execute ins).run { m with pc := ins.next }).2
      (step ⟨m, .executing (ins :: rest) blocks⟩).machine := by
  obtain ⟨halted, hmachine⟩ := machine_step_executing m ins rest blocks
  rw [hmachine]
  exact ⟨rfl, rfl, rfl⟩

/-- The step is an instruction that goes back in the undo history. -/
def Undoes : Moment → Prop
  | ⟨m, .executing (ins :: _) _⟩ => Machine.Undoes ins { m with pc := ins.next }
  | _ => False

/-- **A step is a passage**, unless it goes back in the undo history. -/
theorem passage_step {μ : Moment} (h : ¬ μ.Undoes) : Passage μ.machine μ.step.machine := by
  rcases μ with ⟨m, _ | blocks | ⟨_ | ⟨ins, rest⟩, blocks⟩ | _⟩
  · exact .stays (Stays.refl m)
  · cases blocks with
    | zero => exact .stays (Stays.of_eq rfl rfl)
    | succ blocks =>
        have hfetch := quiet_fetchBlock m
        rw [step]
        revert hfetch
        rcases fetchBlock.run m with ⟨e | block, m₁⟩
        · intro hfetch
          exact .stays (hfetch.trans (quiet_stopped e m₁)).stays
        · intro hfetch
          exact .stays hfetch.stays
  · exact .stays (Stays.refl m)
  · have hexecute := (passage_execute h).quiet (quiet_step_executing ins rest blocks m)
    refine Stays.passage ?_ hexecute
    exact Stays.of_eq rfl rfl
  · exact .stays (Stays.refl m)

/-- A step that undoes goes back to a snapshot of the history. -/
theorem restores_step {μ : Moment} (h : μ.Undoes) :
    ∃ m₁ s, Stays μ.machine m₁ ∧ s ∈ m₁.undo.entries ∧ Restores s m₁ μ.step.machine := by
  rcases μ with ⟨m, _ | _ | ⟨_ | ⟨ins, rest⟩, blocks⟩ | _⟩
  case executing.cons =>
    obtain ⟨m₁, s, hstays, hs, hrestores⟩ := restores_execute h
    refine ⟨m₁, s, Stays.trans ?_ hstays, hs,
      hrestores.quiet (quiet_step_executing ins rest blocks m)⟩
    exact Stays.of_eq rfl rfl
  all_goals exact h.elim

/-- A run begins by going back to the snapshot in a save file. -/
def BeginsRestoring (m : Machine) (s : Snapshot) : Prop :=
  m.halted = none ∧ m.finished = false ∧
    ∃ completion, m.completion = some completion ∧ Restoring completion m s

/-- Forgetting the replies does not touch the stack. -/
theorem quiet_leftover (completion : Completion) (m : Machine) :
    Quiet ((resume completion).run m).2 ((leftover (some completion)).run m).2 := by
  obtain ⟨replies, hleftover, -⟩ := leftover_run completion m
  rw [hleftover]
  exact ⟨rfl, rfl, rfl⟩

/-- **The beginning of a run is a passage**, unless it restores a save file. -/
theorem passage_begin {m : Machine} (h : ∀ s, ¬ BeginsRestoring m s) :
    Passage m (begin m).machine := by
  by_cases hrunning : m.halted = none ∧ m.finished = false
  · obtain ⟨hhalted, hfinished⟩ := hrunning
    rw [begin_eq hhalted hfinished]
    refine Passage.quiet ?_ (quiet_left _ _)
    cases hcompletion : m.completion with
    | none => exact .stays (Stays.of_eq rfl rfl)
    | some completion =>
        have htaken : Stays m (taken m) := Stays.of_eq rfl rfl
        have hresume : Passage (taken m) ((resume completion).run (taken m)).2 :=
          passage_resume fun s hs => h s ⟨hhalted, hfinished, completion, hcompletion, hs⟩
        exact (htaken.passage hresume).quiet (quiet_leftover completion (taken m))
  · have hquiet : Quiet m (begin m).machine := by
      unfold begin
      split
      · exact Quiet.refl m
      split
      · exact ⟨rfl, rfl, rfl⟩
      · rename_i hhalted hfinished
        exact absurd ⟨by simpa using hhalted, by simpa using hfinished⟩ hrunning
    exact .stays hquiet.stays

/-- A run that restores a save file goes back to its snapshot. -/
theorem restores_begin {m : Machine} {s : Snapshot} (h : BeginsRestoring m s) :
    Restores s m (begin m).machine := by
  obtain ⟨hhalted, hfinished, completion, hcompletion, hrestoring⟩ := h
  rw [begin_eq hhalted hfinished, hcompletion]
  have hresume : Restores s (taken m) ((resume completion).run (taken m)).2 :=
    restores_resume hrestoring
  exact (hresume.quiet (quiet_leftover completion (taken m))).quiet (quiet_left _ _)

/-! ## Going on without going back -/

/-- What a host does between two runs, other than to load a save file or to restart the story. -/
inductive Attends : Machine → Machine → Prop
  | answer (m : Machine) (slot : Nat) (reply : Reply) : Attends m (m.answer slot reply)
  | setRandomSeed (m : Machine) (seed : Int) : Attends m (m.setRandomSeed seed)
  | takeOutput (m : Machine) : Attends m m.takeOutput.2
  | takeTranscript (m : Machine) : Attends m m.takeTranscript.2
  | statusLine (m : Machine) (width : Nat) : Attends m (m.statusLine width).2

theorem Attends.quiet {m m' : Machine} (h : Attends m m') : Quiet m m' := by
  cases h with
  | answer slot reply => exact ⟨rfl, rfl, rfl⟩
  | setRandomSeed seed => exact ⟨rfl, rfl, rfl⟩
  | takeOutput => exact ⟨rfl, rfl, rfl⟩
  | takeTranscript => exact ⟨rfl, rfl, rfl⟩
  | statusLine width =>
      unfold Machine.statusLine
      split
      · exact Quiet.refl m
      · exact ⟨rfl, rfl, rfl⟩

/-- One thing that machine and host do without going back to a snapshot or to the start: a step, the
beginning of a run, or what the host does between two runs. -/
inductive Continues : Moment → Moment → Prop
  | step (μ : Moment) (h : ¬ μ.Undoes) : Continues μ μ.step
  | run (m : Machine) (h : ∀ s, ¬ BeginsRestoring m s) : Continues ⟨m, .host⟩ (begin m)
  | attend {m m' : Machine} (h : Attends m m') : Continues ⟨m, .host⟩ ⟨m', .host⟩
  | refuse (m : Machine) (data : List UInt8) (e : SaveError) (h : m.readSave data = .error e) :
      Continues ⟨m, .host⟩ ⟨(m.loadSavedGame data).2, .host⟩

/-- A save file that is refused leaves the machine alone. -/
theorem loadSavedGame_refused {m : Machine} {data : List UInt8} {e : SaveError}
    (h : m.readSave data = .error e) :
    m.loadSavedGame data = (.error (.fault e.toFault), m) := by
  unfold loadSavedGame restoreFile
  rw [run_bind, run_get]
  dsimp only
  rw [h]
  rfl

/-- A save file that is taken puts its snapshot in place. -/
theorem loadSavedGame_taken {m : Machine} {data : List UInt8} {s : Snapshot}
    (h : m.readSave data = .ok s) :
    (m.loadSavedGame data).2 = ((restoreSnapshot s).run
      { m with request := none, completion := none, replies := [], finished := false }).2 := by
  unfold loadSavedGame restoreFile
  rw [run_bind, run_get]
  dsimp only
  rw [h]
  exact run_bind_pure_snd _ () _

/-- **Whatever happens without going back to a snapshot is a passage.** -/
theorem Continues.passage {μ ν : Moment} (h : Continues μ ν) : Passage μ.machine ν.machine := by
  cases h with
  | step _ h => exact passage_step h
  | run m h => exact passage_begin h
  | attend h => exact .stays h.quiet.stays
  | refuse m data e h =>
      rw [loadSavedGame_refused h]
      exact .stays (Stays.refl m)

end Moment
end ZMachine
