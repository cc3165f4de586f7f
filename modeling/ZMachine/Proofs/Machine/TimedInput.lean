/-
# Timed inputs and their timeout routines

When the time of an input is up, the input is parked and its routine runs on the stack that the
input has left.  Until the routine returns, neither that stack nor the parked input is touched.
Then the value decides: the input is asked for again, or it ends as if an empty line had been typed.

* `Interrupted` : a timeout routine runs, and its input is parked;
* `Interrupted.execute` and `Interrupted.resume` : what is done meanwhile leaves it so, or the
  routine is left, and if it returns, the interrupt is finished with the value;
* `Moment.Interrupted.continues` : so does everything that goes on without going back to a snapshot;
* `Moment.returning` : the value that the next step returns, and the machine before the return;
* `Moment.timeout_routine_returns` : what becomes of the input.
-/
import ZMachine.Proofs.Machine.Interrupt
import ZMachine.Proofs.Machine.LineInput
import ZMachine.Proofs.Machine.Returning
import ZMachine.Proofs.Machine.Suspension

namespace ZMachine

/-! ## The stack below a timeout routine -/

namespace CallStack

/-- The stack `base` lies below the frame of a timeout routine, above which no other frame returns
from an interrupt. -/
structure Interrupting (base s : CallStack) : Prop where
  above : Above base Machine.fromInterrupt none s
  frames : s.interruptFrames = base.interruptFrames + 1

section
variable {base s s' : CallStack}

/-- The frame of the timeout routine counts. -/
theorem Above.interruptFrames_lt {result : Option UInt8}
    (h : Above base Machine.fromInterrupt result s) :
    base.interruptFrames < s.interruptFrames := by
  obtain ⟨newer, callee, hframes, -, -, hreturn, -⟩ := h.frames
  unfold interruptFrames
  rw [hframes, List.countP_append, List.countP_cons, hreturn]
  simp only [decide_true, if_true]
  omega

/-- A return from another routine leaves the timeout routine alone; a return from that one lays bare
the stack that its input has left. -/
theorem Interrupting.popFrame (h : Interrupting base s) {frame : Frame}
    (hpop : s.popFrame? = some (frame, s')) :
    frame.returnPc ≠ Machine.fromInterrupt ∧ Interrupting base s' ∨
      frame.returnPc = Machine.fromInterrupt ∧ s' = base := by
  have hcount := interruptFrames_popFrame? hpop
  have hframes := h.frames
  -- there is one frame that counts, so another frame on top of it does not
  rcases h.above.popFrame hpop with habove | ⟨rfl, hreturn, -⟩
  · have hlt := habove.interruptFrames_lt
    by_cases hreturn : frame.returnPc = Machine.fromInterrupt
    · rw [if_pos hreturn] at hcount
      omega
    · rw [if_neg hreturn] at hcount
      exact Or.inl ⟨hreturn, habove, by omega⟩
  · exact Or.inr ⟨hreturn, rfl⟩

/-- Frames that go away are those of routines above the timeout routine, or that one goes with
them. -/
theorem Interrupting.dropFrames (h : Interrupting base s) (n : Nat) :
    Interrupting base (Machine.unwind.dropFrames n s) ∨
      (Machine.unwind.dropFrames n s).depth ≤ base.depth := by
  induction n generalizing s with
  | zero => exact Or.inl h
  | succ n ih =>
      unfold Machine.unwind.dropFrames
      split
      · rename_i frame s' hpop
        rcases h.popFrame hpop with ⟨-, hs'⟩ | ⟨-, rfl⟩
        · exact ih hs'
        · right
          unfold depth
          rw [Machine.dropFrames_frames, List.length_drop]
          omega
      · exact Or.inl h

end

end CallStack

/-! ## Inputs and their requests -/

/-- The variable for the result of an input. -/
def PendingInput.store? : PendingInput → Option UInt8
  | .line _ _ store _ _ => store
  | .char store _ _ => some store

/-- The time that an input is given. -/
def PendingInput.timeout : PendingInput → UInt16
  | .line _ _ _ timeout _ => timeout
  | .char _ timeout _ => timeout

/-- The time that a request gives. -/
def Request.timeout? : Request → Option UInt16
  | .lineInput timeout _ _ _ => some timeout
  | .charInput timeout => some timeout
  | _ => none

/-- A request that fits an input gives its time. -/
theorem Request.Fits.timeout?_eq {request : Request} {input : PendingInput}
    (h : request.Fits (some (.input input))) : request.timeout? = some input.timeout := by
  cases request
  case lineInput =>
    obtain ⟨_, _, _, _, hwork⟩ := h
    cases hwork
    rfl
  case charInput =>
    obtain ⟨_, _, hwork⟩ := h
    cases hwork
    rfl
  case save | restore | piracy | flagsChanged =>
    obtain ⟨_, hwork⟩ := h
    cases hwork
  all_goals cases h

/-- The request for an input fits it. -/
theorem Machine.fits_inputRequest (m : Machine) (input : PendingInput) :
    (m.inputRequest input).Fits (some (.input input)) := by
  cases input with
  | line textBuffer parseBuffer store timeout routine => exact ⟨_, _, _, _, rfl⟩
  | char store timeout routine => exact ⟨_, _, rfl⟩

namespace Machine

open CallStack (Interrupting)

variable {base : CallStack} {parked : ParkedInput} {m m' : Machine}

/-! ## While a timeout routine runs -/

/-- The routine of a parked input runs above the stack that the input has left. -/
structure Interrupted (base : CallStack) (parked : ParkedInput) (m : Machine) : Prop where
  stack : Interrupting base m.stack
  parked : m.parked = some parked

theorem Interrupted.remains (h : Interrupted base parked m) (hm : Remains m m') :
    Interrupted base parked m' :=
  ⟨⟨h.stack.above.edits hm.stack, hm.interrupts.trans h.stack.frames⟩, hm.parked.trans h.parked⟩

/-- A return leaves it running or finishes the interrupt. -/
theorem Interrupted.returnValue (h : Interrupted base parked m) (value : UInt16) :
    Interrupted base parked ((returnValue value).run m).2 ∨
      (returnValue value).run m = (finishInterrupt value).run { m with stack := base } := by
  unfold Machine.returnValue
  rw [run_bind, run_get]
  dsimp only
  cases hpop : m.stack.popFrame? with
  | none => exact Or.inl h
  | some p =>
      obtain ⟨frame, stack⟩ := p
      dsimp only
      rw [run_set_bind]
      rcases h.stack.popFrame hpop with ⟨hreturn, hstack⟩ | ⟨hreturn, rfl⟩
      · left
        rw [if_neg hreturn]
        have hpopped : Interrupted base parked { m with stack } := ⟨hstack, h.parked⟩
        exact hpopped.remains (remains_bind (remains_setPc _) (fun _ =>
          remains_bind (remains_storeResult _ _) fun _ => remains_pure Flow.jump) _)
      · right
        rw [if_pos hreturn]

/-! ### Leaving the routine -/

/-- Finishing an interrupt enters and leaves no routine. -/
theorem depth_finishInterrupt (value : UInt16) (m : Machine) :
    ((finishInterrupt value).run m).2.stack.depth = m.stack.depth := by
  obtain ⟨result, stored, hstack, -⟩ := finishInterrupt_run value m
  rw [hstack, CallStack.depth_receive]

/-- A return enters no routine. -/
theorem depth_returnValue_le (value : UInt16) (m : Machine) :
    ((returnValue value).run m).2.stack.depth ≤ m.stack.depth := by
  unfold Machine.returnValue
  rw [run_bind, run_get]
  dsimp only
  cases hpop : m.stack.popFrame? with
  | none => exact Nat.le_refl _
  | some p =>
      obtain ⟨frame, stack⟩ := p
      have hdepth : stack.depth ≤ m.stack.depth := by
        unfold CallStack.depth
        rw [(CallStack.popFrame?_eq_some hpop).1, List.length_cons]
        omega
      dsimp only
      rw [run_set_bind]
      split
      · rw [depth_finishInterrupt]
        exact hdepth
      · obtain ⟨hstack, -⟩ :=
          storeResult_run frame.result value { m with stack, pc := frame.returnPc }
        have hrun : ((do
            setPc frame.returnPc
            storeResult frame.result value
            return Flow.jump).run { m with stack }).2
              = ((storeResult frame.result value).run { m with stack, pc := frame.returnPc }).2 :=
          run_bind_pure_snd _ _ _
        rw [hrun, hstack, CallStack.depth_receive]
        exact hdepth

/-- The timeout routine runs, or it has been left. -/
def InterruptedOrLeft (base : CallStack) (parked : ParkedInput) (m : Machine) : Prop :=
  Interrupted base parked m ∨ m.stack.depth ≤ base.depth

theorem Interrupted.returnValue_or_left (h : Interrupted base parked m) (value : UInt16) :
    InterruptedOrLeft base parked ((Machine.returnValue value).run m).2 := by
  rcases h.returnValue value with hruns | hfinished
  · exact Or.inl hruns
  · right
    have hdepth := depth_finishInterrupt value { m with stack := base }
    rw [← hfinished] at hdepth
    exact Nat.le_of_eq hdepth

theorem Interrupted.throwTo (h : Interrupted base parked m) (value cookie : UInt16) :
    InterruptedOrLeft base parked ((throwTo value cookie).run m).2 := by
  unfold Machine.throwTo
  rw [run_bind, run_get]
  dsimp only
  split
  · exact Or.inl h
  · rcases h.stack.dropFrames (m.stack.depth - cookie.toNat) with hstack | hdepth
    · have hunwound : Interrupted base parked { m with stack := unwind cookie.toNat m.stack } :=
        ⟨hstack, h.parked⟩
      exact hunwound.returnValue_or_left value
    · exact Or.inr (Nat.le_trans (depth_returnValue_le value _) hdepth)

theorem InterruptedOrLeft.same (h : InterruptedOrLeft base parked m) (hstack : m'.stack = m.stack)
    (hparked : m'.parked = m.parked) : InterruptedOrLeft base parked m' := by
  rcases h with hruns | hleft
  · exact Or.inl (hruns.remains (Remains.of_eq hstack hparked))
  · exact Or.inr (hstack ▸ hleft)

theorem Interrupted.printAndReturn (h : Interrupted base parked m) (text : String) :
    InterruptedOrLeft base parked ((printAndReturn text).run m).2 := by
  have hreturned := h.returnValue_or_left 1
  unfold Machine.printAndReturn
  rw [run_bind]
  revert hreturned
  rcases (Machine.returnValue 1).run m with ⟨e | flow, m₁⟩
  · exact id
  · intro hreturned
    -- the line that is printed then changes neither the stack nor the parked input
    have hstack := (quiet_print (text ++ "\n") m₁).stack
    have hparked := (remains_print (text ++ "\n") m₁).parked
    dsimp only
    rw [run_bind]
    revert hstack hparked
    rcases (print (text ++ "\n")).run m₁ with ⟨e | printed, m₂⟩
    · exact hreturned.same
    · cases printed <;> exact hreturned.same

/-! ### Actions -/

/-- The outcome of an action while a timeout routine runs: the routine goes on running, or it has
been left, and if the action shows a value that is returned, then the interrupt is finished with
it. -/
def Serves (base : CallStack) (parked : ParkedInput) (m : Machine) (r : Except Stop Flow × Machine)
    (s : Except Stop (Option UInt16) × Machine) : Prop :=
  Interrupted base parked r.2 ∨ r.2.stack.depth ≤ base.depth ∧
    ∀ value before, s = (.ok (some value), before) →
      Works m before ∧ before.parked = some parked ∧
        r = (finishInterrupt value).run { before with stack := base }

/-- An action that remains in its routine or returns at its end. -/
theorem Interrupted.ends (h : Interrupted base parked m) {r : Except Stop Flow × Machine}
    {s : Except Stop (Option UInt16) × Machine} (hends : Ends m r s) :
    Serves base parked m r s := by
  rcases hends with hremains | ⟨value, m₁, rfl, hremains, hworks, hseen⟩
  · exact Or.inl (h.remains hremains)
  · have hm₁ := h.remains hremains
    rcases hm₁.returnValue value with hruns | hfinished
    · exact Or.inl hruns
    · right
      rw [hfinished, depth_finishInterrupt]
      refine ⟨Nat.le_refl _, fun seen before hs => ?_⟩
      obtain ⟨rfl, rfl⟩ := hseen seen before hs
      exact ⟨hworks, hm₁.parked, rfl⟩

/-- An action that shows no returned value. -/
theorem InterruptedOrLeft.serves {r : Except Stop Flow × Machine}
    {s : Except Stop (Option UInt16) × Machine} (h : InterruptedOrLeft base parked r.2)
    (hs : ∀ value before, s ≠ (.ok (some value), before)) : Serves base parked m r s :=
  h.imp id fun hleft => ⟨hleft, fun value before hseen => absurd hseen (hs value before)⟩

/-- Throws, and the instruction that prints after its return, show no value. -/
theorem returning_ne_some {ins : Instruction} (hop : ins.op = .throwFrame ∨ ins.op = .printRet)
    (m : Machine) (value : UInt16) (before : Machine) :
    (returning ins).run m ≠ (.ok (some value), before) := by
  unfold returning returningWith
  rw [run_bind]
  rcases (operandValues ins.operands).run m with ⟨e | values, m₁⟩
  · nofun
  · rcases hop with hop | hop <;> rw [hop] <;> nofun

theorem Interrupted.executeWith_or_left {ins : Instruction} (h : Interrupted base parked m)
    (hop : ins.op = .throwFrame ∨ ins.op = .printRet) :
    InterruptedOrLeft base parked ((execute ins).run m).2 := by
  have hvalues := h.remains (remains_operandValues ins.operands m)
  unfold execute
  rw [run_bind]
  revert hvalues
  rcases (operandValues ins.operands).run m with ⟨e | values, m₁⟩
  · exact Or.inl
  · intro hvalues
    unfold executeWith
    rcases hop with hop | hop
    · rw [hop]
      exact hvalues.throwTo _ _
    · rw [hop]
      exact hvalues.printAndReturn _

/-- **An instruction**, with the program counter after it, unless it goes back to a snapshot. -/
theorem Interrupted.execute {ins : Instruction} (h : Interrupted base parked m)
    (hpc : m.pc = ins.next) (hins : ins.Decoded) (hundo : ¬ Undoes ins m) :
    Serves base parked m ((execute ins).run m) ((returning ins).run m) := by
  by_cases hop : ins.op = .throwFrame ∨ ins.op = .printRet
  · exact (h.executeWith_or_left hop).serves (returning_ne_some hop m)
  · rw [not_or] at hop
    exact h.ends (execute_remains_or_returns hpc hop.1 hop.2 hundo fun hcalls =>
      hins.next_pos (hasText_of_calls hcalls))

/-- **The work left over by a request**, unless it restores a save file. -/
theorem Interrupted.resume {completion : Completion} (h : Interrupted base parked m)
    (hrestoring : ∀ s, ¬ Restoring completion m s) :
    Serves base parked m ((resume completion).run m) (.ok completion.returned?, m) :=
  h.ends (resume_remains_or_returns (by rw [h.parked]; rfl) hrestoring)

/-! ## In the middle of a run -/

/-- Nothing is asked, answered or left over, and nothing has come to an end. -/
structure Running (m : Machine) : Prop where
  halted : m.halted = none
  finished : m.finished = false
  request : m.request = none
  completion : m.completion = none
  replies : m.replies = []

theorem Running.same (h : Running m) (hside : m'.hostSide = m.hostSide) : Running m' where
  halted := (congrArg HostSide.halted hside).trans h.halted
  finished := (congrArg HostSide.finished hside).trans h.finished
  request := (congrArg HostSide.request hside).trans h.request
  completion := (congrArg HostSide.completion hside).trans h.completion
  replies := (congrArg HostSide.replies hside).trans h.replies

/-- An action that does not hand over to the host leaves it so, but for the replies. -/
theorem Leaves.running {r : Except Stop Flow × Machine} (h : Leaves m r)
    (hm : Running { m with replies := [] }) {flow : Flow} (hflow : r.1 = .ok flow)
    (hne : flow ≠ .suspend) : Running { r.2 with replies := [] } := by
  have hr : r.1 ≠ .ok .suspend := by
    rw [hflow]
    exact fun h => hne (Except.ok.inj h)
  exact
    { halted := h.halted.trans hm.halted
      finished := (h.finished.resolve_right fun hquit => hr hquit.1).trans hm.finished
      request := (h.unasked hr).1.trans hm.request
      completion := (h.unasked hr).2.trans hm.completion
      replies := rfl }

/-! ## The end of an interrupt -/

/-- An input that ends with terminator zero and an empty line stores a zero, and does the same
whatever has been replied. -/
theorem finishInput_ended_run (input : PendingInput) (m : Machine) :
    ∃ memory, ∀ replies, (finishInput input 0 "").run { m with replies }
      = (.ok (), { m with stack := m.stack.receive input.store? 0, memory, replies }) := by
  cases input with
  | line textBuffer parseBuffer store timeout routine =>
      have hzero : terminatorWord 0 = 0 := by decide
      refine ⟨withResult m.header store 0 (m.parsedMemory textBuffer parseBuffer ""),
        fun replies => ?_⟩
      have hrun := finishInput_line_run { m with replies } textBuffer parseBuffer store timeout
        routine 0 ""
      rw [hzero] at hrun
      exact hrun
  | char store timeout routine =>
      exact ⟨withGlobal m.header store 0 m.memory, fun replies =>
        writeVariable_run { m with replies } store 0⟩

/-- False asks for the parked input again. -/
theorem finishInterrupt_zero_run (h : m.parked = some parked) :
    (finishInterrupt 0).run m = (.ok .suspend, { m with
      pc := parked.pc
      request := some parked.request
      completion := some (.input parked.input)
      parked := none }) := by
  rw [finishInterrupt_eq h]
  rfl

/-- Anything else ends it, whatever has been replied. -/
theorem finishInterrupt_run_of_ne_zero (h : m.parked = some parked) {value : UInt16}
    (hvalue : value ≠ 0) :
    ∃ memory, ∀ replies, (finishInterrupt value).run { m with replies } = (.ok .jump, { m with
      stack := m.stack.receive parked.input.store? 0
      memory
      pc := parked.pc
      replies := []
      parked := none }) := by
  obtain ⟨memory, hfinish⟩ := finishInput_ended_run parked.input
    { m with parked := none, pc := parked.pc }
  refine ⟨memory, fun replies => ?_⟩
  have hparked : ({ m with replies } : Machine).parked = some parked := h
  rw [finishInterrupt_eq hparked, if_neg hvalue]
  exact run_bind_ok (hfinish [])

/-- So it goes on at another place or hands over to the host. -/
theorem finishInterrupt_ne_next (h : m.parked = some parked) (value : UInt16) :
    ((finishInterrupt value).run m).1 ≠ .ok .next := by
  by_cases hvalue : value = 0
  · rw [hvalue, finishInterrupt_zero_run h]
    nofun
  · obtain ⟨memory, hrun⟩ := finishInterrupt_run_of_ne_zero h hvalue
    rw [hrun m.replies]
    nofun

/-- A number that is no code of a line end is what it is, for lines and for keys. -/
theorem repliedEnd_of_number {n : Int} (h : m.reply? 0 = some (.number n)) (hn : n ≠ 10)
    (input : PendingInput) : m.repliedEnd input = n := by
  cases input with
  | line textBuffer parseBuffer store timeout routine =>
      show (m.replyNumber? 0).getD _ = n
      rw [replyNumber?, h]
      rfl
  | char store timeout routine =>
      show m.repliedKey = n
      rw [repliedKey, h]
      exact if_neg hn

/-- The reply of terminator zero with an empty line. -/
theorem resumeInput_ended_run (hnumber : m.reply? 0 = some (.number 0))
    (hline : m.reply? 1 = some (.text "")) (input : PendingInput) :
    (resumeInput input).run m
      = (do finishInput input 0 ""; return Flow.next : Exec Flow).run m := by
  have hended : m.repliedEnd input = 0 := repliedEnd_of_number hnumber (by decide) input
  have hempty : m.repliedLine = "" := by rw [repliedLine, hline]
  unfold resumeInput
  rw [run_bind, run_get]
  dsimp only
  rw [hended, hempty]
  cases routineOf input <;> rfl

/-- What the machine before the return from a timeout routine becomes when it waits again for the
input of `m`, as `m` has done. -/
def askingAgain (m : Machine) (input : PendingInput) (before : Machine) : Machine :=
  { before with
    stack := m.stack
    pc := m.pc
    request := some (m.inputRequest input)
    replies := []
    completion := some (.input input)
    parked := none }

end Machine

namespace Moment

open Machine

variable {base : CallStack} {parked : ParkedInput}

/-- False leads back to the input. -/
theorem left_finishInterrupt_zero {m before : Machine} {input : PendingInput} (hm : before.Running)
    (hparked : before.parked = some ⟨input, m.inputRequest input, m.pc⟩) (blocks : Nat) :
    left blocks ((finishInterrupt 0).run { before with stack := m.stack })
      = ⟨m.askingAgain input before, .host⟩ := by
  have hbefore : ({ before with stack := m.stack } : Machine).parked
      = some ⟨input, m.inputRequest input, m.pc⟩ := hparked
  rw [finishInterrupt_zero_run hbefore]
  -- replies are not touched, but there are none in the middle of a run
  unfold askingAgain
  rw [← hm.replies]
  rfl

/-- Anything else leads to where the host would have led by replying that the input has ended. -/
theorem left_finishInterrupt_of_ne_zero {m before : Machine} {input : PendingInput}
    (hm : before.Running) (hparked : before.parked = some ⟨input, m.inputRequest input, m.pc⟩)
    {value : UInt16} (hvalue : value ≠ 0) (blocks : Nat) :
    ∃ m' : Machine, m'.stack = m.stack.receive input.store? 0 ∧ m'.pc = m.pc ∧
      left blocks ((finishInterrupt value).run { before with stack := m.stack })
        = ⟨m', .fetching blocks⟩ ∧
      begin (((m.askingAgain input before).answer 0 (.number 0)).answer 1 (.text ""))
        = ⟨m', .fetching before.config.iterationCap⟩ := by
  have hbefore : ({ before with stack := m.stack } : Machine).parked
      = some ⟨input, m.inputRequest input, m.pc⟩ := hparked
  obtain ⟨memory, hfinish⟩ := finishInput_ended_run input
    { before with stack := m.stack, parked := none, pc := m.pc }
  refine ⟨{ before with
    stack := m.stack.receive input.store? 0, memory, pc := m.pc, replies := [], parked := none },
    rfl, rfl, ?_, ?_⟩
  · rw [finishInterrupt_eq hbefore, if_neg hvalue, run_bind_ok (hfinish [])]
    rfl
  · generalize hanswered :
      ((m.askingAgain input before).answer 0 (.number 0)).answer 1 (.text "") = answered
    have hresume : (resumeInput input).run (taken answered) = (.ok .next, { before with
        stack := m.stack.receive input.store? 0, memory, parked := none, pc := m.pc
        replies := [.number 0, .text ""] }) := by
      rw [← hanswered, resumeInput_ended_run rfl rfl]
      have htaken : taken (((m.askingAgain input before).answer 0 (.number 0)).answer 1 (.text ""))
          = { before with
              stack := m.stack, parked := none, pc := m.pc, request := none, completion := none
              replies := [.number 0, .text ""] } := rfl
      rw [htaken, ← hm.request, ← hm.completion]
      exact run_bind_ok (hfinish [.number 0, .text ""])
    have hcompletion : answered.completion = some (.input input) := by
      rw [← hanswered]
      rfl
    rw [begin_eq (by rw [← hanswered]; exact hm.halted) (by rw [← hanswered]; exact hm.finished),
      hcompletion, leftover]
    dsimp only
    rw [Machine.resume, run_bind_ok hresume, ← hanswered]
    rfl

/-! ## Moments of a timeout routine -/

/-- A moment at which a timeout routine runs. -/
structure Interrupted (base : CallStack) (parked : ParkedInput) (μ : Moment) : Prop where
  machine : μ.machine.Interrupted base parked
  kept : μ.machine.DecodedBlocks
  rest : ∀ ins ∈ μ.rest, ins.Decoded
  running : μ.phase = .host ∨ μ.phase = .endless ∨ μ.machine.Running

theorem Interrupted.running_of_phase {μ : Moment} (h : Interrupted base parked μ)
    (hhost : μ.phase ≠ .host) (hendless : μ.phase ≠ .endless) : μ.machine.Running :=
  (h.running.resolve_left hhost).resolve_left hendless

/-- The value that the next step returns, if it does so as the last thing, and the machine before
that return.  At the host's side the next step is the beginning of a run, which may return from the
work left over by a request. -/
def returning : Moment → Except Stop (Option UInt16) × Machine
  | ⟨m, .host⟩ => (.ok (m.completion.bind Completion.returned?), { taken m with replies := [] })
  | ⟨m, .executing (ins :: _) _⟩ => (Machine.returning ins).run { m with pc := ins.next }
  | ⟨m, _⟩ => (.ok none, m)

/-- What comes after a moment of a timeout routine: another such moment, or the routine has been
left, and if the value that it returned shows, then the interrupt has been finished with it. -/
def Serves (base : CallStack) (parked : ParkedInput) (μ ν : Moment) : Prop :=
  Interrupted base parked ν ∨ ν.depth ≤ base.depth ∧
    ∀ value before, μ.returning = (.ok (some value), before) →
      before.Running ∧ before.parked = some parked ∧
        ∃ blocks, ν = left blocks ((finishInterrupt value).run { before with stack := base })

/-- Control leaves a sequence of instructions or the work left over. -/
theorem interrupted_left {r : Except Stop Flow × Machine} (h : r.2.Interrupted base parked)
    (hkept : r.2.DecodedBlocks)
    (hrunning : ∀ flow, r.1 = .ok flow → flow ≠ .suspend → r.2.Running) (blocks : Nat) :
    Interrupted base parked (left blocks r) := by
  rcases r with ⟨(f | _) | flow, m'⟩
  · exact ⟨h.remains (Remains.of_eq rfl rfl), hkept, List.forall_mem_nil _, Or.inl rfl⟩
  · exact ⟨h, hkept, List.forall_mem_nil _, Or.inr (Or.inl rfl)⟩
  · cases flow with
    | suspend => exact ⟨h, hkept, List.forall_mem_nil _, Or.inl rfl⟩
    | next | jump =>
        exact ⟨h, hkept, List.forall_mem_nil _, Or.inr (Or.inr (hrunning _ rfl (by decide)))⟩

theorem depth_left (blocks : Nat) (r : Except Stop Flow × Machine) :
    (left blocks r).depth = r.2.stack.depth :=
  congrArg CallStack.depth (quiet_left blocks r).stack

/-- A block is fetched. -/
theorem Interrupted.fetch {m : Machine} {blocks : Nat}
    (h : Interrupted base parked ⟨m, .fetching (blocks + 1)⟩) :
    Interrupted base parked (step ⟨m, .fetching (blocks + 1)⟩) := by
  have hrunning : m.Running := h.running_of_phase (by rintro ⟨⟩) (by rintro ⟨⟩)
  obtain ⟨caches, codec, hfetch⟩ := fetchBlock_run_snd m
  have hfetched : Machine.Interrupted base parked { m with blocks := caches, codec } :=
    h.machine.remains (Remains.of_eq rfl rfl)
  have hdecoded := h.kept.fetchBlock
  rw [Moment.step]
  revert hfetch hdecoded
  rcases fetchBlock.run m with ⟨(f | _) | block, m₁⟩
  · rintro rfl ⟨hkept, -, -⟩
    exact ⟨hfetched.remains (Remains.of_eq rfl rfl), hkept, List.forall_mem_nil _, Or.inl rfl⟩
  · rintro rfl ⟨hkept, -, -⟩
    exact ⟨hfetched, hkept, List.forall_mem_nil _, Or.inr (Or.inl rfl)⟩
  · rintro rfl ⟨hkept, hblock, -⟩
    exact ⟨hfetched, hkept, hblock block rfl, Or.inr (Or.inr (hrunning.same rfl))⟩

/-- An instruction is executed. -/
theorem Interrupted.execute {m : Machine} {ins : Instruction} {rest : List Instruction}
    {blocks : Nat} (h : Interrupted base parked ⟨m, .executing (ins :: rest) blocks⟩)
    (hundo : ¬ Moment.Undoes ⟨m, .executing (ins :: rest) blocks⟩) :
    Serves base parked ⟨m, .executing (ins :: rest) blocks⟩
      (step ⟨m, .executing (ins :: rest) blocks⟩) := by
  have hrunning : m.Running := h.running_of_phase (by rintro ⟨⟩) (by rintro ⟨⟩)
  obtain ⟨hins, hrest⟩ := List.forall_mem_cons.mp h.rest
  have hm : Machine.Interrupted base parked { m with pc := ins.next } :=
    h.machine.remains (Remains.of_eq rfl rfl)
  have hmoved : Machine.Running { m with pc := ins.next } := hrunning.same rfl
  have hserves := hm.execute rfl hins hundo
  obtain ⟨codec, -, hleaves⟩ := (spells_execute ins).leaves { m with pc := ins.next }
  have hstays : ∀ flow, ((Machine.execute ins).run { m with pc := ins.next }).1 = .ok flow →
      flow ≠ .suspend → ((Machine.execute ins).run { m with pc := ins.next }).2.Running := by
    intro flow hflow hne
    have hrest := hleaves.running ⟨hrunning.halted, hrunning.finished, hrunning.request,
      hrunning.completion, rfl⟩ hflow hne
    exact { hrest with replies := hleaves.unanswered hrunning.replies }
  have hkept := lasting_decodedBlocks.execute (m := { m with pc := ins.next }) h.kept ins
  rcases hserves with hruns | ⟨hdepth, hreturned⟩
  · left
    rw [Moment.step]
    split
    · rename_i m₁ hrun
      rw [hrun] at hruns hstays hkept
      exact ⟨hruns, hkept, hrest, Or.inr (Or.inr (hstays _ rfl (by decide)))⟩
    · exact interrupted_left hruns hkept hstays blocks
  · right
    refine ⟨?_, fun value before hseen => ?_⟩
    · unfold Moment.depth
      rw [(quiet_step_executing ins rest blocks m).stack]
      exact hdepth
    · obtain ⟨hworks, hparked, hfinished⟩ := hreturned value before hseen
      refine ⟨hmoved.same hworks.hostSide, hparked, blocks, ?_⟩
      rw [Moment.step, hfinished]
      split
      · rename_i m₁ hnext
        have hne := finishInterrupt_ne_next (m := { before with stack := base }) hparked value
        exact absurd (congrArg Prod.fst hnext) hne
      · rfl

/-- What is done at a step. -/
theorem Interrupted.step {μ : Moment} (h : Interrupted base parked μ) (hundo : ¬ μ.Undoes) :
    Serves base parked μ μ.step := by
  rcases μ with ⟨m, _ | blocks | ⟨_ | ⟨ins, rest⟩, blocks⟩ | _⟩
  · exact Or.inl h
  · cases blocks with
    | zero =>
        exact Or.inl ⟨h.machine.remains (Remains.of_eq rfl rfl), h.kept, h.rest, Or.inl rfl⟩
    | succ blocks => exact Or.inl h.fetch
  · have hrunning : m.Running := h.running_of_phase (by rintro ⟨⟩) (by rintro ⟨⟩)
    exact Or.inl ⟨h.machine, h.kept, h.rest, Or.inr (Or.inr hrunning)⟩
  · exact h.execute hundo
  · exact Or.inl h

/-- It does not matter for the end of an interrupt when the replies are forgotten. -/
theorem clearReplies_finishInterrupt {m : Machine} (h : m.parked = some parked) (value : UInt16) :
    (do
        let flow ← finishInterrupt value
        clearReplies
        return flow : Exec Flow).run m
      = (finishInterrupt value).run { m with replies := [] } := by
  by_cases hvalue : value = 0
  · have hforgotten : ({ m with replies := [] } : Machine).parked = some parked := h
    rw [hvalue, run_bind_ok (finishInterrupt_zero_run h), finishInterrupt_zero_run hforgotten]
    rfl
  · obtain ⟨memory, hrun⟩ := finishInterrupt_run_of_ne_zero h hvalue
    rw [run_bind_ok (hrun m.replies), hrun []]
    rfl

/-- A run begins with work after which a timeout routine runs. -/
theorem interrupted_begin_of_resume {m : Machine} {completion : Completion}
    (hhalted : m.halted = none) (hfinished : m.finished = false)
    (hcompletion : m.completion = some completion) (hkept : m.DecodedBlocks)
    (h : ((resume completion).run (taken m)).2.Interrupted base parked) :
    Interrupted base parked (begin m) := by
  have hdecoded := lasting_decodedBlocks.leftover (m := taken m) hkept m.completion
  obtain ⟨setAside, -, hleaves⟩ := leaves_resume (taken m) completion
  obtain ⟨replies, hleftover, hreplies⟩ := leftover_run completion (taken m)
  rw [begin_eq hhalted hfinished]
  rw [hcompletion] at hdecoded ⊢
  apply interrupted_left _ hdecoded
  · rw [hleftover]
    intro flow hflow hne
    have hrest := hleaves.running ⟨hhalted, hfinished, rfl, rfl, rfl⟩ hflow hne
    exact { hrest with replies := hreplies flow hflow }
  · rw [hleftover]
    exact h.remains (Remains.of_eq rfl rfl)

/-- A run begins with the work left over by the last request. -/
theorem Interrupted.begin {m : Machine} (h : Interrupted base parked ⟨m, .host⟩)
    (hrestoring : ∀ s, ¬ BeginsRestoring m s) :
    Serves base parked ⟨m, .host⟩ (begin m) := by
  by_cases hhalted : m.halted = none
  case neg =>
    have hbegin : Moment.begin m = ⟨m, .host⟩ := by
      simp [Moment.begin, Option.isSome_iff_ne_none, hhalted]
    rw [hbegin]
    exact Or.inl h
  cases hfinished : m.finished with
  | true =>
      have hbegin : Moment.begin m = ⟨{ m with request := some .quit }, .host⟩ := by
        simp [Moment.begin, hhalted, hfinished]
      rw [hbegin]
      exact Or.inl ⟨h.machine.remains (Remains.of_eq rfl rfl), h.kept, h.rest, Or.inl rfl⟩
  | false =>
      have htaken : (taken m).Interrupted base parked := h.machine.remains (Remains.of_eq rfl rfl)
      cases hcompletion : m.completion with
      | none =>
          have hkept := lasting_decodedBlocks.leftover (m := taken m) h.kept m.completion
          rw [begin_eq hhalted hfinished]
          rw [hcompletion] at hkept ⊢
          refine Or.inl (interrupted_left ?_ hkept ?_ _)
          · exact htaken.remains (Remains.of_eq rfl rfl)
          · exact fun _ _ _ => ⟨hhalted, hfinished, rfl, rfl, rfl⟩
      | some completion =>
          rcases htaken.resume fun s hs =>
            hrestoring s ⟨hhalted, hfinished, completion, hcompletion, hs⟩
            with hruns | ⟨hdepth, hreturned⟩
          · exact Or.inl (interrupted_begin_of_resume hhalted hfinished hcompletion h.kept hruns)
          · right
            refine ⟨?_, fun value before hseen => ?_⟩
            · rw [begin_eq hhalted hfinished, depth_left, hcompletion,
                (quiet_leftover completion (taken m)).stack]
              exact hdepth
            · rw [Moment.returning, hcompletion, Option.bind_some, Prod.mk.injEq,
                Except.ok.injEq] at hseen
              obtain ⟨hvalue, rfl⟩ := hseen
              obtain ⟨-, hparked, hfinish⟩ := hreturned value (taken m) (by rw [hvalue])
              refine ⟨⟨hhalted, hfinished, rfl, rfl, rfl⟩, hparked, m.config.iterationCap, ?_⟩
              -- here the replies are forgotten after the interrupt has been finished
              have hclear := clearReplies_finishInterrupt (m := { taken m with stack := base })
                hparked value
              rw [run_bind, ← hfinish, ← run_bind] at hclear
              rw [begin_eq hhalted hfinished, hcompletion]
              exact congrArg _ hclear

/-- What the host does between two runs. -/
theorem remains_attends {m m' : Machine} (h : Attends m m') : Remains m m' := by
  cases h with
  | answer slot reply => exact Remains.of_eq rfl rfl
  | setRandomSeed seed => exact Remains.of_eq rfl rfl
  | takeOutput => exact Remains.of_eq rfl rfl
  | takeTranscript => exact Remains.of_eq rfl rfl
  | statusLine width =>
      unfold Machine.statusLine
      split
      · exact Remains.refl m
      · exact Remains.of_eq rfl rfl

/-- **Whatever goes on without going back to a snapshot.** -/
theorem Interrupted.continues {μ ν : Moment} (h : Interrupted base parked μ)
    (hν : Continues μ ν) : Serves base parked μ ν := by
  cases hν with
  | step _ hundo => exact h.step hundo
  | run m hrestoring => exact h.begin hrestoring
  | @attend m m' ha =>
      exact Or.inl ⟨h.machine.remains (remains_attends ha),
        lasting_decodedBlocks.attend h.kept ha, h.rest, Or.inl rfl⟩
  | refuse m data e hread =>
      rw [loadSavedGame_refused hread]
      exact Or.inl h

/-- As long as more routines are being run than by the input, the timeout routine is one of them. -/
theorem interrupted_of_continuesAbove {μ ν : Moment}
    (h : Interrupted base parked μ ∨ μ.depth ≤ base.depth)
    (hpath : Relation.ReflTransGen (ContinuesAbove base.depth) μ ν) :
    Interrupted base parked ν ∨ ν.depth ≤ base.depth := by
  induction hpath with
  | refl => exact h
  | tail _ hstep ih =>
      obtain ⟨hdepth, hcontinues⟩ := hstep
      rcases ih with hruns | hleft
      · exact (hruns.continues hcontinues).imp id And.left
      · -- a moment after the routine has been left is not so deep, and nothing comes after it
        omega

/-! ## The beginning of an interrupt -/

/-- An interrupt enters its routine, or fails to because that lies outside the story. -/
theorem interrupted_interrupt {m : Machine} (hparked : m.parked = none) {routine : UInt16}
    (hroutine : routine ≠ 0) (input : PendingInput) :
    ((interrupt routine input).run m).2.Interrupted m.stack ⟨input, m.inputRequest input, m.pc⟩ ∨
      ((interrupt routine input).run m).2.stack = m.stack := by
  have hnone : ¬ m.parked.isSome := by rw [hparked]; nofun
  unfold interrupt
  rw [run_bind, run_get]
  dsimp only
  rw [if_neg hnone, run_set_bind, call, run_bind, run_get]
  dsimp only
  rw [if_neg (unpackRoutine_ne_zero m.header hroutine)]
  split
  · exact Or.inr rfl
  · exact Or.inl ⟨⟨above_pushFrame _ _ _ _ _, CallStack.interruptFrames_pushFrame _ _⟩, rfl⟩

/-- **An input that has timed out** is interrupted. -/
theorem interrupted_begin {m : Machine} {input : PendingInput} {routine : UInt16} {n : Int}
    (hkept : m.DecodedBlocks) (hhalted : m.halted = none) (hfinished : m.finished = false)
    (hcompletion : m.completion = some (.input input)) (hroutine : routineOf input = some routine)
    (hpos : routine ≠ 0) (hparked : m.parked = none) (hreply : m.reply? 0 = some (.number n))
    (hn : n < 0) :
    Interrupted m.stack ⟨input, m.inputRequest input, m.pc⟩ (begin m) ∨
      (begin m).depth ≤ m.stack.depth := by
  have hended : (taken m).repliedEnd input = n := repliedEnd_of_number hreply (by omega) input
  have hresume : (resume (.input input)).run (taken m)
      = (interrupt routine input).run (taken m) := by
    rw [resume, resumeInput, run_bind, run_get]
    dsimp only
    rw [hended, hroutine, decide_eq_true hn]
  rcases interrupted_interrupt (m := taken m) hparked hpos input with hruns | hstack
  · rw [← hresume] at hruns
    exact Or.inl (interrupted_begin_of_resume hhalted hfinished hcompletion hkept hruns)
  · rw [← hresume] at hstack
    right
    apply Nat.le_of_eq
    rw [begin_eq hhalted hfinished, depth_left, hcompletion, (quiet_leftover _ (taken m)).stack]
    exact congrArg CallStack.depth hstack

/-! ## The whole way of a timed input -/

/-- **Timeout routines are transparent to their inputs.**  A machine that a host can bring about
waits for an input with a timeout routine, no input is parked, and the host replies that the time is
up.  Whatever goes on then without going back to a snapshot, when for the first time just as many
routines are being run as by the input, and that by the return of a value, the value decides.  If it
is zero, the machine waits again for the same input, with the same stack and program counter, with a
request for the same time, and with nothing parked; all else is as it was before the return.  If it
is not zero, the machine is what this waiting machine would have come to if the host had replied
terminator zero and an empty line, and execution goes on at the same place and with the same stack,
but for the zero in the variable for the result. -/
theorem timeout_routine_returns {image : Array UInt8} {config : Config} {m before : Machine}
    {input : PendingInput} {routine value : UInt16} {n : Int} {μ ν : Moment}
    (hm : Reachable image config m) (hhalted : m.halted = none) (hwaits : m.Waits)
    (hcompletion : m.completion = some (.input input)) (hroutine : routineOf input = some routine)
    (hpos : routine ≠ 0) (hparked : m.parked = none) (hreply : m.reply? 0 = some (.number n))
    (hn : n < 0)
    (hpath : Relation.ReflTransGen (ContinuesAbove m.stack.depth) (begin m) μ)
    (hreturning : μ.returning = (.ok (some value), before))
    (hreturn : ContinuesAbove m.stack.depth μ ν) (hdepth : ν.depth = m.stack.depth) :
    let ended := begin (((m.askingAgain input before).answer 0 (.number 0)).answer 1 (.text ""))
    (value = 0 → ν = ⟨m.askingAgain input before, .host⟩ ∧ ν.machine.Waits ∧
      ∃ timeout, m.request.bind Request.timeout? = some timeout ∧
        ν.machine.request.bind Request.timeout? = some timeout) ∧
    (value ≠ 0 → ν.machine = ended.machine ∧
      (∃ blocks, ν.phase = .fetching blocks) ∧ (∃ blocks, ended.phase = .fetching blocks) ∧
      ν.machine.pc = m.pc ∧ ν.machine.stack = m.stack.receive input.store? 0) := by
  intro ended
  have hfinished : m.finished = false := by
    by_contra hquit
    have hnone := hm.orderly.quit (by simpa using hquit)
    rw [hcompletion] at hnone
    cases hnone
  have hkept : m.DecodedBlocks := by
    refine lasting_decodedBlocks.reachable (fun m₀ hload => ?_) hm
    exact (watched_load hload).kept
  -- a routine outside the story is never entered, so there would be no way to the return
  have hbegin := interrupted_begin hkept hhalted hfinished hcompletion hroutine hpos hparked
    hreply hn
  have hμ : Interrupted m.stack ⟨input, m.inputRequest input, m.pc⟩ μ :=
    (interrupted_of_continuesAbove hbegin hpath).resolve_right (Nat.not_le.mpr hreturn.1)
  -- the depth tells that the timeout routine has been left
  have hleft : ¬ Interrupted m.stack ⟨input, m.inputRequest input, m.pc⟩ ν := by
    intro hruns
    have hdeeper := hruns.machine.stack.above.depth_lt
    unfold Moment.depth at hdepth
    omega
  obtain ⟨-, hserved⟩ := (hμ.continues hreturn.2).resolve_left hleft
  obtain ⟨hrunning, hbefore, blocks, rfl⟩ := hserved value before hreturning
  constructor
  · rintro rfl
    have hasks := left_finishInterrupt_zero hrunning hbefore blocks
    obtain ⟨request, hrequest, hfits⟩ := hwaits
    rw [hcompletion] at hfits
    have hagain := m.fits_inputRequest input
    rw [hasks]
    refine ⟨rfl, ⟨m.inputRequest input, rfl, hagain⟩, input.timeout, ?_, hagain.timeout?_eq⟩
    rw [hrequest]
    exact hfits.timeout?_eq
  · intro hvalue
    obtain ⟨m', hstack, hpc, hfinish, hanswered⟩ :=
      left_finishInterrupt_of_ne_zero hrunning hbefore hvalue blocks
    have hended : ended = ⟨m', .fetching before.config.iterationCap⟩ := hanswered
    rw [hfinish, hended]
    exact ⟨rfl, ⟨_, rfl⟩, ⟨_, rfl⟩, hpc, hstack⟩

/-- A story that reads a key for seven tenths of a second.  The timeout routine of the key selects a
window and returns true. -/
def windowImage : Array UInt8 :=
  (5 :: List.replicate 6 (0 : UInt8) ++ 0x40 :: List.replicate 5 (0 : UInt8) ++ [0x58, 0, 0x5C] ++
    List.replicate 48 (0 : UInt8) ++ [0xF6, 0x57, 1, 7, 0x13, 0x10, 0, 0, 0, 0, 0, 0] ++
    [0, 0xEB, 0x7F, 1, 0xB0] ++ List.replicate 15 (0 : UInt8)).toArray

/-- The machine of that story, which yields to its host after two blocks. -/
def windowMachine : Machine :=
  (load windowImage { iterationCap := 2, random := .lowest }).toOption.get rfl

/-- The request for the key. -/
def readingKey : Instruction :=
  (Instruction.read windowMachine.codec windowMachine.memory 0x40).toOption.get rfl

/-- The selection of the window. -/
def selecting : Instruction :=
  (Instruction.read windowMachine.codec windowMachine.memory 0x4D).toOption.get rfl

/-- The return. -/
def returningTrue : Instruction :=
  (Instruction.read windowMachine.codec windowMachine.memory 0x50).toOption.get rfl

/-- The machine that waits for the key, of which the host has said that the time is up. -/
def expiredKeyMachine : Machine :=
  { windowMachine with
    blocks := { decoded := 1 }
    pc := 0x46
    request := some (.charInput 7)
    replies := [.number (-1)]
    completion := some (.input (.char 0x10 7 (some 0x13))) }

/-- The machine at the beginning of the timeout routine. -/
def enteredMachine : Machine :=
  { windowMachine with
    blocks := { decoded := 1 }
    stack := CallStack.empty.pushFrame (windowMachine.calleeFrame 0x4C [] fromInterrupt none)
    pc := 0x4D
    parked := some { input := .char 0x10 7 (some 0x13), request := .charInput 7, pc := 0x46 } }

/-- The machine in the middle of the timeout routine, with the request for the window. -/
def selectedMachine : Machine :=
  { enteredMachine with
    blocks := { decoded := 2 }
    pc := 0x50
    request := some (.setWindow 1) }

/-- The moment of the return. -/
def returningMoment : Moment :=
  ⟨{ selectedMachine with blocks := { decoded := 3 }, request := none },
    .executing [returningTrue] 1⟩

theorem reachable_expiredKeyMachine :
    Reachable windowImage { iterationCap := 2, random := .lowest } expiredKeyMachine := by
  have hfetch : step ⟨windowMachine, .fetching 2⟩
      = ⟨{ windowMachine with blocks := { decoded := 1 } }, .executing [readingKey] 1⟩ :=
    step_fetching_of_dynamic ⟨0x40, [readingKey]⟩ Std.HashMap.getElem?_empty (by decide) rfl
  have hread : step ⟨{ windowMachine with blocks := { decoded := 1 } }, .executing [readingKey] 1⟩
      = ⟨{ expiredKeyMachine with replies := [] }, .host⟩ := rfl
  have hleads : Leads (begin windowMachine) ⟨{ expiredKeyMachine with replies := [] }, .host⟩ :=
    .head hfetch.symm (.single hread.symm)
  have hwaiting :
      Reachable windowImage { iterationCap := 2, random := .lowest } windowMachine.run.2 :=
    .run (.load rfl)
  rw [run_snd_of_leads hleads] at hwaiting
  exact .attend hwaiting (.answer _ 0 (.number (-1)))

/-- From the interrupt to the return, with a request for the host on the way. -/
theorem continuesAbove_expiredKeyMachine :
    Relation.ReflTransGen (ContinuesAbove 0) (begin expiredKeyMachine) returningMoment := by
  have hbegin : begin expiredKeyMachine = ⟨enteredMachine, .fetching 2⟩ := rfl
  have hfetch : step ⟨enteredMachine, .fetching 2⟩
      = ⟨{ enteredMachine with blocks := { decoded := 2 } }, .executing [selecting] 1⟩ :=
    step_fetching_of_dynamic ⟨0x4D, [selecting]⟩ Std.HashMap.getElem?_empty (by decide) rfl
  have hselect : step ⟨{ enteredMachine with blocks := { decoded := 2 } }, .executing [selecting] 1⟩
      = ⟨selectedMachine, .host⟩ := rfl
  have hgoOn : begin selectedMachine
      = ⟨{ selectedMachine with request := none }, .fetching 2⟩ := rfl
  have hfetchReturn : step ⟨{ selectedMachine with request := none }, .fetching 2⟩
      = returningMoment :=
    step_fetching_of_dynamic ⟨0x50, [returningTrue]⟩ Std.HashMap.getElem?_empty (by decide) rfl
  have hrun : Continues ⟨selectedMachine, .host⟩ (begin selectedMachine) := by
    refine .run _ ?_
    rintro s ⟨-, -, completion, hcompletion, -⟩
    cases hcompletion
  rw [hbegin]
  refine .head (b := ⟨{ enteredMachine with blocks := { decoded := 2 } }, .executing [selecting] 1⟩)
    ⟨by decide, hfetch ▸ .step _ id⟩ ?_
  refine .head (b := ⟨selectedMachine, .host⟩)
    ⟨by decide, hselect ▸ .step _ fun h => nomatch h.1⟩ ?_
  refine .head (b := ⟨{ selectedMachine with request := none }, .fetching 2⟩)
    ⟨by decide, hgoOn ▸ hrun⟩ ?_
  exact .single ⟨by decide, hfetchReturn ▸ .step _ id⟩

/-- The key ends with a zero in its variable, as if the host had replied that, and execution goes on
after its request. -/
theorem timeout_routine_returns_windowImage :
    Reachable windowImage { iterationCap := 2, random := .lowest } expiredKeyMachine ∧
      Relation.ReflTransGen (ContinuesAbove 0) (begin expiredKeyMachine) returningMoment ∧
      ∃ before ν, returningMoment.returning = (.ok (some 1), before) ∧
        ContinuesAbove 0 returningMoment ν ∧ ν.depth = 0 ∧
        ν.machine = (begin (((expiredKeyMachine.askingAgain (.char 0x10 7 (some 0x13))
          before).answer 0 (.number 0)).answer 1 (.text ""))).machine ∧
        (∃ blocks, ν.phase = .fetching blocks) ∧ ν.machine.pc = 0x46 ∧
        ν.machine.stack = expiredKeyMachine.stack.receive (some 0x10) 0 := by
  have hreturning : returningMoment.returning
      = (.ok (some 1), { returningMoment.machine with pc := 0x51 }) := rfl
  have hreturn : ContinuesAbove 0 returningMoment returningMoment.step :=
    ⟨by decide, .step _ fun h => nomatch h.1⟩
  obtain ⟨-, hended⟩ := timeout_routine_returns reachable_expiredKeyMachine rfl
    ⟨.charInput 7, rfl, 0x10, some 0x13, rfl⟩ rfl rfl (by decide) rfl rfl (by decide)
    continuesAbove_expiredKeyMachine hreturning hreturn rfl
  obtain ⟨hmachine, hphase, -, hpc, hstack⟩ := hended (by decide)
  exact ⟨reachable_expiredKeyMachine, continuesAbove_expiredKeyMachine, _, _, hreturning, hreturn,
    rfl, hmachine, hphase, hpc, hstack⟩

end Moment
end ZMachine
