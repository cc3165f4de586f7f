/-
# What instructions do to the stack

An instruction is a `Passage` from the machine before it to the one after it: it edits the stack
and then, perhaps, a routine returns, the running one or one further out.  The only exception are
restores, which put the stack of a snapshot in place first.

Main results:

* `passage_execute` : an instruction that does not undo is a passage;
* `passage_resume` : so is the work that a request has left over, if it does not restore;
* `restores_execute` and `restores_resume` : what they do otherwise.
-/
import ZMachine.Proofs.Machine.StackEffect

namespace ZMachine
namespace Machine

variable {α β : Type}

/-! ## Passages -/

/-- The stack has been edited and then, perhaps, a routine has returned.  The returning frame is the
one that unwinding to some depth leaves on top.  Its caller goes on with a result; after the routine
of a timed input it is the waiting input that may store one. -/
inductive Passage (m m' : Machine) : Prop
  | stays (h : Stays m m')
  | returns (m₁ : Machine) (depth : Nat) (frame : Frame) (s : CallStack) (result : Option UInt8)
      (value : UInt16) (hstays : Stays m m₁)
      (hpop : (unwind depth m₁.stack).popFrame? = some (frame, s))
      (hstack : m'.stack = s.receive result value) (hundo : m'.undo = m₁.undo)
      (hcaller : frame.returnPc ≠ fromInterrupt → m'.pc = frame.returnPc ∧ result = frame.result)

/-- Edits before a passage. -/
theorem Stays.passage {m₁ m₂ m₃ : Machine} (h : Stays m₁ m₂) (h' : Passage m₂ m₃) :
    Passage m₁ m₃ := by
  cases h' with
  | stays h' => exact .stays (h.trans h')
  | returns m' depth frame s result value hstays hpop hstack hundo hcaller =>
      exact .returns m' depth frame s result value (h.trans hstays) hpop hstack hundo hcaller

/-- Quiet work after a passage. -/
theorem Passage.quiet {m₁ m₂ m₃ : Machine} (h : Passage m₁ m₂) (h' : Quiet m₂ m₃) :
    Passage m₁ m₃ := by
  cases h with
  | stays h => exact .stays (h.trans h'.stays)
  | returns m' depth frame s result value hstays hpop hstack hundo hcaller =>
      refine .returns m' depth frame s result value hstays hpop (h'.stack.trans hstack)
        (h'.undo.trans hundo) ?_
      rw [h'.pc]
      exact hcaller

theorem passage_of_stays {x : Exec α} (h : Relates Stays x) : Relates Passage x :=
  h.mono fun _ _ hm => .stays hm

theorem passage_of_quiet {x : Exec α} (h : Relates Quiet x) : Relates Passage x :=
  passage_of_stays (stays_of_quiet h)

theorem passage_bind {x : Exec α} {f : α → Exec β} (hx : Relates Stays x)
    (hf : ∀ a, Relates Passage (f a)) : Relates Passage (x >>= f) :=
  relates_bind (fun _ _ h => .stays h) (fun _ _ _ h h' => h.passage h') hx hf

theorem passage_bind_quiet {x : Exec α} {f : α → Exec β} (hx : Relates Passage x)
    (hf : ∀ a, Relates Quiet (f a)) : Relates Passage (x >>= f) :=
  relates_bind (fun _ _ h => h) (fun _ _ _ h h' => h.quiet h') hx hf

/-! ## Returns -/

/-- Unwinding to the depth that a stack has leaves it alone. -/
theorem unwind_depth (s : CallStack) : unwind s.depth s = s := by
  unfold unwind
  rw [Nat.sub_self]
  rfl

/-- Unwinding drops as many frames as the stack is deeper. -/
theorem dropFrames_frames (n : Nat) (s : CallStack) :
    (unwind.dropFrames n s).frames = s.frames.drop n := by
  induction n generalizing s with
  | zero => rfl
  | succ n ih =>
      unfold unwind.dropFrames CallStack.popFrame?
      cases hs : s.frames with
      | nil => exact hs
      | cons frame older => exact ih _

/-- A return from the frame that unwinding to a depth leaves on top. -/
theorem passage_returnValue {depth : Nat} {frame : Frame} {s : CallStack} {m : Machine}
    (hpop : (unwind depth m.stack).popFrame? = some (frame, s)) (value : UInt16) :
    Passage m ((returnValue value).run { m with stack := unwind depth m.stack }).2 := by
  unfold returnValue
  rw [run_bind, run_get]
  dsimp only
  rw [hpop]
  dsimp only
  rw [run_set_bind]
  split
  · rename_i hreturn
    obtain ⟨result, stored, hstack, hundo⟩ := finishInterrupt_run value { m with stack := s }
    exact .returns m depth frame s result stored (Stays.refl m) hpop hstack hundo
      fun h => absurd hreturn h
  · rename_i hreturn
    obtain ⟨hstack, hundo, hpc⟩ :=
      storeResult_run frame.result value { m with stack := s, pc := frame.returnPc }
    have hrun : ((do
        setPc frame.returnPc
        storeResult frame.result value
        return Flow.jump).run { m with stack := s }).2
          = ((storeResult frame.result value).run
              { m with stack := s, pc := frame.returnPc }).2 :=
      run_bind_pure_snd _ _ _
    rw [hrun]
    exact .returns m depth frame s frame.result value (Stays.refl m) hpop hstack hundo
      fun _ => ⟨hpc, rfl⟩

/-- A plain return. -/
theorem passage_return (value : UInt16) : Relates Passage (returnValue value) := by
  intro m
  cases hpop : m.stack.popFrame? with
  | none =>
      -- outside every routine a return is a fault and changes nothing
      have hrun : ((returnValue value).run m).2 = m := by
        unfold returnValue
        rw [run_bind, run_get]
        dsimp only
        rw [hpop]
        rfl
      rw [hrun]
      exact .stays (Stays.refl m)
  | some p =>
      have hunwind := unwind_depth m.stack
      have hreturn : Passage m
          ((returnValue value).run { m with stack := unwind m.stack.depth m.stack }).2 := by
        have htop : (unwind m.stack.depth m.stack).popFrame? = some (p.1, p.2) := by
          rw [hunwind, hpop]
        exact passage_returnValue htop value
      rw [hunwind] at hreturn
      exact hreturn

/-- A throw unwinds to the depth of its cookie and returns from there. -/
theorem passage_throwTo (value cookie : UInt16) : Relates Passage (throwTo value cookie) := by
  apply relates_get
  intro m
  dsimp only
  split
  · exact .stays (Stays.refl m)
  · rename_i hcookie
    rw [not_or, Nat.not_lt] at hcookie
    have hpos : 0 < cookie.toNat :=
      Nat.pos_of_ne_zero fun h => hcookie.1 (UInt16.toNat_inj.mp h)
    have hlen : (unwind cookie.toNat m.stack).frames.length = cookie.toNat := by
      rw [unwind, dropFrames_frames, List.length_drop]
      have := hcookie.2
      unfold CallStack.depth at this ⊢
      omega
    cases hpop : (unwind cookie.toNat m.stack).popFrame? with
    | none =>
        -- the cookie is not zero, so a frame is left to return from
        exfalso
        unfold CallStack.popFrame? at hpop
        split at hpop
        · rename_i hnil
          rw [hnil, List.length_nil] at hlen
          omega
        · cases hpop
    | some p => exact passage_returnValue hpop value

theorem passage_takeBranch (b : Branch) (condition : Bool) :
    Relates Passage (takeBranch b condition) := by
  unfold takeBranch
  split
  · exact passage_of_quiet (quiet_pure _)
  split
  · exact passage_return 0
  · exact passage_return 1
  · exact passage_of_stays (stays_bind (stays_setPc _) fun _ => stays_pure _)

theorem passage_branch (ins : Instruction) (condition : Bool) :
    Relates Passage (branch ins condition) := by
  unfold branch
  split
  · exact passage_takeBranch _ condition
  · exact passage_of_quiet (quiet_pure _)

theorem passage_storeAndBranch (ins : Instruction) (value : UInt16) (condition : Bool) :
    Relates Passage (storeAndBranch ins value condition) :=
  passage_bind (stays_storeResult ins.store value) fun _ => passage_branch ins condition

theorem passage_printAndReturn (text : String) : Relates Passage (printAndReturn text) := by
  apply passage_bind_quiet (passage_return 1)
  intro flow
  apply quiet_bind (quiet_print _)
  intro printed
  split <;> exact quiet_pure _

/-! ### Saving and restoring -/

theorem passage_deliver (delivery : Delivery) (value : UInt16) :
    Relates Passage (deliver delivery value) := by
  cases delivery with
  | store code => exact passage_of_stays (stays_bind (stays_writeVariable code value)
      fun _ => stays_pure _)
  | branch b => exact passage_takeBranch b _

theorem passage_save (ins : Instruction) (values : List UInt16) :
    Relates Passage (save ins values) := by
  apply passage_bind (stays_of_quiet (quiet_deliveryOf ins))
  intro delivery
  split
  · exact passage_of_quiet (relates_get_of_forall fun m => quiet_suspend _ _)
  · exact passage_deliver delivery 0

theorem passage_restore (ins : Instruction) (values : List UInt16) :
    Relates Passage (restore ins values) := by
  apply passage_bind (stays_of_quiet (quiet_deliveryOf ins))
  intro delivery
  split
  · exact passage_of_quiet (quiet_suspend _ _)
  · exact passage_deliver delivery 0

/-- The stack of a snapshot has been put in place, and then there was a passage. -/
def Restores (s : Snapshot) (m m' : Machine) : Prop :=
  ∃ m₁ : Machine, m₁.stack = s.stack ∧ (∀ e ∈ m₁.undo.entries, e ∈ m.undo.entries) ∧
    Passage m₁ m'

/-- Quiet work after a restore. -/
theorem Restores.quiet {s : Snapshot} {m₁ m₂ m₃ : Machine} (h : Restores s m₁ m₂)
    (h' : Quiet m₂ m₃) : Restores s m₁ m₃ := by
  obtain ⟨m, hstack, hundo, hpassage⟩ := h
  exact ⟨m, hstack, hundo, hpassage.quiet h'⟩

theorem restores_restoreSnapshot (s : Snapshot) : Relates (Restores s) (restoreSnapshot s) := by
  intro m
  refine ⟨m.withSnapshot s, rfl, fun e he => he, ?_⟩
  unfold restoreSnapshot
  rw [run_modify_bind, run_bind, run_get]
  dsimp only
  split
  · exact passage_of_stays (stays_bind (stays_setPc _) fun _ =>
      stays_bind (stays_writeVariable _ _) fun _ => stays_pure _) _
  · refine passage_bind (stays_setPc _) (fun _ => ?_) _
    apply passage_bind_quiet (passage_takeBranch _ _)
    intro flow
    split <;> exact quiet_pure _

/-- Going back with an empty undo history. -/
theorem passage_restoreUndo {m : Machine} (h : m.undo.entries = []) (store : Option UInt8) :
    Passage m ((restoreUndo store).run m).2 := by
  unfold restoreUndo History.pop?
  rw [run_bind, run_get]
  dsimp only
  rw [h]
  exact .stays (stays_bind (stays_storeResult store 0) (fun _ => stays_pure Flow.next) m)

/-- Going back in the undo history. -/
theorem restores_restoreUndo {m : Machine} (h : m.undo.entries ≠ []) (store : Option UInt8) :
    ∃ s ∈ m.undo.entries, Restores s m ((restoreUndo store).run m).2 := by
  unfold restoreUndo History.pop?
  rw [run_bind, run_get]
  dsimp only
  split
  · rename_i s undo hpop
    split at hpop
    · cases hpop
    · rename_i older hentries
      cases hpop
      rw [hentries, run_set_bind]
      refine ⟨s, List.mem_cons_self, ?_⟩
      obtain ⟨m₁, hstack, hundo, hpassage⟩ :=
        restores_restoreSnapshot s { m with undo := { m.undo with entries := older } }
      exact ⟨m₁, hstack, fun e he => by simp [hentries, hundo e he], hpassage⟩
  · rename_i hpop
    split at hpop
    · rename_i hentries
      exact absurd hentries h
    · cases hpop

/-! ## Instructions -/

/-- **An instruction with evaluated operands is a passage**, unless it goes back in the undo
history. -/
theorem passage_executeWith (ins : Instruction) (hop : ins.op ≠ .restoreUndo) (v : List UInt16) :
    Relates Passage (executeWith ins v) := by
  have hsimple : ∀ {x : Exec Unit}, Relates Stays x →
      Relates Passage (do x; return Flow.next) :=
    fun h => passage_of_stays (stays_bind h fun _ => stays_pure _)
  unfold executeWith
  dsimp only
  -- operations that do the same with different values go together
  cases hins : ins.op
  case restoreUndo => exact absurd hins hop
  case je | jl | jg | jz | test => exact passage_branch ins _
  case checkArgCount | jin | testAttr | verify =>
    exact relates_get_of_forall fun m => passage_branch ins _
  case incChk | decChk =>
    exact passage_bind (stays_adjust _ _) fun value => passage_branch ins _
  case jump => exact passage_of_stays (stays_jump _)
  case add | sub | mul | or | and | not | logShift | artShift | checkUnicode | setFont | gestalt =>
    exact passage_of_stays (stays_store ins _)
  case div | mod =>
    dsimp only
    split
    · exact passage_of_quiet (quiet_fault _)
    · exact passage_of_stays (stays_store ins _)
  case store => exact hsimple (stays_writeIndirect _ _)
  case load => exact passage_of_stays (stays_bind (stays_readIndirect _) fun _ => stays_store ins _)
  case inc | dec =>
    exact passage_of_stays (stays_bind (stays_adjust _ _) fun _ => stays_pure _)
  case push => exact hsimple (stays_pushStack _)
  case pull =>
    exact passage_of_stays (stays_bind (stays_popStack _) fun value =>
      stays_bind (stays_writeIndirect _ value) fun _ => stays_pure _)
  case pop => exact passage_of_stays (stays_bind (stays_popStack _) fun _ => stays_pure _)
  case loadw | loadb | catchFrame | getParent | getProp | getPropAddr | getPropLen =>
    exact passage_of_stays (relates_get_of_forall fun m => stays_store ins _)
  case getNextProp =>
    exact passage_of_stays (relates_get_of_forall fun m =>
      stays_bind (stays_of_quiet (quiet_orFault _)) fun next => stays_store ins next)
  case storew | storeb | copyTable | setAttr | clearAttr | tokenise | encodeText =>
    exact passage_of_quiet (quiet_change _)
  case insertObj | removeObj => exact passage_of_quiet (quiet_change? _)
  case putProp => exact passage_of_quiet (quiet_putProp _ _ _)
  case scanTable | getSibling | getChild =>
    exact relates_get_of_forall fun m => passage_storeAndBranch ins _ _
  case call1s | call1n | call2s | call2n | callVs | callVs2 | callVn | callVn2 =>
    exact passage_of_stays (stays_callPacked ins v)
  case ret | rtrue | rfalse => exact passage_return _
  case retPopped => exact passage_bind (stays_popStack _) fun value => passage_return value
  case throwFrame => exact passage_throwTo _ _
  case print | newLine | printNum => exact passage_of_quiet (quiet_print _)
  case printRet => exact passage_printAndReturn _
  case printAddr => exact passage_of_quiet (quiet_printAt _)
  case printPaddr => exact passage_of_quiet (relates_get_of_forall fun m => quiet_printAt _)
  case printObj => exact passage_of_quiet (quiet_printObject _)
  case printChar => exact passage_of_quiet (quiet_printZscii _)
  case printUnicode => exact passage_of_quiet (quiet_printUnicode _)
  case printTable => exact passage_of_quiet (relates_get_of_forall fun m => quiet_raise _)
  case outputStream => exact hsimple (stays_of_quiet (quiet_selectStream _ _))
  case read => exact passage_of_quiet (relates_get_of_forall fun m => quiet_startInput _)
  case readChar =>
    dsimp only
    split
    · exact passage_of_quiet (relates_get_of_forall fun m => quiet_startInput _)
    · exact passage_of_quiet (quiet_pure _)
  case showStatus | nop => exact passage_of_quiet (quiet_pure _)
  case splitWindow | setWindow | eraseWindow | eraseLine | setCursor | setTextStyle | setColour
      | bufferMode | inputStream | soundEffect | restart =>
    exact passage_of_quiet (quiet_raise _)
  case getCursor => exact passage_of_quiet (quiet_suspend _ _)
  case save => exact passage_save ins v
  case restore => exact passage_restore ins v
  case saveUndo =>
    exact passage_of_stays (stays_bind (stays_saveUndo _) fun result => stays_store ins result)
  case quit =>
    exact passage_of_quiet (quiet_bind (quiet_modify fun m => ⟨rfl, rfl, rfl⟩) fun _ =>
      quiet_raise _)
  case piracy =>
    dsimp only
    split
    · exact passage_of_quiet (quiet_suspend _ _)
    · exact passage_of_quiet (quiet_pure _)
  case random =>
    exact passage_of_stays (stays_bind (stays_of_quiet (quiet_drawRandom _)) fun value =>
      stays_store ins value)

/-- An instruction goes back in the undo history. -/
def Undoes (ins : Instruction) (m : Machine) : Prop :=
  ins.op = .restoreUndo ∧ ∃ values m₁,
    (operandValues ins.operands).run m = (.ok values, m₁) ∧ m₁.undo.entries ≠ []

/-- The outcome of an instruction whose operands have values. -/
theorem execute_run {ins : Instruction} {m m₁ : Machine} {values : List UInt16}
    (h : (operandValues ins.operands).run m = (.ok values, m₁)) :
    (execute ins).run m = (executeWith ins values).run m₁ :=
  run_bind_ok h

/-- **An instruction that does not undo is a passage.** -/
theorem passage_execute {ins : Instruction} {m : Machine} (h : ¬ Undoes ins m) :
    Passage m ((execute ins).run m).2 := by
  by_cases hop : ins.op = .restoreUndo
  · have hvalues := stays_operandValues ins.operands m
    cases hrun : (operandValues ins.operands).run m with
    | mk result m₁ =>
        rw [hrun] at hvalues
        cases result with
        | error e =>
            rw [execute, run_bind, hrun]
            exact .stays hvalues
        | ok values =>
            have hentries : m₁.undo.entries = [] := by
              by_contra hne
              exact h ⟨hop, values, m₁, hrun, hne⟩
            rw [execute_run hrun, executeWith, hop]
            exact hvalues.passage (passage_restoreUndo hentries ins.store)
  · exact passage_bind (stays_operandValues ins.operands)
      (fun values => passage_executeWith ins hop values) m

/-- An instruction that undoes goes back to a snapshot of the history. -/
theorem restores_execute {ins : Instruction} {m : Machine} (h : Undoes ins m) :
    ∃ m₁ s, Stays m m₁ ∧ s ∈ m₁.undo.entries ∧ Restores s m₁ ((execute ins).run m).2 := by
  obtain ⟨hop, values, m₁, hrun, hne⟩ := h
  obtain ⟨s, hs, hrestores⟩ := restores_restoreUndo hne ins.store
  refine ⟨m₁, s, ?_, hs, ?_⟩
  · have hvalues := stays_operandValues ins.operands m
    rw [hrun] at hvalues
    exact hvalues
  · rw [execute_run hrun, executeWith, hop]
    exact hrestores

/-! ## Work left over by a request -/

/-- The work left over by a request is to restore the save file that the host has replied. -/
def Restoring (completion : Completion) (m : Machine) (s : Snapshot) : Prop :=
  ∃ delivery data, completion = .restore delivery ∧ m.reply? 0 = some (.bytes data) ∧
    m.readSave data = .ok s

/-- **The work left over by a request is a passage**, unless it restores a save file. -/
theorem passage_resume {completion : Completion} {m : Machine}
    (h : ∀ s, ¬ Restoring completion m s) : Passage m ((resume completion).run m).2 := by
  cases completion with
  | printLeftovers text =>
      exact passage_of_quiet (quiet_bind (quiet_emit text) fun _ => quiet_pure Flow.next) m
  | input input => exact passage_of_stays (stays_resumeInput input) m
  | save delivery => exact relates_get_of_forall (fun _ => passage_deliver delivery _) m
  | restore delivery =>
      unfold resume resumeRestore
      rw [run_bind, run_get]
      dsimp only
      split
      · rename_i data hreply
        split
        · rename_i s hread
          exact absurd ⟨delivery, data, rfl, hreply, hread⟩ (h s)
        · exact passage_deliver delivery 0 m
      · exact passage_deliver delivery 0 m
  | piracy b => exact relates_get_of_forall (fun _ => passage_takeBranch b _) m
  | getCursor table => exact .stays (Stays.of_eq rfl rfl)

/-- Work that restores a save file goes back to its snapshot. -/
theorem restores_resume {completion : Completion} {m : Machine} {s : Snapshot}
    (h : Restoring completion m s) : Restores s m ((resume completion).run m).2 := by
  obtain ⟨delivery, data, rfl, hreply, hread⟩ := h
  unfold resume resumeRestore
  rw [run_bind, run_get]
  dsimp only
  rw [hreply]
  dsimp only
  rw [hread]
  exact restores_restoreSnapshot s m

end Machine
end ZMachine
