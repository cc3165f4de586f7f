/-
# Calls leave their callers alone

A routine can do what it likes to its own frame, to frames above it and to the entries above its
floor.  The stack of its caller lies below all that and comes to light unchanged when the routine
returns, however it returns: by itself, through a branch, or by a throw from deeper down.

* `CallStack.Above` : the stack of a caller lies below a callee, the invariant of the callee's run;
* `Passage.above` : whatever happens keeps it, returns from the callee, or throws past the caller;
* `call_isolated` : a caller goes on after its call with its own stack and the returned value.
-/
import ZMachine.Proofs.Instruction.Decode
import ZMachine.Proofs.Machine.Moment

namespace ZMachine

/-! ## The stack below a routine -/

namespace CallStack

/-- The stack `base` lies below the frame of a routine that returns to an address with a result, and
below all that the routine has put on top. -/
structure Above (base : CallStack) (returnPc : Nat) (result : Option UInt8) (s : CallStack) :
    Prop where
  frames : ∃ newer callee, s.frames = newer ++ callee :: base.frames ∧
    (∀ f ∈ newer, base.eval.size ≤ f.evalFloor) ∧ callee.evalFloor = base.eval.size ∧
    callee.returnPc = returnPc ∧ callee.result = result
  eval : base.eval.toList <+: s.eval.toList
  baseLocals : s.baseLocals = base.baseLocals

section
variable {base s s' : CallStack} {returnPc : Nat} {result : Option UInt8}

theorem Above.size_le (h : Above base returnPc result s) : base.eval.size ≤ s.eval.size := by
  simpa using h.eval.length_le

/-- The routine runs deeper than its caller. -/
theorem Above.depth_lt (h : Above base returnPc result s) : base.depth < s.depth := by
  obtain ⟨newer, callee, hframes, -⟩ := h.frames
  unfold depth
  rw [hframes, List.length_append, List.length_cons]
  omega

/-- Running code cannot reach below the routine's floor. -/
theorem Above.size_le_floor (h : Above base returnPc result s) : base.eval.size ≤ s.floor := by
  obtain ⟨newer, callee, hframes, hnewer, hcallee, -⟩ := h.frames
  unfold floor
  rw [hframes]
  cases newer with
  | nil => exact Nat.le_of_eq hcallee.symm
  | cons f newer => exact hnewer f List.mem_cons_self

/-- Taking away the last entry above the floor leaves the caller's entries. -/
theorem Above.prefix_pop (h : Above base returnPc result s) (hlt : s.floor < s.eval.size) :
    base.eval.toList <+: s.eval.pop.toList := by
  have hfloor := h.size_le_floor
  rw [Array.toList_pop, List.dropLast_eq_take, List.prefix_take_iff]
  refine ⟨h.eval, ?_⟩
  simp only [Array.length_toList]
  omega

/-- Writing a local of the running code changes the locals of the newest frame only. -/
theorem Above.setLocal (h : Above base returnPc result s) (index : Nat) (value : UInt16) :
    Above base returnPc result (s.setLocal index value) := by
  obtain ⟨newer, callee, hframes, hnewer, hcallee⟩ := h.frames
  unfold CallStack.setLocal
  rw [hframes]
  cases newer with
  | nil => exact ⟨⟨[], _, rfl, hnewer, hcallee⟩, h.eval, h.baseLocals⟩
  | cons f newer =>
      refine ⟨⟨_ :: newer, callee, rfl, ?_, hcallee⟩, h.eval, h.baseLocals⟩
      rw [List.forall_mem_cons] at hnewer ⊢
      exact hnewer

/-- **No edit reaches down to the caller.** -/
theorem Above.edit (h : Above base returnPc result s) (e : Edit s s') :
    Above base returnPc result s' := by
  cases e with
  | push value =>
      refine ⟨h.frames, ?_, h.baseLocals⟩
      rw [CallStack.push, Array.toList_push]
      exact h.eval.trans (List.prefix_append _ _)
  | pop hpop =>
      obtain ⟨hlt, rfl⟩ := pop?_eq_some hpop
      exact ⟨h.frames, h.prefix_pop hlt, h.baseLocals⟩
  | setTop htop =>
      obtain ⟨hlt, rfl⟩ := setTop?_eq_some htop
      refine ⟨h.frames, ?_, h.baseLocals⟩
      rw [Array.toList_push]
      exact (h.prefix_pop hlt).trans (List.prefix_append _ _)
  | setLocal index value => exact h.setLocal index value
  | enter frame hfloor hcount =>
      obtain ⟨newer, callee, hframes, hnewer, hcallee⟩ := h.frames
      refine ⟨⟨frame :: newer, callee, ?_, ?_, hcallee⟩, h.eval, h.baseLocals⟩
      · rw [pushFrame, hframes, List.cons_append]
      · refine List.forall_mem_cons.mpr ⟨?_, hnewer⟩
        rw [hfloor]
        exact h.size_le

/-- Neither do any number of edits. -/
theorem Above.edits (h : Above base returnPc result s) (e : Edits s s') :
    Above base returnPc result s' := by
  induction e with
  | refl => exact h
  | tail _ e ih => exact ih.edit e

/-- A return leaves either another frame on top of the caller's stack or just that stack. -/
theorem Above.popFrame (h : Above base returnPc result s) {frame : Frame}
    (hpop : s.popFrame? = some (frame, s')) :
    Above base returnPc result s' ∨
      s' = base ∧ frame.returnPc = returnPc ∧ frame.result = result := by
  obtain ⟨newer, callee, hframes, hnewer, hfloor, hreturn⟩ := h.frames
  obtain ⟨htop, hs'⟩ := popFrame?_eq_some hpop
  have heval : s'.eval.toList = s.eval.toList.take frame.evalFloor := by
    rw [hs']
    simp
  have hbase : s'.baseLocals = base.baseLocals := by
    rw [hs']
    exact h.baseLocals
  rw [hframes] at htop
  cases newer with
  | nil =>
      -- the routine itself returns, down to its floor, which is where the caller's entries end
      right
      obtain ⟨rfl, hs'frames⟩ := List.cons.inj htop
      refine ⟨?_, hreturn⟩
      have hprefix : s'.eval = base.eval := by
        apply Array.toList_inj.mp
        rw [heval, hfloor]
        simpa using (List.prefix_iff_eq_take.mp h.eval).symm
      calc s' = ⟨s'.frames, s'.eval, s'.baseLocals⟩ := rfl
        _ = base := by rw [← hs'frames, hprefix, hbase]
  | cons f newer =>
      left
      obtain ⟨rfl, hs'frames⟩ := List.cons.inj htop
      rw [List.forall_mem_cons] at hnewer
      refine ⟨⟨newer, callee, hs'frames.symm, hnewer.2, hfloor, hreturn⟩, ?_, hbase⟩
      rw [heval, List.prefix_take_iff]
      exact ⟨h.eval, by simpa using hnewer.1⟩

/-- Unwinding and then returning leads to another frame on top of the caller's stack, to just that
stack, or to a routine that the caller was called from. -/
theorem Above.dropFrames (h : Above base returnPc result s) {n : Nat} {frame : Frame}
    (hpop : (Machine.unwind.dropFrames n s).popFrame? = some (frame, s')) :
    Above base returnPc result s' ∨
      (s' = base ∧ frame.returnPc = returnPc ∧ frame.result = result) ∨
      s'.depth < base.depth := by
  induction n generalizing s with
  | zero =>
      rcases h.popFrame hpop with habove | hreturned
      · exact Or.inl habove
      · exact Or.inr (Or.inl hreturned)
  | succ n ih =>
      unfold Machine.unwind.dropFrames at hpop
      split at hpop
      · rename_i top s₁ htop
        rcases h.popFrame htop with habove | ⟨rfl, -⟩
        · exact ih habove hpop
        · -- the caller's stack is laid bare, and one of its own frames returns
          obtain ⟨hframes, -⟩ := popFrame?_eq_some hpop
          have hlength := congrArg List.length hframes
          rw [Machine.dropFrames_frames, List.length_drop, List.length_cons] at hlength
          right; right
          unfold depth
          omega
      · rename_i hnone
        rw [hnone] at hpop
        cases hpop

end

end CallStack

namespace Machine

open CallStack (Above)

variable {base : CallStack} {returnPc : Nat} {result : Option UInt8}

/-- A routine has returned to its caller, whose stack has received a value. -/
def ReturnedTo (base : CallStack) (returnPc : Nat) (result : Option UInt8) (m : Machine) : Prop :=
  m.pc = returnPc ∧ ∃ value, m.stack = base.receive result value

theorem ReturnedTo.depth_eq {m : Machine} (h : ReturnedTo base returnPc result m) :
    m.stack.depth = base.depth := by
  obtain ⟨-, value, hstack⟩ := h
  rw [hstack, CallStack.depth_receive]

/-- **A passage above a caller** stays above it, returns to it, or leaves it behind. -/
theorem Passage.above {m m' : Machine} (h : Passage m m') (hreturn : returnPc ≠ fromInterrupt)
    (habove : Above base returnPc result m.stack) :
    Above base returnPc result m'.stack ∨ ReturnedTo base returnPc result m' ∨
      m'.stack.depth < base.depth := by
  cases h with
  | stays h => exact Or.inl (habove.edits h.stack)
  | returns m₁ depth frame s stored value hstays hpop hstack hundo hcaller =>
      rcases (habove.edits hstays.stack).dropFrames hpop with hs | ⟨rfl, hpc, hresult⟩ | hlt
      · left
        rw [hstack]
        exact hs.edits (CallStack.edits_receive s stored value)
      · right; left
        obtain ⟨hpc', rfl⟩ := hcaller (by rw [hpc]; exact hreturn)
        rw [hresult] at hstack
        exact ⟨hpc'.trans hpc, value, hstack⟩
      · right; right
        rw [hstack, CallStack.depth_receive]
        exact hlt

/-! ## Calls -/

/-- Frames, base locals and program counter are as before; operands come from the entries. -/
structure Evaluates (m m' : Machine) : Prop where
  frames : m'.stack.frames = m.stack.frames
  baseLocals : m'.stack.baseLocals = m.stack.baseLocals
  pc : m'.pc = m.pc

theorem Evaluates.refl (m : Machine) : Evaluates m m :=
  ⟨rfl, rfl, rfl⟩

theorem Evaluates.trans {m₁ m₂ m₃ : Machine} (h : Evaluates m₁ m₂) (h' : Evaluates m₂ m₃) :
    Evaluates m₁ m₃ :=
  ⟨h'.frames.trans h.frames, h'.baseLocals.trans h.baseLocals, h'.pc.trans h.pc⟩

/-- The stack differs in its entries only. -/
theorem Evaluates.stack_eq {m m' : Machine} (h : Evaluates m m') :
    m'.stack = { m.stack with eval := m'.stack.eval } := by
  calc m'.stack = ⟨m'.stack.frames, m'.stack.eval, m'.stack.baseLocals⟩ := rfl
    _ = { m.stack with eval := m'.stack.eval } := by rw [h.frames, h.baseLocals]

theorem evaluates_operandValue (operand : Operand) :
    Relates Evaluates (operandValue operand) := by
  cases operand with
  | large value => exact fun m => Evaluates.refl m
  | small value => exact fun m => Evaluates.refl m
  | var code =>
      apply relates_get
      intro m
      split
      · rw [popStack, run_bind, run_get]
        dsimp only
        split
        · rename_i stack hpop
          obtain ⟨-, rfl⟩ := CallStack.pop?_eq_some hpop
          exact ⟨rfl, rfl, rfl⟩
        · exact Evaluates.refl m
      · exact Evaluates.refl m

theorem evaluates_operandValues (operands : List Operand) :
    Relates Evaluates (operandValues operands) := by
  have htrans : ∀ m₁ m₂ m₃, Evaluates m₁ m₂ → Evaluates m₂ m₃ → Evaluates m₁ m₃ :=
    fun _ _ _ h h' => h.trans h'
  induction operands with
  | nil => exact fun m => Evaluates.refl m
  | cons operand rest ih =>
      apply relates_bind_self htrans (evaluates_operandValue operand)
      intro value
      apply relates_bind_self htrans ih
      intro values m
      exact Evaluates.refl m

/-- Whether an operation calls a routine. -/
def calls : Op → Bool
  | .call1s | .call1n | .call2s | .call2n | .callVs | .callVs2 | .callVn | .callVn2 => true
  | _ => false

/-- A call has no text. -/
theorem hasText_of_calls {op : Op} (h : calls op = true) : op.hasText = false := by
  unfold calls at h
  split at h
  all_goals first | rfl | cases h

/-- The address of the routine that a call with the given operand values goes to. -/
def callTarget (m : Machine) (values : List UInt16) : Nat :=
  if values.headD 0 = 0 then 0 else m.header.unpackRoutine (values.headD 0)

/-- All calls do the same with the values of their operands. -/
theorem executeWith_of_calls {ins : Instruction} (h : calls ins.op = true) (values : List UInt16) :
    executeWith ins values = callPacked ins values := by
  unfold executeWith
  unfold calls at h
  split at h
  case h_9 => cases h
  all_goals
    rename_i hop
    rw [hop]

/-- A call to a routine inside the story enters it. -/
theorem executeWith_call {ins : Instruction} (hcall : calls ins.op = true) {m : Machine}
    {values : List UInt16} (hpos : callTarget m values ≠ 0)
    (hlt : callTarget m values < m.memory.size) :
    (executeWith ins values).run m = (.ok .jump,
      { m with
        stack := m.stack.pushFrame
          (m.calleeFrame (callTarget m values) values.tail m.pc ins.store)
        pc := m.routineCode (callTarget m values) }) := by
  have hpacked : (callPacked ins values).run m
      = (call (callTarget m values) values.tail m.pc ins.store).run m := rfl
  rw [executeWith_of_calls hcall, hpacked, call, run_bind, run_get]
  dsimp only
  rw [if_neg hpos, if_neg (Nat.not_le.mpr hlt)]
  rfl

/-- The stack of a caller lies below the routine that it enters. -/
theorem above_pushFrame (m : Machine) (target : Nat) (args : List UInt16) (returnPc : Nat)
    (result : Option UInt8) :
    Above m.stack returnPc result
      (m.stack.pushFrame (m.calleeFrame target args returnPc result)) where
  frames := ⟨[], _, rfl, by simp, rfl, rfl, rfl⟩
  eval := List.prefix_refl _
  baseLocals := rfl

end Machine

namespace Moment

open Machine
open CallStack (Above)

variable {base : CallStack} {returnPc : Nat} {result : Option UInt8}

/-- Going on from a moment at which more than `depth` routines are being run. -/
def ContinuesAbove (depth : Nat) (μ ν : Moment) : Prop :=
  depth < μ.depth ∧ Continues μ ν

/-- What goes on above a caller, until it is returned to for the first time, stays above it. -/
theorem above_of_continues {μ ν : Moment} (hreturn : returnPc ≠ fromInterrupt)
    (hpath : Relation.ReflTransGen (ContinuesAbove base.depth) μ ν)
    (h : Above base returnPc result μ.machine.stack) :
    Above base returnPc result ν.machine.stack ∨ ReturnedTo base returnPc result ν.machine ∨
      ν.depth < base.depth := by
  induction hpath with
  | refl => exact Or.inl h
  | tail _ hstep ih =>
      obtain ⟨hdepth, hcontinues⟩ := hstep
      rcases ih with habove | hreturned | hlt
      · exact hcontinues.passage.above hreturn habove
      -- the other two have ended the path already
      · have := hreturned.depth_eq
        unfold Moment.depth at hdepth
        omega
      · omega

/-- **Calls are isolated from their callers.**  A machine executes a call whose operands have values
and whose target lies in the story.  Whatever goes on after that without going back to a snapshot,
when for the first time just as many routines are being run as before the call, the program counter
is at the address after the call, and the stack is what it was when the operands had been evaluated,
but for the returned value in its variable. -/
theorem call_isolated {m m₁ : Machine} {ins : Instruction} {rest : List Instruction}
    {blocks : Nat} {values : List UInt16} {ν : Moment} (hdecoded : ins.Decoded)
    (hcall : calls ins.op = true)
    (hvalues : (operandValues ins.operands).run { m with pc := ins.next } = (.ok values, m₁))
    (hpos : callTarget m₁ values ≠ 0) (hlt : callTarget m₁ values < m₁.memory.size)
    (hpath : Relation.ReflTransGen (ContinuesAbove m.stack.depth)
      (step ⟨m, .executing (ins :: rest) blocks⟩) ν)
    (hdepth : ν.depth = m.stack.depth) :
    ν.machine.pc = ins.next ∧
      ∃ value, ν.machine.stack
        = CallStack.receive { m.stack with eval := m₁.stack.eval } ins.store value := by
  have hevaluates : Evaluates { m with pc := ins.next } m₁ := by
    have h := evaluates_operandValues ins.operands { m with pc := ins.next }
    rw [hvalues] at h
    exact h
  have hbase : m₁.stack = { m.stack with eval := m₁.stack.eval } := hevaluates.stack_eq
  have hbaseDepth : m₁.stack.depth = m.stack.depth := congrArg List.length hevaluates.frames
  have hpc : m₁.pc = ins.next := hevaluates.pc
  have hreturn : ins.next ≠ fromInterrupt :=
    Nat.ne_of_gt (hdecoded.next_pos (hasText_of_calls hcall))
  -- the invariant holds when the routine has just been entered
  have hentered : Above m₁.stack ins.next ins.store
      (step ⟨m, .executing (ins :: rest) blocks⟩).machine.stack := by
    have hexecute := (execute_run hvalues).trans (executeWith_call hcall hpos hlt)
    rw [step, hexecute, ← hpc]
    exact above_pushFrame m₁ _ values.tail m₁.pc ins.store
  rw [← hbaseDepth] at hpath hdepth
  rcases above_of_continues hreturn hpath hentered with habove | hreturned | hbelow
  · exact absurd habove.depth_lt (by unfold Moment.depth at hdepth; omega)
  · rw [← hbase]
    exact hreturned
  · omega

end Moment
end ZMachine
