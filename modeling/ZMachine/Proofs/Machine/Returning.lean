/-
# The return at the end of an instruction

A routine is left by instructions that only return, and by instructions that branch to a return
after work of their own.  What such an instruction does before it returns can be seen by letting its
branch lead to the next instruction instead.

* `Remains` : what an action does that neither leaves a routine nor enters or leaves one that
  returns from an interrupt;
* `returning` : what an instruction does before it returns, and the value that it returns then;
* `Parts` : two actions do the same but for a return at the end of the first one;
* `execute_remains_or_returns` : every instruction, but for throws, restores and the one that prints
  after its return, remains in its routine or returns at its end;
* `resume_remains_or_returns` : so does the work left over by a request.
-/
import ZMachine.Proofs.Machine.Tended

namespace ZMachine
namespace Machine

open CallStack (Edit Edits)

variable {α β : Type}

/-! ## Actions that remain in their routines -/

/-- The stack has been edited, with no routine entered that returns from an interrupt, and the
parked input is as before. -/
structure Remains (m m' : Machine) : Prop where
  stack : Edits m.stack m'.stack
  interrupts : m'.stack.interruptFrames = m.stack.interruptFrames
  parked : m'.parked = m.parked

/-- Other fields of the machine do not matter. -/
theorem Remains.of_eq {m m' : Machine} (hstack : m'.stack = m.stack)
    (hparked : m'.parked = m.parked) : Remains m m' := by
  refine ⟨?_, ?_, hparked⟩ <;> rw [hstack]

theorem Remains.refl (m : Machine) : Remains m m :=
  Remains.of_eq rfl rfl

theorem Remains.trans {m₁ m₂ m₃ : Machine} (h : Remains m₁ m₂) (h' : Remains m₂ m₃) :
    Remains m₁ m₃ :=
  ⟨h.stack.trans h'.stack, h'.interrupts.trans h.interrupts, h'.parked.trans h.parked⟩

/-- One edit that does not enter a routine. -/
theorem Remains.of_edit {m : Machine} {stack : CallStack} (h : Edit m.stack stack)
    (hframes : stack.interruptFrames = m.stack.interruptFrames) : Remains m { m with stack } :=
  ⟨Relation.ReflTransGen.single h, hframes, rfl⟩

theorem remains_pure (a : α) : Relates Remains (pure a : Exec α) :=
  fun m => Remains.refl m

theorem remains_bind {x : Exec α} {f : α → Exec β} (hx : Relates Remains x)
    (hf : ∀ a, Relates Remains (f a)) : Relates Remains (x >>= f) :=
  relates_bind_self (fun _ _ _ h h' => h.trans h') hx hf

/-- An action that does not touch the stack. -/
theorem remains_of_quiet {x : Exec α} (h : Relates Quiet x)
    (hparked : Relates (fun m m' => m'.parked = m.parked) x) : Relates Remains x :=
  fun m => Remains.of_eq (h m).stack (hparked m)

theorem remains_of_plain {x : Exec α} (h : Relates Quiet x) (hx : Plain x) : Relates Remains x :=
  remains_of_quiet h fun m => congrArg HostSide.parked (hx.works m).hostSide

theorem remains_setPc (pc : Nat) : Relates Remains (setPc pc) :=
  fun _ => Remains.of_eq rfl rfl

/-! ### Variables -/

theorem remains_popStack (address : Nat) : Relates Remains (popStack address) := by
  apply relates_get
  intro m
  cases hpop : m.stack.pop? with
  | none => exact Remains.refl m
  | some p => exact Remains.of_edit (Edit.pop hpop) (CallStack.interruptFrames_pop? hpop)

theorem remains_pushStack (value : UInt16) : Relates Remains (pushStack value) :=
  fun m => Remains.of_edit (Edit.push m.stack value) rfl

theorem remains_withNamedVariable (m : Machine) (code : UInt8) (value : UInt16) :
    Remains m (m.withNamedVariable code value) := by
  unfold withNamedVariable
  split
  · exact Remains.of_edit (Edit.setLocal m.stack _ value) (CallStack.interruptFrames_setLocal _ _ _)
  · exact Remains.of_eq rfl rfl

theorem remains_readVariable (code : UInt8) : Relates Remains (readVariable code) := by
  apply relates_get_of_forall
  intro m
  split
  · exact remains_popStack m.pc
  · exact remains_pure _

theorem remains_writeVariable (code : UInt8) (value : UInt16) :
    Relates Remains (writeVariable code value) := by
  unfold writeVariable
  split
  · exact remains_pushStack value
  · exact fun m => remains_withNamedVariable m code value

theorem remains_readIndirect (code : UInt8) : Relates Remains (readIndirect code) := by
  apply relates_get
  intro m
  split
  · split <;> exact Remains.refl m
  · exact Remains.refl m

theorem remains_writeIndirect (code : UInt8) (value : UInt16) :
    Relates Remains (writeIndirect code value) := by
  apply relates_get
  intro m
  split
  · split
    · rename_i s htop
      exact Remains.of_edit (Edit.setTop htop) (CallStack.interruptFrames_setTop? htop)
    · exact Remains.refl m
  · exact remains_withNamedVariable m code value

theorem remains_storeResult (store : Option UInt8) (value : UInt16) :
    Relates Remains (storeResult store value) := by
  cases store with
  | none => exact remains_pure ()
  | some code => exact remains_writeVariable code value

theorem remains_adjust (code : UInt8) (amount : UInt16) : Relates Remains (adjust code amount) :=
  remains_bind (remains_readIndirect code) fun _ =>
    remains_bind (remains_writeIndirect code _) fun _ => remains_pure _

theorem remains_operandValue (operand : Operand) : Relates Remains (operandValue operand) := by
  cases operand with
  | large value => exact remains_pure value
  | small value => exact remains_pure _
  | var code => exact remains_readVariable code

theorem remains_operandValues (operands : List Operand) :
    Relates Remains (operandValues operands) := by
  induction operands with
  | nil => exact remains_pure []
  | cons operand rest ih =>
      exact remains_bind (remains_operandValue operand) fun _ =>
        remains_bind ih fun _ => remains_pure _

theorem remains_store (ins : Instruction) (value : UInt16) : Relates Remains (store ins value) :=
  remains_bind (remains_storeResult ins.store value) fun _ => remains_pure _

/-! ### Memory, text and the host -/

theorem remains_raise (request : Request) : Relates Remains (raise request) :=
  fun _ => Remains.of_eq rfl rfl

theorem remains_suspend (request : Request) (completion : Completion) :
    Relates Remains (suspend request completion) :=
  fun _ => Remains.of_eq rfl rfl

theorem remains_startInput (input : PendingInput) : Relates Remains (startInput input) :=
  fun _ => Remains.of_eq rfl rfl

theorem remains_change (f : Machine → Memory) : Relates Remains (change f) :=
  fun _ => Remains.of_eq rfl rfl

theorem remains_change? (f : Machine → Option Memory) : Relates Remains (change? f) := by
  apply relates_get
  intro m
  split <;> exact Remains.of_eq rfl rfl

theorem remains_putProp (object property value : UInt16) :
    Relates Remains (do
      let m ← get
      let memory ← orFault (m.objects.putProp m.memory object property value)
      set { m with memory }
      return Flow.next) := by
  apply relates_get
  intro m
  cases m.objects.putProp m.memory object property value <;> exact Remains.of_eq rfl rfl

theorem remains_print (text : String) : Relates Remains (print text) := by
  refine remains_of_quiet (quiet_print text) fun m => ?_
  rw [print_run]
  split
  · rfl
  · exact congrArg HostSide.parked (works_emitText m text).hostSide

theorem remains_printChar (code : Nat) : Relates Remains (do
    match Zscii.char? (← get).codec.charset.extra code with
    | some ch => print (String.singleton ch)
    | none => return Flow.next : Exec Flow) := by
  apply relates_get_of_forall
  intro m
  split
  · exact remains_print _
  · exact remains_pure _

theorem remains_printZscii (code : UInt16) : Relates Remains (printZscii code) := by
  unfold printZscii
  split
  · exact remains_bind (fun m => Remains.refl m) fun (_ : PUnit) => remains_printChar _
  · exact remains_printChar _

theorem remains_printAt (address : Nat) : Relates Remains (printAt address) :=
  remains_bind (fun _ => Remains.of_eq rfl rfl) fun text => remains_print text

theorem remains_printObject (object : UInt16) : Relates Remains (printObject object) := by
  apply relates_get_of_forall
  intro m
  split
  · exact remains_pure _
  · exact remains_printAt _

theorem remains_jump (offset : Int) : Relates Remains (jump offset) := by
  apply relates_get
  intro m
  dsimp only
  split
  · exact Remains.refl m
  · exact Remains.of_eq rfl rfl

theorem remains_saveUndo (pc : Nat) : Relates Remains (saveUndo pc) :=
  fun _ => Remains.of_eq rfl rfl

theorem remains_finishInput (input : PendingInput) (terminator : Int) (line : String) :
    Relates Remains (finishInput input terminator line) := by
  cases input with
  | line textBuffer parseBuffer store timeout routine =>
      have hmodify : ∀ f : Machine → Memory,
          Relates Remains (modify fun m => { m with memory := f m } : Exec Unit) :=
        fun f _ => Remains.of_eq rfl rfl
      have hstore := remains_storeResult store (terminatorWord terminator)
      refine remains_bind (hmodify _) fun _ => ?_
      split
      · exact remains_bind (hmodify _) fun _ => hstore
      · exact hstore
  | char store timeout routine => exact remains_writeVariable _ _

/-- There is nothing to go back to. -/
theorem remains_restoreUndo {m : Machine} (h : m.undo.entries = []) (store : Option UInt8) :
    Remains m ((restoreUndo store).run m).2 := by
  have hpop : m.undo.pop? = none := by
    rw [History.pop?, h]
  unfold restoreUndo
  rw [run_bind, run_get]
  dsimp only
  rw [hpop]
  exact remains_bind (remains_storeResult store 0) (fun _ => remains_pure Flow.next) m

/-! ### Calls -/

/-- A call that is followed by another address than that of interrupts. -/
theorem remains_call (target : Nat) (args : List UInt16) {returnPc : Nat} (result : Option UInt8)
    (h : returnPc ≠ fromInterrupt) : Relates Remains (call target args returnPc result) := by
  apply relates_get
  intro m
  split
  · exact remains_bind (remains_setPc returnPc)
      (fun _ => remains_bind (remains_storeResult result 0) fun _ => remains_pure Flow.jump) m
  split
  · exact Remains.refl m
  · refine ⟨Relation.ReflTransGen.single (edit_pushFrame_calleeFrame m target args returnPc result),
      ?_, rfl⟩
    have hpush := m.stack.interruptFrames_pushFrame (m.calleeFrame target args returnPc result)
    rwa [if_neg (show (m.calleeFrame target args returnPc result).returnPc ≠ fromInterrupt from h)]
      at hpush

theorem remains_callPacked {m : Machine} (hpc : 0 < m.pc) (ins : Instruction)
    (values : List UInt16) : Remains m ((callPacked ins values).run m).2 :=
  remains_call _ _ _ (Nat.ne_of_gt hpc) m

end Machine

/-! ## What comes before a return -/

/-- The value that a branch to a target returns. -/
def BranchTarget.returned? : BranchTarget → Option UInt16
  | .returnFalse => some 0
  | .returnTrue => some 1
  | .address _ => none

namespace Instruction

/-- The value that the branch of an instruction returns. -/
def returned? (ins : Instruction) : Option UInt16 :=
  ins.branch.bind fun b => b.target.returned?

/-- The instruction with its branch leading to the next instruction. -/
def straight (ins : Instruction) : Instruction :=
  { ins with branch := ins.branch.map fun b => { b with target := .address ins.next } }

end Instruction

/-- The value that is returned when a result is delivered to a branch. -/
def Delivery.returned? : Delivery → Option UInt16
  | .store _ => none
  | .branch b => b.target.returned?

/-- The value that the work left over by a request may return. -/
def Completion.returned? : Completion → Option UInt16
  | .save delivery => delivery.returned?
  | .restore delivery => delivery.returned?
  | .piracy b => b.target.returned?
  | _ => none

namespace Machine

/-- What an instruction with evaluated operands does before it returns, and the value that it
returns if it does so as the last thing. -/
def returningWith (ins : Instruction) (v : List UInt16) : Exec (Option UInt16) :=
  match ins.op with
  | .ret => return some (v.getD 0 0)
  | .rtrue => return some 1
  | .rfalse => return some 0
  | .retPopped => do
      let value ← popStack ins.address
      return some value
  | .throwFrame | .printRet => return none
  | _ => do
      let _ ← executeWith ins.straight v
      return ins.returned?

/-- What an instruction does before it returns. -/
def returning (ins : Instruction) : Exec (Option UInt16) := do
  let values ← operandValues ins.operands
  returningWith ins values

/-! ## Instructions that return at their end -/

/-- A branch remains in its routine or returns the value of its target. -/
theorem takeBranch_remains_or_returns (b : Branch) (condition : Bool) (m : Machine) :
    Remains m ((takeBranch b condition).run m).2 ∨ ∃ value, b.target.returned? = some value ∧
      (takeBranch b condition).run m = (returnValue value).run m := by
  obtain ⟨onTrue, target⟩ := b
  unfold takeBranch
  split
  · exact Or.inl (Remains.refl m)
  · cases target with
    | returnFalse => exact Or.inr ⟨0, rfl, rfl⟩
    | returnTrue => exact Or.inr ⟨1, rfl, rfl⟩
    | address target => exact Or.inl (Remains.of_eq rfl rfl)

/-- Two actions that begin at a place and do the same, but that the first one may return a value at
its end where the second one has come to its end. -/
def Parts (returned : Option UInt16) (pc : Nat) (x y : Exec Flow) : Prop :=
  ∀ m, m.pc = pc → Remains m (x.run m).2 ∨ ∃ value m₁, returned = some value ∧
    x.run m = (returnValue value).run m₁ ∧ Remains m m₁ ∧ Works m m₁ ∧ (y.run m).2 = m₁

section
variable {returned : Option UInt16} {pc : Nat}

theorem parts_of_remains {x : Exec Flow} (h : Relates Remains x) (y : Exec Flow) :
    Parts returned pc x y :=
  fun m _ => Or.inl (h m)

/-- The same work before both. -/
theorem parts_bind {w : Exec α} {f g : α → Exec Flow} (hworks : Plain w)
    (hremains : Relates Remains w) (h : ∀ a, Parts returned pc (f a) (g a)) :
    Parts returned pc (w >>= f) (w >>= g) := by
  intro m hpc
  have hw := hworks.works m
  have hr := hremains m
  rw [run_bind, run_bind]
  revert hw hr
  rcases w.run m with ⟨e | a, m'⟩
  · exact fun _ hr => Or.inl hr
  · intro hw hr
    rcases h a m' (hw.pc.trans hpc) with hrest | ⟨value, m₁, hvalue, hx, hrest, hworks, hy⟩
    · exact Or.inl (hr.trans hrest)
    · exact Or.inr ⟨value, m₁, hvalue, hx, hr.trans hrest, hw.trans hworks, hy⟩

theorem parts_get {f g : Machine → Exec Flow} (h : ∀ m, Parts returned pc (f m) (g m)) :
    Parts returned pc (get >>= f) (get >>= g) :=
  fun m hpc => h m m hpc

/-- **A branch** to a return comes to its end where one to the next instruction goes on. -/
theorem parts_takeBranch (b : Branch) (condition : Bool) :
    Parts b.target.returned? pc (takeBranch b condition)
      (takeBranch { b with target := .address pc } condition) := by
  intro m hpc
  rcases takeBranch_remains_or_returns b condition m with hremains | ⟨value, hvalue, hreturns⟩
  · exact Or.inl hremains
  · refine Or.inr ⟨value, m, hvalue, hreturns, Remains.refl m, Works.refl m, ?_⟩
    unfold takeBranch
    split
    · rfl
    · show { m with pc } = m
      rw [← hpc]

theorem parts_branch (ins : Instruction) (condition : Bool) :
    Parts ins.returned? ins.next (branch ins condition) (branch ins.straight condition) := by
  unfold branch Instruction.returned? Instruction.straight
  dsimp only
  cases ins.branch with
  | none => exact parts_of_remains (remains_pure _) _
  | some b => exact parts_takeBranch b condition

theorem parts_storeAndBranch (ins : Instruction) (value : UInt16) (condition : Bool) :
    Parts ins.returned? ins.next (storeAndBranch ins value condition)
      (storeAndBranch ins.straight value condition) :=
  parts_bind (plain_storeResult _ _) (remains_storeResult _ _) fun _ => parts_branch ins condition

theorem remains_deliverStore (code : UInt8) (value : UInt16) :
    Relates Remains (deliver (.store code) value) :=
  remains_bind (remains_writeVariable code value) fun _ => remains_pure _

/-- Work on the way that an instruction reports its result, which may be its branch. -/
theorem parts_deliveryOf {ins : Instruction} {f : Delivery → Exec Flow}
    (hstore : ∀ code, Relates Remains (f (.store code)))
    (hbranch : ∀ b : Branch, Parts b.target.returned? ins.next (f (.branch b))
      (f (.branch { b with target := .address ins.next }))) :
    Parts ins.returned? ins.next (deliveryOf ins >>= f) (deliveryOf ins.straight >>= f) := by
  unfold deliveryOf Instruction.returned? Instruction.straight
  dsimp only
  cases ins.store with
  | some code => exact parts_of_remains (fun m => hstore code m) _
  | none =>
      cases ins.branch with
      | some b => exact fun m hpc => hbranch b m hpc
      | none => exact fun m _ => Or.inl (Remains.refl m)

theorem parts_save (ins : Instruction) (values : List UInt16) :
    Parts ins.returned? ins.next (save ins values) (save ins.straight values) := by
  refine parts_deliveryOf (fun code => ?_) fun b => ?_ <;> split
  · exact relates_get_of_forall fun m => remains_suspend _ _
  · exact remains_deliverStore code 0
  · exact parts_of_remains (relates_get_of_forall fun m => remains_suspend _ _) _
  · exact parts_takeBranch b _

theorem parts_restore (ins : Instruction) (values : List UInt16) :
    Parts ins.returned? ins.next (restore ins values) (restore ins.straight values) := by
  refine parts_deliveryOf (fun code => ?_) fun b => ?_ <;> split
  · exact remains_suspend _ _
  · exact remains_deliverStore code 0
  · exact parts_of_remains (remains_suspend _ _) _
  · exact parts_takeBranch b _

end

/-- Whether an operation has a return of its own. -/
def returns : Op → Bool
  | .ret | .rtrue | .rfalse | .retPopped | .throwFrame | .printRet => true
  | _ => false

/-- **An instruction with evaluated operands** remains in its routine, or returns by its branch
after it has done what it does with the branch leading on. -/
theorem parts_executeWith {ins : Instruction} (hreturns : returns ins.op = false)
    (hundo : ins.op ≠ .restoreUndo) (hcalls : calls ins.op = false) (v : List UInt16) :
    Parts ins.returned? ins.next (executeWith ins v) (executeWith ins.straight v) := by
  have hsimple : ∀ {x : Exec Unit}, Relates Remains x → Relates Remains (do x; return Flow.next) :=
    fun h => remains_bind h fun _ => remains_pure _
  have hop : ins.straight.op = ins.op := rfl
  unfold executeWith
  dsimp only
  rw [hop]
  -- operations that do the same with different values go together
  cases hins : ins.op
  case ret | rtrue | rfalse | retPopped | throwFrame | printRet =>
    rw [hins] at hreturns
    cases hreturns
  case restoreUndo => exact absurd hins hundo
  case call1s | call1n | call2s | call2n | callVs | callVs2 | callVn | callVn2 =>
    rw [hins] at hcalls
    cases hcalls
  case je | jl | jg | jz | test => exact parts_branch ins _
  case checkArgCount | jin | testAttr | verify => exact parts_get fun m => parts_branch ins _
  case incChk | decChk =>
    exact parts_bind (plain_adjust _ _) (remains_adjust _ _) fun value => parts_branch ins _
  case scanTable | getSibling | getChild =>
    exact parts_get fun m => parts_storeAndBranch ins _ _
  case save => exact parts_save ins v
  case restore => exact parts_restore ins v
  all_goals apply parts_of_remains
  case jump => exact remains_jump _
  case add | sub | mul | or | and | not | logShift | artShift | checkUnicode | setFont | gestalt =>
    exact remains_store ins _
  case div | mod =>
    dsimp only
    split
    · exact fun m => Remains.refl m
    · exact remains_store ins _
  case store => exact hsimple (remains_writeIndirect _ _)
  case load => exact remains_bind (remains_readIndirect _) fun value => remains_store ins value
  case inc | dec => exact remains_bind (remains_adjust _ _) fun _ => remains_pure _
  case push => exact hsimple (remains_pushStack _)
  case pull =>
    exact remains_bind (remains_popStack _) fun value => hsimple (remains_writeIndirect _ value)
  case pop => exact remains_bind (remains_popStack _) fun _ => remains_pure _
  case loadw | loadb | catchFrame | getParent | getProp | getPropAddr | getPropLen =>
    exact relates_get_of_forall fun m => remains_store ins _
  case getNextProp =>
    exact relates_get_of_forall fun m =>
      remains_bind (remains_of_plain (quiet_orFault _) (plain_orFault _)) fun next =>
        remains_store ins next
  case storew | storeb | copyTable | setAttr | clearAttr | tokenise | encodeText =>
    exact remains_change _
  case insertObj | removeObj => exact remains_change? _
  case putProp => exact remains_putProp _ _ _
  case print | newLine | printNum | printUnicode => exact remains_print _
  case printAddr => exact remains_printAt _
  case printPaddr => exact relates_get_of_forall fun m => remains_printAt _
  case printObj => exact remains_printObject _
  case printChar => exact remains_printZscii _
  case printTable => exact relates_get_of_forall fun m => remains_raise _
  case outputStream =>
    exact hsimple (remains_of_plain (quiet_selectStream _ _) (plain_selectStream _ _))
  case read => exact relates_get_of_forall fun m => remains_startInput _
  case readChar =>
    dsimp only
    split
    · exact relates_get_of_forall fun m => remains_startInput _
    · exact remains_pure _
  case showStatus | nop => exact remains_pure _
  case splitWindow | setWindow | eraseWindow | eraseLine | setCursor | setTextStyle | setColour
      | bufferMode | inputStream | soundEffect | restart =>
    exact remains_raise _
  case getCursor => exact remains_suspend _ _
  case saveUndo => exact remains_bind (remains_saveUndo _) fun result => remains_store ins result
  case quit =>
    exact remains_bind (fun m => Remains.of_eq rfl rfl) fun (_ : Unit) => remains_raise _
  case piracy =>
    dsimp only
    split
    · exact remains_suspend _ _
    · exact remains_pure _
  case random =>
    exact remains_bind (remains_of_plain (quiet_drawRandom _) (plain_drawRandom _)) fun value =>
      remains_store ins value

/-- Without a return of its own an instruction does all that it does before it returns. -/
theorem returningWith_of_not_returns {ins : Instruction} (h : returns ins.op = false)
    (v : List UInt16) :
    returningWith ins v = do
      let _ ← executeWith ins.straight v
      return ins.returned? := by
  unfold returningWith
  unfold returns at h
  split at h
  case h_7 => rfl
  all_goals cases h

/-- A machine comes to the end of an action by remaining in its routine, or by returning a value.
That value and the machine before the return are what another action shows, if it shows any. -/
def Ends (m : Machine) (r : Except Stop Flow × Machine)
    (s : Except Stop (Option UInt16) × Machine) : Prop :=
  Remains m r.2 ∨ ∃ value m₁, r = (returnValue value).run m₁ ∧ Remains m m₁ ∧ Works m m₁ ∧
    ∀ seen before, s = (.ok (some seen), before) → seen = value ∧ before = m₁

/-- Plain work before. -/
theorem Ends.after {m m₁ : Machine} {r : Except Stop Flow × Machine}
    {s : Except Stop (Option UInt16) × Machine} (h : Ends m₁ r s) (hremains : Remains m m₁)
    (hworks : Works m m₁) : Ends m r s := by
  rcases h with hrest | ⟨value, m₂, hr, hrest, hworks', hseen⟩
  · exact Or.inl (hremains.trans hrest)
  · exact Or.inr ⟨value, m₂, hr, hremains.trans hrest, hworks.trans hworks', hseen⟩

/-- A return of a value and nothing else. -/
theorem ends_returnValue (value : UInt16) (m : Machine) :
    Ends m ((returnValue value).run m) (.ok (some value), m) := by
  refine Or.inr ⟨value, m, rfl, Remains.refl m, Works.refl m, ?_⟩
  rintro _ _ ⟨⟩
  exact ⟨rfl, rfl⟩

/-- The value on top of the stack is returned. -/
theorem ends_retPopped (address : Nat) (m : Machine) :
    Ends m ((do let value ← popStack address; returnValue value : Exec Flow).run m)
      ((do let value ← popStack address; return some value : Exec (Option UInt16)).run m) := by
  have hremains := remains_popStack address m
  have hworks := (plain_popStack address).works m
  rw [run_bind, run_bind]
  revert hremains hworks
  rcases (popStack address).run m with ⟨e | value, m₁⟩
  · exact fun hremains _ => Or.inl hremains
  · exact fun hremains hworks => (ends_returnValue value m₁).after hremains hworks

/-- Two actions with the same parts. -/
theorem Parts.ends {returned : Option UInt16} {m : Machine} {x y : Exec Flow}
    (h : Parts returned m.pc x y) :
    Ends m (x.run m) ((do let _ ← y; return returned : Exec (Option UInt16)).run m) := by
  rcases h m rfl with hrest | ⟨value, m₁, rfl, hx, hrest, hworks, hy⟩
  · exact Or.inl hrest
  · refine Or.inr ⟨value, m₁, hx, hrest, hworks, fun seen before hs => ?_⟩
    -- what is shown is seen after the other action has come to its end
    rw [run_bind] at hs
    revert hs hy
    rcases y.run m with ⟨e | flow, m₂⟩
    · nofun
    · rintro rfl ⟨⟩
      exact ⟨rfl, rfl⟩

/-- An instruction with evaluated operands and the program counter after it. -/
theorem ends_executeWith {ins : Instruction} {m : Machine} (hpc : m.pc = ins.next)
    (hthrow : ins.op ≠ .throwFrame) (hprint : ins.op ≠ .printRet)
    (hundo : ins.op = .restoreUndo → m.undo.entries = [])
    (hcalls : calls ins.op = true → 0 < ins.next) (v : List UInt16) :
    Ends m ((executeWith ins v).run m) ((returningWith ins v).run m) := by
  -- an undo and a call need to know the machine, a return of its own has no other part
  by_cases hback : ins.op = .restoreUndo
  · rw [executeWith, hback]
    exact Or.inl (remains_restoreUndo (hundo hback) ins.store)
  cases hcall : calls ins.op with
  | true =>
      rw [executeWith_of_calls hcall]
      exact Or.inl (remains_callPacked (hpc ▸ hcalls hcall) ins v)
  | false =>
      cases hreturns : returns ins.op with
      | false =>
          rw [returningWith_of_not_returns hreturns]
          exact Parts.ends (hpc ▸ parts_executeWith hreturns hback hcall v)
      | true =>
          unfold executeWith returningWith
          dsimp only
          cases hop : ins.op
          case ret | rtrue | rfalse => exact ends_returnValue _ m
          case retPopped => exact ends_retPopped ins.address m
          case throwFrame => exact absurd hop hthrow
          case printRet => exact absurd hop hprint
          all_goals
            rw [hop] at hreturns
            cases hreturns

/-- **An instruction** with the program counter after it remains in its routine, or returns a value
at its end, unless it throws, goes back to a snapshot or prints after its return. -/
theorem execute_remains_or_returns {ins : Instruction} {m : Machine} (hpc : m.pc = ins.next)
    (hthrow : ins.op ≠ .throwFrame) (hprint : ins.op ≠ .printRet) (hundo : ¬ Undoes ins m)
    (hcalls : calls ins.op = true → 0 < ins.next) :
    Ends m ((execute ins).run m) ((returning ins).run m) := by
  have hremains := remains_operandValues ins.operands m
  have hworks := (plain_operandValues ins.operands).works m
  rw [execute, returning, run_bind, run_bind]
  cases hrun : (operandValues ins.operands).run m with
  | mk result m₁ =>
      rw [hrun] at hremains hworks
      cases result with
      | error e => exact Or.inl hremains
      | ok values =>
          have hentries : ins.op = .restoreUndo → m₁.undo.entries = [] := by
            intro hop
            by_contra hne
            exact hundo ⟨hop, values, m₁, hrun, hne⟩
          have hends := ends_executeWith (hworks.pc.trans hpc) hthrow hprint hentries hcalls values
          exact hends.after hremains hworks

/-! ## Left over work -/

theorem ends_takeBranch (b : Branch) (condition : Bool) (m : Machine) :
    Ends m ((takeBranch b condition).run m) (.ok b.target.returned?, m) := by
  rcases takeBranch_remains_or_returns b condition m with hremains | ⟨value, hvalue, hreturns⟩
  · exact Or.inl hremains
  · rw [hvalue, hreturns]
    exact ends_returnValue value m

theorem ends_deliver (delivery : Delivery) (value : UInt16) (m : Machine) :
    Ends m ((deliver delivery value).run m) (.ok delivery.returned?, m) := by
  cases delivery with
  | store code => exact Or.inl (remains_deliverStore code value m)
  | branch b => exact ends_takeBranch b _ m

/-- While an input is parked, no other one is set aside. -/
theorem remains_resumeInput {m : Machine} (hparked : m.parked.isSome) (input : PendingInput) :
    Remains m ((resumeInput input).run m).2 := by
  unfold resumeInput
  rw [run_bind, run_get]
  dsimp only
  split
  · unfold interrupt
    rw [run_bind, run_get]
    dsimp only
    rw [if_pos hparked]
    exact Remains.refl m
  · exact remains_bind (remains_finishInput input _ _) (fun _ => remains_pure Flow.next) m

/-- **The work left over by a request** remains in its routine or returns at its end, while an input
is parked and unless a save file is restored. -/
theorem resume_remains_or_returns {completion : Completion} {m : Machine}
    (hparked : m.parked.isSome) (hrestoring : ∀ s, ¬ Restoring completion m s) :
    Ends m ((resume completion).run m) (.ok completion.returned?, m) := by
  cases completion with
  | printLeftovers text =>
      have hemit : Relates Remains (emit text) :=
        remains_of_plain (quiet_emit text) (plain_emit text)
      exact Or.inl (remains_bind hemit (fun _ => remains_pure Flow.next) m)
  | input input => exact Or.inl (remains_resumeInput hparked input)
  | save delivery =>
      unfold resume
      rw [run_bind, run_get]
      exact ends_deliver delivery _ m
  | restore delivery =>
      unfold resume resumeRestore
      rw [run_bind, run_get]
      dsimp only
      split
      · rename_i data hreply
        split
        · rename_i s hread
          exact absurd ⟨delivery, data, rfl, hreply, hread⟩ (hrestoring s)
        · exact ends_deliver delivery 0 m
      · exact ends_deliver delivery 0 m
  | piracy b => exact ends_takeBranch b _ m
  | getCursor table => exact Or.inl (Remains.of_eq rfl rfl)

end Machine
end ZMachine
