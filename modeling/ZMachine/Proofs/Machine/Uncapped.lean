/-
# Nothing looks at the iteration cap

The iteration cap says how many blocks a run executes before it yields to its host.  It stands in
the options of the machine, which restoring a snapshot reads to set the header up, but neither an
instruction nor the work left over by a request depends on it.

* `withCap` : the machine with another cap;
* `Capless` : an action that does the same under every cap, a notion closed under sequencing;
* `capless_execute`, `capless_leftover` and `capless_fetchBlock` : all that a run is made of is of
  that kind.
-/
import ZMachine.Proofs.Machine.Control
import ZMachine.Proofs.Machine.Moment

namespace ZMachine
namespace Machine

variable {α β : Type}

/-- The machine with another iteration cap. -/
def withCap (m : Machine) (cap : Nat) : Machine :=
  { m with config := { m.config with iterationCap := cap } }

/-- An action does the same under every iteration cap. -/
def Capless (x : Exec α) : Prop :=
  ∀ m cap, x.run (m.withCap cap) = ((x.run m).1, (x.run m).2.withCap cap)

/-! ## Sequences -/

theorem capless_pure (a : α) : Capless (pure a : Exec α) :=
  fun _ _ => rfl

theorem capless_fault (f : Fault) : Capless (fault f : Exec α) :=
  fun _ _ => rfl

theorem capless_orFault (r : Except Fault α) : Capless (orFault r) := by
  cases r with
  | ok a => exact capless_pure a
  | error f => exact capless_fault f

theorem capless_bind {x : Exec α} {f : α → Exec β} (hx : Capless x) (hf : ∀ a, Capless (f a)) :
    Capless (x >>= f) := by
  intro m cap
  rw [run_bind, run_bind, hx]
  rcases x.run m with ⟨e | a, m'⟩
  · rfl
  · exact hf a m' cap

/-- An action with a last result of its own. -/
theorem capless_then {x : Exec α} (hx : Capless x) (b : β) : Capless (x >>= fun _ => pure b) :=
  capless_bind hx fun _ => capless_pure b

theorem capless_modify {g : Machine → Machine}
    (h : ∀ m cap, g (m.withCap cap) = (g m).withCap cap) : Capless (modify g : Exec Unit) := by
  intro m cap
  rw [run_modify, run_modify, h]

/-- Reading the machine first: the rest has to be checked on the machine that it has read. -/
theorem capless_get {f : Machine → Exec β}
    (h : ∀ m cap, (f (m.withCap cap)).run (m.withCap cap)
      = (((f m).run m).1, ((f m).run m).2.withCap cap)) :
    Capless (get >>= f) :=
  h

/-- Reading the machine first, for a rest that does not depend on the cap. -/
theorem capless_get_of_forall {f : Machine → Exec β} (hf : ∀ m cap, f (m.withCap cap) = f m)
    (h : ∀ m, Capless (f m)) : Capless (get >>= f) := by
  apply capless_get
  intro m cap
  rw [hf]
  exact h m m cap

/-! ## Variables -/

theorem capless_popStack (address : Nat) : Capless (popStack address) := by
  apply capless_get
  intro m cap
  dsimp only [withCap]
  cases m.stack.pop? <;> rfl

theorem capless_pushStack (value : UInt16) : Capless (pushStack value) :=
  capless_modify fun _ _ => rfl

theorem withNamedVariable_withCap (m : Machine) (cap : Nat) (code : UInt8) (value : UInt16) :
    (m.withCap cap).withNamedVariable code value
      = (m.withNamedVariable code value).withCap cap := by
  unfold withNamedVariable
  split <;> rfl

theorem capless_readVariable (code : UInt8) : Capless (readVariable code) := by
  apply capless_get_of_forall fun _ _ => rfl
  intro m
  split
  · exact capless_popStack m.pc
  · exact capless_pure _

theorem capless_writeVariable (code : UInt8) (value : UInt16) :
    Capless (writeVariable code value) := by
  unfold writeVariable
  split
  · exact capless_pushStack value
  · exact capless_modify fun m cap => withNamedVariable_withCap m cap code value

theorem capless_readIndirect (code : UInt8) : Capless (readIndirect code) := by
  apply capless_get_of_forall fun _ _ => rfl
  intro m
  split
  · split
    · exact capless_pure _
    · exact capless_fault _
  · exact capless_pure _

theorem capless_writeIndirect (code : UInt8) (value : UInt16) :
    Capless (writeIndirect code value) := by
  apply capless_get
  intro m cap
  split
  · dsimp only [withCap]
    cases m.stack.setTop? value <;> rfl
  · rw [withNamedVariable_withCap]
    rfl

theorem capless_storeResult (store : Option UInt8) (value : UInt16) :
    Capless (storeResult store value) := by
  cases store with
  | none => exact capless_pure ()
  | some code => exact capless_writeVariable code value

theorem capless_adjust (code : UInt8) (amount : UInt16) : Capless (adjust code amount) :=
  capless_bind (capless_readIndirect code) fun _ => capless_then (capless_writeIndirect code _) _

theorem capless_operandValues (operands : List Operand) : Capless (operandValues operands) := by
  have hoperand : ∀ operand, Capless (operandValue operand) := by
    intro operand
    cases operand with
    | large value => exact capless_pure value
    | small value => exact capless_pure _
    | var code => exact capless_readVariable code
  induction operands with
  | nil => exact capless_pure []
  | cons operand rest ih =>
      exact capless_bind (hoperand operand) fun _ => capless_bind ih fun _ => capless_pure _

/-! ## Streams and printing -/

theorem emitText_withCap (m : Machine) (cap : Nat) (text : String) :
    (m.withCap cap).emitText text = (m.emitText text).withCap cap := by
  unfold emitText
  dsimp only [withCap]
  cases m.streams.tables <;> rfl

theorem capless_emit (text : String) : Capless (emit text) :=
  capless_modify fun m cap => emitText_withCap m cap text

theorem capless_openTable (table : Nat) : Capless (openTable table) := by
  apply capless_get
  intro m cap
  dsimp only [withCap]
  split <;> rfl

theorem capless_closeTable : Capless closeTable := by
  apply capless_get
  intro m cap
  dsimp only [withCap]
  cases m.streams.tables <;> rfl

theorem capless_selectStream (number : Int) (table : Nat) :
    Capless (selectStream number table) := by
  unfold selectStream
  split
  · exact capless_pure ()
  split
  · exact capless_modify fun _ _ => rfl
  split
  · exact capless_modify fun _ _ => rfl
  split
  · exact capless_openTable table
  split
  · exact capless_closeTable
  split
  · exact capless_modify fun _ _ => rfl
  · exact capless_fault _

theorem capless_print (text : String) : Capless (print text) := by
  intro m cap
  rw [print_run, print_run]
  by_cases hbits : m.headerPrintingBits ≠ m.printingBits
  · rw [if_pos hbits, if_pos (by exact hbits)]
    rfl
  · rw [if_neg hbits, if_neg (by exact hbits), emitText_withCap]

theorem capless_printZscii (code : UInt16) : Capless (printZscii code) := by
  unfold printZscii
  split
  · exact fun _ _ => rfl
  · apply capless_get_of_forall fun _ _ => rfl
    intro m
    split
    · exact capless_print _
    · exact capless_pure _

theorem capless_printAt (address : Nat) : Capless (printAt address) := by
  intro m cap
  rw [printAt_run, printAt_run]
  exact capless_print _ { m with codec := (m.codec.decode m.memory address).2 } cap

theorem capless_printObject (object : UInt16) : Capless (printObject object) := by
  apply capless_get_of_forall fun _ _ => rfl
  intro m
  split
  · exact capless_pure _
  · exact capless_printAt _

/-! ## Requests and inputs -/

theorem capless_setPc (pc : Nat) : Capless (setPc pc) :=
  capless_modify fun _ _ => rfl

theorem capless_raise (request : Request) : Capless (raise request) :=
  fun _ _ => rfl

theorem capless_suspend (request : Request) (completion : Completion) :
    Capless (suspend request completion) :=
  fun _ _ => rfl

theorem capless_startInput (input : PendingInput) : Capless (startInput input) :=
  capless_get_of_forall (fun _ _ => by cases input <;> rfl) fun _ => capless_suspend _ _

theorem capless_finishInput (input : PendingInput) (terminator : Int) (line : String) :
    Capless (finishInput input terminator line) := by
  cases input with
  | line textBuffer parseBuffer store timeout routine =>
      apply capless_bind (capless_modify fun _ _ => rfl)
      intro _
      dsimp only
      split
      · exact capless_bind (capless_modify fun _ _ => rfl) fun _ => capless_storeResult store _
      · exact capless_storeResult store _
  | char store timeout routine => exact capless_writeVariable store _

/-! ## Calls and returns -/

/-- A result for an instruction elsewhere. -/
theorem capless_storeAt (pc : Nat) (store : Option UInt8) (value : UInt16) :
    Capless (do setPc pc; storeResult store value; return Flow.jump) :=
  capless_bind (capless_setPc pc) fun _ => capless_then (capless_storeResult store value) _

theorem capless_call (target : Nat) (args : List UInt16) (returnPc : Nat) (result : Option UInt8) :
    Capless (call target args returnPc result) := by
  apply capless_get
  intro m cap
  split
  · exact capless_storeAt returnPc result 0 m cap
  · have hmemory : (m.withCap cap).memory = m.memory := rfl
    rw [hmemory]
    split <;> rfl

theorem capless_callPacked (ins : Instruction) (values : List UInt16) :
    Capless (callPacked ins values) :=
  capless_get_of_forall (fun _ _ => rfl) fun _ => capless_call _ _ _ _

theorem capless_jump (offset : Int) : Capless (jump offset) := by
  apply capless_get
  intro m cap
  dsimp only [withCap]
  split <;> rfl

theorem capless_finishInterrupt (value : UInt16) : Capless (finishInterrupt value) := by
  intro m cap
  cases hparked : m.parked with
  | none =>
      have hsame : (m.withCap cap).parked = none := hparked
      rw [finishInterrupt_of_none hparked, finishInterrupt_of_none hsame]
  | some parked =>
      have hsame : (m.withCap cap).parked = some parked := hparked
      have hfinish : Capless (do finishInput parked.input 0 ""; return Flow.jump) :=
        capless_then (capless_finishInput parked.input 0 "") _
      rw [finishInterrupt_eq hparked, finishInterrupt_eq hsame]
      split
      · rfl
      · exact hfinish { m with parked := none, pc := parked.pc, replies := [] } cap

theorem capless_returnValue (value : UInt16) : Capless (returnValue value) := by
  apply capless_get
  intro m cap
  dsimp only [withCap]
  cases m.stack.popFrame? with
  | none => rfl
  | some p =>
      obtain ⟨frame, stack⟩ := p
      dsimp only
      split
      · exact capless_finishInterrupt value { m with stack } cap
      · exact capless_storeAt frame.returnPc frame.result value { m with stack } cap

theorem capless_throwTo (value cookie : UInt16) : Capless (throwTo value cookie) := by
  apply capless_get
  intro m cap
  dsimp only [withCap]
  split
  · rfl
  · exact capless_returnValue value { m with stack := unwind cookie.toNat m.stack } cap

theorem capless_takeBranch (b : Branch) (condition : Bool) : Capless (takeBranch b condition) := by
  unfold takeBranch
  split
  · exact capless_pure _
  split
  · exact capless_returnValue 0
  · exact capless_returnValue 1
  · exact capless_then (capless_setPc _) _

theorem capless_branch (ins : Instruction) (condition : Bool) : Capless (branch ins condition) := by
  unfold branch
  split
  · exact capless_takeBranch _ condition
  · exact capless_pure _

theorem capless_store (ins : Instruction) (value : UInt16) : Capless (store ins value) :=
  capless_then (capless_storeResult ins.store value) _

theorem capless_storeAndBranch (ins : Instruction) (value : UInt16) (condition : Bool) :
    Capless (storeAndBranch ins value condition) :=
  capless_bind (capless_storeResult ins.store value) fun _ => capless_branch ins condition

theorem capless_printAndReturn (text : String) : Capless (printAndReturn text) := by
  apply capless_bind (capless_returnValue 1)
  intro flow
  apply capless_bind (capless_print _)
  intro printed
  split <;> exact capless_pure _

/-! ## Saving and restoring -/

theorem capless_deliveryOf (ins : Instruction) : Capless (deliveryOf ins) := by
  unfold deliveryOf
  split
  · exact capless_pure _
  · exact capless_pure _
  · exact capless_fault _

theorem capless_deliver (delivery : Delivery) (value : UInt16) :
    Capless (deliver delivery value) := by
  cases delivery with
  | store code => exact capless_then (capless_writeVariable code value) _
  | branch b => exact capless_takeBranch b _

theorem capless_save (ins : Instruction) (values : List UInt16) : Capless (save ins values) := by
  apply capless_bind (capless_deliveryOf ins)
  intro delivery
  split
  · exact capless_get_of_forall (fun _ _ => rfl) fun _ => capless_suspend _ _
  · exact capless_deliver delivery 0

theorem capless_restore (ins : Instruction) (values : List UInt16) :
    Capless (restore ins values) := by
  apply capless_bind (capless_deliveryOf ins)
  intro delivery
  split
  · exact capless_suspend _ _
  · exact capless_deliver delivery 0

/-- The header of a restored machine is set up from the other options. -/
theorem withSnapshot_withCap (m : Machine) (cap : Nat) (s : Snapshot) :
    (m.withCap cap).withSnapshot s = (m.withSnapshot s).withCap cap := by
  have hheader : ∀ memory, setUpHeader (m.withCap cap).config m.version memory
      = setUpHeader m.config m.version memory := fun _ => rfl
  unfold withSnapshot
  dsimp only
  rw [← hheader]
  rfl

theorem capless_restoreSnapshot (s : Snapshot) : Capless (restoreSnapshot s) := by
  apply capless_bind (capless_modify fun m cap => withSnapshot_withCap m cap s)
  intro _
  apply capless_get_of_forall fun _ _ => rfl
  intro m
  split
  · exact capless_bind (capless_setPc _) fun _ => capless_then (capless_writeVariable _ _) _
  · apply capless_bind (capless_setPc _)
    intro _
    apply capless_bind (capless_takeBranch _ _)
    intro flow
    split <;> exact capless_pure _

theorem capless_restoreUndo (store : Option UInt8) : Capless (restoreUndo store) := by
  apply capless_get
  intro m cap
  have hundo : (m.withCap cap).undo = m.undo := rfl
  rw [hundo]
  cases m.undo.pop? with
  | none => exact capless_then (capless_storeResult store 0) Flow.next m cap
  | some p =>
      dsimp only
      rw [run_set_bind, run_set_bind]
      exact capless_restoreSnapshot p.1 { m with undo := p.2 } cap

/-! ## Instructions -/

theorem capless_change {f : Machine → Memory} (hf : ∀ m cap, f (m.withCap cap) = f m) :
    Capless (change f) := by
  refine capless_then (capless_modify fun m cap => ?_) Flow.next
  rw [hf]
  rfl

theorem capless_change? {f : Machine → Option Memory} (hf : ∀ m cap, f (m.withCap cap) = f m) :
    Capless (change? f) := by
  apply capless_get
  intro m cap
  rw [hf]
  cases f m <;> rfl

theorem capless_putProp (object property value : UInt16) :
    Capless (do
      let m ← get
      let memory ← orFault (m.objects.putProp m.memory object property value)
      set { m with memory }
      return Flow.next) := by
  apply capless_get
  intro m cap
  have hput : (m.withCap cap).objects.putProp (m.withCap cap).memory object property value
      = m.objects.putProp m.memory object property value := rfl
  rw [hput]
  cases m.objects.putProp m.memory object property value <;> rfl

theorem capless_executeWith (ins : Instruction) (v : List UInt16) :
    Capless (executeWith ins v) := by
  unfold executeWith
  dsimp only
  cases ins.op
  -- operations that do the same with different values go together
  case je | jl | jg | jz | test => exact capless_branch ins _
  case checkArgCount | jin | testAttr | verify =>
    exact capless_get_of_forall (fun _ _ => rfl) fun m => capless_branch ins _
  case incChk | decChk =>
    exact capless_bind (capless_adjust _ _) fun value => capless_branch ins _
  case jump => exact capless_jump _
  case add | sub | mul | or | and | not | logShift | artShift | checkUnicode | setFont | gestalt =>
    exact capless_store ins _
  case div | mod =>
    dsimp only
    split
    · exact capless_fault _
    · exact capless_store ins _
  case store => exact capless_then (capless_writeIndirect _ _) _
  case load => exact capless_bind (capless_readIndirect _) fun value => capless_store ins value
  case inc | dec => exact capless_then (capless_adjust _ _) _
  case push => exact capless_then (capless_pushStack _) _
  case pull =>
    exact capless_bind (capless_popStack _) fun value =>
      capless_then (capless_writeIndirect _ value) _
  case pop => exact capless_then (capless_popStack _) _
  case loadw | loadb | catchFrame | getParent | getProp | getPropAddr | getPropLen =>
    exact capless_get_of_forall (fun _ _ => rfl) fun m => capless_store ins _
  case getNextProp =>
    exact capless_get_of_forall (fun _ _ => rfl) fun m =>
      capless_bind (capless_orFault _) fun next => capless_store ins next
  case storew | storeb | copyTable | setAttr | clearAttr | tokenise | encodeText =>
    exact capless_change fun _ _ => rfl
  case insertObj | removeObj => exact capless_change? fun _ _ => rfl
  case putProp => exact capless_putProp _ _ _
  case scanTable | getSibling | getChild =>
    exact capless_get_of_forall (fun _ _ => rfl) fun m => capless_storeAndBranch ins _ _
  case call1s | call1n | call2s | call2n | callVs | callVs2 | callVn | callVn2 =>
    exact capless_callPacked ins v
  case ret | rtrue | rfalse => exact capless_returnValue _
  case retPopped => exact capless_bind (capless_popStack _) fun value => capless_returnValue value
  case throwFrame => exact capless_throwTo _ _
  case print | newLine | printNum | printUnicode => exact capless_print _
  case printRet => exact capless_printAndReturn _
  case printAddr => exact capless_printAt _
  case printPaddr => exact capless_get_of_forall (fun _ _ => rfl) fun m => capless_printAt _
  case printObj => exact capless_printObject _
  case printChar => exact capless_printZscii _
  case printTable => exact capless_get_of_forall (fun _ _ => rfl) fun m => capless_raise _
  case outputStream => exact capless_then (capless_selectStream _ _) _
  case read => exact capless_get_of_forall (fun _ _ => rfl) fun m => capless_startInput _
  case readChar =>
    dsimp only
    split
    · exact capless_get_of_forall (fun _ _ => rfl) fun m => capless_startInput _
    · exact capless_pure _
  case showStatus | nop => exact capless_pure _
  case splitWindow | setWindow | eraseWindow | eraseLine | setCursor | setTextStyle | setColour
      | bufferMode | inputStream | soundEffect | restart =>
    exact capless_raise _
  case getCursor => exact capless_suspend _ _
  case save => exact capless_save ins v
  case restore => exact capless_restore ins v
  case saveUndo =>
    have hsave : Capless (saveUndo ins.operandsEnd) := fun _ _ => rfl
    exact capless_bind hsave fun result => capless_store ins result
  case restoreUndo => exact capless_restoreUndo _
  case quit => exact capless_bind (capless_modify fun _ _ => rfl) fun _ => capless_raise _
  case piracy =>
    dsimp only
    split
    · exact capless_suspend _ _
    · exact capless_pure _
  case random =>
    have hdraw : ∀ arg, Capless (drawRandom arg) := fun _ _ _ => rfl
    exact capless_bind (hdraw _) fun value => capless_store ins value

/-- **No instruction looks at the iteration cap.** -/
theorem capless_execute (ins : Instruction) : Capless (execute ins) :=
  capless_bind (capless_operandValues ins.operands) fun values => capless_executeWith ins values

/-! ## Left over work -/

theorem capless_interrupt (routine : UInt16) (input : PendingInput) :
    Capless (interrupt routine input) := by
  apply capless_get
  intro m cap
  have hrequest : (m.withCap cap).inputRequest input = m.inputRequest input := by
    cases input <;> rfl
  rw [hrequest]
  by_cases hparked : m.parked.isSome
  · rw [if_pos hparked, if_pos (by exact hparked)]
    rfl
  · rw [if_neg hparked, if_neg (by exact hparked)]
    exact capless_call _ [] fromInterrupt none
      { m with parked := some { input, request := m.inputRequest input, pc := m.pc } } cap

theorem capless_resumeInput (input : PendingInput) : Capless (resumeInput input) := by
  apply capless_get_of_forall
  · intro m cap
    cases input <;> rfl
  · intro m
    dsimp only
    split
    · exact capless_interrupt _ input
    · exact capless_then (capless_finishInput input _ _) _

theorem capless_resumeRestore (delivery : Delivery) : Capless (resumeRestore delivery) := by
  apply capless_get_of_forall fun _ _ => rfl
  intro m
  split
  · split
    · exact capless_restoreSnapshot _
    · exact capless_deliver delivery 0
  · exact capless_deliver delivery 0

theorem capless_resume (completion : Completion) : Capless (resume completion) := by
  unfold resume
  cases completion with
  | printLeftovers text => exact capless_then (capless_emit text) _
  | input input => exact capless_resumeInput input
  | save delivery => exact capless_get_of_forall (fun _ _ => rfl) fun _ => capless_deliver delivery _
  | restore delivery => exact capless_resumeRestore delivery
  | piracy b => exact capless_get_of_forall (fun _ _ => rfl) fun _ => capless_takeBranch b _
  | getCursor table => exact capless_then (capless_modify fun _ _ => rfl) _

/-- **Nor does the work left over by a request.** -/
theorem capless_leftover (completion : Option Completion) :
    Capless (Moment.leftover completion) := by
  have hclear : Capless clearReplies := capless_modify fun _ _ => rfl
  have hwork : ∀ x : Exec Flow, Capless x → Capless (do
      let flow ← x
      clearReplies
      return flow) :=
    fun x hx => capless_bind hx fun flow => capless_then hclear flow
  unfold Moment.leftover
  cases completion with
  | none => exact hwork (pure .next) (capless_pure _)
  | some completion => exact hwork (resume completion) (capless_resume completion)

/-! ## Blocks -/

theorem capless_fetchBlock : Capless fetchBlock := by
  intro m cap
  rw [fetchBlock_run, fetchBlock_run]
  dsimp only [withCap]
  cases m.blocks.fetch m.codec m.memory m.pc <;> rfl

theorem capless_runInstructions (rest : List Instruction) : Capless (runInstructions rest) := by
  induction rest with
  | nil => exact capless_pure _
  | cons ins rest ih =>
      apply capless_bind (capless_setPc ins.next)
      intro _
      apply capless_bind (capless_execute ins)
      intro flow
      cases flow with
      | next => exact ih
      | jump => exact capless_pure _
      | suspend => exact capless_pure _

end Machine
end ZMachine
