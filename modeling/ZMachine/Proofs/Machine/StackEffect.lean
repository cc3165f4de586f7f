/-
# What actions do to the stack

Most actions either leave the stack alone or edit it within the running routines:

* `Quiet` : stack, undo history and program counter are as before;
* `Stays` : the stack has been edited, and every new snapshot of the undo history holds a stack on
  the way.

Both are stated of the machine before and after, and hold whether or not the action stops half way.
What is left are returns from routines and restores.
-/
import ZMachine.Machine.Run
import ZMachine.Proofs.CallStack
import ZMachine.Proofs.Machine.Exec

namespace ZMachine
namespace Machine

open CallStack (Edit Edits)

variable {α β : Type}

/-! ## Quiet actions -/

/-- Stack, undo history and program counter are as before. -/
structure Quiet (m m' : Machine) : Prop where
  stack : m'.stack = m.stack
  undo : m'.undo = m.undo
  pc : m'.pc = m.pc

theorem Quiet.refl (m : Machine) : Quiet m m :=
  ⟨rfl, rfl, rfl⟩

theorem Quiet.trans {m₁ m₂ m₃ : Machine} (h : Quiet m₁ m₂) (h' : Quiet m₂ m₃) : Quiet m₁ m₃ :=
  ⟨h'.stack.trans h.stack, h'.undo.trans h.undo, h'.pc.trans h.pc⟩

theorem quiet_pure (a : α) : Relates Quiet (pure a : Exec α) :=
  fun m => Quiet.refl m

theorem quiet_bind {x : Exec α} {f : α → Exec β} (hx : Relates Quiet x)
    (hf : ∀ a, Relates Quiet (f a)) : Relates Quiet (x >>= f) :=
  relates_bind_self (fun _ _ _ h h' => h.trans h') hx hf

theorem quiet_modify {f : Machine → Machine} (h : ∀ m, Quiet m (f m)) :
    Relates Quiet (modify f : Exec Unit) :=
  h

theorem quiet_fault (f : Fault) : Relates Quiet (fault f : Exec α) :=
  fun m => Quiet.refl m

theorem quiet_orFault (r : Except Fault α) : Relates Quiet (orFault r) := by
  cases r with
  | ok a => exact quiet_pure a
  | error f => exact quiet_fault f

theorem quiet_raise (request : Request) : Relates Quiet (raise request) :=
  fun _ => ⟨rfl, rfl, rfl⟩

theorem quiet_suspend (request : Request) (completion : Completion) :
    Relates Quiet (suspend request completion) :=
  fun _ => ⟨rfl, rfl, rfl⟩

/-! ### Printing -/

theorem quiet_emitText (m : Machine) (text : String) : Quiet m (m.emitText text) := by
  unfold emitText
  split <;> exact ⟨rfl, rfl, rfl⟩

theorem quiet_emit (text : String) : Relates Quiet (emit text) :=
  fun m => quiet_emitText m text

theorem quiet_print (text : String) : Relates Quiet (print text) := by
  apply relates_get
  intro m
  dsimp only
  split
  · exact ⟨rfl, rfl, rfl⟩
  · exact quiet_emitText m text

theorem quiet_printZscii (code : UInt16) : Relates Quiet (printZscii code) := by
  have hunless (p : Prop) [Decidable p] (f : Fault) {x : Exec Flow} (hx : Relates Quiet x) :
      Relates Quiet (if p then fault f >>= fun (_ : PUnit) => x else x) := by
    split
    · exact quiet_bind (quiet_fault f) fun _ => hx
    · exact hx
  apply hunless
  apply relates_get_of_forall
  intro m
  split
  · exact quiet_print _
  · exact quiet_pure _

theorem quiet_printUnicode (code : UInt16) : Relates Quiet (printUnicode code) :=
  quiet_print _

theorem quiet_decodeText (address : Nat) : Relates Quiet (decodeText address) :=
  fun _ => ⟨rfl, rfl, rfl⟩

theorem quiet_printAt (address : Nat) : Relates Quiet (printAt address) :=
  quiet_bind (quiet_decodeText address) fun text => quiet_print text

/-! ### Streams, memory and the screen -/

theorem quiet_openTable (table : Nat) : Relates Quiet (openTable table) := by
  apply relates_get
  intro m
  dsimp only
  split <;> exact ⟨rfl, rfl, rfl⟩

theorem quiet_closeTable : Relates Quiet closeTable := by
  apply relates_get
  intro m
  dsimp only
  split <;> exact ⟨rfl, rfl, rfl⟩

theorem quiet_selectStream (number : Int) (table : Nat) :
    Relates Quiet (selectStream number table) := by
  have hmodify : ∀ f : Machine → OutputStreams,
      Relates Quiet (modify fun m => { m with streams := f m } : Exec Unit) :=
    fun f => quiet_modify fun m => ⟨rfl, rfl, rfl⟩
  unfold selectStream
  split
  · exact quiet_pure ()
  split
  · exact hmodify _
  split
  · exact quiet_modify fun m => ⟨rfl, rfl, rfl⟩
  split
  · exact quiet_openTable table
  split
  · exact quiet_closeTable
  split
  · exact hmodify _
  · exact quiet_fault _

theorem quiet_change (f : Machine → Memory) : Relates Quiet (change f) :=
  fun _ => ⟨rfl, rfl, rfl⟩

theorem quiet_change? (f : Machine → Option Memory) : Relates Quiet (change? f) := by
  apply relates_get
  intro m
  split <;> exact ⟨rfl, rfl, rfl⟩

theorem quiet_putProp (object property value : UInt16) :
    Relates Quiet (do
      let m ← get
      let memory ← orFault (m.objects.putProp m.memory object property value)
      set { m with memory }
      return Flow.next) := by
  apply relates_get
  intro m
  cases m.objects.putProp m.memory object property value <;> exact ⟨rfl, rfl, rfl⟩

theorem quiet_printObject (object : UInt16) : Relates Quiet (printObject object) := by
  apply relates_get_of_forall
  intro m
  split
  · exact quiet_pure _
  · exact quiet_printAt _

theorem quiet_drawRandom (arg : Int) : Relates Quiet (drawRandom arg) :=
  fun _ => ⟨rfl, rfl, rfl⟩

theorem quiet_startInput (input : PendingInput) : Relates Quiet (startInput input) :=
  fun _ => ⟨rfl, rfl, rfl⟩

theorem quiet_deliveryOf (ins : Instruction) : Relates Quiet (deliveryOf ins) := by
  unfold deliveryOf
  split
  · exact quiet_pure _
  · exact quiet_pure _
  · exact quiet_fault _

theorem quiet_fetchBlock : Relates Quiet fetchBlock := by
  apply relates_get
  intro m
  cases m.blocks.fetch m.codec m.memory m.pc <;> exact ⟨rfl, rfl, rfl⟩

/-! ## Actions that stay in their routine -/

/-- The stack has been edited, and every new snapshot holds a stack on the way. -/
structure Stays (m m' : Machine) : Prop where
  stack : Edits m.stack m'.stack
  undo : ∀ s ∈ m'.undo.entries, s ∈ m.undo.entries ∨ Edits m.stack s.stack

theorem Stays.trans {m₁ m₂ m₃ : Machine} (h : Stays m₁ m₂) (h' : Stays m₂ m₃) : Stays m₁ m₃ where
  stack := h.stack.trans h'.stack
  undo s hs := by
    rcases h'.undo s hs with hs | hs
    · exact h.undo s hs
    · exact Or.inr (h.stack.trans hs)

/-- Edits of the stack that leave the undo history alone. -/
theorem Stays.of_edits {m m' : Machine} (hstack : Edits m.stack m'.stack)
    (hundo : m'.undo = m.undo) : Stays m m' := by
  refine ⟨hstack, fun s hs => ?_⟩
  rw [hundo] at hs
  exact Or.inl hs

/-- A machine that differs in other parts than stack and undo history. -/
theorem Stays.of_eq {m m' : Machine} (hstack : m'.stack = m.stack) (hundo : m'.undo = m.undo) :
    Stays m m' := by
  apply Stays.of_edits _ hundo
  rw [hstack]

theorem Stays.refl (m : Machine) : Stays m m :=
  Stays.of_eq rfl rfl

theorem Quiet.stays {m m' : Machine} (h : Quiet m m') : Stays m m' :=
  Stays.of_eq h.stack h.undo

/-- Quiet actions stay. -/
theorem stays_of_quiet {x : Exec α} (h : Relates Quiet x) : Relates Stays x :=
  h.mono fun _ _ hm => hm.stays

theorem stays_pure (a : α) : Relates Stays (pure a : Exec α) :=
  stays_of_quiet (quiet_pure a)

theorem stays_bind {x : Exec α} {f : α → Exec β} (hx : Relates Stays x)
    (hf : ∀ a, Relates Stays (f a)) : Relates Stays (x >>= f) :=
  relates_bind_self (fun _ _ _ h h' => h.trans h') hx hf

theorem stays_setPc (pc : Nat) : Relates Stays (setPc pc) :=
  fun _ => Stays.of_eq rfl rfl

/-! ### Variables -/

theorem stays_popStack (address : Nat) : Relates Stays (popStack address) := by
  apply relates_get
  intro m
  cases hpop : m.stack.pop? with
  | none =>
      dsimp only
      exact Stays.refl m
  | some p => exact Stays.of_edits (Relation.ReflTransGen.single (Edit.pop hpop)) rfl

theorem stays_pushStack (value : UInt16) : Relates Stays (pushStack value) := by
  intro m
  exact Stays.of_edits (Relation.ReflTransGen.single (Edit.push m.stack value)) rfl

theorem stays_withNamedVariable (m : Machine) (code : UInt8) (value : UInt16) :
    Stays m (m.withNamedVariable code value) := by
  unfold withNamedVariable
  split
  · exact Stays.of_edits (Relation.ReflTransGen.single (Edit.setLocal m.stack _ value)) rfl
  · exact Stays.of_eq rfl rfl

theorem stays_readVariable (code : UInt8) : Relates Stays (readVariable code) := by
  apply relates_get_of_forall
  intro m
  split
  · exact stays_popStack m.pc
  · exact stays_pure _

theorem stays_writeVariable (code : UInt8) (value : UInt16) :
    Relates Stays (writeVariable code value) := by
  unfold writeVariable
  split
  · exact stays_pushStack value
  · intro m
    exact stays_withNamedVariable m code value

theorem stays_readIndirect (code : UInt8) : Relates Stays (readIndirect code) := by
  apply relates_get
  intro m
  split
  · split <;> exact Stays.refl m
  · exact Stays.refl m

theorem stays_writeIndirect (code : UInt8) (value : UInt16) :
    Relates Stays (writeIndirect code value) := by
  apply relates_get
  intro m
  split
  · split
    · rename_i s htop
      exact Stays.of_edits (Relation.ReflTransGen.single (Edit.setTop htop)) rfl
    · exact Stays.refl m
  · exact stays_withNamedVariable m code value

theorem stays_storeResult (store : Option UInt8) (value : UInt16) :
    Relates Stays (storeResult store value) := by
  cases store with
  | none => exact stays_pure ()
  | some code => exact stays_writeVariable code value

/-- Storing a result does what `receive` says, and nothing to undo history and program counter. -/
theorem storeResult_run (result : Option UInt8) (value : UInt16) (m : Machine) :
    ((storeResult result value).run m).2.stack = m.stack.receive result value ∧
      ((storeResult result value).run m).2.undo = m.undo ∧
      ((storeResult result value).run m).2.pc = m.pc := by
  cases result with
  | none => exact ⟨rfl, rfl, rfl⟩
  | some code =>
      unfold storeResult writeVariable CallStack.receive
      dsimp only
      split
      · exact ⟨rfl, rfl, rfl⟩
      · rw [run_modify]
        unfold withNamedVariable
        split <;> exact ⟨rfl, rfl, rfl⟩

theorem stays_adjust (code : UInt8) (amount : UInt16) : Relates Stays (adjust code amount) := by
  apply stays_bind (stays_readIndirect code)
  intro value
  apply stays_bind (stays_writeIndirect code _)
  intro _
  exact stays_pure _

theorem stays_operandValue (operand : Operand) : Relates Stays (operandValue operand) := by
  cases operand with
  | large value => exact stays_pure value
  | small value => exact stays_pure _
  | var code => exact stays_readVariable code

theorem stays_operandValues (operands : List Operand) :
    Relates Stays (operandValues operands) := by
  induction operands with
  | nil => exact stays_pure []
  | cons operand rest ih =>
      apply stays_bind (stays_operandValue operand)
      intro value
      apply stays_bind ih
      intro values
      exact stays_pure _

/-! ### Input, calls and undo -/

/-- Finishing an input does to the stack what storing its result does. -/
theorem finishInput_run (input : PendingInput) (terminator : Int) (line : String) (m : Machine) :
    ∃ result value,
      ((finishInput input terminator line).run m).2.stack = m.stack.receive result value ∧
      ((finishInput input terminator line).run m).2.undo = m.undo := by
  cases input with
  | line textBuffer parseBuffer store timeout routine =>
      refine ⟨store, terminatorWord terminator, ?_⟩
      have hstore : ∀ m₁ : Machine, m₁.stack = m.stack → m₁.undo = m.undo →
          ((storeResult store (terminatorWord terminator)).run m₁).2.stack
            = m.stack.receive store (terminatorWord terminator) ∧
          ((storeResult store (terminatorWord terminator)).run m₁).2.undo = m.undo := by
        intro m₁ hstack hundo
        obtain ⟨hstack₁, hundo₁, -⟩ := storeResult_run store (terminatorWord terminator) m₁
        rw [hstack₁, hundo₁, hstack, hundo]
        exact ⟨rfl, rfl⟩
      unfold finishInput
      dsimp only
      split
      · exact hstore _ rfl rfl
      · exact hstore _ rfl rfl
  | char store timeout routine =>
      obtain ⟨hstack, hundo, -⟩ := storeResult_run (some store) (Word.ofInt (terminator % 1024)) m
      exact ⟨some store, _, hstack, hundo⟩

theorem stays_finishInput (input : PendingInput) (terminator : Int) (line : String) :
    Relates Stays (finishInput input terminator line) := by
  intro m
  obtain ⟨result, value, hstack, hundo⟩ := finishInput_run input terminator line m
  apply Stays.of_edits _ hundo
  rw [hstack]
  exact CallStack.edits_receive m.stack result value

/-- Ending a timed input does to the stack that its routine has left what storing a result does. -/
theorem finishInterrupt_run (value : UInt16) (m : Machine) :
    ∃ result stored,
      ((finishInterrupt value).run m).2.stack = m.stack.receive result stored ∧
      ((finishInterrupt value).run m).2.undo = m.undo := by
  have hnone : ∀ m₁ : Machine, m₁.stack = m.stack → m₁.undo = m.undo →
      ∃ result stored, m₁.stack = m.stack.receive result stored ∧ m₁.undo = m.undo :=
    fun m₁ hstack hundo => ⟨none, 0, hstack, hundo⟩
  unfold finishInterrupt
  rw [run_bind, run_get]
  dsimp only
  split
  · exact hnone _ rfl rfl
  · rename_i parked hparked
    rw [run_set_bind]
    split
    · exact hnone _ rfl rfl
    · have hrun : ∀ m₁ : Machine, ((do
          modify fun m => { m with replies := [] }
          finishInput parked.input 0 ""
          return Flow.jump : Exec Flow).run m₁).2
            = ((finishInput parked.input 0 "").run { m₁ with replies := [] }).2 :=
        fun m₁ => run_bind_pure_snd _ _ _
      rw [hrun]
      exact finishInput_run parked.input 0 "" _

/-- The frame of a call starts at the top of the evaluation stack. -/
theorem edit_pushFrame_calleeFrame (m : Machine) (target : Nat) (args : List UInt16)
    (returnPc : Nat) (result : Option UInt8) :
    Edit m.stack (m.stack.pushFrame (m.calleeFrame target args returnPc result)) :=
  Edit.enter m.stack _ rfl (Nat.min_le_right _ _)

theorem stays_call (target : Nat) (args : List UInt16) (returnPc : Nat)
    (result : Option UInt8) : Relates Stays (call target args returnPc result) := by
  apply relates_get
  intro m
  split
  · exact stays_bind (stays_setPc returnPc)
      (fun _ => stays_bind (stays_storeResult result 0) fun _ => stays_pure Flow.jump) m
  split
  · exact Stays.refl m
  · exact Stays.of_edits
      (Relation.ReflTransGen.single (edit_pushFrame_calleeFrame m target args returnPc result)) rfl

theorem stays_callPacked (ins : Instruction) (values : List UInt16) :
    Relates Stays (callPacked ins values) :=
  relates_get_of_forall fun _ => stays_call _ _ _ _

theorem stays_interrupt (routine : UInt16) (input : PendingInput) :
    Relates Stays (interrupt routine input) := by
  apply relates_get
  intro m
  dsimp only
  split
  · exact Stays.refl m
  · rw [run_set_bind]
    refine Stays.trans ?_ (stays_call _ [] fromInterrupt none _)
    exact Stays.of_eq rfl rfl

theorem stays_resumeInput (input : PendingInput) : Relates Stays (resumeInput input) := by
  apply relates_get_of_forall
  intro m
  dsimp only
  split
  · exact stays_interrupt _ _
  · exact stays_bind (stays_finishInput _ _ _) fun _ => stays_pure _

/-- A new snapshot holds the stack as it is. -/
theorem stays_saveUndo (pc : Nat) : Relates Stays (saveUndo pc) := by
  apply relates_get
  intro m
  refine ⟨Relation.ReflTransGen.refl, fun s hs => ?_⟩
  have hentries : s ∈ (m.undo.push (m.snapshot pc)).2.entries := hs
  unfold History.push at hentries
  split at hentries
  · exact Or.inl hentries
  -- the new snapshot comes first, and the oldest one may be dropped
  · rcases List.mem_cons.mp (List.mem_of_mem_take hentries) with rfl | hs
    · exact Or.inr Relation.ReflTransGen.refl
    · exact Or.inl hs

theorem stays_store (ins : Instruction) (value : UInt16) : Relates Stays (store ins value) :=
  stays_bind (stays_storeResult ins.store value) fun _ => stays_pure _

theorem stays_jump (offset : Int) : Relates Stays (jump offset) := by
  apply relates_get
  intro m
  dsimp only
  split
  · exact Stays.refl m
  · exact Stays.of_eq rfl rfl

end Machine
end ZMachine
