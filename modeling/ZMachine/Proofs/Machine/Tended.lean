/-
# Timeout routines and parked inputs, action by action

While the routine of a timed input runs, the input is parked and a frame with the return address of
interrupts is on the stack.  The two belong together but are kept apart, so every action has to keep
them in step.

* `Tended` : there is one such frame while an input is parked, and none otherwise;
* `Tends` : an action keeps the machine tended, and its faults have nothing to do with interrupts;
* `tends_returnValue` : a return takes away the frame and the parked input together;
* `Tended.execute` : so do all instructions that do not throw past such a frame or restore one;
* `Tended.resume` : the work left over by a request, which alone begins an interrupt.
-/
import ZMachine.Proofs.Machine.CallIsolation
import ZMachine.Proofs.Machine.Control

namespace ZMachine

/-! ## Frames of timeout routines -/

namespace CallStack

/-- The number of frames that return from an interrupt. -/
def interruptFrames (s : CallStack) : Nat :=
  s.frames.countP fun f => f.returnPc = Machine.fromInterrupt

@[simp]
theorem interruptFrames_push (s : CallStack) (value : UInt16) :
    (s.push value).interruptFrames = s.interruptFrames := rfl

@[simp]
theorem interruptFrames_setLocal (s : CallStack) (index : Nat) (value : UInt16) :
    (s.setLocal index value).interruptFrames = s.interruptFrames := by
  unfold setLocal interruptFrames
  split
  · rfl
  · rename_i frame older hs
    simp [hs, List.countP_cons]

theorem interruptFrames_pop? {s s' : CallStack} {value : UInt16} (h : s.pop? = some (value, s')) :
    s'.interruptFrames = s.interruptFrames := by
  rw [(pop?_eq_some h).2]
  rfl

theorem interruptFrames_setTop? {s s' : CallStack} {value : UInt16}
    (h : s.setTop? value = some s') : s'.interruptFrames = s.interruptFrames := by
  rw [(setTop?_eq_some h).2]
  rfl

theorem interruptFrames_pushFrame (s : CallStack) (frame : Frame) :
    (s.pushFrame frame).interruptFrames
      = s.interruptFrames + if frame.returnPc = Machine.fromInterrupt then 1 else 0 := by
  simp [interruptFrames, pushFrame, List.countP_cons]

theorem interruptFrames_popFrame? {s s' : CallStack} {frame : Frame}
    (h : s.popFrame? = some (frame, s')) :
    s.interruptFrames
      = s'.interruptFrames + if frame.returnPc = Machine.fromInterrupt then 1 else 0 := by
  unfold interruptFrames
  rw [(popFrame?_eq_some h).1]
  simp [List.countP_cons]

end CallStack

/-- The fault of an interrupt that returns to no input. -/
def Fault.noPendingInput : Fault :=
  .malformed "interrupt return with no pending input"

/-- A fault that has nothing to do with interrupts. -/
def Fault.Unrelated (f : Fault) : Prop :=
  f ≠ .nestedInterrupt ∧ f ≠ .noPendingInput

namespace Machine

variable {α β : Type}

/-- The routine of an input is not the null routine. -/
def RoutineFits (input : PendingInput) : Prop :=
  routineOf input ≠ some 0

/-- There is one frame of a timeout routine while an input is parked and none otherwise, and no
input that waits has the null routine. -/
structure Tended (m : Machine) : Prop where
  frames : m.stack.interruptFrames = if m.parked.isSome then 1 else 0
  parked : ∀ parked, m.parked = some parked → RoutineFits parked.input
  completion : ∀ input, m.completion = some (.input input) → RoutineFits input

/-- Other fields of the machine do not matter. -/
theorem Tended.same {m m' : Machine} (h : m.Tended) (hstack : m'.stack = m.stack)
    (hparked : m'.parked = m.parked) (hcompletion : m'.completion = m.completion) : m'.Tended := by
  refine ⟨?_, ?_, ?_⟩
  · rw [hstack, hparked]
    exact h.frames
  · rw [hparked]
    exact h.parked
  · rw [hcompletion]
    exact h.completion

theorem Tended.withStack {m : Machine} (h : m.Tended) {stack : CallStack}
    (hframes : stack.interruptFrames = m.stack.interruptFrames) : Tended { m with stack } :=
  ⟨hframes.trans h.frames, h.parked, h.completion⟩

/-- The machine that is left is tended, and a fault has nothing to do with interrupts. -/
def LeavesTended (r : Except Stop α × Machine) : Prop :=
  r.2.Tended ∧ ∀ f, r.1 = .error (.fault f) → f.Unrelated

/-- An action leaves tended machines tended, also if it stops. -/
def Tends (x : Exec α) : Prop :=
  ∀ m, Tended m → LeavesTended (x.run m)

/-! ## Actions one after another -/

theorem tends_pure (a : α) : Tends (pure a : Exec α) :=
  fun _ hm => ⟨hm, nofun⟩

theorem tends_fault {f : Fault} (h : f.Unrelated) : Tends (fault f : Exec α) := by
  intro m hm
  refine ⟨hm, fun f' hf' => ?_⟩
  cases hf'
  exact h

theorem LeavesTended.bind {x : Exec α} {f : α → Exec β} {m : Machine} (hx : LeavesTended (x.run m))
    (hf : ∀ a m₁, x.run m = (.ok a, m₁) → m₁.Tended → LeavesTended ((f a).run m₁)) :
    LeavesTended ((x >>= f).run m) := by
  rw [run_bind]
  revert hx hf
  rcases x.run m with ⟨e | a, m₁⟩
  · rintro ⟨hm₁, hfault⟩ -
    refine ⟨hm₁, fun f' hf' => hfault f' ?_⟩
    cases hf'
    rfl
  · rintro ⟨hm₁, -⟩ hf
    exact hf a m₁ rfl hm₁

theorem tends_bind {x : Exec α} {f : α → Exec β} (hx : Tends x) (hf : ∀ a, Tends (f a)) :
    Tends (x >>= f) :=
  fun m hm => (hx m hm).bind fun a m₁ _ hm₁ => hf a m₁ hm₁

theorem tends_get {f : Machine → Exec β}
    (h : ∀ m, Tended m → LeavesTended ((f m).run m)) : Tends (get >>= f) :=
  h

theorem tends_get_of_forall {f : Machine → Exec β} (h : ∀ m, Tends (f m)) : Tends (get >>= f) :=
  tends_get fun m hm => h m m hm

theorem tends_modify {g : Machine → Machine} (h : ∀ m, Tended m → (g m).Tended) :
    Tends (modify g : Exec Unit) :=
  fun m hm => ⟨h m hm, nofun⟩

theorem tends_setPc (pc : Nat) : Tends (setPc pc) :=
  tends_modify fun _ hm => hm.same rfl rfl rfl

/-! ## Variables -/

theorem tends_popStack (address : Nat) : Tends (popStack address) := by
  apply tends_get
  intro m hm
  cases hpop : m.stack.pop? with
  | none => exact tends_fault (f := .stackUnderflow address) ⟨nofun, nofun⟩ m hm
  | some p => exact ⟨hm.withStack (CallStack.interruptFrames_pop? hpop), nofun⟩

theorem tends_pushStack (value : UInt16) : Tends (pushStack value) :=
  tends_modify fun m hm => hm.withStack (m.stack.interruptFrames_push value)

theorem Tended.withNamedVariable {m : Machine} (hm : m.Tended) (code : UInt8) (value : UInt16) :
    (m.withNamedVariable code value).Tended := by
  unfold Machine.withNamedVariable
  split
  · exact hm.withStack (m.stack.interruptFrames_setLocal _ value)
  · exact hm.same rfl rfl rfl

theorem tends_readVariable (code : UInt8) : Tends (readVariable code) := by
  apply tends_get_of_forall
  intro m
  split
  · exact tends_popStack m.pc
  · exact tends_pure _

theorem tends_writeVariable (code : UInt8) (value : UInt16) : Tends (writeVariable code value) := by
  unfold writeVariable
  split
  · exact tends_pushStack value
  · exact tends_modify fun m hm => hm.withNamedVariable code value

theorem tends_readIndirect (code : UInt8) : Tends (readIndirect code) := by
  apply tends_get_of_forall
  intro m
  split
  · split
    · exact tends_pure _
    · exact tends_fault ⟨nofun, nofun⟩
  · exact tends_pure _

theorem tends_writeIndirect (code : UInt8) (value : UInt16) : Tends (writeIndirect code value) := by
  apply tends_get
  intro m hm
  split
  · split
    · rename_i s htop
      exact ⟨hm.withStack (CallStack.interruptFrames_setTop? htop), nofun⟩
    · exact tends_fault (f := .stackUnderflow m.pc) ⟨nofun, nofun⟩ m hm
  · exact ⟨hm.withNamedVariable code value, nofun⟩

theorem tends_storeResult (store : Option UInt8) (value : UInt16) :
    Tends (storeResult store value) := by
  cases store with
  | none => exact tends_pure ()
  | some code => exact tends_writeVariable code value

theorem tends_adjust (code : UInt8) (amount : UInt16) : Tends (adjust code amount) :=
  tends_bind (tends_readIndirect code) fun _ =>
    tends_bind (tends_writeIndirect code _) fun _ => tends_pure _

theorem tends_operandValue (operand : Operand) : Tends (operandValue operand) := by
  cases operand with
  | large value => exact tends_pure value
  | small value => exact tends_pure _
  | var code => exact tends_readVariable code

theorem tends_operandValues (operands : List Operand) : Tends (operandValues operands) := by
  induction operands with
  | nil => exact tends_pure []
  | cons operand rest ih =>
      exact tends_bind (tends_operandValue operand) fun _ => tends_bind ih fun _ => tends_pure _

theorem tends_store (ins : Instruction) (value : UInt16) : Tends (store ins value) :=
  tends_bind (tends_storeResult ins.store value) fun _ => tends_pure _

/-! ## Memory, text and the host -/

theorem tends_change (f : Machine → Memory) : Tends (change f) :=
  tends_bind (tends_modify fun _ hm => hm.same rfl rfl rfl) fun _ => tends_pure _

theorem tends_change? (f : Machine → Option Memory) : Tends (change? f) := by
  apply tends_get
  intro m hm
  split
  · exact ⟨hm.same rfl rfl rfl, nofun⟩
  · exact ⟨hm, nofun⟩

theorem tends_raise (request : Request) : Tends (raise request) :=
  tends_bind (tends_modify fun _ hm => hm.same rfl rfl rfl) fun _ => tends_pure _

theorem tends_suspend (request : Request) {completion : Completion}
    (h : ∀ input, completion = .input input → RoutineFits input) :
    Tends (suspend request completion) := by
  refine tends_bind (tends_modify fun m hm => ⟨hm.frames, hm.parked, ?_⟩) fun _ =>
    tends_raise request
  rintro input hinput
  exact h input (Option.some.inj hinput)

theorem Tended.emitText {m : Machine} (hm : m.Tended) (text : String) :
    (m.emitText text).Tended := by
  unfold Machine.emitText
  split <;> exact hm.same rfl rfl rfl

theorem tends_print (text : String) : Tends (print text) := by
  apply tends_get
  intro m hm
  dsimp only
  split
  · exact ⟨⟨hm.frames, hm.parked, nofun⟩, nofun⟩
  · exact ⟨hm.emitText text, nofun⟩

theorem tends_printChar (code : Nat) : Tends (do
    match Zscii.char? (← get).codec.charset.extra code with
    | some ch => print (String.singleton ch)
    | none => return Flow.next : Exec Flow) := by
  apply tends_get_of_forall
  intro m
  split
  · exact tends_print _
  · exact tends_pure _

theorem tends_printZscii (code : UInt16) : Tends (printZscii code) := by
  have hillegal : (Fault.illegalCharacter code.toNat).Unrelated := by
    constructor <;> rintro ⟨⟩
  unfold printZscii
  split
  · exact tends_bind (tends_fault hillegal) fun (_ : PUnit) => tends_printChar _
  · exact tends_printChar _

theorem tends_printAt (address : Nat) : Tends (printAt address) := by
  refine tends_bind ?_ fun text => tends_print text
  exact tends_get fun m hm => ⟨hm.same rfl rfl rfl, nofun⟩

theorem tends_printObject (object : UInt16) : Tends (printObject object) := by
  apply tends_get_of_forall
  intro m
  split
  · exact tends_pure _
  · exact tends_printAt _

theorem tends_selectStream (number : Int) (table : Nat) : Tends (selectStream number table) := by
  have hmodify : ∀ g : Machine → Machine, (∀ m, (g m).stack = m.stack) →
      (∀ m, (g m).parked = m.parked) → (∀ m, (g m).completion = m.completion) →
      Tends (modify g : Exec Unit) := by
    intro g hstack hparked hcompletion
    exact tends_modify fun m hm => hm.same (hstack m) (hparked m) (hcompletion m)
  unfold selectStream
  split_ifs
  · exact tends_pure ()
  · exact hmodify _ (fun _ => rfl) (fun _ => rfl) fun _ => rfl
  · exact hmodify _ (fun _ => rfl) (fun _ => rfl) fun _ => rfl
  · apply tends_get
    intro m hm
    dsimp only
    split
    · exact tends_fault (f := .streamOverflow) ⟨nofun, nofun⟩ m hm
    · exact ⟨hm.same rfl rfl rfl, nofun⟩
  · apply tends_get
    intro m hm
    split
    · exact tends_fault (f := .streamUnderflow) ⟨nofun, nofun⟩ m hm
    · exact ⟨hm.same rfl rfl rfl, nofun⟩
  · exact hmodify _ (fun _ => rfl) (fun _ => rfl) fun _ => rfl
  · exact tends_fault ⟨nofun, nofun⟩

theorem tends_jump (offset : Int) : Tends (jump offset) := by
  apply tends_get
  intro m hm
  dsimp only
  split
  · exact tends_fault (f := .pcOutOfRange _ _) ⟨nofun, nofun⟩ m hm
  · exact ⟨hm.same rfl rfl rfl, nofun⟩

theorem tends_drawRandom (arg : Int) : Tends (drawRandom arg) :=
  tends_get fun _ hm => ⟨hm.same rfl rfl rfl, nofun⟩

theorem tends_saveUndo (pc : Nat) : Tends (saveUndo pc) :=
  tends_get fun _ hm => ⟨hm.same rfl rfl rfl, nofun⟩

theorem tends_finishInput (input : PendingInput) (terminator : Int) (line : String) :
    Tends (finishInput input terminator line) := by
  cases input with
  | line textBuffer parseBuffer store timeout routine =>
      have hmodify : ∀ f : Machine → Memory,
          Tends (modify fun m => { m with memory := f m } : Exec Unit) :=
        fun f => tends_modify fun _ hm => hm.same rfl rfl rfl
      have hstore := tends_storeResult store (terminatorWord terminator)
      refine tends_bind (hmodify _) fun _ => ?_
      split
      · exact tends_bind (hmodify _) fun _ => hstore
      · exact hstore
  | char store timeout routine => exact tends_writeVariable _ _

theorem tends_startInput {input : PendingInput} (h : RoutineFits input) :
    Tends (startInput input) := by
  apply tends_get_of_forall
  intro m
  apply tends_suspend
  rintro _ ⟨⟩
  exact h

theorem timeoutRoutine_ne_zero (m : Machine) (timeout routine : UInt16) :
    m.timeoutRoutine timeout routine ≠ some 0 := by
  unfold timeoutRoutine
  split
  · rename_i h
    exact fun hroutine => h.2.2 (Option.some.inj hroutine)
  · nofun

theorem tends_orFault {r : Except Fault α} (h : ∀ f, r = .error f → f.Unrelated) :
    Tends (orFault r) := by
  cases r with
  | ok a => exact tends_pure a
  | error f => exact tends_fault (h f rfl)

theorem unrelated_nextProp {t : ObjectTable} {m : Memory} {object number : UInt16} {f : Fault}
    (h : t.nextProp m object number = .error f) : f.Unrelated := by
  unfold ObjectTable.nextProp at h
  split at h
  · cases h
  · split at h <;> cases h
    exact ⟨nofun, nofun⟩

theorem unrelated_putProp {t : ObjectTable} {m : Memory} {object number value : UInt16} {f : Fault}
    (h : t.putProp m object number value = .error f) : f.Unrelated := by
  unfold ObjectTable.putProp at h
  split_ifs at h
  split at h
  · split_ifs at h
    cases h
    exact ⟨nofun, nofun⟩
  · cases h
    exact ⟨nofun, nofun⟩

theorem tends_putProp (object property value : UInt16) :
    Tends (do
      let m ← get
      let memory ← orFault (m.objects.putProp m.memory object property value)
      set { m with memory }
      return Flow.next) := by
  apply tends_get
  intro m hm
  cases hput : m.objects.putProp m.memory object property value with
  | error f => exact tends_fault (unrelated_putProp hput) m hm
  | ok memory => exact ⟨hm.same rfl rfl rfl, nofun⟩

theorem tends_deliveryOf (ins : Instruction) : Tends (deliveryOf ins) := by
  unfold deliveryOf
  split
  · exact tends_pure _
  · exact tends_pure _
  · refine tends_fault ⟨nofun, fun h => ?_⟩
    -- the two texts end differently
    have htext : " has no result".toList <:+ "interrupt return with no pending input".toList := by
      rw [← Fault.malformed.inj h, String.toList_append]
      exact List.suffix_append _ _
    revert htext
    decide

/-! ## Calls and returns -/

theorem tends_call (target : Nat) (args : List UInt16) {returnPc : Nat} (result : Option UInt8)
    (h : returnPc ≠ fromInterrupt) : Tends (call target args returnPc result) := by
  apply tends_get
  intro m hm
  split
  · exact tends_bind (tends_setPc returnPc) (fun _ => tends_bind (tends_storeResult result 0)
      fun _ => tends_pure Flow.jump) m hm
  split
  · exact tends_fault (f := .pcOutOfRange _ _) ⟨nofun, nofun⟩ m hm
  · refine ⟨⟨?_, hm.parked, hm.completion⟩, nofun⟩
    have hpush := m.stack.interruptFrames_pushFrame (m.calleeFrame target args returnPc result)
    rw [if_neg (show (m.calleeFrame target args returnPc result).returnPc ≠ fromInterrupt from h)]
      at hpush
    exact hpush.trans hm.frames

/-- A call that is followed by another address than zero. -/
theorem Tended.callPacked {m : Machine} (hm : m.Tended) (hpc : 0 < m.pc) (ins : Instruction)
    (values : List UInt16) : LeavesTended ((callPacked ins values).run m) :=
  tends_call _ _ _ (Nat.ne_of_gt hpc) m hm

/-- The routine of a timed input returns, and the input that waits for it is there. -/
theorem leavesTended_finishInterrupt {m : Machine} (hframes : m.stack.interruptFrames = 0)
    {parked : ParkedInput} (hparked : m.parked = some parked) (hfits : RoutineFits parked.input)
    (hcompletion : ∀ input, m.completion = some (.input input) → RoutineFits input)
    (value : UInt16) : LeavesTended ((finishInterrupt value).run m) := by
  have hm : ∀ pc replies, Tended { m with parked := none, pc, replies } :=
    fun _ _ => ⟨hframes, nofun, hcompletion⟩
  rw [finishInterrupt_eq hparked]
  split
  · refine tends_suspend parked.request ?_ _ (hm parked.pc m.replies)
    rintro _ ⟨⟩
    exact hfits
  · exact tends_bind (tends_finishInput parked.input 0 "") (fun _ => tends_pure Flow.jump) _
      (hm parked.pc [])

/-- **A return** takes away the frame of a timeout routine together with the parked input. -/
theorem tends_returnValue (value : UInt16) : Tends (returnValue value) := by
  apply tends_get
  intro m hm
  cases hpop : m.stack.popFrame? with
  | none => exact tends_fault (f := .returnFromMain m.pc) ⟨nofun, nofun⟩ m hm
  | some p =>
      -- the frame that goes away counts only if it returns from an interrupt
      obtain ⟨frame, stack⟩ := p
      have hcount := CallStack.interruptFrames_popFrame? hpop
      rw [hm.frames] at hcount
      dsimp only
      rw [run_set_bind]
      split
      · rename_i hreturn
        rw [if_pos hreturn] at hcount
        have hsome : m.parked.isSome = true := by
          by_contra hnone
          rw [if_neg hnone] at hcount
          omega
        obtain ⟨parked, hparked⟩ := Option.isSome_iff_exists.mp hsome
        rw [if_pos hsome] at hcount
        refine leavesTended_finishInterrupt (m := { m with stack }) ?_ hparked
          (hm.parked parked hparked) hm.completion value
        show stack.interruptFrames = 0
        omega
      · rename_i hreturn
        rw [if_neg hreturn] at hcount
        refine tends_bind (tends_setPc frame.returnPc) (fun _ =>
          tends_bind (tends_storeResult frame.result value) fun _ => tends_pure Flow.jump) _ ?_
        exact ⟨hcount.symm, hm.parked, hm.completion⟩

/-- A throw that passes no frame of a timeout routine. -/
theorem Tended.throwTo {m : Machine} (hm : m.Tended) {cookie : UInt16}
    (h : cookie ≠ 0 →
      (unwind cookie.toNat m.stack).interruptFrames = m.stack.interruptFrames) (value : UInt16) :
    LeavesTended ((throwTo value cookie).run m) := by
  unfold Machine.throwTo
  rw [run_bind, run_get]
  dsimp only
  split
  · exact tends_fault (f := .badThrow _ _) ⟨nofun, nofun⟩ m hm
  · rename_i hcookie
    exact tends_returnValue value _ (hm.withStack (h fun hzero => hcookie (Or.inl hzero)))

theorem tends_takeBranch (b : Branch) (condition : Bool) : Tends (takeBranch b condition) := by
  unfold takeBranch
  split
  · exact tends_pure _
  split
  · exact tends_returnValue 0
  · exact tends_returnValue 1
  · exact tends_bind (tends_setPc _) fun _ => tends_pure _

theorem tends_branch (ins : Instruction) (condition : Bool) : Tends (branch ins condition) := by
  unfold branch
  split
  · exact tends_takeBranch _ condition
  · exact tends_pure _

theorem tends_storeAndBranch (ins : Instruction) (value : UInt16) (condition : Bool) :
    Tends (storeAndBranch ins value condition) :=
  tends_bind (tends_storeResult ins.store value) fun _ => tends_branch ins condition

theorem tends_printAndReturn (text : String) : Tends (printAndReturn text) := by
  apply tends_bind (tends_returnValue 1)
  intro flow
  apply tends_bind (tends_print _)
  intro printed
  split <;> exact tends_pure _

/-! ## Saving and restoring -/

theorem tends_deliver (delivery : Delivery) (value : UInt16) : Tends (deliver delivery value) := by
  cases delivery with
  | store code => exact tends_bind (tends_writeVariable code value) fun _ => tends_pure _
  | branch b => exact tends_takeBranch b _

theorem tends_save (ins : Instruction) (values : List UInt16) : Tends (save ins values) := by
  apply tends_bind (tends_deliveryOf ins)
  intro delivery
  split
  · exact tends_get_of_forall fun m => tends_suspend _ nofun
  · exact tends_deliver delivery 0

theorem tends_restore (ins : Instruction) (values : List UInt16) : Tends (restore ins values) := by
  apply tends_bind (tends_deliveryOf ins)
  intro delivery
  split
  · exact tends_suspend _ nofun
  · exact tends_deliver delivery 0

/-- The instruction that saved is answered. -/
theorem tends_answerSave (pc : Nat) : Tends (do
    let m ← get
    if 4 ≤ m.version then
      setPc (pc + 1)
      writeVariable (m.memory.byteAt pc) restoredCode
      return .jump
    else
      let (branch, after) := Branch.read m.memory pc
      setPc after
      match ← takeBranch branch true with
      | .next => return .jump
      | flow => return flow : Exec Flow) := by
  apply tends_get_of_forall
  intro m
  split
  · exact tends_bind (tends_setPc _) fun _ =>
      tends_bind (tends_writeVariable _ _) fun _ => tends_pure _
  · refine tends_bind (tends_setPc _) fun _ => tends_bind (tends_takeBranch _ _) fun flow => ?_
    split <;> exact tends_pure _

/-- A snapshot without a frame of a timeout routine, whatever the machine was like before. -/
theorem leavesTended_restoreSnapshot {s : Snapshot} (hs : s.stack.interruptFrames = 0)
    {m : Machine} (hcompletion : ∀ input, m.completion = some (.input input) → RoutineFits input) :
    LeavesTended ((restoreSnapshot s).run m) := by
  have hm : Tended (m.withSnapshot s) :=
    ⟨hs, fun parked hparked => absurd hparked.symm (Option.some_ne_none parked), hcompletion⟩
  unfold restoreSnapshot
  rw [run_modify_bind]
  exact tends_answerSave s.pc _ hm

/-- The newest snapshot of the undo history has no frame of a timeout routine. -/
theorem Tended.restoreUndo {m : Machine} (hm : m.Tended)
    (h : ∀ s undo, m.undo.pop? = some (s, undo) → s.stack.interruptFrames = 0)
    (store : Option UInt8) : LeavesTended ((restoreUndo store).run m) := by
  unfold Machine.restoreUndo
  rw [run_bind, run_get]
  dsimp only
  split
  · rename_i s undo hpop
    rw [run_set_bind]
    exact leavesTended_restoreSnapshot (h s undo hpop) hm.completion
  · exact tends_bind (tends_storeResult store 0) (fun _ => tends_pure Flow.next) m hm

/-! ## Instructions -/

/-- **An instruction with evaluated operands**, unless it throws, undoes or calls. -/
theorem tends_executeWith {ins : Instruction} (hthrow : ins.op ≠ .throwFrame)
    (hundo : ins.op ≠ .restoreUndo) (hcalls : calls ins.op = false) (v : List UInt16) :
    Tends (executeWith ins v) := by
  have hsimple : ∀ {x : Exec Unit}, Tends x → Tends (do x; return Flow.next) :=
    fun h => tends_bind h fun _ => tends_pure _
  unfold executeWith
  dsimp only
  -- operations that do the same with different values go together
  cases hins : ins.op
  case throwFrame => exact absurd hins hthrow
  case restoreUndo => exact absurd hins hundo
  case call1s | call1n | call2s | call2n | callVs | callVs2 | callVn | callVn2 =>
    rw [hins] at hcalls
    cases hcalls
  case je | jl | jg | jz | test => exact tends_branch ins _
  case checkArgCount | jin | testAttr | verify =>
    exact tends_get_of_forall fun m => tends_branch ins _
  case incChk | decChk =>
    exact tends_bind (tends_adjust _ _) fun value => tends_branch ins _
  case jump => exact tends_jump _
  case add | sub | mul | or | and | not | logShift | artShift | checkUnicode | setFont | gestalt =>
    exact tends_store ins _
  case div | mod =>
    dsimp only
    split
    · exact tends_fault ⟨nofun, nofun⟩
    · exact tends_store ins _
  case store => exact hsimple (tends_writeIndirect _ _)
  case load => exact tends_bind (tends_readIndirect _) fun value => tends_store ins value
  case inc | dec => exact tends_bind (tends_adjust _ _) fun _ => tends_pure _
  case push => exact hsimple (tends_pushStack _)
  case pull =>
    exact tends_bind (tends_popStack _) fun value => hsimple (tends_writeIndirect _ value)
  case pop => exact tends_bind (tends_popStack _) fun _ => tends_pure _
  case loadw | loadb | catchFrame | getParent | getProp | getPropAddr | getPropLen =>
    exact tends_get_of_forall fun m => tends_store ins _
  case getNextProp =>
    exact tends_get_of_forall fun m =>
      tends_bind (tends_orFault fun _ => unrelated_nextProp) fun next => tends_store ins next
  case storew | storeb | copyTable | setAttr | clearAttr | tokenise | encodeText =>
    exact tends_change _
  case insertObj | removeObj => exact tends_change? _
  case putProp => exact tends_putProp _ _ _
  case scanTable | getSibling | getChild =>
    exact tends_get_of_forall fun m => tends_storeAndBranch ins _ _
  case ret | rtrue | rfalse => exact tends_returnValue _
  case retPopped => exact tends_bind (tends_popStack _) fun value => tends_returnValue value
  case print | newLine | printNum | printUnicode => exact tends_print _
  case printRet => exact tends_printAndReturn _
  case printAddr => exact tends_printAt _
  case printPaddr => exact tends_get_of_forall fun m => tends_printAt _
  case printObj => exact tends_printObject _
  case printChar => exact tends_printZscii _
  case printTable => exact tends_get_of_forall fun m => tends_raise _
  case outputStream => exact hsimple (tends_selectStream _ _)
  case read =>
    exact tends_get_of_forall fun m => tends_startInput (m.timeoutRoutine_ne_zero _ _)
  case readChar =>
    dsimp only
    split
    · exact tends_get_of_forall fun m => tends_startInput (m.timeoutRoutine_ne_zero _ _)
    · exact tends_pure _
  case showStatus | nop => exact tends_pure _
  case splitWindow | setWindow | eraseWindow | eraseLine | setCursor | setTextStyle | setColour
      | bufferMode | inputStream | soundEffect | restart =>
    exact tends_raise _
  case getCursor => exact tends_suspend _ nofun
  case save => exact tends_save ins v
  case restore => exact tends_restore ins v
  case saveUndo => exact tends_bind (tends_saveUndo _) fun result => tends_store ins result
  case quit =>
    exact tends_bind (tends_modify fun _ hm => hm.same rfl rfl rfl) fun _ =>
      tends_raise _
  case piracy =>
    dsimp only
    split
    · exact tends_suspend _ nofun
    · exact tends_pure _
  case random => exact tends_bind (tends_drawRandom _) fun value => tends_store ins value

/-- With these operands an instruction neither throws past the frame of a timeout routine nor goes
back to a snapshot that has one. -/
structure CarefulWith (ins : Instruction) (v : List UInt16) (m : Machine) : Prop where
  throws : ins.op = .throwFrame → v.getD 1 0 ≠ 0 →
    (unwind (v.getD 1 0).toNat m.stack).interruptFrames = m.stack.interruptFrames
  restores : ins.op = .restoreUndo → ∀ s undo, m.undo.pop? = some (s, undo) →
    s.stack.interruptFrames = 0

/-- An instruction is careful with the operands that it has. -/
def Careful (ins : Instruction) (m : Machine) : Prop :=
  ∀ values m₁, (operandValues ins.operands).run m = (.ok values, m₁) → CarefulWith ins values m₁

theorem Tended.executeWith {m : Machine} (hm : m.Tended) {ins : Instruction} {v : List UInt16}
    (hcareful : CarefulWith ins v m) (hpc : calls ins.op = true → 0 < m.pc) :
    LeavesTended ((executeWith ins v).run m) := by
  -- three kinds of instructions need to know the machine that they are executed on
  by_cases hthrow : ins.op = .throwFrame
  · rw [Machine.executeWith, hthrow]
    exact hm.throwTo (hcareful.throws hthrow) _
  by_cases hundo : ins.op = .restoreUndo
  · rw [Machine.executeWith, hundo]
    exact hm.restoreUndo (hcareful.restores hundo) _
  cases hcalls : calls ins.op with
  | true =>
      rw [executeWith_of_calls hcalls]
      exact hm.callPacked (hpc hcalls) ins v
  | false => exact tends_executeWith hthrow hundo hcalls v m hm

/-- **A careful instruction**, with the program counter after it. -/
theorem Tended.execute {m : Machine} (hm : m.Tended) {ins : Instruction} (hins : ins.Decoded)
    (hcareful : Careful ins { m with pc := ins.next }) :
    LeavesTended ((execute ins).run { m with pc := ins.next }) := by
  have hworks := (plain_operandValues ins.operands).works { m with pc := ins.next }
  refine (tends_operandValues ins.operands _ ?_).bind fun values m₁ hrun hm₁ => ?_
  · exact hm.same rfl rfl rfl
  · rw [hrun] at hworks
    refine hm₁.executeWith (hcareful values m₁ hrun) fun hcalls => ?_
    rw [hworks.pc]
    exact hins.next_pos (hasText_of_calls hcalls)

/-! ## Left over work -/

/-- What the work left over by a request may leave.  A timeout routine outside the story stops the
machine with its input parked, so only without a fault is the machine tended. -/
structure Resumes (m : Machine) (r : Except Stop Flow × Machine) : Prop where
  tended : (∀ f, r.1 ≠ .error (.fault f)) → r.2.Tended
  pending : r.1 ≠ .error (.fault .noPendingInput)
  nested : r.1 = .error (.fault .nestedInterrupt) → 0 < m.stack.interruptFrames

theorem LeavesTended.resumes {r : Except Stop Flow × Machine} (h : LeavesTended r) (m : Machine) :
    Resumes m r :=
  ⟨fun _ => h.1, fun hr => (h.2 _ hr).2 rfl, fun hr => absurd rfl (h.2 _ hr).1⟩

theorem unpackRoutine_ne_zero (h : Header) {routine : UInt16} (hroutine : routine ≠ 0) :
    h.unpackRoutine routine ≠ 0 := by
  have hpos : 0 < routine.toNat :=
    Nat.pos_of_ne_zero fun hzero => hroutine (UInt16.toNat_inj.mp hzero)
  have hscale : 0 < h.packingScale := by
    unfold Header.packingScale
    split_ifs <;> decide
  have := Nat.mul_pos hpos hscale
  unfold Header.unpackRoutine
  omega

/-- **An interrupt** puts the frame of the routine on the stack and parks the input. -/
theorem Tended.interrupt {m : Machine} (hm : m.Tended) {routine : UInt16} {input : PendingInput}
    (hroutine : routine ≠ 0) (hinput : RoutineFits input) :
    Resumes m ((interrupt routine input).run m) := by
  unfold Machine.interrupt
  rw [run_bind, run_get]
  dsimp only
  split
  · -- the input that is parked already has its frame
    rename_i hparked
    refine ⟨fun h => absurd rfl (h .nestedInterrupt), by rintro ⟨⟩, fun _ => ?_⟩
    rw [hm.frames, if_pos hparked]
    exact Nat.one_pos
  · rename_i hparked
    rw [run_set_bind, call, run_bind, run_get]
    dsimp only
    rw [if_neg (unpackRoutine_ne_zero m.header hroutine)]
    split
    · exact ⟨fun h => absurd rfl (h (.pcOutOfRange _ _)), by rintro ⟨⟩, by rintro ⟨⟩⟩
    · refine ⟨fun _ => ⟨?_, ?_, hm.completion⟩, by rintro ⟨⟩, by rintro ⟨⟩⟩
      · have hframes := hm.frames
        rw [if_neg hparked] at hframes
        refine (CallStack.interruptFrames_pushFrame _ _).trans ?_
        rw [hframes]
        rfl
      · rintro _ ⟨⟩
        exact hinput

theorem Tended.resumeInput {m : Machine} (hm : m.Tended) {input : PendingInput}
    (hinput : RoutineFits input) : Resumes m ((resumeInput input).run m) := by
  unfold Machine.resumeInput
  rw [run_bind, run_get]
  dsimp only
  split
  · rename_i routine hroutine _
    exact hm.interrupt (fun hzero => hinput (hzero ▸ hroutine)) hinput
  · exact (tends_bind (tends_finishInput input _ _) (fun _ => tends_pure Flow.next) m hm).resumes m

/-- **The work left over by a request**, unless it restores the frame of a timeout routine. -/
theorem Tended.resume {m : Machine} (hm : m.Tended) {completion : Completion}
    (hinput : ∀ input, completion = .input input → RoutineFits input)
    (hrestoring : ∀ s, Restoring completion m s → s.stack.interruptFrames = 0) :
    Resumes m ((resume completion).run m) := by
  cases completion with
  | printLeftovers text =>
      refine (tends_bind (tends_modify fun m hm => ?_) (fun _ => tends_pure Flow.next) m
        hm).resumes m
      exact hm.emitText text
  | input input => exact hm.resumeInput (hinput input rfl)
  | save delivery => exact (tends_get_of_forall (fun _ => tends_deliver delivery _) m hm).resumes m
  | restore delivery =>
      unfold Machine.resume resumeRestore
      rw [run_bind, run_get]
      dsimp only
      split
      · rename_i data hreply
        split
        · rename_i s hread
          have hs := hrestoring s ⟨delivery, data, rfl, hreply, hread⟩
          exact (leavesTended_restoreSnapshot hs hm.completion).resumes m
        · exact (tends_deliver delivery 0 m hm).resumes m
      · exact (tends_deliver delivery 0 m hm).resumes m
  | piracy b => exact (tends_get_of_forall (fun _ => tends_takeBranch b _) m hm).resumes m
  | getCursor table =>
      exact (tends_change _ m hm).resumes m

end Machine
end ZMachine
