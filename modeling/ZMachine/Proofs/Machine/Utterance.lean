/-
# What instructions say

Few instructions print.  All others leave streams and printing bits alone, hold no text back and
keep the depth of the undo history.

* `Mute` : nothing is said, selected or held back;
* `printedText` : the text that an instruction prints;
* `Voices` : an instruction is mute, prints its text or selects a stream;
* `voices_execute` : these are all the ways.
-/
import ZMachine.Proofs.Machine.Control

namespace ZMachine
namespace Machine

variable {α β : Type}

/-! ## Mute actions -/

/-- Streams, printing bits and the depth of the undo history are as before, and no text has been
held back. -/
structure Mute (m m' : Machine) : Prop where
  streams : m'.streams = m.streams
  printingBits : m'.printingBits = m.printingBits
  limit : m'.undo.limit = m.undo.limit
  heldBack : ∀ {text}, m'.completion = some (.printLeftovers text) →
    m.completion = some (.printLeftovers text)

theorem Mute.refl (m : Machine) : Mute m m :=
  ⟨rfl, rfl, rfl, id⟩

theorem Mute.trans {m₁ m₂ m₃ : Machine} (h : Mute m₁ m₂) (h' : Mute m₂ m₃) : Mute m₁ m₃ :=
  ⟨h'.streams.trans h.streams, h'.printingBits.trans h.printingBits, h'.limit.trans h.limit,
    fun ht => h.heldBack (h'.heldBack ht)⟩

theorem mute_pure (a : α) : Relates Mute (pure a : Exec α) :=
  fun m => Mute.refl m

theorem mute_bind {x : Exec α} {f : α → Exec β} (hx : Relates Mute x)
    (hf : ∀ a, Relates Mute (f a)) : Relates Mute (x >>= f) :=
  relates_bind_self (fun _ _ _ h h' => h.trans h') hx hf

theorem mute_fault (f : Fault) : Relates Mute (fault f : Exec α) :=
  fun m => Mute.refl m

theorem mute_orFault (r : Except Fault α) : Relates Mute (orFault r) := by
  cases r with
  | ok a => exact mute_pure a
  | error f => exact mute_fault f

theorem mute_setPc (pc : Nat) : Relates Mute (setPc pc) :=
  fun _ => ⟨rfl, rfl, rfl, id⟩

theorem mute_raise (request : Request) : Relates Mute (raise request) :=
  fun _ => ⟨rfl, rfl, rfl, id⟩

theorem mute_suspend (request : Request) {completion : Completion}
    (h : ∀ text, completion ≠ .printLeftovers text) :
    Relates Mute (suspend request completion) :=
  fun _ => ⟨rfl, rfl, rfl, fun ht => absurd (Option.some.inj ht) (h _)⟩

/-! ### Variables and memory -/

theorem mute_popStack (address : Nat) : Relates Mute (popStack address) := by
  apply relates_get
  intro m
  split <;> exact ⟨rfl, rfl, rfl, id⟩

theorem mute_pushStack (value : UInt16) : Relates Mute (pushStack value) :=
  fun _ => ⟨rfl, rfl, rfl, id⟩

theorem mute_withNamedVariable (m : Machine) (code : UInt8) (value : UInt16) :
    Mute m (m.withNamedVariable code value) := by
  unfold withNamedVariable
  split <;> exact ⟨rfl, rfl, rfl, id⟩

theorem mute_readVariable (code : UInt8) : Relates Mute (readVariable code) := by
  apply relates_get_of_forall
  intro m
  split
  · exact mute_popStack m.pc
  · exact mute_pure _

theorem mute_writeVariable (code : UInt8) (value : UInt16) :
    Relates Mute (writeVariable code value) := by
  unfold writeVariable
  split
  · exact mute_pushStack value
  · exact fun m => mute_withNamedVariable m code value

theorem mute_readIndirect (code : UInt8) : Relates Mute (readIndirect code) := by
  apply relates_get
  intro m
  split
  · split <;> exact Mute.refl m
  · exact Mute.refl m

theorem mute_writeIndirect (code : UInt8) (value : UInt16) :
    Relates Mute (writeIndirect code value) := by
  apply relates_get
  intro m
  split
  · split <;> exact ⟨rfl, rfl, rfl, id⟩
  · exact mute_withNamedVariable m code value

theorem mute_storeResult (store : Option UInt8) (value : UInt16) :
    Relates Mute (storeResult store value) := by
  cases store with
  | none => exact mute_pure ()
  | some code => exact mute_writeVariable code value

theorem mute_adjust (code : UInt8) (amount : UInt16) : Relates Mute (adjust code amount) :=
  mute_bind (mute_readIndirect code) fun _ =>
    mute_bind (mute_writeIndirect code _) fun _ => mute_pure _

theorem mute_operandValues (operands : List Operand) : Relates Mute (operandValues operands) := by
  induction operands with
  | nil => exact mute_pure []
  | cons operand rest ih =>
      have hoperand : Relates Mute (operandValue operand) := by
        cases operand with
        | large value => exact mute_pure value
        | small value => exact mute_pure _
        | var code => exact mute_readVariable code
      exact mute_bind hoperand fun _ => mute_bind ih fun _ => mute_pure _

theorem mute_store (ins : Instruction) (value : UInt16) : Relates Mute (store ins value) :=
  mute_bind (mute_storeResult ins.store value) fun _ => mute_pure _

theorem mute_change (f : Machine → Memory) : Relates Mute (change f) :=
  fun _ => ⟨rfl, rfl, rfl, id⟩

theorem mute_change? (f : Machine → Option Memory) : Relates Mute (change? f) := by
  apply relates_get
  intro m
  split <;> exact ⟨rfl, rfl, rfl, id⟩

theorem mute_putProp (object property value : UInt16) :
    Relates Mute (do
      let m ← get
      let memory ← orFault (m.objects.putProp m.memory object property value)
      set { m with memory }
      return Flow.next) := by
  apply relates_get
  intro m
  cases m.objects.putProp m.memory object property value <;> exact ⟨rfl, rfl, rfl, id⟩

theorem mute_drawRandom (arg : Int) : Relates Mute (drawRandom arg) :=
  fun _ => ⟨rfl, rfl, rfl, id⟩

/-! ### Input, calls and returns -/

theorem mute_startInput (input : PendingInput) : Relates Mute (startInput input) :=
  relates_get_of_forall fun _ => mute_suspend _ nofun

theorem mute_finishInput (input : PendingInput) (terminator : Int) (line : String) :
    Relates Mute (finishInput input terminator line) := by
  have hmemory : ∀ f : Machine → Memory,
      Relates Mute (modify fun m => { m with memory := f m } : Exec Unit) :=
    fun f _ => ⟨rfl, rfl, rfl, id⟩
  cases input with
  | line textBuffer parseBuffer store timeout routine =>
      unfold finishInput
      dsimp only
      refine mute_bind (hmemory _) fun _ => ?_
      split
      · exact mute_bind (hmemory _) fun _ => mute_storeResult store _
      · exact mute_storeResult store _
  | char store timeout routine => exact mute_writeVariable store _

theorem mute_call (target : Nat) (args : List UInt16) (returnPc : Nat) (result : Option UInt8) :
    Relates Mute (call target args returnPc result) := by
  apply relates_get
  intro m
  split
  · exact mute_bind (mute_setPc returnPc)
      (fun _ => mute_bind (mute_storeResult result 0) fun _ => mute_pure Flow.jump) m
  · split <;> exact ⟨rfl, rfl, rfl, id⟩

theorem mute_callPacked (ins : Instruction) (values : List UInt16) :
    Relates Mute (callPacked ins values) :=
  relates_get_of_forall fun _ => mute_call _ _ _ _

theorem mute_jump (offset : Int) : Relates Mute (jump offset) := by
  apply relates_get
  intro m
  dsimp only
  split <;> exact ⟨rfl, rfl, rfl, id⟩

theorem mute_finishInterrupt (value : UInt16) : Relates Mute (finishInterrupt value) := by
  intro m
  cases hparked : m.parked with
  | none =>
      rw [finishInterrupt_of_none hparked]
      exact Mute.refl m
  | some parked =>
      rw [finishInterrupt_eq hparked]
      split
      · exact ⟨rfl, rfl, rfl, nofun⟩
      · have hfinish := mute_bind (mute_finishInput parked.input 0 "")
          (fun _ => mute_pure Flow.jump) { m with parked := none, pc := parked.pc, replies := [] }
        exact ⟨hfinish.streams, hfinish.printingBits, hfinish.limit, hfinish.heldBack⟩

theorem mute_returnValue (value : UInt16) : Relates Mute (returnValue value) := by
  apply relates_get
  intro m
  split
  · exact Mute.refl m
  · rename_i frame stack hpop
    rw [run_set_bind]
    have hpopped : Mute m { m with stack } := ⟨rfl, rfl, rfl, id⟩
    refine hpopped.trans ?_
    split
    · exact mute_finishInterrupt value _
    · exact mute_bind (mute_setPc _)
        (fun _ => mute_bind (mute_storeResult frame.result value) fun _ => mute_pure Flow.jump) _

theorem mute_throwTo (value cookie : UInt16) : Relates Mute (throwTo value cookie) := by
  apply relates_get
  intro m
  dsimp only
  split
  · exact Mute.refl m
  · have hunwound : Mute m { m with stack := unwind cookie.toNat m.stack } := ⟨rfl, rfl, rfl, id⟩
    exact hunwound.trans (mute_returnValue value _)

theorem mute_takeBranch (b : Branch) (condition : Bool) :
    Relates Mute (takeBranch b condition) := by
  unfold takeBranch
  split
  · exact mute_pure _
  split
  · exact mute_returnValue 0
  · exact mute_returnValue 1
  · exact mute_bind (mute_setPc _) fun _ => mute_pure _

theorem mute_branch (ins : Instruction) (condition : Bool) :
    Relates Mute (branch ins condition) := by
  unfold branch
  split
  · exact mute_takeBranch _ _
  · exact mute_pure _

theorem mute_storeAndBranch (ins : Instruction) (value : UInt16) (condition : Bool) :
    Relates Mute (storeAndBranch ins value condition) :=
  mute_bind (mute_storeResult ins.store value) fun _ => mute_branch ins condition

/-! ### Saving and restoring -/

theorem mute_deliveryOf (ins : Instruction) : Relates Mute (deliveryOf ins) := by
  unfold deliveryOf
  split
  · exact mute_pure _
  · exact mute_pure _
  · exact mute_fault _

theorem mute_deliver (delivery : Delivery) (value : UInt16) :
    Relates Mute (deliver delivery value) := by
  cases delivery with
  | store code => exact mute_bind (mute_writeVariable code value) fun _ => mute_pure _
  | branch b => exact mute_takeBranch b _

theorem mute_save (ins : Instruction) (values : List UInt16) : Relates Mute (save ins values) := by
  apply mute_bind (mute_deliveryOf ins)
  intro delivery
  split
  · exact relates_get_of_forall fun m => mute_suspend _ nofun
  · exact mute_deliver delivery 0

theorem mute_restore (ins : Instruction) (values : List UInt16) :
    Relates Mute (restore ins values) := by
  apply mute_bind (mute_deliveryOf ins)
  intro delivery
  split
  · exact mute_suspend _ nofun
  · exact mute_deliver delivery 0

theorem mute_withSnapshot (m : Machine) (s : Snapshot) : Mute m (m.withSnapshot s) := by
  unfold withSnapshot
  exact ⟨rfl, rfl, rfl, id⟩

theorem mute_restoreSnapshot (s : Snapshot) : Relates Mute (restoreSnapshot s) := by
  have hplace : Relates Mute (modify fun m => m.withSnapshot s : Exec Unit) :=
    fun m => mute_withSnapshot m s
  apply mute_bind hplace
  intro _
  apply relates_get_of_forall
  intro m
  split
  · exact mute_bind (mute_setPc _) fun _ =>
      mute_bind (mute_writeVariable _ _) fun _ => mute_pure _
  · refine mute_bind (mute_setPc _) fun _ => mute_bind (mute_takeBranch _ _) fun flow => ?_
    split <;> exact mute_pure _

theorem mute_saveUndo (pc : Nat) : Relates Mute (saveUndo pc) := by
  apply relates_get
  intro m
  refine ⟨rfl, rfl, ?_, id⟩
  show (m.undo.push (m.snapshot pc)).2.limit = m.undo.limit
  unfold History.push
  split <;> rfl

theorem mute_restoreUndo (store : Option UInt8) : Relates Mute (restoreUndo store) := by
  apply relates_get
  intro m
  split
  · rename_i s undo hpop
    rw [run_set_bind]
    have hpopped : Mute m { m with undo } := by
      unfold History.pop? at hpop
      split at hpop
      · cases hpop
      · cases hpop
        exact ⟨rfl, rfl, rfl, id⟩
    exact hpopped.trans (mute_restoreSnapshot s _)
  · exact mute_bind (mute_storeResult store 0) (fun _ => mute_pure Flow.next) m

/-! ### Work that is left over -/

theorem mute_interrupt (routine : UInt16) (input : PendingInput) :
    Relates Mute (interrupt routine input) := by
  apply relates_get
  intro m
  dsimp only
  split
  · exact Mute.refl m
  · rw [run_set_bind]
    refine Mute.trans ?_ (mute_call _ [] fromInterrupt none _)
    exact ⟨rfl, rfl, rfl, id⟩

theorem mute_resumeInput (input : PendingInput) : Relates Mute (resumeInput input) := by
  apply relates_get_of_forall
  intro m
  dsimp only
  split
  · exact mute_interrupt _ _
  · exact mute_bind (mute_finishInput _ _ _) fun _ => mute_pure _

theorem mute_resumeRestore (delivery : Delivery) : Relates Mute (resumeRestore delivery) := by
  apply relates_get_of_forall
  intro m
  split
  · split
    · exact mute_restoreSnapshot _
    · exact mute_deliver delivery 0
  · exact mute_deliver delivery 0

/-- The work that a request leaves over is to print or mute. -/
theorem mute_resume (completion : Completion) :
    (∃ text, completion = .printLeftovers text) ∨ Relates Mute (resume completion) := by
  cases completion with
  | printLeftovers text => exact Or.inl ⟨text, rfl⟩
  | input input => exact Or.inr (mute_resumeInput input)
  | save delivery => exact Or.inr (relates_get_of_forall fun _ => mute_deliver delivery _)
  | restore delivery => exact Or.inr (mute_resumeRestore delivery)
  | piracy b => exact Or.inr (relates_get_of_forall fun _ => mute_takeBranch b _)
  | getCursor table => exact Or.inr (mute_change _)

/-- Held back text is sent to the streams without another look at the printing bits. -/
theorem resume_printLeftovers_run (text : String) (m : Machine) :
    (resume (.printLeftovers text)).run m = (.ok .next, m.emitText text) :=
  rfl

theorem mute_fetchBlock : Relates Mute fetchBlock := by
  intro m
  obtain ⟨blocks, codec, hfetch⟩ := fetchBlock_run_snd m
  rw [hfetch]
  exact ⟨rfl, rfl, rfl, id⟩

/-! ## Instructions -/

/-- The string of the story at an address. -/
def stringAt (m : Machine) (address : Nat) : String :=
  (m.codec.decode m.memory address).1.1

/-- The text that an instruction with evaluated operands prints. -/
def printedText (m : Machine) (ins : Instruction) (v : List UInt16) : Option String :=
  let a : UInt16 := v.getD 0 0
  match ins.op with
  | .print => some (ins.text.getD "")
  | .printRet => some (ins.text.getD "" ++ "\n")
  | .newLine => some "\n"
  | .printAddr => some (m.stringAt a.toNat)
  | .printPaddr => some (m.stringAt (m.header.unpackString a))
  | .printObj =>
      if a = 0 ∨ m.objects.nameIsEmpty m.memory a then none
      else some (m.stringAt (m.objects.nameAddress m.memory a))
  | .printNum => some (toString (Word.signed a))
  | .printChar =>
      if 1023 < a then none
      else (Zscii.char? m.codec.charset.extra a.toNat).map String.singleton
  | .printUnicode =>
      some (String.singleton (if a.toNat.isValidChar then Char.ofNat a.toNat else '?'))
  | _ => none

/-- What an action with a text to print does: it is mute, because there is no text or because it
fails; it prints the text after it has been mute; or it selects a stream. -/
inductive Voices (m : Machine) (text : Option String) : Except Stop Flow × Machine → Prop
  | mute {r : Except Stop Flow × Machine} (hmute : Mute m r.2)
      (hsilent : text = none ∨ ∃ e, r.1 = .error e) : Voices m text r
  | prints {m₁ : Machine} {r : Except Stop Flow × Machine} {said : String} (hmute : Mute m m₁)
      (htext : text = some said) (hr : r.2 = ((print said).run m₁).2) : Voices m text r
  | selects {m₁ : Machine} {r : Except Stop Flow × Machine} {number : Int} {table : Nat}
      (hmute : Mute m m₁) (htext : text = none)
      (hr : r.2 = ((selectStream number table).run m₁).2) : Voices m text r

variable {m : Machine}

theorem voices_of_mute {x : Exec Flow} (h : Relates Mute x) : Voices m none (x.run m) :=
  .mute (h m) (.inl rfl)

theorem voices_print (text : String) : Voices m (some text) ((print text).run m) :=
  .prints (Mute.refl m) rfl rfl

theorem voices_printAt (address : Nat) :
    Voices m (some (m.stringAt address)) ((printAt address).run m) := by
  have hdecoded : Mute m { m with codec := (m.codec.decode m.memory address).2 } :=
    ⟨rfl, rfl, rfl, id⟩
  exact .prints hdecoded rfl (congrArg Prod.snd (printAt_run m address))

theorem voices_printZscii (code : UInt16) :
    Voices m (if 1023 < code then none
      else (Zscii.char? m.codec.charset.extra code.toNat).map String.singleton)
      ((printZscii code).run m) := by
  unfold printZscii
  by_cases hcode : 1023 < code
  · rw [if_pos hcode, if_pos hcode]
    exact .mute (Mute.refl m) (.inl rfl)
  · rw [if_neg hcode, if_neg hcode, run_bind, run_get]
    dsimp only
    cases Zscii.char? m.codec.charset.extra code.toNat with
    | none => exact .mute (Mute.refl m) (.inl rfl)
    | some ch => exact voices_print _

theorem voices_printObject (object : UInt16) :
    Voices m (if object = 0 ∨ m.objects.nameIsEmpty m.memory object then none
      else some (m.stringAt (m.objects.nameAddress m.memory object)))
      ((printObject object).run m) := by
  unfold printObject
  rw [run_bind, run_get]
  dsimp only
  split
  · exact .mute (Mute.refl m) (.inl rfl)
  · exact voices_printAt _

/-- The text comes after the return, if that does not fail. -/
theorem voices_printAndReturn (text : String) :
    Voices m (some (text ++ "\n")) ((printAndReturn text).run m) := by
  have hreturn := mute_returnValue 1 m
  unfold printAndReturn
  rw [run_bind]
  revert hreturn
  rcases (returnValue 1).run m with ⟨e | flow, m₁⟩
  -- nothing is printed if there is no routine to return from
  · exact fun hreturn => .mute hreturn (.inr ⟨e, rfl⟩)
  · intro hreturn
    refine .prints hreturn rfl ?_
    dsimp only
    rw [run_bind]
    rcases (print (text ++ "\n")).run m₁ with ⟨e | printed, m₂⟩
    · rfl
    · cases printed <;> rfl

/-- **An instruction with evaluated operands** prints its text, selects a stream or is mute. -/
theorem voices_executeWith (ins : Instruction) (v : List UInt16) :
    Voices m (m.printedText ins v) ((executeWith ins v).run m) := by
  have hsimple : ∀ {x : Exec Unit}, Relates Mute x → Relates Mute (do x; return Flow.next) :=
    fun h => mute_bind h fun _ => mute_pure _
  unfold executeWith printedText
  dsimp only
  cases ins.op
  case print | newLine | printNum | printUnicode => exact voices_print _
  case printRet => exact voices_printAndReturn _
  case printAddr | printPaddr => exact voices_printAt _
  case printObj => exact voices_printObject _
  case printChar => exact voices_printZscii _
  case outputStream =>
    exact .selects (Mute.refl m) rfl (run_bind_pure_snd _ _ _)
  all_goals apply voices_of_mute
  -- operations that do the same with different values go together
  case je | jl | jg | jz | test => exact mute_branch ins _
  case checkArgCount | jin | testAttr | verify =>
    exact relates_get_of_forall fun m => mute_branch ins _
  case incChk | decChk =>
    exact mute_bind (mute_adjust _ _) fun value => mute_branch ins _
  case jump => exact mute_jump _
  case add | sub | mul | or | and | not | logShift | artShift | checkUnicode | setFont | gestalt =>
    exact mute_store ins _
  case div | mod =>
    dsimp only
    split
    · exact mute_fault _
    · exact mute_store ins _
  case store => exact hsimple (mute_writeIndirect _ _)
  case load => exact mute_bind (mute_readIndirect _) fun value => mute_store ins value
  case inc | dec => exact mute_bind (mute_adjust _ _) fun _ => mute_pure _
  case push => exact hsimple (mute_pushStack _)
  case pull =>
    exact mute_bind (mute_popStack _) fun value => hsimple (mute_writeIndirect _ value)
  case pop => exact mute_bind (mute_popStack _) fun _ => mute_pure _
  case loadw | loadb | catchFrame | getParent | getProp | getPropAddr | getPropLen =>
    exact relates_get_of_forall fun m => mute_store ins _
  case getNextProp =>
    exact relates_get_of_forall fun m =>
      mute_bind (mute_orFault _) fun next => mute_store ins next
  case storew | storeb | copyTable | setAttr | clearAttr | tokenise | encodeText =>
    exact mute_change _
  case insertObj | removeObj => exact mute_change? _
  case putProp => exact mute_putProp _ _ _
  case scanTable | getSibling | getChild =>
    exact relates_get_of_forall fun m => mute_storeAndBranch ins _ _
  case call1s | call1n | call2s | call2n | callVs | callVs2 | callVn | callVn2 =>
    exact mute_callPacked ins v
  case ret | rtrue | rfalse => exact mute_returnValue _
  case retPopped => exact mute_bind (mute_popStack _) fun value => mute_returnValue value
  case throwFrame => exact mute_throwTo _ _
  case printTable => exact relates_get_of_forall fun m => mute_raise _
  case read => exact relates_get_of_forall fun m => mute_startInput _
  case readChar =>
    dsimp only
    split
    · exact relates_get_of_forall fun m => mute_startInput _
    · exact mute_pure _
  case showStatus | nop => exact mute_pure _
  case splitWindow | setWindow | eraseWindow | eraseLine | setCursor | setTextStyle | setColour
      | bufferMode | inputStream | soundEffect | restart =>
    exact mute_raise _
  case getCursor => exact mute_suspend _ nofun
  case save => exact mute_save ins v
  case restore => exact mute_restore ins v
  case saveUndo => exact mute_bind (mute_saveUndo _) fun result => mute_store ins result
  case restoreUndo => exact mute_restoreUndo _
  case quit =>
    have hquit : Relates Mute (modify fun m => { m with finished := true } : Exec Unit) :=
      fun _ => ⟨rfl, rfl, rfl, id⟩
    exact mute_bind hquit fun _ => mute_raise _
  case piracy =>
    dsimp only
    split
    · exact mute_suspend _ nofun
    · exact mute_pure _
  case random => exact mute_bind (mute_drawRandom _) fun value => mute_store ins value

/-- The text that an instruction prints, once its operands have been evaluated. -/
def textToPrint (m : Machine) (ins : Instruction) : Option String :=
  match (operandValues ins.operands).run m with
  | (.ok values, m₁) => m₁.printedText ins values
  | (.error _, _) => none

/-- Muteness before. -/
theorem Mute.voices {m₁ : Machine} {text : Option String} {r : Except Stop Flow × Machine}
    (h : Mute m m₁) (h' : Voices m₁ text r) : Voices m text r := by
  cases h' with
  | mute hmute hsilent => exact .mute (h.trans hmute) hsilent
  | prints hmute htext hr => exact .prints (h.trans hmute) htext hr
  | selects hmute htext hr => exact .selects (h.trans hmute) htext hr

/-- **An instruction** prints its text, selects a stream or is mute. -/
theorem voices_execute (ins : Instruction) :
    Voices m (m.textToPrint ins) ((execute ins).run m) := by
  have hoperands := mute_operandValues ins.operands m
  unfold execute textToPrint
  rw [run_bind]
  revert hoperands
  rcases (operandValues ins.operands).run m with ⟨e | values, m₁⟩
  · exact fun hoperands => .mute hoperands (.inl rfl)
  · exact fun hoperands => hoperands.voices (voices_executeWith ins values)

end Machine
end ZMachine
