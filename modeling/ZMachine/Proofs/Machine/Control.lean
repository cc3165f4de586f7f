/-
# How control leaves an action

An action that says how control goes on does plain work first and then hands over: to the next
instruction, to the program counter, or to the host with a request.  `Leaves` says once what the
machine is like afterwards, in all three cases and if the action stops half way; every later
statement about requests, program counter and caches is drawn from it.

* `Request.Fits` : a request and the work that is left over with it belong together;
* `Leaves` : what an action leaves behind, according to how control goes on;
* `Turns` : an action that leaves things so and does not look at the caches;
* `Spells` : the same for an action that may decode a string of the story;
* `spells_execute` : all instructions are of that kind;
* `leaves_resume` : the same for the work that a request leaves over.
-/
import ZMachine.Machine.Run
import ZMachine.Proofs.Machine.Work
import ZMachine.Proofs.Text.StringCache

namespace ZMachine

/-- A request fits the work that is left over with it.  Inputs, saves, restores, checks of the copy,
questions for the cursor and held back text leave their own kind of work; every other request leaves
none. -/
def Request.Fits : Request → Option Completion → Prop
  | .lineInput timeout _ _ _, work =>
      ∃ textBuffer parseBuffer store routine,
        work = some (.input (.line textBuffer parseBuffer store timeout routine))
  | .charInput timeout, work =>
      ∃ store routine, work = some (.input (.char store timeout routine))
  | .save _, work => ∃ delivery, work = some (.save delivery)
  | .restore, work => ∃ delivery, work = some (.restore delivery)
  | .getCursor table, work => work = some (.getCursor table)
  | .piracy, work => ∃ b, work = some (.piracy b)
  | .flagsChanged, work => ∃ text, work = some (.printLeftovers text)
  | _, work => work = none

namespace Machine

open Memory (SameImage)

variable {α β : Type}

/-- The machine has a request, and the work left over fits it. -/
def Waits (m : Machine) : Prop :=
  ∃ request, m.request = some request ∧ request.Fits m.completion

/-- The request of a parked input fits the input. -/
def ParkedFits (m : Machine) : Prop :=
  ∀ parked, m.parked = some parked → parked.request.Fits (some (.input parked.input))

/-- What an action leaves behind.  Only with the next instruction does the program counter have to
be as before, and only with the host is there a new request; the host is asked for something that
fits the work left over, if nothing was left over before and a parked input is as it should be. -/
structure Leaves (m : Machine) (r : Except Stop Flow × Machine) : Prop where
  equipment : r.2.equipment = m.equipment
  image : SameImage m.memory r.2.memory
  halted : r.2.halted = m.halted
  parked : r.2.parked = m.parked ∨ r.2.parked = none
  replies : r.2.replies = m.replies ∨ r.2.replies = []
  next : r.1 = .ok .next → r.2.pc = m.pc
  unasked : r.1 ≠ .ok .suspend → r.2.request = m.request ∧ r.2.completion = m.completion
  asked : r.1 = .ok .suspend → m.completion = none → m.ParkedFits → r.2.Waits
  finished : r.2.finished = m.finished ∨ r.1 = .ok .suspend ∧ r.2.request = some .quit

/-! ## Work and then a hand-over -/

/-- Plain work before. -/
theorem Works.leaves {m m₁ : Machine} {r : Except Stop Flow × Machine} (h : Works m m₁)
    (h' : Leaves m₁ r) : Leaves m r := by
  have hcompletion : m₁.completion = m.completion := congrArg HostSide.completion h.hostSide
  have hparked : m₁.parked = m.parked := congrArg HostSide.parked h.hostSide
  have hfits : m.ParkedFits → m₁.ParkedFits := by
    intro hm parked hp
    exact hm parked (hparked.symm.trans hp)
  exact
    { equipment := h'.equipment.trans h.equipment
      image := h.image.trans h'.image
      halted := h'.halted.trans (congrArg HostSide.halted h.hostSide)
      parked := by rw [← hparked]; exact h'.parked
      replies := by
        rw [← show m₁.replies = m.replies from congrArg HostSide.replies h.hostSide]
        exact h'.replies
      next := fun hr => (h'.next hr).trans h.pc
      unasked := fun hr =>
        ⟨(h'.unasked hr).1.trans (congrArg HostSide.request h.hostSide),
          (h'.unasked hr).2.trans hcompletion⟩
      asked := fun hr hm hp => h'.asked hr (hcompletion.trans hm) (hfits hp)
      finished := by
        rw [← show m₁.finished = m.finished from congrArg HostSide.finished h.hostSide]
        exact h'.finished }

/-- Plain work after. -/
theorem Leaves.works {m m₁ m₂ : Machine} {result : Except Stop Flow}
    (h : Leaves m (result, m₁)) (h' : Works m₁ m₂) : Leaves m (result, m₂) := by
  have hrequest : m₂.request = m₁.request := congrArg HostSide.request h'.hostSide
  have hcompletion : m₂.completion = m₁.completion := congrArg HostSide.completion h'.hostSide
  have hparked : m₂.parked = m₁.parked := congrArg HostSide.parked h'.hostSide
  have hreplies : m₂.replies = m₁.replies := congrArg HostSide.replies h'.hostSide
  have hfinished : m₂.finished = m₁.finished := congrArg HostSide.finished h'.hostSide
  exact
    { equipment := h'.equipment.trans h.equipment
      image := h.image.trans h'.image
      halted := (congrArg HostSide.halted h'.hostSide).trans h.halted
      parked := by
        dsimp only
        rw [hparked]
        exact h.parked
      replies := by
        dsimp only
        rw [hreplies]
        exact h.replies
      next := fun hr => h'.pc.trans (h.next hr)
      unasked := by
        dsimp only
        rw [hrequest, hcompletion]
        exact h.unasked
      asked := by
        unfold Waits
        dsimp only
        rw [hrequest, hcompletion]
        exact h.asked
      finished := by
        dsimp only
        rw [hfinished, hrequest]
        exact h.finished }

/-- Nothing but an outcome other than a request. -/
theorem leaves_refl (m : Machine) {result : Except Stop Flow} (h : result ≠ .ok .suspend) :
    Leaves m (result, m) where
  equipment := rfl
  image := SameImage.refl _
  halted := rfl
  parked := Or.inl rfl
  replies := Or.inl rfl
  next _ := rfl
  unasked _ := ⟨rfl, rfl⟩
  asked hr := absurd hr h
  finished := Or.inl rfl

/-- A jump, or a stop, makes it unimportant where the program counter was. -/
theorem Leaves.of_pc {m : Machine} {r : Except Stop Flow × Machine} {pc : Nat}
    (h : Leaves { m with pc } r) (hr : r.1 ≠ .ok .next) : Leaves m r :=
  { h with next := fun hnext => absurd hnext hr }

/-- Plain work at a new place, and on from there. -/
theorem leaves_jump {m m' : Machine} (h : Works { m with pc := m'.pc } m') :
    Leaves m (.ok .jump, m') := by
  have hjump : Leaves m' (.ok .jump, m') := leaves_refl m' nofun
  exact (h.leaves hjump).of_pc nofun

/-- A parked input may have been forgotten before. -/
theorem Leaves.of_unparked {m : Machine} {r : Except Stop Flow × Machine}
    (h : Leaves { m with parked := none } r) : Leaves m r :=
  { h with
    parked := Or.inr (h.parked.elim id id)
    asked := fun hr hm _ => h.asked hr hm nofun }

/-- So may the replies. -/
theorem Leaves.of_unanswered {m : Machine} {r : Except Stop Flow × Machine}
    (h : Leaves { m with replies := [] } r) : Leaves m r :=
  { h with replies := Or.inr (h.replies.elim id id) }

/-- An action that leaves things as `Leaves` says and does not look at the caches. -/
structure Turns (x : Exec Flow) : Prop where
  leaves : ∀ m, Leaves m (x.run m)
  blind : Blind x

theorem turns_pure {flow : Flow} (h : flow ≠ .suspend) : Turns (pure flow : Exec Flow) :=
  ⟨fun m => leaves_refl m fun hr => h (Except.ok.inj hr), blind_pure flow⟩

theorem turns_next : Turns (pure .next : Exec Flow) :=
  turns_pure nofun

theorem turns_jump : Turns (pure .jump : Exec Flow) :=
  turns_pure nofun

theorem turns_bind {x : Exec α} {f : α → Exec Flow} (hx : Plain x) (hf : ∀ a, Turns (f a)) :
    Turns (x >>= f) := by
  refine ⟨fun m => ?_, blind_bind hx.blind fun a => (hf a).blind⟩
  have hm := hx.works m
  rw [run_bind]
  revert hm
  rcases x.run m with ⟨e | a, m'⟩
  · intro hm
    exact hm.leaves (leaves_refl m' nofun)
  · intro hm
    exact hm.leaves ((hf a).leaves m')

/-- Plain work and on to the next instruction. -/
theorem turns_of_plain {x : Exec α} (hx : Plain x) : Turns (x >>= fun _ => pure .next) :=
  turns_bind hx fun _ => turns_next

theorem turns_fault (f : Fault) : Turns (fault f : Exec Flow) :=
  ⟨fun m => leaves_refl m nofun, blind_fault f⟩

theorem turns_get_of_forall {f : Machine → Exec Flow}
    (hf : ∀ m blocks strings, f (m.recached blocks strings) = f m) (h : ∀ m, Turns (f m)) :
    Turns (get >>= f) :=
  ⟨fun m => (h m).leaves m, blind_get_of_forall hf fun m => (h m).blind⟩

/-- Plain work at a new place. -/
theorem turns_setPc {x : Exec α} (hx : Plain x) (pc : Nat) :
    Turns (do setPc pc; let _ ← x; return .jump) := by
  have hblind : Blind (setPc pc) := blind_modify fun _ _ _ => rfl
  refine ⟨fun m => ?_, blind_bind hblind fun _ => blind_bind hx.blind fun _ => blind_pure _⟩
  have hm := (turns_bind hx fun _ => turns_jump).leaves { m with pc }
  have hne : ((x >>= fun _ => pure Flow.jump).run { m with pc }).1 ≠ .ok .next := by
    rw [run_bind]
    rcases x.run { m with pc } with ⟨e | a, m'⟩ <;> nofun
  exact hm.of_pc hne

/-! ## Requests -/

/-- A request that leaves no work over. -/
theorem turns_raise {request : Request} (h : request.Fits none) : Turns (raise request) := by
  refine ⟨fun m => ?_, fun _ _ _ => rfl⟩
  exact
    { equipment := rfl
      image := SameImage.refl _
      halted := rfl
      parked := Or.inl rfl
      replies := Or.inl rfl
      next := nofun
      unasked := fun hr => absurd rfl hr
      asked := fun _ hm _ => by
        refine ⟨request, rfl, ?_⟩
        show request.Fits m.completion
        rw [hm]
        exact h
      finished := Or.inl rfl }

/-- A request with the work that it leaves over, which fits if the machine is in order. -/
theorem leaves_suspend {m : Machine} {request : Request} {completion : Completion}
    (h : m.ParkedFits → request.Fits (some completion)) :
    Leaves m ((suspend request completion).run m) where
  equipment := rfl
  image := SameImage.refl _
  halted := rfl
  parked := Or.inl rfl
  replies := Or.inl rfl
  next := nofun
  unasked hr := absurd rfl hr
  asked _ _ hp := ⟨request, rfl, h hp⟩
  finished := Or.inl rfl

theorem blind_suspend (request : Request) (completion : Completion) :
    Blind (suspend request completion) :=
  fun _ _ _ => rfl

theorem turns_suspend {request : Request} {completion : Completion}
    (h : request.Fits (some completion)) : Turns (suspend request completion) :=
  ⟨fun _ => leaves_suspend fun _ => h, blind_suspend request completion⟩

theorem turns_startInput (input : PendingInput) : Turns (startInput input) := by
  apply turns_get_of_forall fun _ _ _ => by cases input <;> rfl
  intro m
  apply turns_suspend
  cases input with
  | line textBuffer parseBuffer store timeout routine => exact ⟨_, _, _, _, rfl⟩
  | char store timeout routine => exact ⟨_, _, rfl⟩

theorem turns_quit : Turns (do
    modify fun m => { m with finished := true }
    raise .quit) := by
  refine ⟨fun m => ?_, fun _ _ _ => rfl⟩
  exact
    { equipment := rfl
      image := SameImage.refl _
      halted := rfl
      parked := Or.inl rfl
      replies := Or.inl rfl
      next := nofun
      unasked := fun hr => absurd rfl hr
      asked := fun _ hm _ => ⟨.quit, rfl, hm⟩
      finished := Or.inr ⟨rfl, rfl⟩ }

/-! ## Printing -/

/-- The machine that holds text back because the printing bits have changed. -/
def holdingBack (m : Machine) : Machine :=
  { m with
    printingBits := m.headerPrintingBits
    streams := { m.streams with transcript := m.headerPrintingBits &&& 1 ≠ 0 } }

/-- Text is held back, or it goes to the streams. -/
theorem print_run (text : String) (m : Machine) :
    (print text).run m
      = if m.headerPrintingBits ≠ m.printingBits then
          (suspend .flagsChanged (.printLeftovers text)).run m.holdingBack
        else (.ok .next, m.emitText text) := by
  unfold print
  rw [run_bind, run_get]
  dsimp only
  split <;> rfl

theorem blind_print (text : String) : Blind (print text) := by
  intro m blocks strings
  have hemit := (plain_emit text).blind m blocks strings
  rw [print_run, print_run]
  by_cases hbits : m.headerPrintingBits ≠ m.printingBits
  · rw [if_pos hbits, if_pos (by exact hbits)]
    rfl
  · rw [if_neg hbits, if_neg (by exact hbits)]
    exact congrArg (fun r => (Except.ok Flow.next, r.2)) hemit

theorem turns_print (text : String) : Turns (print text) := by
  refine ⟨fun m => ?_, blind_print text⟩
  rw [print_run]
  split
  · have hwork : Works m m.holdingBack := ⟨rfl, ⟨rfl, rfl⟩, rfl, rfl⟩
    exact hwork.leaves (leaves_suspend fun _ => ⟨text, rfl⟩)
  · exact (works_emitText m text).leaves (leaves_refl _ nofun)

/-- The character of a code is printed if there is one. -/
theorem turns_printChar (code : Nat) : Turns (do
    match Zscii.char? (← get).codec.charset.extra code with
    | some ch => print (String.singleton ch)
    | none => return .next) := by
  apply turns_get_of_forall fun _ _ _ => rfl
  intro m
  split
  · exact turns_print _
  · exact turns_next

theorem turns_printZscii (code : UInt16) : Turns (printZscii code) := by
  unfold printZscii
  split
  · exact turns_bind (plain_fault _) fun _ => turns_printChar _
  · exact turns_printChar _

theorem turns_printUnicode (code : UInt16) : Turns (printUnicode code) :=
  turns_print _

/-! ## Returning and branching -/

theorem turns_call (target : Nat) (args : List UInt16) (returnPc : Nat) (result : Option UInt8) :
    Turns (call target args returnPc result) := by
  have hzero := turns_setPc (plain_storeResult result 0) returnPc
  refine ⟨fun m => ?_, blind_get fun m blocks strings => ?_⟩
  · unfold call
    rw [run_bind, run_get]
    dsimp only
    split
    · exact hzero.leaves m
    split
    · exact leaves_refl m nofun
    · exact leaves_jump ⟨rfl, ⟨rfl, rfl⟩, rfl, rfl⟩
  · split
    · exact hzero.blind m blocks strings
    · have hmemory : (m.recached blocks strings).memory = m.memory := rfl
      by_cases hsize : m.memory.size ≤ target
      · rw [if_pos hsize, if_pos (hmemory ▸ hsize)]
        rfl
      · rw [if_neg hsize, if_neg (hmemory ▸ hsize)]
        rfl

theorem turns_callPacked (ins : Instruction) (values : List UInt16) :
    Turns (callPacked ins values) :=
  turns_get_of_forall (fun _ _ _ => rfl) fun _ => turns_call _ _ _ _

theorem turns_jumpBy (offset : Int) : Turns (jump offset) := by
  refine ⟨fun m => ?_, blind_get fun m blocks strings => ?_⟩
  · unfold jump
    rw [run_bind, run_get]
    dsimp only
    split
    · exact leaves_refl m nofun
    · exact leaves_jump ⟨rfl, ⟨rfl, rfl⟩, rfl, rfl⟩
  · dsimp only [recached]
    split <;> rfl

/-- What the routine of a timed input comes to: the parked request is made again, or the input is
finished with an empty line. -/
theorem finishInterrupt_eq {m : Machine} {parked : ParkedInput} (h : m.parked = some parked)
    (value : UInt16) :
    (finishInterrupt value).run m
      = if value = 0 then
          (suspend parked.request (.input parked.input)).run
            { m with parked := none, pc := parked.pc }
        else
          (do finishInput parked.input 0 ""; return Flow.jump : Exec Flow).run
            { m with parked := none, pc := parked.pc, replies := [] } := by
  unfold finishInterrupt
  rw [run_bind, run_get]
  dsimp only
  rw [h]
  dsimp only
  rw [run_set_bind]
  split <;> rfl

theorem finishInterrupt_of_none {m : Machine} (h : m.parked = none) (value : UInt16) :
    (finishInterrupt value).run m
      = (.error (.fault (.malformed "interrupt return with no pending input")), m) := by
  unfold finishInterrupt
  rw [run_bind, run_get]
  dsimp only
  rw [h]
  rfl

/-- Finishing an input gives no request and does not go on with the next instruction. -/
theorem finishInput_jump_fst (input : PendingInput) (m : Machine) {flow : Flow}
    (h : flow ≠ .jump) :
    ((do finishInput input 0 ""; return Flow.jump : Exec Flow).run m).1 ≠ .ok flow := by
  rw [run_bind]
  rcases (finishInput input 0 "").run m with ⟨e | a, m'⟩
  · nofun
  · intro hr
    exact h (Except.ok.inj hr).symm

/-- The parked request is made again. -/
theorem leaves_askAgain {m : Machine} {parked : ParkedInput} (h : m.parked = some parked) :
    Leaves m ((suspend parked.request (.input parked.input)).run
      { m with parked := none, pc := parked.pc }) where
  equipment := rfl
  image := SameImage.refl _
  halted := rfl
  parked := Or.inr rfl
  replies := Or.inl rfl
  next := nofun
  unasked hr := absurd rfl hr
  asked _ _ hp := ⟨parked.request, rfl, hp parked h⟩
  finished := Or.inl rfl

theorem turns_finishInterrupt (value : UInt16) : Turns (finishInterrupt value) := by
  have hfinish : ∀ input, Turns (do
      finishInput input 0 ""
      return Flow.jump) :=
    fun input => turns_bind (plain_finishInput input 0 "") fun _ => turns_jump
  refine ⟨fun m => ?_, fun m blocks strings => ?_⟩
  · cases hparked : m.parked with
    | none =>
        rw [finishInterrupt_of_none hparked]
        exact leaves_refl m nofun
    | some parked =>
        rw [finishInterrupt_eq hparked]
        split
        · exact leaves_askAgain hparked
        · have hleaves := (hfinish parked.input).leaves
            { m with parked := none, pc := parked.pc, replies := [] }
          exact (hleaves.of_pc (finishInput_jump_fst _ _ nofun)).of_unanswered.of_unparked
  · cases hparked : m.parked with
    | none =>
        have hsame : (m.recached blocks strings).parked = none := hparked
        rw [finishInterrupt_of_none hparked, finishInterrupt_of_none hsame]
    | some parked =>
        have hsame : (m.recached blocks strings).parked = some parked := hparked
        rw [finishInterrupt_eq hparked, finishInterrupt_eq hsame]
        split
        · rfl
        · exact (hfinish parked.input).blind
            { m with parked := none, pc := parked.pc, replies := [] } blocks strings

theorem turns_returnValue (value : UInt16) : Turns (returnValue value) := by
  refine ⟨fun m => ?_, blind_get fun m blocks strings => ?_⟩
  · unfold returnValue
    rw [run_bind, run_get]
    dsimp only
    split
    · exact leaves_refl m nofun
    · rename_i frame stack hpop
      rw [run_set_bind]
      have hwork : Works m { m with stack } := ⟨rfl, ⟨rfl, rfl⟩, rfl, rfl⟩
      split
      · exact hwork.leaves ((turns_finishInterrupt value).leaves _)
      · exact hwork.leaves ((turns_setPc (plain_storeResult frame.result value) _).leaves _)
  · dsimp only [recached]
    cases m.stack.popFrame? with
    | none => rfl
    | some p =>
        obtain ⟨frame, stack⟩ := p
        dsimp only
        split
        · exact (turns_finishInterrupt value).blind { m with stack } blocks strings
        · exact (turns_setPc (plain_storeResult frame.result value) _).blind { m with stack }
            blocks strings

theorem turns_throwTo (value cookie : UInt16) : Turns (throwTo value cookie) := by
  refine ⟨fun m => ?_, blind_get fun m blocks strings => ?_⟩
  · unfold throwTo
    rw [run_bind, run_get]
    dsimp only
    split
    · exact leaves_refl m nofun
    · have hwork : Works m { m with stack := unwind cookie.toNat m.stack } :=
        ⟨rfl, ⟨rfl, rfl⟩, rfl, rfl⟩
      exact hwork.leaves ((turns_returnValue value).leaves _)
  · dsimp only [recached]
    split
    · rfl
    · exact (turns_returnValue value).blind { m with stack := unwind cookie.toNat m.stack }
        blocks strings

theorem turns_takeBranch (b : Branch) (condition : Bool) : Turns (takeBranch b condition) := by
  unfold takeBranch
  split
  · exact turns_next
  split
  · exact turns_returnValue 0
  · exact turns_returnValue 1
  · exact turns_setPc (plain_pure ()) _

theorem turns_branch (ins : Instruction) (condition : Bool) : Turns (branch ins condition) := by
  unfold branch
  split
  · exact turns_takeBranch _ condition
  · exact turns_next

theorem turns_store (ins : Instruction) (value : UInt16) : Turns (store ins value) :=
  turns_of_plain (plain_storeResult ins.store value)

theorem turns_storeAndBranch (ins : Instruction) (value : UInt16) (condition : Bool) :
    Turns (storeAndBranch ins value condition) :=
  turns_bind (plain_storeResult ins.store value) fun _ => turns_branch ins condition

/-- A routine of a timed input that returns true does not lead back to the host. -/
theorem finishInterrupt_ne_suspend {value : UInt16} (h : value ≠ 0) (m : Machine) :
    ((finishInterrupt value).run m).1 ≠ .ok .suspend := by
  cases hparked : m.parked with
  | none =>
      rw [finishInterrupt_of_none hparked]
      nofun
  | some parked =>
      rw [finishInterrupt_eq hparked, if_neg h]
      exact finishInput_jump_fst _ _ nofun

/-- Nor does any other return with a value that is not false. -/
theorem returnValue_ne_suspend {value : UInt16} (h : value ≠ 0) (m : Machine) :
    ((returnValue value).run m).1 ≠ .ok .suspend := by
  unfold returnValue
  rw [run_bind, run_get]
  dsimp only
  split
  · nofun
  · rename_i frame stack hpop
    rw [run_set_bind]
    split
    · exact finishInterrupt_ne_suspend h _
    · show ((storeResult frame.result value >>= fun _ => pure Flow.jump).run
        { m with stack, pc := frame.returnPc }).1 ≠ _
      rw [run_bind]
      rcases (storeResult frame.result value).run _ with ⟨e | a, m'⟩ <;> nofun

/-- Printing after a return: if the text is held back, the host is told of that. -/
theorem blind_printBefore (text : String) (flow : Flow) : Blind (do
    match ← print text with
    | .suspend => return .suspend
    | _ => return flow : Exec Flow) := by
  apply blind_bind (blind_print _)
  intro printed
  split <;> exact blind_pure _

theorem turns_printAndReturn (text : String) : Turns (printAndReturn text) := by
  refine ⟨fun m => ?_, blind_bind (turns_returnValue 1).blind (blind_printBefore _)⟩
  have hm := (turns_returnValue 1).leaves m
  have hreturn := returnValue_ne_suspend (show (1 : UInt16) ≠ 0 by decide) m
  unfold printAndReturn
  rw [run_bind]
  revert hm hreturn
  rcases (returnValue 1).run m with ⟨e | flow, m₁⟩
  · intro hm _
    exact hm
  · intro hm hreturn
    dsimp only
    rw [run_bind, print_run]
    by_cases hbits : m₁.headerPrintingBits ≠ m₁.printingBits
    · rw [if_pos hbits]
      exact
        { hm with
          next := fun hr => by cases hr
          unasked := fun hr => absurd rfl hr
          asked := fun _ _ _ => ⟨.flagsChanged, rfl, _, rfl⟩
          finished := Or.inl (hm.finished.resolve_right fun h => hreturn h.1) }
    · rw [if_neg hbits]
      exact hm.works (works_emitText m₁ _)

/-! ## Saving and restoring -/

theorem turns_deliver (delivery : Delivery) (value : UInt16) : Turns (deliver delivery value) := by
  cases delivery with
  | store code => exact turns_of_plain (plain_writeVariable code value)
  | branch b => exact turns_takeBranch b _

theorem turns_save (ins : Instruction) (values : List UInt16) : Turns (save ins values) := by
  apply turns_bind (plain_deliveryOf ins)
  intro delivery
  split
  · exact turns_get_of_forall (fun _ _ _ => rfl) fun m => turns_suspend ⟨delivery, rfl⟩
  · exact turns_deliver delivery 0

theorem turns_restore (ins : Instruction) (values : List UInt16) : Turns (restore ins values) := by
  apply turns_bind (plain_deliveryOf ins)
  intro delivery
  split
  · exact turns_suspend ⟨delivery, rfl⟩
  · exact turns_deliver delivery 0

/-- Where the next instruction would go on, control jumps instead. -/
theorem turns_jumping {x : Exec Flow} (hx : Turns x) (pc : Nat) :
    Turns (do
      setPc pc
      match ← x with
      | .next => return .jump
      | flow => return flow) := by
  have hblind : Blind (setPc pc) := blind_modify fun _ _ _ => rfl
  refine ⟨fun m => ?_, blind_bind hblind fun _ => blind_bind hx.blind fun flow => ?_⟩
  · have hm := hx.leaves { m with pc }
    show Leaves m ((do match ← x with | .next => return .jump | flow => return flow : Exec Flow).run
      { m with pc })
    rw [run_bind]
    revert hm
    rcases x.run { m with pc } with ⟨e | flow, m'⟩
    · intro hm
      exact hm.of_pc nofun
    · cases flow with
      | next =>
          intro hm
          exact
            { hm with
              next := nofun
              unasked := fun _ => hm.unasked nofun
              asked := nofun
              finished := Or.inl (hm.finished.resolve_right nofun) }
      | jump =>
          intro hm
          exact hm.of_pc nofun
      | suspend =>
          intro hm
          exact hm.of_pc nofun
  · split <;> exact blind_pure _

/-- A snapshot put in place is plain work once a parked input is forgotten. -/
theorem works_withSnapshot (m : Machine) (s : Snapshot) :
    Works { m with parked := none } (m.withSnapshot s) where
  equipment := rfl
  image := ((Memory.sameImage_restoreDynamic m.memory s.dynamic).trans
    (sameImage_setUpHeader m.config m.version _)).trans (sameImage_withPrintingBits _ _)
  hostSide := rfl
  pc := rfl

/-- The instruction that saved is answered. -/
theorem turns_answerSave (pc : Nat) : Turns (do
    let m ← get
    if 4 ≤ m.version then
      setPc (pc + 1)
      writeVariable (m.memory.byteAt pc) restoredCode
      return .jump
    else
      let (branch, after) := Branch.read m.memory pc
      setPc after
      match ← takeBranch branch true with
      | .next => return .jump
      | flow => return flow : Exec Flow) := by
  apply turns_get_of_forall fun _ _ _ => rfl
  intro m
  split
  · exact turns_setPc (plain_writeVariable _ _) _
  · exact turns_jumping (turns_takeBranch _ _) _

theorem turns_restoreSnapshot (s : Snapshot) : Turns (restoreSnapshot s) := by
  have hrest := turns_answerSave s.pc
  have hblind : Blind (modify fun m => m.withSnapshot s) := blind_modify fun _ _ _ => rfl
  refine ⟨fun m => ?_, blind_bind hblind fun _ => hrest.blind⟩
  exact ((works_withSnapshot m s).leaves (hrest.leaves _)).of_unparked

theorem turns_restoreUndo (store : Option UInt8) : Turns (restoreUndo store) := by
  have hnone := turns_of_plain (plain_storeResult store 0)
  refine ⟨fun m => ?_, blind_get fun m blocks strings => ?_⟩
  · unfold restoreUndo
    rw [run_bind, run_get]
    dsimp only
    split
    · rename_i s undo hpop
      have hwork : Works m { m with undo } := ⟨rfl, ⟨rfl, rfl⟩, rfl, rfl⟩
      rw [run_set_bind]
      exact hwork.leaves ((turns_restoreSnapshot s).leaves _)
    · exact hnone.leaves m
  · have hundo : (m.recached blocks strings).undo = m.undo := rfl
    rw [hundo]
    cases m.undo.pop? with
    | none => exact hnone.blind m blocks strings
    | some p =>
        dsimp only
        rw [run_set_bind, run_set_bind]
        exact (turns_restoreSnapshot p.1).blind { m with undo := p.2 } blocks strings

/-! ## Memory -/

theorem turns_change {f : Machine → Memory} (himage : ∀ m, SameImage m.memory (f m))
    (hblind : ∀ m blocks strings, f (m.recached blocks strings) = f m) : Turns (change f) := by
  apply turns_of_plain
  refine plain_modify (fun m => ⟨rfl, himage m, rfl, rfl⟩) fun m blocks strings => ?_
  rw [hblind]
  rfl

theorem turns_change? {f : Machine → Option Memory}
    (himage : ∀ m memory, f m = some memory → SameImage m.memory memory)
    (hblind : ∀ m blocks strings, f (m.recached blocks strings) = f m) : Turns (change? f) := by
  refine ⟨fun m => ?_, blind_get fun m blocks strings => ?_⟩
  · unfold change?
    rw [run_bind, run_get]
    dsimp only
    split
    · rename_i memory hmemory
      have hwork : Works m { m with memory } := ⟨rfl, himage m memory hmemory, rfl, rfl⟩
      exact hwork.leaves (leaves_refl _ nofun)
    · exact leaves_refl m nofun
  · rw [hblind]
    cases f m <;> rfl

theorem turns_putProp (object property value : UInt16) :
    Turns (do
      let m ← get
      let memory ← orFault (m.objects.putProp m.memory object property value)
      set { m with memory }
      return Flow.next) := by
  refine ⟨fun m => ?_, blind_get fun m blocks strings => ?_⟩
  · rw [run_bind, run_get]
    dsimp only
    cases hput : m.objects.putProp m.memory object property value with
    | error f => exact leaves_refl m nofun
    | ok memory =>
        have hwork : Works m { m with memory } :=
          ⟨rfl, m.objects.sameImage_putProp hput, rfl, rfl⟩
        exact hwork.leaves (leaves_refl _ nofun)
  · have hput : (m.recached blocks strings).objects.putProp (m.recached blocks strings).memory
        object property value = m.objects.putProp m.memory object property value := rfl
    rw [hput]
    cases m.objects.putProp m.memory object property value <;> rfl

/-! ## Strings of the story -/

/-- The codec after at most one string of the story has been decoded. -/
def Spelled (m : Machine) (codec : Text.Codec) : Prop :=
  codec = m.codec ∨ ∃ address, codec = (m.codec.decode m.memory address).2

/-- With other strings in the cache the machine reads the same texts. -/
def SameTexts (m : Machine) (strings : Std.HashMap Nat (String × Nat)) : Prop :=
  ∀ address, ((m.recached m.blocks strings).codec.decode m.memory address).1
    = (m.codec.decode m.memory address).1

/-- An action that may decode a string of the story, and otherwise leaves things as `Leaves` says.
It does the same whatever is in the caches, as long as the texts are the same. -/
structure Spells (x : Exec Flow) : Prop where
  leaves : ∀ m, ∃ codec, m.Spelled codec ∧ Leaves { m with codec } (x.run m)
  recached : ∀ m blocks strings, m.SameTexts strings → ∃ strings',
    x.run (m.recached blocks strings) = ((x.run m).1, (x.run m).2.recached blocks strings')

theorem Turns.spells {x : Exec Flow} (h : Turns x) : Spells x :=
  ⟨fun m => ⟨m.codec, Or.inl rfl, h.leaves m⟩,
    fun m blocks strings _ => ⟨strings, h.blind m blocks strings⟩⟩

theorem spells_get_of_forall {f : Machine → Exec Flow}
    (hf : ∀ m blocks strings, f (m.recached blocks strings) = f m) (h : ∀ m, Spells (f m)) :
    Spells (get >>= f) := by
  refine ⟨fun m => (h m).leaves m, fun m blocks strings hsame => ?_⟩
  obtain ⟨strings', hrun⟩ := (h m).recached m blocks strings hsame
  refine ⟨strings', ?_⟩
  show (f (m.recached blocks strings)).run (m.recached blocks strings) = _
  rw [hf]
  exact hrun

/-- The string at an address is printed by a machine that has it in its cache. -/
theorem printAt_run (m : Machine) (address : Nat) :
    (printAt address).run m
      = (print (m.codec.decode m.memory address).1.1).run
          { m with codec := (m.codec.decode m.memory address).2 } :=
  rfl

/-- So only the caches of the machine and the text count. -/
theorem printAt_run_recached (m : Machine) (address : Nat) :
    (printAt address).run m
      = (print (m.codec.decode m.memory address).1.1).run
          (m.recached m.blocks (m.codec.decode m.memory address).2.cache) := by
  rw [printAt_run, Text.Codec.decode_snd]
  rfl

theorem spells_printAt (address : Nat) : Spells (printAt address) := by
  refine ⟨fun m => ?_, fun m blocks strings hsame => ?_⟩
  · refine ⟨(m.codec.decode m.memory address).2, Or.inr ⟨address, rfl⟩, ?_⟩
    rw [printAt_run]
    exact (turns_print _).leaves _
  · have htext : ((m.recached blocks strings).codec.decode m.memory address).1.1
        = (m.codec.decode m.memory address).1.1 := congrArg Prod.fst (hsame address)
    refine ⟨((m.recached blocks strings).codec.decode m.memory address).2.cache, ?_⟩
    rw [printAt_run_recached, printAt_run_recached m]
    show (print ((m.recached blocks strings).codec.decode m.memory address).1.1).run
      (m.recached blocks ((m.recached blocks strings).codec.decode m.memory address).2.cache) = _
    rw [htext, blind_print, blind_print]
    rfl

theorem spells_printObject (object : UInt16) : Spells (printObject object) := by
  apply spells_get_of_forall fun _ _ _ => rfl
  intro m
  split
  · exact turns_next.spells
  · exact spells_printAt _

/-! ## Instructions -/

/-- **An instruction with evaluated operands** prints a string of the story or is blind. -/
theorem spells_executeWith (ins : Instruction) (v : List UInt16) : Spells (executeWith ins v) := by
  unfold executeWith
  dsimp only
  cases ins.op
  case printAddr => exact spells_printAt _
  case printPaddr => exact spells_get_of_forall (fun _ _ _ => rfl) fun m => spells_printAt _
  case printObj => exact spells_printObject _
  all_goals apply Turns.spells
  -- operations that do the same with different values go together
  case je | jl | jg | jz | test => exact turns_branch ins _
  case checkArgCount | jin | testAttr | verify =>
    exact turns_get_of_forall (fun _ _ _ => rfl) fun m => turns_branch ins _
  case incChk | decChk =>
    exact turns_bind (plain_adjust _ _) fun value => turns_branch ins _
  case jump => exact turns_jumpBy _
  case add | sub | mul | or | and | not | logShift | artShift | checkUnicode | setFont | gestalt =>
    exact turns_store ins _
  case div | mod =>
    dsimp only
    split
    · exact turns_fault _
    · exact turns_store ins _
  case store => exact turns_of_plain (plain_writeIndirect _ _)
  case load => exact turns_bind (plain_readIndirect _) fun value => turns_store ins value
  case inc | dec => exact turns_of_plain (plain_adjust _ _)
  case push => exact turns_of_plain (plain_pushStack _)
  case pull =>
    exact turns_bind (plain_popStack _) fun value =>
      turns_of_plain (plain_writeIndirect _ value)
  case pop => exact turns_of_plain (plain_popStack _)
  case loadw | loadb | catchFrame | getParent | getProp | getPropAddr | getPropLen =>
    exact turns_get_of_forall (fun _ _ _ => rfl) fun m => turns_store ins _
  case getNextProp =>
    exact turns_get_of_forall (fun _ _ _ => rfl) fun m =>
      turns_bind (plain_orFault _) fun next => turns_store ins next
  case storew => exact turns_change (fun _ => Memory.sameImage_setWord _ _ _) fun _ _ _ => rfl
  case storeb => exact turns_change (fun _ => Memory.sameImage_setByte _ _ _) fun _ _ _ => rfl
  case copyTable => exact turns_change (fun _ => Table.sameImage_copy _ _ _ _) fun _ _ _ => rfl
  case setAttr =>
    exact turns_change (fun m => m.objects.sameImage_setAttribute _ _ _) fun _ _ _ => rfl
  case clearAttr =>
    exact turns_change (fun m => m.objects.sameImage_clearAttribute _ _ _) fun _ _ _ => rfl
  case tokenise =>
    exact turns_change (fun _ => sameImage_tokenise _ _ _ _ _ _) fun _ _ _ => rfl
  case encodeText =>
    exact turns_change (fun _ => Memory.sameImage_setBytes _ _ _) fun _ _ _ => rfl
  case insertObj | removeObj =>
    exact turns_change? (fun m _ h => m.objects.sameImage_insert? h) fun _ _ _ => rfl
  case putProp => exact turns_putProp _ _ _
  case scanTable | getSibling | getChild =>
    exact turns_get_of_forall (fun _ _ _ => rfl) fun m => turns_storeAndBranch ins _ _
  case call1s | call1n | call2s | call2n | callVs | callVs2 | callVn | callVn2 =>
    exact turns_callPacked ins v
  case ret | rtrue | rfalse => exact turns_returnValue _
  case retPopped => exact turns_bind (plain_popStack _) fun value => turns_returnValue value
  case throwFrame => exact turns_throwTo _ _
  case print | newLine | printNum => exact turns_print _
  case printRet => exact turns_printAndReturn _
  case printChar => exact turns_printZscii _
  case printUnicode => exact turns_printUnicode _
  case printTable => exact turns_get_of_forall (fun _ _ _ => rfl) fun m => turns_raise rfl
  case outputStream => exact turns_of_plain (plain_selectStream _ _)
  case read => exact turns_get_of_forall (fun _ _ _ => rfl) fun m => turns_startInput _
  case readChar =>
    dsimp only
    split
    · exact turns_get_of_forall (fun _ _ _ => rfl) fun m => turns_startInput _
    · exact turns_next
  case showStatus | nop => exact turns_next
  case splitWindow | setWindow | eraseWindow | eraseLine | setCursor | setTextStyle | setColour
      | bufferMode | inputStream | soundEffect | restart =>
    exact turns_raise rfl
  case getCursor => exact turns_suspend rfl
  case save => exact turns_save ins v
  case restore => exact turns_restore ins v
  case saveUndo =>
    exact turns_bind (plain_saveUndo _) fun result => turns_store ins result
  case restoreUndo => exact turns_restoreUndo _
  case quit => exact turns_quit
  case piracy =>
    dsimp only
    split
    · exact turns_suspend ⟨_, rfl⟩
    · exact turns_next
  case random =>
    exact turns_bind (plain_drawRandom _) fun value => turns_store ins value

/-- Operands come from stack and memory, which they leave as it is. -/
theorem memory_operandValues (operands : List Operand) :
    Relates (fun m m' => m'.memory = m.memory) (operandValues operands) := by
  have htrans : ∀ m₁ m₂ m₃ : Machine, m₂.memory = m₁.memory → m₃.memory = m₂.memory →
      m₃.memory = m₁.memory := fun _ _ _ h h' => h'.trans h
  have hoperand : ∀ operand, Relates (fun m m' => m'.memory = m.memory) (operandValue operand) := by
    intro operand
    cases operand with
    | large value => exact fun _ => rfl
    | small value => exact fun _ => rfl
    | var code =>
        apply relates_get
        intro m
        split
        · rw [popStack, run_bind, run_get]
          dsimp only
          split <;> rfl
        · rfl
  induction operands with
  | nil => exact fun _ => rfl
  | cons operand rest ih =>
      apply relates_bind_self htrans (hoperand operand)
      intro value
      exact relates_bind_self htrans ih fun _ _ => rfl

/-- **All instructions** leave things as `Leaves` says, but for a string that they may decode, and do
the same whatever is in the caches. -/
theorem spells_execute (ins : Instruction) : Spells (execute ins) := by
  refine ⟨fun m => ?_, fun m blocks strings hsame => ?_⟩
  all_goals
    have hworks := (plain_operandValues ins.operands).works m
    have hmemory := memory_operandValues ins.operands m
    unfold execute
    rw [run_bind]
  · revert hworks hmemory
    rcases (operandValues ins.operands).run m with ⟨e | values, m₁⟩
    · intro hworks _
      exact ⟨m.codec, Or.inl rfl, hworks.leaves (leaves_refl m₁ nofun)⟩
    · intro hworks hmemory
      have hcodec : m₁.codec = m.codec := congrArg Equipment.codec hworks.equipment
      obtain ⟨codec, hspelled, hleaves⟩ := (spells_executeWith ins values).leaves m₁
      refine ⟨codec, ?_, Works.leaves ?_ hleaves⟩
      · unfold Spelled at hspelled ⊢
        rw [hcodec, hmemory] at hspelled
        exact hspelled
      · have hequipment := hworks.equipment
        unfold equipment at hequipment
        obtain ⟨hconfig, hheader, -, hblocks⟩ := Equipment.mk.inj hequipment
        refine ⟨?_, hworks.image, hworks.hostSide, hworks.pc⟩
        unfold equipment
        dsimp only
        rw [hconfig, hheader, hblocks]
  · rw [run_bind, (plain_operandValues ins.operands).blind]
    revert hworks hmemory
    rcases (operandValues ins.operands).run m with ⟨e | values, m₁⟩
    · intro _ _
      exact ⟨strings, rfl⟩
    · intro hworks hmemory
      have hcodec : m₁.codec = m.codec := congrArg Equipment.codec hworks.equipment
      apply (spells_executeWith ins values).recached m₁ blocks strings
      intro address
      unfold recached
      dsimp only
      rw [hcodec, hmemory]
      exact hsame address

/-! ## Left over work -/

theorem turns_noteCursor (table : Nat) :
    Turns (change fun m =>
      (m.memory.setWord table (Word.ofInt ((m.replyNumber? 0).getD 1))).setWord (table + 2)
        (Word.ofInt ((m.replyNumber? 1).getD 1))) := by
  refine turns_change (fun m => ?_) fun _ _ _ => rfl
  exact (Memory.sameImage_setWord _ _ _).trans (Memory.sameImage_setWord _ _ _)

theorem turns_resumeRestore (delivery : Delivery) : Turns (resumeRestore delivery) := by
  apply turns_get_of_forall fun _ _ _ => rfl
  intro m
  split
  · split
    · exact turns_restoreSnapshot _
    · exact turns_deliver delivery 0
  · exact turns_deliver delivery 0

/-- An input is set aside with the request that was made for it, and its routine is called. -/
theorem leaves_interrupt (m : Machine) (routine : UInt16) (input : PendingInput) :
    ∃ parked, (m.ParkedFits → ParkedFits { m with parked }) ∧
      Leaves { m with parked } ((interrupt routine input).run m) := by
  unfold interrupt
  rw [run_bind, run_get]
  dsimp only
  split
  · exact ⟨m.parked, id, leaves_refl m nofun⟩
  · refine ⟨some { input, request := m.inputRequest input, pc := m.pc }, fun _ parked hp => ?_,
      (turns_call _ _ _ _).leaves _⟩
    cases hp
    cases input with
    | line textBuffer parseBuffer store timeout routine => exact ⟨_, _, _, _, rfl⟩
    | char store timeout routine => exact ⟨_, _, rfl⟩

theorem leaves_resumeInput (m : Machine) (input : PendingInput) :
    ∃ parked, (m.ParkedFits → ParkedFits { m with parked }) ∧
      Leaves { m with parked } ((resumeInput input).run m) := by
  unfold resumeInput
  rw [run_bind, run_get]
  dsimp only
  split
  · exact leaves_interrupt m _ input
  · exact ⟨m.parked, id, (turns_of_plain (plain_finishInput input _ _)).leaves m⟩

/-- **The work left over by a request** leaves things as `Leaves` says, but for an input that it may
set aside. -/
theorem leaves_resume (m : Machine) (completion : Completion) :
    ∃ parked, (m.ParkedFits → ParkedFits { m with parked }) ∧
      Leaves { m with parked } ((resume completion).run m) := by
  unfold resume
  cases completion with
  | printLeftovers text => exact ⟨m.parked, id, (turns_of_plain (plain_emit text)).leaves m⟩
  | input input => exact leaves_resumeInput m input
  | save delivery =>
      dsimp only
      rw [run_bind, run_get]
      exact ⟨m.parked, id, (turns_deliver delivery _).leaves m⟩
  | restore delivery => exact ⟨m.parked, id, (turns_resumeRestore delivery).leaves m⟩
  | piracy b =>
      dsimp only
      rw [run_bind, run_get]
      exact ⟨m.parked, id, (turns_takeBranch b _).leaves m⟩
  | getCursor table => exact ⟨m.parked, id, (turns_noteCursor table).leaves m⟩

/-! ## Sequences -/

/-- A sequence of instructions goes on as long as each leads to the next one. -/
theorem runInstructions_cons_run (ins : Instruction) (rest : List Instruction) (m : Machine) :
    (runInstructions (ins :: rest)).run m
      = match (execute ins).run { m with pc := ins.next } with
        | (.ok .next, m') => (runInstructions rest).run m'
        | r => r := by
  show (execute ins >>= _).run { m with pc := ins.next } = _
  rw [run_bind]
  rcases (execute ins).run { m with pc := ins.next } with ⟨e | flow, m'⟩
  · rfl
  · cases flow <;> rfl

/-! ## Blocks -/

/-- A fetch gives the block of the cache, or its fault, and changes the caches. -/
theorem fetchBlock_run (m : Machine) :
    fetchBlock.run m
      = match m.blocks.fetch m.codec m.memory m.pc with
        | .error f => (.error (.fault f), m)
        | .ok (block, blocks, codec) => (.ok block, { m with blocks, codec }) := by
  unfold fetchBlock
  rw [run_bind, run_get]
  dsimp only
  cases m.blocks.fetch m.codec m.memory m.pc <;> rfl

/-- Fetching a block changes only what the machine has decoded. -/
theorem fetchBlock_run_snd (m : Machine) :
    ∃ blocks codec, (fetchBlock.run m).2 = { m with blocks, codec } := by
  rw [fetchBlock_run]
  cases m.blocks.fetch m.codec m.memory m.pc with
  | error f => exact ⟨m.blocks, m.codec, rfl⟩
  | ok fetched => exact ⟨fetched.2.1, fetched.2.2, rfl⟩

/-- A block that is not kept is decoded, and kept then if it starts in static memory. -/
theorem fetchBlock_run_of_decode {m : Machine} {block : Block} {codec : Text.Codec}
    (habsent : m.blocks.blocks[m.pc]? = none)
    (hdecode : Block.decode m.codec m.memory m.pc = .ok (block, codec)) :
    fetchBlock.run m = (.ok block,
      { m with
        blocks :=
          { blocks := if m.memory.staticStart ≤ m.pc then m.blocks.blocks.insert m.pc block
              else m.blocks.blocks
            decoded := m.blocks.decoded + 1 }
        codec }) := by
  rw [fetchBlock_run, BlockCache.fetch, habsent, hdecode]

/-- A block in dynamic memory is not kept. -/
theorem fetchBlock_run_of_dynamic {m : Machine} {block : Block} {codec : Text.Codec}
    (habsent : m.blocks.blocks[m.pc]? = none) (hdynamic : m.pc < m.memory.staticStart)
    (hdecode : Block.decode m.codec m.memory m.pc = .ok (block, codec)) :
    fetchBlock.run m = (.ok block,
      { m with blocks := { m.blocks with decoded := m.blocks.decoded + 1 }, codec }) := by
  rw [fetchBlock_run_of_decode habsent hdecode, if_neg (by omega)]

end Machine
end ZMachine
