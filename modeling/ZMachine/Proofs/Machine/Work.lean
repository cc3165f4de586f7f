/-
# Plain work

Most of what an instruction does is plain work on stack, memory, streams, random generator and undo
history.  It leaves everything else alone, and it never looks at the blocks and strings that the
machine has decoded so far, so it does the same whatever is in the caches.

* `Works` : what plain work leaves alone;
* `Blind` : an action that does not look at the caches;
* `Plain` : an action of both kinds, a notion that is closed under sequencing.
-/
import ZMachine.Proofs.Image
import ZMachine.Proofs.Machine.Exec

namespace ZMachine
namespace Machine

open Memory (SameImage)

variable {α β : Type}

/-! ## What work leaves alone -/

/-- What stands between a machine and its host. -/
structure HostSide where
  request : Option Request
  replies : List Reply
  completion : Option Completion
  parked : Option ParkedInput
  halted : Option Fault
  finished : Bool

/-- What stands between a machine and its host. -/
def hostSide (m : Machine) : HostSide :=
  ⟨m.request, m.replies, m.completion, m.parked, m.halted, m.finished⟩

/-- What a machine works with. -/
structure Equipment where
  config : Config
  header : Header
  codec : Text.Codec
  blocks : BlockCache

/-- What a machine works with. -/
def equipment (m : Machine) : Equipment :=
  ⟨m.config, m.header, m.codec, m.blocks⟩

/-- Equipment, image, host's side and program counter are as before. -/
structure Works (m m' : Machine) : Prop where
  equipment : m'.equipment = m.equipment
  image : SameImage m.memory m'.memory
  hostSide : m'.hostSide = m.hostSide
  pc : m'.pc = m.pc

theorem Works.refl (m : Machine) : Works m m :=
  ⟨rfl, SameImage.refl _, rfl, rfl⟩

theorem Works.trans {m₁ m₂ m₃ : Machine} (h : Works m₁ m₂) (h' : Works m₂ m₃) : Works m₁ m₃ :=
  ⟨h'.equipment.trans h.equipment, h.image.trans h'.image, h'.hostSide.trans h.hostSide,
    h'.pc.trans h.pc⟩

/-! ## Actions that do not look at the caches -/

/-- The machine with other blocks and strings in its caches. -/
def recached (m : Machine) (blocks : BlockCache) (strings : Std.HashMap Nat (String × Nat)) :
    Machine :=
  { m with blocks, codec := { m.codec with cache := strings } }

/-- An action gives the same whatever is in the caches, and leaves them as they are. -/
def Blind (x : Exec α) : Prop :=
  ∀ m blocks strings,
    x.run (m.recached blocks strings) = ((x.run m).1, (x.run m).2.recached blocks strings)

theorem blind_pure (a : α) : Blind (pure a : Exec α) :=
  fun _ _ _ => rfl

theorem blind_bind {x : Exec α} {f : α → Exec β} (hx : Blind x) (hf : ∀ a, Blind (f a)) :
    Blind (x >>= f) := by
  intro m blocks strings
  rw [run_bind, run_bind, hx]
  rcases x.run m with ⟨e | a, m'⟩
  · rfl
  · exact hf a m' blocks strings

theorem blind_fault (f : Fault) : Blind (fault f : Exec α) :=
  fun _ _ _ => rfl

theorem blind_modify {g : Machine → Machine}
    (h : ∀ m blocks strings, g (m.recached blocks strings) = (g m).recached blocks strings) :
    Blind (modify g : Exec Unit) := by
  intro m blocks strings
  rw [run_modify, run_modify, h]

/-- Reading the machine first: the rest has to be checked on the machine that it has read. -/
theorem blind_get {f : Machine → Exec β}
    (h : ∀ m blocks strings, (f (m.recached blocks strings)).run (m.recached blocks strings)
      = (((f m).run m).1, ((f m).run m).2.recached blocks strings)) :
    Blind (get >>= f) :=
  h

/-- Reading the machine first, for a rest that does not depend on the caches. -/
theorem blind_get_of_forall {f : Machine → Exec β}
    (hf : ∀ m blocks strings, f (m.recached blocks strings) = f m) (h : ∀ m, Blind (f m)) :
    Blind (get >>= f) := by
  apply blind_get
  intro m blocks strings
  rw [hf]
  exact h m m blocks strings

/-! ## Plain actions -/

/-- An action that is plain work: it leaves the rest alone and does not look at the caches. -/
structure Plain (x : Exec α) : Prop where
  works : Relates Works x
  blind : Blind x

theorem plain_pure (a : α) : Plain (pure a : Exec α) :=
  ⟨fun m => Works.refl m, blind_pure a⟩

theorem plain_bind {x : Exec α} {f : α → Exec β} (hx : Plain x) (hf : ∀ a, Plain (f a)) :
    Plain (x >>= f) :=
  ⟨relates_bind_self (fun _ _ _ h h' => h.trans h') hx.works fun a => (hf a).works,
    blind_bind hx.blind fun a => (hf a).blind⟩

theorem plain_fault (f : Fault) : Plain (fault f : Exec α) :=
  ⟨fun m => Works.refl m, blind_fault f⟩

theorem plain_orFault (r : Except Fault α) : Plain (orFault r) := by
  cases r with
  | ok a => exact plain_pure a
  | error f => exact plain_fault f

theorem plain_modify {g : Machine → Machine} (hworks : ∀ m, Works m (g m))
    (hblind : ∀ m blocks strings, g (m.recached blocks strings) = (g m).recached blocks strings) :
    Plain (modify g : Exec Unit) :=
  ⟨hworks, blind_modify hblind⟩

theorem plain_get_of_forall {f : Machine → Exec β}
    (hf : ∀ m blocks strings, f (m.recached blocks strings) = f m) (h : ∀ m, Plain (f m)) :
    Plain (get >>= f) :=
  ⟨relates_get_of_forall fun m => (h m).works, blind_get_of_forall hf fun m => (h m).blind⟩

/-! ### Variables -/

theorem plain_popStack (address : Nat) : Plain (popStack address) := by
  refine ⟨relates_get fun m => ?_, blind_get fun m blocks strings => ?_⟩
  · cases m.stack.pop? <;> exact ⟨rfl, ⟨rfl, rfl⟩, rfl, rfl⟩
  · dsimp only [recached]
    cases m.stack.pop? <;> rfl

theorem plain_pushStack (value : UInt16) : Plain (pushStack value) :=
  plain_modify (fun _ => ⟨rfl, ⟨rfl, rfl⟩, rfl, rfl⟩) fun _ _ _ => rfl

theorem works_withNamedVariable (m : Machine) (code : UInt8) (value : UInt16) :
    Works m (m.withNamedVariable code value) := by
  unfold withNamedVariable
  split <;> exact ⟨rfl, ⟨rfl, rfl⟩, rfl, rfl⟩

theorem recached_withNamedVariable (m : Machine) (blocks : BlockCache)
    (strings : Std.HashMap Nat (String × Nat)) (code : UInt8) (value : UInt16) :
    (m.recached blocks strings).withNamedVariable code value
      = (m.withNamedVariable code value).recached blocks strings := by
  unfold withNamedVariable
  split <;> rfl

theorem plain_readVariable (code : UInt8) : Plain (readVariable code) := by
  apply plain_get_of_forall fun _ _ _ => rfl
  intro m
  split
  · exact plain_popStack m.pc
  · exact plain_pure _

theorem plain_writeVariable (code : UInt8) (value : UInt16) : Plain (writeVariable code value) := by
  unfold writeVariable
  split
  · exact plain_pushStack value
  · exact plain_modify (fun m => works_withNamedVariable m code value)
      fun m blocks strings => recached_withNamedVariable m blocks strings code value

theorem plain_readIndirect (code : UInt8) : Plain (readIndirect code) := by
  apply plain_get_of_forall fun _ _ _ => rfl
  intro m
  split
  · split
    · exact plain_pure _
    · exact plain_fault _
  · exact plain_pure _

theorem plain_writeIndirect (code : UInt8) (value : UInt16) : Plain (writeIndirect code value) := by
  refine ⟨relates_get fun m => ?_, blind_get fun m blocks strings => ?_⟩
  · split
    · split <;> exact ⟨rfl, ⟨rfl, rfl⟩, rfl, rfl⟩
    · exact works_withNamedVariable m code value
  · split
    · dsimp only [recached]
      cases m.stack.setTop? value <;> rfl
    · rw [recached_withNamedVariable]
      rfl

theorem plain_storeResult (store : Option UInt8) (value : UInt16) :
    Plain (storeResult store value) := by
  cases store with
  | none => exact plain_pure ()
  | some code => exact plain_writeVariable code value

theorem plain_adjust (code : UInt8) (amount : UInt16) : Plain (adjust code amount) := by
  apply plain_bind (plain_readIndirect code)
  intro value
  apply plain_bind (plain_writeIndirect code _)
  intro _
  exact plain_pure _

theorem plain_operandValue (operand : Operand) : Plain (operandValue operand) := by
  cases operand with
  | large value => exact plain_pure value
  | small value => exact plain_pure _
  | var code => exact plain_readVariable code

theorem plain_operandValues (operands : List Operand) : Plain (operandValues operands) := by
  induction operands with
  | nil => exact plain_pure []
  | cons operand rest ih =>
      apply plain_bind (plain_operandValue operand)
      intro value
      apply plain_bind ih
      intro values
      exact plain_pure _

/-! ### Streams and memory -/

theorem works_emitText (m : Machine) (text : String) : Works m (m.emitText text) := by
  unfold emitText
  split
  · exact ⟨rfl, Memory.sameImage_setBytes _ _ _, rfl, rfl⟩
  · exact ⟨rfl, ⟨rfl, rfl⟩, rfl, rfl⟩

theorem plain_emit (text : String) : Plain (emit text) := by
  refine plain_modify (fun m => works_emitText m text) fun m blocks strings => ?_
  unfold emitText
  dsimp only [recached]
  cases m.streams.tables <;> rfl

theorem plain_openTable (table : Nat) : Plain (openTable table) := by
  refine ⟨relates_get fun m => ?_, blind_get fun m blocks strings => ?_⟩
  · dsimp only
    split <;> exact ⟨rfl, ⟨rfl, rfl⟩, rfl, rfl⟩
  · dsimp only [recached]
    split <;> rfl

theorem plain_closeTable : Plain closeTable := by
  refine ⟨relates_get fun m => ?_, blind_get fun m blocks strings => ?_⟩
  · dsimp only
    split <;> exact ⟨rfl, ⟨rfl, rfl⟩, rfl, rfl⟩
  · dsimp only [recached]
    cases m.streams.tables <;> rfl

theorem plain_selectStream (number : Int) (table : Nat) : Plain (selectStream number table) := by
  have hmodify : ∀ f : OutputStreams → OutputStreams,
      Plain (modify fun m => { m with streams := f m.streams } : Exec Unit) :=
    fun f => plain_modify (fun _ => ⟨rfl, ⟨rfl, rfl⟩, rfl, rfl⟩) fun _ _ _ => rfl
  unfold selectStream
  split
  · exact plain_pure ()
  split
  · exact hmodify fun s => { s with screen := 0 < number }
  split
  · exact plain_modify (fun _ => ⟨rfl, ⟨rfl, rfl⟩, rfl, rfl⟩) fun _ _ _ => rfl
  split
  · exact plain_openTable table
  split
  · exact plain_closeTable
  split
  · exact hmodify fun s => { s with script := 0 < number }
  · exact plain_fault _

theorem plain_drawRandom (arg : Int) : Plain (drawRandom arg) :=
  ⟨fun _ => ⟨rfl, ⟨rfl, rfl⟩, rfl, rfl⟩, fun _ _ _ => rfl⟩

theorem plain_saveUndo (pc : Nat) : Plain (saveUndo pc) :=
  ⟨fun _ => ⟨rfl, ⟨rfl, rfl⟩, rfl, rfl⟩, fun _ _ _ => rfl⟩

theorem plain_deliveryOf (ins : Instruction) : Plain (deliveryOf ins) := by
  unfold deliveryOf
  split
  · exact plain_pure _
  · exact plain_pure _
  · exact plain_fault _

theorem plain_finishInput (input : PendingInput) (terminator : Int) (line : String) :
    Plain (finishInput input terminator line) := by
  cases input with
  | line textBuffer parseBuffer store timeout routine =>
      have hwrite : Plain (modify fun m =>
          { m with
            memory := writeLine m.version textBuffer
              (m.lineCodes (m.textCapacity textBuffer).toNat line) m.memory } : Exec Unit) :=
        plain_modify (fun _ => ⟨rfl, sameImage_writeLine _ _ _ _, rfl, rfl⟩) fun _ _ _ => rfl
      have htokenise : Plain (modify fun m =>
          { m with
            memory := tokenise m.codec.charset m.memory textBuffer parseBuffer
              m.header.dictionary false } : Exec Unit) :=
        plain_modify (fun _ => ⟨rfl, sameImage_tokenise _ _ _ _ _ _, rfl, rfl⟩) fun _ _ _ => rfl
      apply plain_bind hwrite
      intro _
      dsimp only
      split
      · exact plain_bind htokenise fun _ => plain_storeResult store _
      · exact plain_storeResult store _
  | char store timeout routine => exact plain_writeVariable store _

end Machine
end ZMachine
