/-
# The transcript

Whether text goes to the transcript is written down in three places: a bit of the header, which the
story may write at any time, the printing bits that the machine has last seen there, and the
selection of the stream.  Printing compares the first two before it looks at the third.

* `InStep` : the selection is that of the printing bits;
* `Unaware` : the image has the bit set and the machine has not noticed;
* `lasting_inStep_or_unaware` : there is nothing else;
* `Emitted` and `HeldBack` : what becomes of a text that is printed;
* `transcript_follows_flag` : in step, the transcript has the text exactly if the bit is set;
* `transcript_unaware` : a story whose image has the bit set is not written down.
-/
import Mathlib.Data.FinEnum
import ZMachine.Proofs.Machine.Lasting
import ZMachine.Proofs.Machine.Restart
import ZMachine.Proofs.Machine.Suspension
import ZMachine.Proofs.Machine.Utterance

namespace ZMachine

variable {image : Array UInt8} {config : Config} {m m' : Machine} {text : String}

namespace Machine

/-! ## The selection -/

/-- The bit of the transcript is set in the header. -/
def transcriptFlag (m : Machine) : Bool :=
  m.memory.byteAt Field.flags2Low &&& 0x01 ≠ 0

/-- The transcript is selected exactly if its bit is set in the printing bits. -/
def InStep (m : Machine) : Prop :=
  m.streams.transcript = true ↔ m.printingBits &&& 0x01 ≠ 0

/-- The bit of the transcript is set in the image and in the printing bits, which are still those of
the image, but the transcript is not selected. -/
structure Unaware (image : Array UInt8) (m : Machine) : Prop where
  marked : (Memory.ofImage image).byteAt Field.flags2Low &&& 0x01 ≠ 0
  transcript : m.streams.transcript = false
  printingBits : m.printingBits = (Memory.ofImage image).byteAt Field.flags2Low &&& 0x03

theorem and_three_and_one (b : UInt8) : b &&& 0x03 &&& 0x01 = b &&& 0x01 := by
  rw [UInt8.and_assoc]
  rfl

/-- The selection that a machine makes for the printing bits of its header. -/
theorem inStep_decide (h : m.streams.transcript = decide (m.printingBits &&& 0x01 ≠ 0)) :
    InStep m := by
  rw [InStep, h, decide_eq_true_iff]

theorem transcriptFlag_eq_decide (m : Machine) :
    m.transcriptFlag = decide (m.headerPrintingBits &&& 0x01 ≠ 0) := by
  rw [transcriptFlag, headerPrintingBits, and_three_and_one]

/-- In step, and with the printing bits of the header seen, the selection is the bit. -/
theorem InStep.transcript_eq (h : InStep m) (hbits : m.headerPrintingBits = m.printingBits) :
    m.streams.transcript = m.transcriptFlag := by
  rw [transcriptFlag_eq_decide, hbits, Bool.eq_iff_iff, decide_eq_true_iff]
  exact h

/-- It matters only what is selected and which printing bits have been seen. -/
theorem inStep_or_unaware_congr (htranscript : m'.streams.transcript = m.streams.transcript)
    (hbits : m'.printingBits = m.printingBits) (h : InStep m ∨ Unaware image m) :
    InStep m' ∨ Unaware image m' := by
  rcases h with hstep | hunaware
  · left
    rw [InStep, htranscript, hbits]
    exact hstep
  · exact .inr ⟨hunaware.marked, htranscript.trans hunaware.transcript,
      hbits.trans hunaware.printingBits⟩

/-! ### Actions -/

theorem emitText_transcript (m : Machine) (text : String) :
    (m.emitText text).streams.transcript = m.streams.transcript := by
  unfold emitText
  split <;> rfl

theorem emitText_printingBits (m : Machine) (text : String) :
    (m.emitText text).printingBits = m.printingBits := by
  unfold emitText
  split <;> rfl

theorem emitText_completion (m : Machine) (text : String) :
    (m.emitText text).completion = m.completion := by
  unfold emitText
  split <;> rfl

theorem inStep_holdingBack (m : Machine) : InStep m.holdingBack :=
  inStep_decide rfl

/-- The bits that a selection of the transcript writes are those of the selection. -/
theorem selectedBits : ∀ (on : Bool) (b : UInt8),
    on = decide (((if on then b ||| 0x01 else b &&& ~~~0x01) &&& 0x03) &&& 0x01 ≠ 0) := by
  decide +kernel

theorem inStep_selectTranscript (on : Bool) (m : Machine) : InStep (selectTranscript on m) :=
  inStep_decide (selectedBits on _)

/-- Selecting a stream brings selection and printing bits in step, or leaves both as they are; the
buffers stay as they are. -/
theorem selectStream_streams (number : Int) (table : Nat) (m : Machine) :
    let m' := ((selectStream number table).run m).2
    (InStep m' ∨ m'.streams.transcript = m.streams.transcript ∧ m'.printingBits = m.printingBits) ∧
      m'.streams.console = m.streams.console ∧
      m'.streams.transcriptText = m.streams.transcriptText ∧ m'.completion = m.completion := by
  unfold selectStream
  split
  · exact ⟨.inr ⟨rfl, rfl⟩, rfl, rfl, rfl⟩
  split
  · exact ⟨.inr ⟨rfl, rfl⟩, rfl, rfl, rfl⟩
  split
  · exact ⟨.inl (inStep_selectTranscript _ m), rfl, rfl, rfl⟩
  split
  · unfold openTable
    rw [run_bind, run_get]
    dsimp only
    split <;> exact ⟨.inr ⟨rfl, rfl⟩, rfl, rfl, rfl⟩
  split
  · unfold closeTable
    rw [run_bind, run_get]
    dsimp only
    split <;> exact ⟨.inr ⟨rfl, rfl⟩, rfl, rfl, rfl⟩
  split <;> exact ⟨.inr ⟨rfl, rfl⟩, rfl, rfl, rfl⟩

theorem Mute.inStep_or_unaware (h : Mute m m') (hm : InStep m ∨ Unaware image m) :
    InStep m' ∨ Unaware image m' :=
  inStep_or_unaware_congr (congrArg OutputStreams.transcript h.streams) h.printingBits hm

theorem Voices.inStep_or_unaware {said : Option String} {r : Except Stop Flow × Machine}
    (h : Voices m said r) (hm : InStep m ∨ Unaware image m) :
    InStep r.2 ∨ Unaware image r.2 := by
  cases h with
  | mute hmute => exact hmute.inStep_or_unaware hm
  | prints hmute _ hr =>
      rw [hr, print_run]
      -- a text is held back only after the selection has followed the header
      split
      · exact .inl (inStep_holdingBack _)
      · exact inStep_or_unaware_congr (emitText_transcript _ _) (emitText_printingBits _ _)
          (hmute.inStep_or_unaware hm)
  | selects hmute _ hr =>
      rw [hr]
      rcases (selectStream_streams _ _ _).1 with hstep | ⟨htranscript, hbits⟩
      · exact .inl hstep
      · exact inStep_or_unaware_congr htranscript hbits (hmute.inStep_or_unaware hm)

/-- **Selection and printing bits stay in step** once they are, and until then nobody has noticed
the bit of the image. -/
theorem lasting_inStep_or_unaware (image : Array UInt8) :
    Lasting fun m => InStep m ∨ Unaware image m where
  idle h hm := by
    refine inStep_or_unaware_congr ?_ ?_ hm <;> rw [h]
  execute hm ins := (voices_execute ins).inStep_or_unaware hm
  resume {m} hm completion := by
    rcases mute_resume completion with ⟨text, rfl⟩ | hmute
    · rw [resume_printLeftovers_run]
      exact inStep_or_unaware_congr (emitText_transcript _ _) (emitText_printingBits _ _) hm
    · exact (hmute m).inStep_or_unaware hm
  fetchBlock {m} hm := (mute_fetchBlock m).inStep_or_unaware hm
  restoreSnapshot {m} hm s := (mute_restoreSnapshot s m).inStep_or_unaware hm
  attend {m m'} hm h := by
    -- only the status line needs a look: it goes through the string cache
    have hsame : m'.streams.transcript = m.streams.transcript ∧
        m'.printingBits = m.printingBits := by
      cases h with
      | statusLine width =>
          unfold Machine.statusLine
          split <;> exact ⟨rfl, rfl⟩
      | _ => exact ⟨rfl, rfl⟩
    exact inStep_or_unaware_congr hsame.1 hsame.2 hm
  restart _ := .inl (inStep_decide rfl)

/-- Loading does not select the transcript, whatever the image says. -/
theorem inStep_or_unaware_load (h : load image config = .ok m) :
    InStep m ∨ Unaware image m := by
  obtain ⟨header, random, rfl⟩ := load_eq h
  by_cases hmarked : (Memory.ofImage image).byteAt Field.flags2Low &&& 0x01 ≠ 0
  · exact .inr ⟨hmarked, rfl, rfl⟩
  · refine .inl (inStep_decide ?_)
    dsimp only
    rw [and_three_and_one, decide_eq_false hmarked]

/-! ## Texts -/

/-- Nothing has been added to the text that waits for the host. -/
structure SameBuffers (m m' : Machine) : Prop where
  console : m'.streams.console = m.streams.console
  transcriptText : m'.streams.transcriptText = m.streams.transcriptText

/-- What becomes of a text that is sent to the streams.  Without an open memory stream the screen
has it if it is selected; the transcript has it exactly if its bit is set in the header at that
moment, provided that selection and printing bits were in step, and never if it is not selected. -/
inductive Emitted (text : String) (m m' : Machine) : Prop
  | sent (hnone : m.streams.tables = [])
      (hconsole : m'.streams.console
        = if m.streams.screen then m.streams.console ++ text else m.streams.console)
      (hfollows : InStep m → m'.streams.transcriptText
        = if m'.transcriptFlag then m.streams.transcriptText ++ text else m.streams.transcriptText)
      (hunselected : m.streams.transcript = false →
        m'.streams.transcriptText = m.streams.transcriptText)
  | captured (hsome : m.streams.tables ≠ []) (hsame : SameBuffers m m')

/-- The text is held back, since the printing bits of the header are not those seen last.  They have
been seen now, and the selection has followed them. -/
structure HeldBack (text : String) (m m' : Machine) : Prop where
  changed : m'.headerPrintingBits ≠ m.printingBits
  seen : m'.printingBits = m'.headerPrintingBits
  inStep : InStep m'
  request : m'.request = some .flagsChanged
  completion : m'.completion = some (.printLeftovers text)
  buffers : SameBuffers m m'

/-- Sending a text to the streams when the printing bits of the header have been seen. -/
theorem emitted_emitText (hbits : m.headerPrintingBits = m.printingBits) (text : String) :
    Emitted text m (m.emitText text) := by
  cases htables : m.streams.tables with
  | cons stream outer =>
      have hsame : SameBuffers m (m.emitText text) := by
        rw [emitText, htables]
        exact ⟨rfl, rfl⟩
      exact .captured (by simp [htables]) hsame
  | nil =>
      have hsent : m.emitText text =
          { m with
            streams :=
              { m.streams with
                console := if m.streams.screen then m.streams.console ++ text
                  else m.streams.console
                transcriptText := if m.streams.transcript then m.streams.transcriptText ++ text
                  else m.streams.transcriptText } } := by
        rw [emitText, htables]
      rw [hsent]
      refine .sent htables rfl (fun hstep => ?_) fun hfalse => ?_
      · show (if m.streams.transcript then _ else _) = if m.transcriptFlag then _ else _
        rw [hstep.transcript_eq hbits]
      · dsimp only
        rw [hfalse]
        rfl

/-- Only streams and memory matter for it. -/
theorem Emitted.congr {m₁ m₂ : Machine} (h : Emitted text m m')
    (hstreams : m₁.streams = m.streams) (hbits : m₁.printingBits = m.printingBits)
    (hstreams' : m₂.streams = m'.streams) (hmemory' : m₂.memory = m'.memory) :
    Emitted text m₁ m₂ := by
  cases h with
  | sent hnone hconsole hfollows hunselected =>
      refine .sent ?_ ?_ ?_ ?_
      · rw [hstreams, hnone]
      · rw [hstreams', hstreams, hconsole]
      · rw [InStep, transcriptFlag, hmemory', hstreams', hstreams, hbits]
        exact hfollows
      · rw [hstreams', hstreams]
        exact hunselected
  | captured hsome hsame =>
      refine .captured ?_ ⟨?_, ?_⟩
      · rw [hstreams]
        exact hsome
      · rw [hstreams', hstreams, hsame.console]
      · rw [hstreams', hstreams, hsame.transcriptText]

/-- **A printed text** goes to the streams or is held back. -/
theorem emitted_or_heldBack_print (text : String) (m : Machine) :
    Emitted text m ((print text).run m).2 ∨ HeldBack text m ((print text).run m).2 := by
  rw [print_run]
  split
  · rename_i hchanged
    exact .inr ⟨hchanged, rfl, inStep_holdingBack m, rfl, rfl, ⟨rfl, rfl⟩⟩
  · rename_i hsame
    exact .inl (emitted_emitText (not_not.mp hsame) text)

theorem Mute.sameBuffers (h : Mute m m') : SameBuffers m m' := by
  constructor <;> rw [h.streams]

/-- An action without a text leaves the buffers alone. -/
theorem Voices.sameBuffers {r : Except Stop Flow × Machine} (h : Voices m none r) :
    SameBuffers m r.2 := by
  cases h with
  | mute hmute => exact hmute.sameBuffers
  | prints _ htext => cases htext
  | selects hmute _ hr =>
      obtain ⟨-, hconsole, htranscript, -⟩ := selectStream_streams _ _ _
      rw [hr]
      exact ⟨hconsole.trans hmute.sameBuffers.console,
        htranscript.trans hmute.sameBuffers.transcriptText⟩

/-- A text goes to the streams or is held back, unless the action fails before. -/
theorem Voices.emitted_or_heldBack {r : Except Stop Flow × Machine} (h : Voices m (some text) r) :
    Emitted text m r.2 ∨ HeldBack text m r.2 ∨ (∃ e, r.1 = .error e) ∧ SameBuffers m r.2 := by
  cases h with
  | mute hmute hsilent => exact .inr (.inr ⟨hsilent.resolve_left nofun, hmute.sameBuffers⟩)
  | prints hmute htext hr =>
      cases htext
      rw [hr]
      rcases emitted_or_heldBack_print text _ with hemitted | hheld
      · exact .inl (hemitted.congr hmute.streams.symm hmute.printingBits.symm rfl rfl)
      · refine .inr (.inl { hheld with changed := ?_, buffers := ⟨?_, ?_⟩ })
        · rw [← hmute.printingBits]
          exact hheld.changed
        · exact hheld.buffers.console.trans hmute.sameBuffers.console
        · exact hheld.buffers.transcriptText.trans hmute.sameBuffers.transcriptText
  | selects _ htext => cases htext

/-! ## Held back texts -/

/-- The printing bits of the header are still those that the machine saw when it held the text
back. -/
def HoldsSeen (m : Machine) : Prop :=
  ∀ text, m.completion = some (.printLeftovers text) → m.headerPrintingBits = m.printingBits

theorem holdsSeen_of_none (h : m.completion = none) : HoldsSeen m := by
  intro text htext
  rw [h] at htext
  cases htext

/-- A mute action holds no text back. -/
theorem Mute.holdsNothing (h : Mute m m') (hm : m.completion = none) (text : String) :
    m'.completion ≠ some (.printLeftovers text) := by
  intro htext
  have hbefore := h.heldBack htext
  rw [hm] at hbefore
  cases hbefore

theorem Mute.holdsSeen (h : Mute m m') (hm : m.completion = none) : HoldsSeen m' :=
  fun text htext => absurd htext (h.holdsNothing hm text)

theorem Voices.holdsSeen {said : Option String} {r : Except Stop Flow × Machine}
    (h : Voices m said r) (hm : m.completion = none) : HoldsSeen r.2 := by
  cases h with
  | mute hmute => exact hmute.holdsSeen hm
  | prints hmute _ hr =>
      rw [hr, print_run]
      split
      · exact fun _ _ => rfl
      · intro text htext
        rw [emitText_completion] at htext
        exact absurd htext (hmute.holdsNothing hm text)
  | selects hmute _ hr =>
      obtain ⟨-, -, -, hcompletion⟩ := selectStream_streams _ _ _
      intro text htext
      rw [hr, hcompletion] at htext
      exact absurd htext (hmute.holdsNothing hm text)

theorem holdsSeen_resume (hm : m.completion = none) (completion : Completion) :
    HoldsSeen ((resume completion).run m).2 := by
  rcases mute_resume completion with ⟨text, rfl⟩ | hmute
  · rw [resume_printLeftovers_run]
    exact holdsSeen_of_none ((emitText_completion m text).trans hm)
  · exact (hmute m).holdsSeen hm

end Machine

namespace Moment

open Machine

/-- Work is left over only once the host has control, and a text that is held back then is held back
under the printing bits of the header. -/
structure Attentive (μ : Moment) : Prop where
  busy : μ.phase ≠ .host → μ.machine.completion = none
  holdsSeen : HoldsSeen μ.machine

theorem attentive_of_none {μ : Moment} (h : μ.machine.completion = none) : Attentive μ :=
  ⟨fun _ => h, holdsSeen_of_none h⟩

theorem attentive_left {r : Except Stop Flow × Machine} (h : HoldsSeen r.2)
    (hbusy : r.1 ≠ .ok .suspend → r.2.completion = none) (blocks : Nat) :
    Attentive (left blocks r) := by
  rcases r with ⟨(f | _) | (_ | _ | _), m⟩
  · exact ⟨absurd rfl, h⟩
  · exact attentive_of_none (hbusy nofun)
  · exact attentive_of_none (hbusy nofun)
  · exact attentive_of_none (hbusy nofun)
  · exact ⟨absurd rfl, h⟩

theorem Attentive.step {μ : Moment} (h : Attentive μ) : Attentive μ.step := by
  rcases μ with ⟨m, _ | blocks | ⟨_ | ⟨ins, rest⟩, blocks⟩ | _⟩
  · exact h
  · have hnone : m.completion = none := h.busy (by simp)
    cases blocks with
    | zero => exact attentive_of_none hnone
    | succ blocks =>
        obtain ⟨cached, codec, hfetch⟩ := fetchBlock_run_snd m
        rw [Moment.step]
        revert hfetch
        rcases Machine.fetchBlock.run m with ⟨(f | _) | block, m₁⟩ <;>
          exact fun hfetch => attentive_of_none ((congrArg completion hfetch).trans hnone)
  · exact attentive_of_none (h.busy (by simp))
  · -- nothing was left over before, so what is left over now is this instruction's own
    have hnone : { m with pc := ins.next }.completion = none := h.busy (by simp)
    have hseen := (voices_execute (m := { m with pc := ins.next }) ins).holdsSeen hnone
    obtain ⟨codec, -, hleaves⟩ := (spells_execute ins).leaves { m with pc := ins.next }
    have hbusy := fun hr => (hleaves.unasked hr).2.trans hnone
    rw [Moment.step]
    split
    · rename_i m₁ hrun
      rw [hrun] at hbusy
      exact attentive_of_none (hbusy (by simp))
    · exact attentive_left hseen hbusy blocks
  · exact h

/-- A run begins with what was held back, and then nothing is left over. -/
theorem attentive_begin {m : Machine} (h : HoldsSeen m) : Attentive (begin m) := by
  unfold Moment.begin
  split
  · exact ⟨absurd rfl, h⟩
  split
  · exact ⟨absurd rfl, h⟩
  · cases m.completion with
    | none => exact attentive_of_none rfl
    | some completion =>
        obtain ⟨parked, -, hleaves⟩ := leaves_resume (taken m) completion
        obtain ⟨replies, hleftover, -⟩ := leftover_run completion (taken m)
        rw [hleftover]
        refine attentive_left ?_ (fun hr => ?_) _
        · exact holdsSeen_resume rfl completion
        · exact (hleaves.unasked hr).2

theorem Leads.attentive {μ ν : Moment} (h : Leads μ ν) (hμ : Attentive μ) : Attentive ν := by
  induction h with
  | refl => exact hμ
  | tail _ hstep ih =>
      rw [hstep]
      exact ih.step

end Moment

namespace Machine

open Moment

/-- **A held back text** is held back under the printing bits of the header, whatever the host
does. -/
theorem Reachable.holdsSeen (h : Reachable image config m) : HoldsSeen m := by
  induction h with
  | load h =>
      obtain ⟨header, random, rfl⟩ := load_eq h
      exact holdsSeen_of_none rfl
  | run _ ih =>
      rw [← machine_outcome]
      exact ((leads_run _).attentive (attentive_begin ih)).holdsSeen
  | attend _ ha ih =>
      cases ha with
      | statusLine width =>
          unfold Machine.statusLine
          split <;> exact ih
      | _ => exact ih
  | @loadSavedGame m _ data ih =>
      cases hread : m.readSave data with
      | error e =>
          rw [loadSavedGame_refused hread]
          exact ih
      | ok s =>
          rw [loadSavedGame_taken hread]
          exact (mute_restoreSnapshot s _).holdsSeen rfl
  | restart => exact holdsSeen_of_none rfl

/-! ## Steps and runs -/

/-- A held back text is sent to the streams when the next run begins. -/
theorem emitted_begin (hhalted : m.halted = none) (hfinished : m.finished = false)
    (hseen : HoldsSeen m) (hcompletion : m.completion = some (.printLeftovers text)) :
    Emitted text m (begin m).machine := by
  rw [begin_eq hhalted hfinished, hcompletion]
  have hbits : (taken m).headerPrintingBits = (taken m).printingBits := hseen text hcompletion
  exact (emitted_emitText hbits text).congr rfl rfl rfl rfl

/-- Any other work that is left over says nothing. -/
theorem sameBuffers_begin (hcompletion : ∀ text, m.completion ≠ some (.printLeftovers text)) :
    SameBuffers m (begin m).machine := by
  unfold Moment.begin
  split
  · exact ⟨rfl, rfl⟩
  split
  · exact ⟨rfl, rfl⟩
  · obtain ⟨halted, hmachine⟩ :=
      machine_left m.config.iterationCap ((leftover m.completion).run (taken m))
    rw [hmachine]
    cases hwork : m.completion with
    | none => exact ⟨rfl, rfl⟩
    | some completion =>
        obtain ⟨replies, hleftover, -⟩ := leftover_run completion (taken m)
        have hmute : Relates Mute (Machine.resume completion) :=
          (mute_resume completion).resolve_left fun ⟨text, htext⟩ =>
            hcompletion text (hwork.trans (congrArg some htext))
        rw [hleftover]
        exact ⟨(hmute (taken m)).sameBuffers.console, (hmute (taken m)).sameBuffers.transcriptText⟩

end Machine

namespace Moment

open Machine

/-- The text that a step is to print. -/
def utterance : Moment → Option String
  | ⟨m, .executing (ins :: _) _⟩ => textToPrint { m with pc := ins.next } ins
  | _ => none

/-- What becomes of the text that a step is to print. -/
inductive Uttered (text : String) (μ : Moment) : Prop
  | emitted (h : Emitted text μ.machine μ.step.machine)
  | heldBack (hhost : μ.step.phase = .host) (h : HeldBack text μ.machine μ.step.machine)
  | failed (hstops : μ.step.machine.halted ≠ none ∨ μ.step.phase = .endless)
      (hsame : SameBuffers μ.machine μ.step.machine)

theorem step_executing_of_error {m : Machine} {ins : Instruction} {e : Stop}
    (h : ((execute ins).run { m with pc := ins.next }).1 = .error e) (rest : List Instruction)
    (blocks : Nat) :
    step ⟨m, .executing (ins :: rest) blocks⟩
      = stopped e ((execute ins).run { m with pc := ins.next }).2 := by
  rw [step]
  revert h
  rcases (execute ins).run { m with pc := ins.next } with ⟨e' | flow, m₁⟩
  · intro h
    cases h
    rfl
  · intro h
    cases h

theorem halted_or_endless_stopped (e : Stop) (m : Machine) :
    (stopped e m).machine.halted ≠ none ∨ (stopped e m).phase = .endless := by
  cases e with
  | fault f => exact .inl nofun
  | endless => exact .inr rfl

/-- A step without a text leaves the buffers alone. -/
theorem sameBuffers_step {μ : Moment} (h : μ.utterance = none) :
    SameBuffers μ.machine μ.step.machine := by
  rcases μ with ⟨m, _ | blocks | ⟨_ | ⟨ins, rest⟩, blocks⟩ | _⟩
  · exact ⟨rfl, rfl⟩
  · cases blocks with
    | zero => exact ⟨rfl, rfl⟩
    | succ blocks =>
        have hfetch := (mute_fetchBlock m).sameBuffers
        rw [step]
        revert hfetch
        rcases fetchBlock.run m with ⟨(f | _) | block, m₁⟩ <;>
          exact fun hfetch => ⟨hfetch.console, hfetch.transcriptText⟩
  · exact ⟨rfl, rfl⟩
  · obtain ⟨halted, hmachine⟩ := machine_step_executing m ins rest blocks
    have hvoices := voices_execute (m := { m with pc := ins.next }) ins
    rw [show textToPrint { m with pc := ins.next } ins = none from h] at hvoices
    rw [hmachine]
    exact ⟨hvoices.sameBuffers.console, hvoices.sameBuffers.transcriptText⟩
  · exact ⟨rfl, rfl⟩

/-- **The text of a step** goes to the streams or is held back, unless the step fails. -/
theorem uttered_step {μ : Moment} {text : String} (hμ : Attentive μ)
    (h : μ.utterance = some text) : Uttered text μ := by
  rcases μ with ⟨m, _ | blocks | ⟨_ | ⟨ins, rest⟩, blocks⟩ | _⟩
  case executing.cons =>
    have hstep := hμ.step
    obtain ⟨halted, hmachine⟩ := machine_step_executing m ins rest blocks
    have hvoices := voices_execute (m := { m with pc := ins.next }) ins
    rw [show textToPrint { m with pc := ins.next } ins = some text from h] at hvoices
    rcases hvoices.emitted_or_heldBack with hemitted | hheld | ⟨⟨e, he⟩, hsame⟩
    · refine .emitted (hemitted.congr rfl rfl ?_ ?_) <;> rw [hmachine]
    · have hheld' : HeldBack text m (step ⟨m, .executing (ins :: rest) blocks⟩).machine := by
        rw [hmachine]
        exact ⟨hheld.changed, hheld.seen, hheld.inStep, hheld.request, hheld.completion,
          ⟨hheld.buffers.console, hheld.buffers.transcriptText⟩⟩
      refine .heldBack ?_ hheld'
      -- a step after which the run goes on leaves nothing over
      by_contra hphase
      have hnone := hstep.busy hphase
      rw [hheld'.completion] at hnone
      cases hnone
    · refine .failed ?_ ?_
      · rw [step_executing_of_error he]
        exact halted_or_endless_stopped _ _
      · rw [hmachine]
        exact ⟨hsame.console, hsame.transcriptText⟩
  all_goals cases h

end Moment

namespace Machine

open Moment

/-- **The transcript follows the flag of the story**, but for an image in which it is set.  Take any
machine that a host can bring about, and any moment of its next run.

* The transcript is selected exactly if its bit is set in the printing bits, or nobody has noticed
  yet that it is set in the image.
* A text that was held back is sent to the streams when the run begins, and the text of a step is
  sent to the streams or held back, unless the step fails.
* If no memory stream is open, a text that is sent is added to the transcript exactly if the bit is
  set in the header at that moment, provided that selection and printing bits are in step.
* Nothing else is added to the transcript. -/
theorem transcript_follows_flag (h : Reachable image config m) :
    (InStep m ∨ Unaware image m) ∧
      (∀ text, m.completion = some (.printLeftovers text) → m.halted = none →
        Emitted text m (begin m).machine) ∧
      ((∀ text, m.completion ≠ some (.printLeftovers text)) → SameBuffers m (begin m).machine) ∧
      ∀ μ, Leads (begin m) μ →
        (InStep μ.machine ∨ Unaware image μ.machine) ∧
          (∀ text, μ.utterance = some text → Uttered text μ) ∧
          (μ.utterance = none → SameBuffers μ.machine μ.step.machine) := by
  have hselection : InStep m ∨ Unaware image m :=
    (lasting_inStep_or_unaware image).reachable (fun _ => inStep_or_unaware_load) h
  refine ⟨hselection, fun text hcompletion hhalted => ?_, sameBuffers_begin, fun μ hμ => ?_⟩
  · -- a story that has quit has left nothing over
    have hfinished : m.finished = false := by
      by_contra hquit
      have hnone := h.orderly.quit (by simpa using hquit)
      rw [hcompletion] at hnone
      cases hnone
    exact emitted_begin hhalted hfinished h.holdsSeen hcompletion
  · -- both invariants hold when the run begins and survive its steps
    have hattentive : Attentive μ := hμ.attentive (attentive_begin h.holdsSeen)
    have hbegin := (lasting_inStep_or_unaware image).begin hselection
    exact ⟨(lasting_inStep_or_unaware image).leads hμ hbegin, fun _ => uttered_step hattentive,
      sameBuffers_step⟩

/-- A story that sets the bit of the transcript and then prints two lines. -/
def markingImage : Array UInt8 :=
  (5 :: List.replicate 6 (0 : UInt8) ++ 0x40 :: List.replicate 7 (0 : UInt8) ++
    0x50 :: List.replicate 48 (0 : UInt8) ++
    [0xE2, 0x57, 0x11, 0, 1, 0xBB, 0xBB, 0xBA] ++ List.replicate 16 (0 : UInt8)).toArray

/-- The machine of that story, which yields to its host after one block. -/
def markingMachine : Machine :=
  (load markingImage { iterationCap := 1, random := .lowest }).toOption.get rfl

/-- It holds its first line back, since the printing bits have changed. -/
def marked : Machine :=
  { markingMachine with
    memory := markingMachine.memory.setByte 0x11 1
    blocks := { decoded := 1 }
    streams := { transcript := true }
    pc := 0x46
    request := some .flagsChanged
    completion := some (.printLeftovers "\n")
    printingBits := 1 }

/-- An instruction without operands that prints a line. -/
def printingLine (address : Nat) : Instruction where
  address
  op := .newLine
  number := 0xBB
  operands := []
  operandsEnd := address + 1
  store := none
  branch := none
  text := none
  next := address + 1

/-- The instruction that sets the bit. -/
def marking : Instruction where
  address := 0x40
  op := .storeb
  number := 0xE2
  operands := [.small 0x11, .small 0, .small 1]
  operandsEnd := 0x45
  store := none
  branch := none
  text := none
  next := 0x45

/-- The instruction that ends a story. -/
def ending (address : Nat) : Instruction where
  address
  op := .quit
  number := 0xBA
  operands := []
  operandsEnd := address + 1
  store := none
  branch := none
  text := none
  next := address + 1

theorem leads_marked : Leads (begin markingMachine) ⟨marked, .host⟩ := by
  have hbegin : begin markingMachine = ⟨markingMachine, .fetching 1⟩ := rfl
  have hfetch : fetchBlock.run markingMachine
      = (.ok ⟨0x40, [marking, printingLine 0x45, printingLine 0x46, ending 0x47]⟩,
          { markingMachine with blocks := { decoded := 1 } }) :=
    fetchBlock_run_of_dynamic Std.HashMap.getElem?_empty (by decide) rfl
  rw [hbegin]
  apply Leads.of_step
  rw [Moment.step, hfetch]
  exact Leads.of_step (Leads.of_step Relation.ReflTransGen.refl)

theorem reachable_marked :
    Reachable markingImage { iterationCap := 1, random := .lowest } marked := by
  rw [← run_snd_of_leads leads_marked]
  exact (Reachable.load rfl).run

/-- The moment at which the second line is to be printed. -/
def secondLine : Moment where
  machine :=
    { marked with
      blocks := { decoded := 2 }
      streams := { transcript := true, console := "\n", transcriptText := "\n" }
      request := none
      completion := none }
  phase := .executing [printingLine 0x46, ending 0x47] 0

theorem leads_secondLine : Leads (begin marked) secondLine := by
  have hbegin : begin marked
      = ⟨{ secondLine.machine with blocks := { decoded := 1 } }, .fetching 1⟩ := rfl
  have hfetch : fetchBlock.run { secondLine.machine with blocks := { decoded := 1 } }
      = (.ok ⟨0x46, [printingLine 0x46, ending 0x47]⟩, secondLine.machine) :=
    fetchBlock_run_of_dynamic Std.HashMap.getElem?_empty (by decide) rfl
  rw [hbegin]
  apply Leads.of_step
  rw [Moment.step, hfetch]
  exact Relation.ReflTransGen.refl

/-- The first line is held back and then sent, the second one is sent at once; the transcript has
both. -/
theorem transcript_follows_flag_marked :
    Reachable markingImage { iterationCap := 1, random := .lowest } marked ∧
      marked.completion = some (.printLeftovers "\n") ∧ marked.halted = none ∧
      Emitted "\n" marked (begin marked).machine ∧
      (begin marked).machine.streams.transcriptText = "\n" ∧
      Leads (begin marked) secondLine ∧ secondLine.utterance = some "\n" ∧
      Uttered "\n" secondLine ∧ secondLine.step.machine.streams.transcriptText = "\n\n" := by
  obtain ⟨-, hheld, -, hrun⟩ := transcript_follows_flag reachable_marked
  exact ⟨reachable_marked, rfl, rfl, hheld _ rfl rfl, rfl, leads_secondLine, rfl,
    (hrun _ leads_secondLine).2.1 _ rfl, rfl⟩

/-- A story whose image has the bit of the transcript set and which prints a line. -/
def markedImage : Array UInt8 :=
  (5 :: List.replicate 6 (0 : UInt8) ++ 0x40 :: List.replicate 7 (0 : UInt8) ++
    0x50 :: 0 :: 1 :: List.replicate 46 (0 : UInt8) ++
    [0xBB, 0xBA] ++ List.replicate 22 (0 : UInt8)).toArray

/-- The machine of that story. -/
def unawareMachine : Machine :=
  (load markedImage { iterationCap := 1, random := .lowest }).toOption.get rfl

/-- The moment at which its line is to be printed. -/
def unheardLine : Moment where
  machine := { unawareMachine with blocks := { decoded := 1 } }
  phase := .executing [printingLine 0x40, ending 0x41] 0

theorem leads_unheardLine : Leads (begin unawareMachine) unheardLine := by
  have hbegin : begin unawareMachine = ⟨unawareMachine, .fetching 1⟩ := rfl
  have hfetch : fetchBlock.run unawareMachine
      = (.ok ⟨0x40, [printingLine 0x40, ending 0x41]⟩, unheardLine.machine) :=
    fetchBlock_run_of_dynamic Std.HashMap.getElem?_empty (by decide) rfl
  rw [hbegin]
  apply Leads.of_step
  rw [Moment.step, hfetch]
  exact Relation.ReflTransGen.refl

/-- **A story whose image has the bit set is not written down.**  After loading, the transcript is
not selected although the printing bits say so, and a line that is printed goes to the screen but
not to the transcript although the bit is set in the header. -/
theorem transcript_unaware :
    Reachable markedImage { iterationCap := 1, random := .lowest } unawareMachine ∧
      unawareMachine.halted = none ∧
      unawareMachine.streams.transcript = false ∧ unawareMachine.printingBits &&& 0x01 ≠ 0 ∧
      Leads (begin unawareMachine) unheardLine ∧ unheardLine.utterance = some "\n" ∧
      unheardLine.machine.streams.tables = [] ∧ unheardLine.machine.transcriptFlag = true ∧
      unheardLine.step.machine.transcriptFlag = true ∧
      unheardLine.step.machine.streams.console = "\n" ∧
      unheardLine.step.machine.streams.transcriptText = "" :=
  ⟨.load rfl, rfl, rfl, by decide, leads_unheardLine, rfl, rfl, rfl, rfl, rfl, rfl⟩

end Machine
end ZMachine
