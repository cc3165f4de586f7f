/-
# Requests and left over work stay paired

A machine that has handed over to its host has a request and, in a field of its own, the work that
the request leaves over.  Requests are made by many instructions, in the middle of a block, by the
work left over from an earlier request and by the return from a timeout routine; whichever it is,
the two fields fit each other, and no reply given earlier is still there.

* `Paired` : request and left over work fit;
* `Orderly` : what is true of every machine between two runs;
* `Leaves.settled` : how an action keeps a machine in order, from which follow the left over work,
  a block and a run;
* `Reachable.orderly` : the machines that a host can bring about are orderly;
* `reachable_run_paired` : so every run that ends well ends with a pair.
-/
import ZMachine.Proofs.Machine.Control
import ZMachine.Proofs.Machine.StackInvariant

namespace ZMachine

/-- The requests that leave work over. -/
def Request.leavesWork : Request → Bool
  | .lineInput .. | .charInput _ | .save _ | .restore | .getCursor _ | .piracy | .flagsChanged =>
      true
  | _ => false

/-- A request that leaves no work over fits only that. -/
theorem Request.Fits.eq_none {request : Request} {completion : Option Completion}
    (h : request.Fits completion) (hwork : request.leavesWork = false) : completion = none := by
  cases request
  case lineInput | charInput | save | restore | getCursor | piracy | flagsChanged => cases hwork
  all_goals exact h

namespace Machine

open Moment (Attends leftover taken runStory_run runStory_of_finished loadSavedGame_refused
  loadSavedGame_taken)

/-- The machine has a request, and the work left over is the work for it: an input of the same kind
with the same timeout, a save, a restore, a question for the cursor with the same table, a check of
the copy, or text that was held back.  With any other request there is no work. -/
structure Paired (m : Machine) : Prop where
  asked : m.request.isSome
  lineInput : ∀ timeout,
    (∃ recap capacity terminators,
        m.request = some (.lineInput timeout recap capacity terminators)) ↔
      ∃ textBuffer parseBuffer store routine,
        m.completion = some (.input (.line textBuffer parseBuffer store timeout routine))
  charInput : ∀ timeout, m.request = some (.charInput timeout) ↔
    ∃ store routine, m.completion = some (.input (.char store timeout routine))
  save : (∃ data, m.request = some (.save data)) ↔
    ∃ delivery, m.completion = some (.save delivery)
  restore : m.request = some .restore ↔ ∃ delivery, m.completion = some (.restore delivery)
  getCursor : ∀ table, m.request = some (.getCursor table) ↔
    m.completion = some (.getCursor table)
  piracy : m.request = some .piracy ↔ ∃ b, m.completion = some (.piracy b)
  flagsChanged : m.request = some .flagsChanged ↔
    ∃ text, m.completion = some (.printLeftovers text)
  other : ∀ request, m.request = some request → request.leavesWork = false → m.completion = none

/-- A request that fits the left over work is paired with it. -/
theorem Waits.paired {m : Machine} (h : m.Waits) : m.Paired := by
  obtain ⟨request, hrequest, hfits⟩ := h
  have hother : ∀ request, m.request = some request → request.leavesWork = false →
      m.completion = none := by
    intro request' hrequest' hwork
    obtain rfl : request = request' := Option.some.inj (hrequest.symm.trans hrequest')
    exact hfits.eq_none hwork
  cases request
  case lineInput =>
    obtain ⟨textBuffer, parseBuffer, store, routine, hwork⟩ := hfits
    refine ⟨?_, ?_, ?_, ?_, ?_, ?_, ?_, ?_, hother⟩ <;> simp [hrequest, hwork]
  case charInput =>
    obtain ⟨store, routine, hwork⟩ := hfits
    refine ⟨?_, ?_, ?_, ?_, ?_, ?_, ?_, ?_, hother⟩ <;> simp [hrequest, hwork]
  case save =>
    obtain ⟨delivery, hwork⟩ := hfits
    refine ⟨?_, ?_, ?_, ?_, ?_, ?_, ?_, ?_, hother⟩ <;> simp [hrequest, hwork]
  case restore =>
    obtain ⟨delivery, hwork⟩ := hfits
    refine ⟨?_, ?_, ?_, ?_, ?_, ?_, ?_, ?_, hother⟩ <;> simp [hrequest, hwork]
  case piracy =>
    obtain ⟨b, hwork⟩ := hfits
    refine ⟨?_, ?_, ?_, ?_, ?_, ?_, ?_, ?_, hother⟩ <;> simp [hrequest, hwork]
  case flagsChanged =>
    obtain ⟨text, hwork⟩ := hfits
    refine ⟨?_, ?_, ?_, ?_, ?_, ?_, ?_, ?_, hother⟩ <;> simp [hrequest, hwork]
  all_goals
    have hwork := hfits
    unfold Request.Fits at hwork
    refine ⟨?_, ?_, ?_, ?_, ?_, ?_, ?_, ?_, hother⟩ <;> simp [hrequest, hwork]

/-! ## Order -/

/-- Between two runs: a parked input fits its request, and a story that has quit left no work. -/
structure Orderly (m : Machine) : Prop where
  parked : m.ParkedFits
  quit : m.finished = true → m.completion = none

/-- A story that has quit has left nothing over. -/
theorem Orderly.not_finished {m : Machine} (h : m.Orderly) {completion : Completion}
    (hcompletion : m.completion = some completion) : m.finished = false := by
  by_contra hquit
  have hnone := h.quit (by simpa using hquit)
  rw [hcompletion] at hnone
  cases hnone

/-- In the middle of a run there is no left over work and the story has not quit. -/
structure Calm (m : Machine) : Prop where
  parked : m.ParkedFits
  completion : m.completion = none
  finished : m.finished = false

theorem Calm.orderly {m : Machine} (h : m.Calm) : m.Orderly :=
  ⟨h.parked, fun _ => h.completion⟩

/-- What an action comes to: the machine waits for its host, or it is calm. -/
structure Settled (r : Except Stop Flow × Machine) : Prop where
  orderly : r.2.Orderly
  waits : r.1 = .ok .suspend → r.2.Waits
  calm : r.1 ≠ .ok .suspend → r.2.Calm

theorem Calm.settled {m : Machine} {result : Except Stop Flow} (h : m.Calm)
    (hresult : result ≠ .ok .suspend) : Settled (result, m) :=
  ⟨h.orderly, fun hr => absurd hr hresult, fun _ => h⟩

/-- **What an action leaves behind is in order.** -/
theorem Leaves.settled {m : Machine} {r : Except Stop Flow × Machine} (h : Leaves m r)
    (hm : m.Calm) : Settled r := by
  have hparked : r.2.ParkedFits := by
    intro parked hp
    rcases h.parked with hsame | hnone
    · exact hm.parked parked (hsame.symm.trans hp)
    · rw [hnone] at hp
      cases hp
  have hwaits : r.1 = .ok .suspend → r.2.Waits := fun hr => h.asked hr hm.completion hm.parked
  refine ⟨⟨hparked, fun hquit => ?_⟩, hwaits, fun hr => ⟨hparked, ?_, ?_⟩⟩
  · rcases h.finished with hsame | ⟨hr, hrequest⟩
    · rw [hsame, hm.finished] at hquit
      cases hquit
    · obtain ⟨request, hsome, hfits⟩ := hwaits hr
      rw [hrequest] at hsome
      cases hsome
      exact hfits
  · exact (h.unasked hr).2.trans hm.completion
  · exact (h.finished.resolve_right fun hquit => hr hquit.1).trans hm.finished

/-- No reply turns up that was not there before. -/
theorem Leaves.unanswered {m : Machine} {r : Except Stop Flow × Machine} (h : Leaves m r)
    (hm : m.replies = []) : r.2.replies = [] :=
  h.replies.elim (fun hsame => hsame.trans hm) id

/-! ## Left over work -/

/-- **The work left over by the last request ends in order.** -/
theorem settled_resume {m : Machine} (hm : m.Calm) (completion : Completion) :
    Settled ((resume completion).run m) := by
  obtain ⟨parked, hfits, hleaves⟩ := leaves_resume m completion
  exact hleaves.settled ⟨hfits hm.parked, hm.completion, hm.finished⟩

/-- After it the replies are forgotten. -/
theorem settled_leftover {m : Machine} (hm : m.Calm) (completion : Option Completion) :
    Settled ((leftover completion).run m) ∧
      ∀ flow, ((leftover completion).run m).1 = .ok flow →
        ((leftover completion).run m).2.replies = [] := by
  cases completion with
  | none =>
      have hcleared : Calm { m with replies := [] } := ⟨hm.parked, hm.completion, hm.finished⟩
      exact ⟨hcleared.settled nofun, fun _ _ => rfl⟩
  | some completion =>
      have hresume := settled_resume hm completion
      obtain ⟨replies, hleftover, hreplies⟩ := Moment.leftover_run completion m
      rw [hleftover]
      refine ⟨⟨⟨hresume.orderly.parked, hresume.orderly.quit⟩, hresume.waits, fun hr => ?_⟩,
        hreplies⟩
      exact ⟨(hresume.calm hr).parked, (hresume.calm hr).completion, (hresume.calm hr).finished⟩

/-! ## Blocks -/

theorem settled_execute {m : Machine} (hm : m.Calm) (ins : Instruction) :
    Settled ((execute ins).run m) := by
  obtain ⟨codec, -, hleaves⟩ := (spells_execute ins).leaves m
  exact hleaves.settled ⟨hm.parked, hm.completion, hm.finished⟩

theorem unanswered_execute {m : Machine} (hm : m.replies = []) (ins : Instruction) :
    ((execute ins).run m).2.replies = [] := by
  obtain ⟨codec, -, hleaves⟩ := (spells_execute ins).leaves m
  exact hleaves.unanswered hm

/-- The rest of a block: each instruction finds the machine as calm as the first one did. -/
theorem settled_runInstructions (rest : List Instruction) {m : Machine} (hm : m.Calm)
    (hreplies : m.replies = []) :
    Settled ((runInstructions rest).run m) ∧ ((runInstructions rest).run m).2.replies = [] := by
  induction rest generalizing m with
  | nil => exact ⟨hm.settled nofun, hreplies⟩
  | cons ins rest ih =>
      have hpc : Calm { m with pc := ins.next } := ⟨hm.parked, hm.completion, hm.finished⟩
      have hsettled := settled_execute hpc ins
      have hunanswered := unanswered_execute (m := { m with pc := ins.next }) hreplies ins
      rw [runInstructions_cons_run]
      revert hsettled hunanswered
      rcases (execute ins).run { m with pc := ins.next } with ⟨e | flow, m'⟩
      · exact And.intro
      · cases flow with
        | next => exact fun hsettled hunanswered => ih (hsettled.calm nofun) hunanswered
        | jump => exact And.intro
        | suspend => exact And.intro

/-- **Blocks end in order**, and with a request if they end well. -/
theorem orderly_runBlocks (count : Nat) {m : Machine} (hm : m.Calm) (hreplies : m.replies = []) :
    ((runBlocks count).run m).2.Orderly ∧ ((runBlocks count).run m).2.replies = [] ∧
      (((runBlocks count).run m).1 = .ok () → ((runBlocks count).run m).2.Waits) := by
  induction count generalizing m with
  | zero => exact ⟨⟨hm.parked, fun _ => hm.completion⟩, hreplies, fun _ => ⟨_, rfl, hm.completion⟩⟩
  | succ count ih =>
      obtain ⟨blocks, codec, hfetch⟩ := fetchBlock_run_snd m
      have hfetched : Calm { m with blocks, codec } := ⟨hm.parked, hm.completion, hm.finished⟩
      unfold runBlocks
      rw [run_bind]
      revert hfetch
      rcases fetchBlock.run m with ⟨e | block, m₁⟩
      · rintro rfl
        refine ⟨hfetched.orderly, hreplies, fun hok => ?_⟩
        cases hok
      · rintro rfl
        have hblock := settled_runInstructions block.instructions hfetched hreplies
        dsimp only
        rw [run_bind]
        revert hblock
        rcases (runInstructions block.instructions).run { m with blocks, codec } with ⟨e | flow, m₂⟩
        · intro hblock
          refine ⟨hblock.1.orderly, hblock.2, fun hok => ?_⟩
          cases hok
        · cases flow with
          | suspend => exact fun hblock => ⟨hblock.1.orderly, hblock.2, fun _ => hblock.1.waits rfl⟩
          | next => exact fun hblock => ih (hblock.1.calm (by simp)) hblock.2
          | jump => exact fun hblock => ih (hblock.1.calm (by simp)) hblock.2

/-! ## Runs -/

/-- **A run ends in order.**  If it ends well there is a request that fits the left over work, and
unless the story had already quit the replies are forgotten. -/
theorem orderly_runStory {m : Machine} (hm : m.Orderly) :
    (runStory.run m).2.Orderly ∧
      ((runStory.run m).1 = .ok () → (runStory.run m).2.Waits ∧
        (m.finished = false → (runStory.run m).2.replies = [])) := by
  cases hfinished : m.finished with
  | true =>
      rw [runStory_of_finished hfinished]
      exact ⟨⟨hm.parked, hm.quit⟩, fun _ => ⟨⟨.quit, rfl, hm.quit hfinished⟩, nofun⟩⟩
  | false =>
      have htaken : (taken m).Calm := ⟨hm.parked, rfl, hfinished⟩
      have hleftover := settled_leftover htaken m.completion
      rw [runStory_run hfinished]
      revert hleftover
      rcases (leftover m.completion).run (taken m) with ⟨e | flow, m₁⟩
      · exact fun ⟨hsettled, _⟩ => ⟨hsettled.orderly, nofun⟩
      · rintro ⟨hsettled, hreplies⟩
        have hblocks : flow ≠ .suspend → _ := fun hflow =>
          orderly_runBlocks m.config.iterationCap
            (hsettled.calm fun hr => hflow (Except.ok.inj hr)) (hreplies flow rfl)
        cases flow with
        | suspend => exact ⟨hsettled.orderly, fun _ => ⟨hsettled.waits rfl, fun _ => hreplies _ rfl⟩⟩
        | next | jump =>
            obtain ⟨horderly, hunanswered, hwaits⟩ := hblocks nofun
            exact ⟨horderly, fun hr => ⟨hwaits hr, fun _ => hunanswered⟩⟩

/-- A run that ends well is a run of the story. -/
theorem run_eq_runStory {m : Machine} (h : m.run.1 = .ok ()) : m.run = runStory.run m := by
  unfold run at h ⊢
  split at h
  · cases h
  · split at h
    · cases h
    · rfl

theorem Orderly.run {m : Machine} (hm : m.Orderly) : m.run.2.Orderly := by
  have hstory := (orderly_runStory hm).1
  unfold Machine.run
  split
  · exact hm
  · split
    · rename_i f m₁ hrun
      rw [hrun] at hstory
      exact ⟨hstory.parked, hstory.quit⟩
    · exact hstory

/-! ## Whatever the host does -/

theorem orderly_load {image : Array UInt8} {config : Config} {m : Machine}
    (h : load image config = .ok m) : m.Orderly := by
  obtain ⟨header, random, -, rfl⟩ := load_eq_ok h
  refine ⟨fun parked hparked => ?_, fun _ => rfl⟩
  cases hparked

theorem Orderly.attend {m m' : Machine} (hm : m.Orderly) (h : Attends m m') : m'.Orderly := by
  cases h with
  | answer slot reply => exact ⟨hm.parked, hm.quit⟩
  | setRandomSeed seed => exact ⟨hm.parked, hm.quit⟩
  | takeOutput => exact ⟨hm.parked, hm.quit⟩
  | takeTranscript => exact ⟨hm.parked, hm.quit⟩
  | statusLine width =>
      unfold Machine.statusLine
      split
      · exact hm
      · exact ⟨hm.parked, hm.quit⟩

/-- A save file that is taken puts the machine in order, whatever its bytes are. -/
theorem Orderly.loadSavedGame {m : Machine} (hm : m.Orderly) (data : List UInt8) :
    (m.loadSavedGame data).2.Orderly := by
  cases hread : m.readSave data with
  | error e =>
      rw [loadSavedGame_refused hread]
      exact hm
  | ok s =>
      have hcalm : Calm
          { m with request := none, completion := none, replies := [], finished := false } :=
        ⟨hm.parked, rfl, rfl⟩
      rw [loadSavedGame_taken hread]
      exact (((turns_restoreSnapshot s).leaves _).settled hcalm).orderly

/-- **The machines that a host can bring about are orderly.** -/
theorem Reachable.orderly {image : Array UInt8} {config : Config} {m : Machine}
    (h : Reachable image config m) : m.Orderly := by
  induction h with
  | load h => exact orderly_load h
  | run _ ih => exact ih.run
  | attend _ ha ih => exact ih.attend ha
  | loadSavedGame _ data ih => exact ih.loadSavedGame data
  | restart _ _ => exact ⟨nofun, fun _ => rfl⟩

/-- **Requests and left over work stay paired.**  Take any machine that a host can bring about from
any image, and run it.  If the run ends well, the machine has a request, and the work left over is
the work for that request; and unless the story has quit, no reply is left that left over work could
mistake for an answer to a later request. -/
theorem reachable_run_paired {image : Array UInt8} {config : Config} {m : Machine}
    (h : Reachable image config m) (hrun : m.run.1 = .ok ()) :
    m.run.2.Paired ∧ (m.run.2.finished = false → m.run.2.replies = []) := by
  obtain ⟨hwaits, hreplies⟩ := (orderly_runStory h.orderly).2 (run_eq_runStory hrun ▸ hrun)
  rw [run_eq_runStory hrun]
  refine ⟨hwaits.paired, fun hfinished => hreplies ?_⟩
  by_contra hquit
  rw [runStory_of_finished (by simpa using hquit)] at hfinished
  exact hquit hfinished

/-- A story that reads a key for seven tenths of a second, with a timeout routine. -/
def timedKeyImage : Array UInt8 :=
  (5 :: List.replicate 6 (0 : UInt8) ++ 0x40 :: List.replicate 7 (0 : UInt8) ++
    0x50 :: List.replicate 48 (0 : UInt8) ++
    [0xF6, 0x57, 1, 7, 0x10, 0] ++ List.replicate 10 (0 : UInt8)).toArray

/-- The machine of that story, which yields to its host after one block. -/
def timedKeyMachine : Machine :=
  (load timedKeyImage { iterationCap := 1, random := .lowest }).toOption.get rfl

/-- The only instruction of the story. -/
def timedKey : Instruction :=
  (Instruction.read timedKeyMachine.codec timedKeyMachine.memory 0x40).toOption.get rfl

/-- The story begins with the block of that instruction. -/
theorem runStory_timedKeyMachine :
    runStory.run timedKeyMachine
      = (do
          match ← runInstructions [timedKey] with
          | .suspend => return
          | _ => runBlocks 0 : Exec Unit).run
            { timedKeyMachine with blocks := { decoded := 1 } } := by
  have hfetch : fetchBlock.run timedKeyMachine
      = (.ok ⟨0x40, [timedKey]⟩, { timedKeyMachine with blocks := { decoded := 1 } }) :=
    fetchBlock_run_of_dynamic Std.HashMap.getElem?_empty (by decide) rfl
  rw [runStory_run rfl]
  exact run_bind_ok hfetch

/-- Its first run ends with the request for the key. -/
theorem reachable_run_paired_timedKey :
    Reachable timedKeyImage { iterationCap := 1, random := .lowest } timedKeyMachine ∧
      timedKeyMachine.run.1 = .ok () ∧
      timedKeyMachine.run.2.request = some (.charInput 7) ∧ timedKeyMachine.run.2.Paired ∧
      (timedKeyMachine.run.2.finished = false → timedKeyMachine.run.2.replies = []) := by
  have hreachable :
      Reachable timedKeyImage { iterationCap := 1, random := .lowest } timedKeyMachine :=
    .load rfl
  have hrun : timedKeyMachine.run.1 = .ok () := by
    rw [Machine.run, show timedKeyMachine.halted = none from rfl, runStory_timedKeyMachine]
    decide +kernel
  have hrequest : timedKeyMachine.run.2.request = some (.charInput 7) := by
    rw [run_eq_runStory hrun, runStory_timedKeyMachine]
    decide +kernel
  exact ⟨hreachable, hrun, hrequest, reachable_run_paired hreachable hrun⟩

end Machine
end ZMachine
