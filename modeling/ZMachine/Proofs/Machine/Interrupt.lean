/-
# Timeout routines and the inputs that wait for them

The routine of a timed input runs while its input is parked.  A return from the routine takes away
both its frame and the parked input.  A throw past the frame leaves the input parked, though, and a
restore forgets the input even if the restored stack has such a frame.

* `Moment.Proceeds` : what machine and host do, apart from such throws and restores;
* `Moment.Watched` : the invariant of all moments that come about in this way;
* `Moment.attended_interrupts` : frames of timeout routines and parked inputs go together, so no
  interrupt returns without a parked input, and interrupts nest only while the routine of the first
  one is on the stack;
* `Moment.reachable_untended` : what a throw past the frame leads to.
-/
import ZMachine.Proofs.Instruction.BlockCache
import ZMachine.Proofs.Machine.Lasting
import ZMachine.Proofs.Machine.Tended

namespace ZMachine
namespace Machine

/-! ## Blocks -/

/-- The instructions that are kept have been decoded. -/
def DecodedBlocks (m : Machine) : Prop :=
  ∀ (pc : Nat) (block : Block), m.blocks.blocks[pc]? = some block →
    ∀ ins ∈ block.instructions, ins.Decoded

theorem unrelated_decode {c : Text.Codec} {m : Memory} {address : Nat} {f : Fault}
    (h : Block.decode c m address = .error f) : f.Unrelated := by
  have hbody : Instruction.decodeBody c.charset.version m address = .error f := by
    unfold Block.decode Instruction.decode at h
    split at h
    · rename_i fault hins
      split at hins
      · rename_i hbody
        rw [hbody, Except.error.inj hins, Except.error.inj h]
      · split at hins <;> cases hins
    · cases h
  unfold Instruction.decodeBody at hbody
  split_ifs at hbody
  · cases hbody
    exact ⟨nofun, nofun⟩
  · cases hbody
    exact ⟨nofun, nofun⟩
  · dsimp only at hbody
    split at hbody <;> cases hbody
    exact ⟨nofun, nofun⟩

/-- A fetch gives decoded instructions, or a fault that has nothing to do with interrupts. -/
theorem DecodedBlocks.fetchBlock {m : Machine} (hm : m.DecodedBlocks) :
    (fetchBlock.run m).2.DecodedBlocks ∧
      (∀ block, (fetchBlock.run m).1 = .ok block → ∀ ins ∈ block.instructions, ins.Decoded) ∧
      ∀ f, (fetchBlock.run m).1 = .error (.fault f) → f.Unrelated := by
  cases hkept : m.blocks.blocks[m.pc]? with
  | some block =>
      rw [fetchBlock_run, BlockCache.fetch_of_some hkept]
      refine ⟨hm, ?_, nofun⟩
      rintro _ ⟨⟩
      exact hm m.pc block hkept
  | none =>
      cases hdecode : Block.decode m.codec m.memory m.pc with
      | error fault =>
          rw [fetchBlock_run, BlockCache.fetch_of_none hkept, hdecode]
          refine ⟨hm, nofun, ?_⟩
          rintro _ ⟨⟩
          exact unrelated_decode hdecode
      | ok decoded =>
          have hblock : ∀ ins ∈ decoded.1.instructions, ins.Decoded :=
            fun ins hins => Block.decoded_of_decode hdecode hins
          rw [fetchBlock_run_of_decode hkept hdecode]
          refine ⟨fun pc kept hfound => ?_, ?_, nofun⟩
          · dsimp only at hfound
            split_ifs at hfound
            · rw [Std.HashMap.getElem?_insert] at hfound
              split at hfound
              · cases hfound
                exact hblock
              · exact hm pc kept hfound
            · exact hm pc kept hfound
          · rintro _ ⟨⟩
            exact hblock

theorem ofEquipment_decodedBlocks : OfEquipment DecodedBlocks where
  work {m m'} hequipment _ hm := by
    have hblocks : m'.blocks = m.blocks := congrArg Equipment.blocks hequipment
    unfold DecodedBlocks
    rw [hblocks]
    exact hm
  decode _ hm := hm
  fetchBlock hm := hm.fetchBlock.1
  restart _ := by
    intro pc block hfound
    cases hfound.symm.trans Std.HashMap.getElem?_empty

theorem lasting_decodedBlocks : Lasting DecodedBlocks :=
  ofEquipment_decodedBlocks.lasting

end Machine

namespace Moment

open Machine

/-! ## Careful runs -/

/-- The next step is careful. -/
def Careful : Moment → Prop
  | ⟨m, .executing (ins :: _) _⟩ => Machine.Careful ins { m with pc := ins.next }
  | _ => True

/-- One thing that machine and host do.  Neither does the story throw past the frame of a timeout
routine, nor does it or the host restore a stack with such a frame. -/
inductive Proceeds : Moment → Moment → Prop
  | step (μ : Moment) (h : μ.Careful) : Proceeds μ μ.step
  | run (m : Machine) (h : ∀ s, BeginsRestoring m s → s.stack.interruptFrames = 0) :
      Proceeds ⟨m, .host⟩ (begin m)
  | attend {m m' : Machine} (h : Attends m m') : Proceeds ⟨m, .host⟩ ⟨m', .host⟩
  | loadSavedGame (m : Machine) (data : List UInt8)
      (h : ∀ s, m.readSave data = .ok s → s.stack.interruptFrames = 0) :
      Proceeds ⟨m, .host⟩ ⟨(m.loadSavedGame data).2, .host⟩
  | restart (m : Machine) : Proceeds ⟨m, .host⟩ ⟨m.restart, .host⟩

/-- The moments that machine and host bring about in this way from an image. -/
inductive Attended (image : Array UInt8) (config : Config) : Moment → Prop
  | load {m : Machine} (h : load image config = .ok m) : Attended image config ⟨m, .host⟩
  | proceed {μ ν : Moment} (h : Attended image config μ) (hν : Proceeds μ ν) :
      Attended image config ν

/-- What is left of the block that is being executed. -/
def rest (μ : Moment) : List Instruction :=
  match μ.phase with
  | .executing rest _ => rest
  | _ => []

/-- The machine is tended unless it has halted, and it has not halted because an interrupt returned
to no input. -/
structure Watched (μ : Moment) : Prop where
  tended : μ.machine.Tended ∨ μ.phase = .host ∧ μ.machine.halted ≠ none
  pending : μ.machine.halted ≠ some .noPendingInput
  kept : μ.machine.DecodedBlocks
  rest : ∀ ins ∈ μ.rest, ins.Decoded

/-- While a machine runs it is tended. -/
theorem Watched.tended_of_phase {μ : Moment} (h : Watched μ) (hphase : μ.phase ≠ .host) :
    μ.machine.Tended :=
  h.tended.resolve_right fun hhost => hphase hhost.1

/-- A machine that has not halted is tended. -/
theorem Watched.tended_of_halted {μ : Moment} (h : Watched μ) (hhalted : μ.machine.halted = none) :
    μ.machine.Tended :=
  h.tended.resolve_right fun hhost => hhost.2 hhalted

/-- A moment after a machine: it is watched, and interrupts nest only if the frame of a timeout
routine was on the stack. -/
structure Watches (m : Machine) (ν : Moment) : Prop where
  watched : Watched ν
  nested : m.halted = none → ν.machine.halted = some .nestedInterrupt → 0 < m.stack.interruptFrames

/-- Nothing stops. -/
theorem watches_of_halted_eq {m : Machine} {ν : Moment} (h : Watched ν)
    (hhalted : ν.machine.halted = m.halted) : Watches m ν := by
  refine ⟨h, fun hnone hnested => ?_⟩
  rw [hhalted, hnone] at hnested
  cases hnested

/-- A fault stops the machine. -/
theorem watches_fault {m m' : Machine} {f : Fault} (hpending : f ≠ .noPendingInput)
    (hnested : f = .nestedInterrupt → 0 < m.stack.interruptFrames) (hkept : m'.DecodedBlocks) :
    Watches m ⟨{ m' with halted := some f }, .host⟩ := by
  refine ⟨⟨Or.inr ⟨rfl, Option.some_ne_none f⟩, ?_, hkept, List.forall_mem_nil _⟩, fun _ h => ?_⟩
  · exact fun h => hpending (Option.some.inj h)
  · exact hnested (Option.some.inj h)

theorem Watched.attend {m m' : Machine} (h : Watched ⟨m, .host⟩) (ha : Attends m m') :
    Watches m ⟨m', .host⟩ := by
  have hkept := lasting_decodedBlocks.attend h.kept ha
  have hsame : m'.stack = m.stack ∧ m'.parked = m.parked ∧ m'.completion = m.completion ∧
      m'.halted = m.halted := by
    cases ha with
    | answer slot reply => exact ⟨rfl, rfl, rfl, rfl⟩
    | setRandomSeed seed => exact ⟨rfl, rfl, rfl, rfl⟩
    | takeOutput => exact ⟨rfl, rfl, rfl, rfl⟩
    | takeTranscript => exact ⟨rfl, rfl, rfl, rfl⟩
    | statusLine width =>
        unfold Machine.statusLine
        split <;> exact ⟨rfl, rfl, rfl, rfl⟩
  obtain ⟨hstack, hparked, hcompletion, hhalted⟩ := hsame
  refine watches_of_halted_eq ⟨?_, ?_, hkept, h.rest⟩ hhalted
  · rcases h.tended with htended | ⟨-, hhalted'⟩
    · exact Or.inl (htended.same hstack hparked hcompletion)
    · exact Or.inr ⟨rfl, hhalted ▸ hhalted'⟩
  · show m'.halted ≠ _
    rw [hhalted]
    exact h.pending

theorem Watched.restart {m : Machine} (h : Watched ⟨m, .host⟩) : Watches m ⟨m.restart, .host⟩ := by
  have htended : m.restart.Tended := by
    refine ⟨rfl, ?_, ?_⟩ <;> rintro _ ⟨⟩
  have hhalted : m.restart.halted = none := rfl
  have hkept := lasting_decodedBlocks.restart h.kept
  refine ⟨⟨Or.inl htended, ?_, hkept, h.rest⟩, fun _ hnested => ?_⟩
  · rw [hhalted]
    exact (Option.some_ne_none _).symm
  · rw [hhalted] at hnested
    cases hnested

/-- A save file without a frame of a timeout routine, also after the machine has halted. -/
theorem Watched.loadSavedGame {m : Machine} (h : Watched ⟨m, .host⟩) {data : List UInt8}
    (hdata : ∀ s, m.readSave data = .ok s → s.stack.interruptFrames = 0) :
    Watches m ⟨(m.loadSavedGame data).2, .host⟩ := by
  have hkept := lasting_decodedBlocks.loadSavedGame h.kept data
  cases hread : m.readSave data with
  | error e =>
      rw [loadSavedGame_refused hread]
      exact watches_of_halted_eq h rfl
  | ok s =>
      rw [loadSavedGame_taken hread] at hkept ⊢
      have hleaves := (turns_restoreSnapshot s).leaves
        { m with request := none, completion := none, replies := [], finished := false }
      have htended := leavesTended_restoreSnapshot (hdata s hread)
        (m := { m with request := none, completion := none, replies := [], finished := false })
        (by rintro _ ⟨⟩)
      have hhalted := hleaves.halted
      refine watches_of_halted_eq ⟨Or.inl htended.1, ?_, hkept, h.rest⟩ hhalted
      show _ ≠ _
      rw [hhalted]
      exact h.pending

/-- Nor does loading such a file tell of an interrupt that returned to no input. -/
theorem loadSavedGame_ne_noPendingInput {m : Machine} {data : List UInt8} {s : Snapshot}
    (hread : m.readSave data = .ok s) (hs : s.stack.interruptFrames = 0) :
    (m.loadSavedGame data).1 ≠ .error (.fault .noPendingInput) := by
  have hleaves := leavesTended_restoreSnapshot hs
    (m := { m with request := none, completion := none, replies := [], finished := false })
    (by rintro _ ⟨⟩)
  unfold Machine.loadSavedGame restoreFile
  rw [run_bind, run_get]
  dsimp only
  rw [hread]
  dsimp only
  rw [run_set_bind, run_bind]
  revert hleaves
  rcases (restoreSnapshot s).run _ with ⟨e | flow, m'⟩
  · rintro ⟨-, hfault⟩ hr
    cases hr
    exact (hfault _ rfl).2 rfl
  · rintro - ⟨⟩

/-- Control leaves a sequence of instructions or the work left over. -/
theorem watches_left {m : Machine} {r : Except Stop Flow × Machine} (h : Resumes m r)
    (hhalted : r.2.halted = m.halted) (hpending : m.halted ≠ some .noPendingInput)
    (hkept : r.2.DecodedBlocks) (blocks : Nat) : Watches m (left blocks r) := by
  rcases r with ⟨(f | _) | flow, m'⟩
  · -- only here the machine may be left untended, and it halts
    refine watches_fault ?_ ?_ hkept
    · rintro rfl
      exact h.pending rfl
    · rintro rfl
      exact h.nested rfl
  · have htended := h.tended (by rintro _ ⟨⟩)
    exact watches_of_halted_eq
      ⟨Or.inl htended, hhalted ▸ hpending, hkept, List.forall_mem_nil _⟩ hhalted
  · have htended := h.tended (by rintro _ ⟨⟩)
    cases flow <;> exact watches_of_halted_eq
      ⟨Or.inl htended, hhalted ▸ hpending, hkept, List.forall_mem_nil _⟩ hhalted

/-- A block is fetched. -/
theorem Watched.fetch {m : Machine} {blocks : Nat} (h : Watched ⟨m, .fetching (blocks + 1)⟩) :
    Watches m (step ⟨m, .fetching (blocks + 1)⟩) := by
  have hm : m.Tended := h.tended_of_phase (by rintro ⟨⟩)
  obtain ⟨caches, codec, hfetch⟩ := fetchBlock_run_snd m
  have hfetched : Tended { m with blocks := caches, codec } := hm.same rfl rfl rfl
  have hdecoded := h.kept.fetchBlock
  rw [Moment.step]
  revert hfetch hdecoded
  rcases fetchBlock.run m with ⟨(f | _) | block, m₁⟩
  · rintro rfl ⟨hkept, -, hfault⟩
    obtain ⟨hnested, hpending⟩ := hfault f rfl
    exact watches_fault hpending (fun hf => absurd hf hnested) hkept
  · rintro rfl ⟨hkept, -, -⟩
    exact watches_of_halted_eq ⟨Or.inl hfetched, h.pending, hkept, List.forall_mem_nil _⟩ rfl
  · rintro rfl ⟨hkept, hblock, -⟩
    exact watches_of_halted_eq ⟨Or.inl hfetched, h.pending, hkept, hblock block rfl⟩ rfl

/-- An instruction is executed. -/
theorem Watched.execute {m : Machine} {ins : Instruction} {rest : List Instruction} {blocks : Nat}
    (h : Watched ⟨m, .executing (ins :: rest) blocks⟩)
    (hcareful : Careful ⟨m, .executing (ins :: rest) blocks⟩) :
    Watches m (step ⟨m, .executing (ins :: rest) blocks⟩) := by
  have hm : m.Tended := h.tended_of_phase (by rintro ⟨⟩)
  obtain ⟨hins, hrest⟩ := List.forall_mem_cons.mp h.rest
  have hexecute := hm.execute hins hcareful
  obtain ⟨codec, -, hleaves⟩ := (spells_execute ins).leaves { m with pc := ins.next }
  have hhalted : ((Machine.execute ins).run { m with pc := ins.next }).2.halted = m.halted :=
    hleaves.halted
  have hkept := lasting_decodedBlocks.execute (m := { m with pc := ins.next }) h.kept ins
  rw [Moment.step]
  split
  · rename_i m₁ hrun
    rw [hrun] at hexecute hhalted hkept
    exact watches_of_halted_eq ⟨Or.inl hexecute.1, hhalted ▸ h.pending, hkept, hrest⟩ hhalted
  · exact watches_left (hexecute.resumes m) hhalted h.pending hkept blocks

/-- **A step.** -/
theorem Watched.step {μ : Moment} (h : Watched μ) (hcareful : μ.Careful) :
    Watches μ.machine μ.step := by
  rcases μ with ⟨m, _ | blocks | ⟨_ | ⟨ins, rest⟩, blocks⟩ | _⟩
  · exact watches_of_halted_eq h rfl
  · cases blocks with
    | zero =>
        have hm : m.Tended := h.tended_of_phase (by rintro ⟨⟩)
        have hasked : Tended { m with request := some .housekeeping } := hm.same rfl rfl rfl
        exact watches_of_halted_eq ⟨Or.inl hasked, h.pending, h.kept, h.rest⟩ rfl
    | succ blocks => exact h.fetch
  · have hm : m.Tended := h.tended_of_phase (by rintro ⟨⟩)
    exact watches_of_halted_eq ⟨Or.inl hm, h.pending, h.kept, h.rest⟩ rfl
  · exact h.execute hcareful
  · exact watches_of_halted_eq h rfl

/-- The work left over by the last request, and then the replies are forgotten. -/
theorem resumes_leftover {m : Machine} (hm : m.Tended) {completion : Option Completion}
    (hinput : ∀ input, completion = some (.input input) → RoutineFits input)
    (hrestoring : ∀ c s, completion = some c → Restoring c m s → s.stack.interruptFrames = 0) :
    Resumes m ((leftover completion).run m) := by
  cases completion with
  | none =>
      have hcleared : Tended { m with replies := [] } := hm.same rfl rfl rfl
      exact (tends_pure Flow.next _ hcleared).resumes m
  | some completion =>
      obtain ⟨htended, hpending, hnested⟩ :=
        hm.resume (fun input h => hinput input (congrArg some h)) fun s hs =>
          hrestoring completion s rfl hs
      obtain ⟨replies, hleftover, -⟩ := leftover_run completion m
      rw [hleftover]
      exact ⟨fun hr => (htended hr).same rfl rfl rfl, hpending, hnested⟩

theorem halted_leftover (completion : Option Completion) (m : Machine) :
    ((leftover completion).run m).2.halted = m.halted := by
  cases completion with
  | none => rfl
  | some completion =>
      obtain ⟨parked, -, hleaves⟩ := leaves_resume m completion
      obtain ⟨replies, hleftover, -⟩ := leftover_run completion m
      rw [hleftover]
      exact hleaves.halted

/-- **The beginning of a run.** -/
theorem Watched.begin {m : Machine} (h : Watched ⟨m, .host⟩)
    (hrestoring : ∀ s, BeginsRestoring m s → s.stack.interruptFrames = 0) :
    Watches m (begin m) := by
  by_cases hhalted : m.halted = none
  · have hm : m.Tended := h.tended_of_halted hhalted
    cases hfinished : m.finished with
    | true =>
        have hbegin : Moment.begin m = ⟨{ m with request := some .quit }, .host⟩ := by
          simp [Moment.begin, hhalted, hfinished]
        rw [hbegin]
        refine watches_of_halted_eq ⟨Or.inl ?_, h.pending, h.kept, h.rest⟩ rfl
        exact hm.same rfl rfl rfl
    | false =>
        have htaken : (taken m).Tended := ⟨hm.frames, hm.parked, by rintro _ ⟨⟩⟩
        have hresumes := resumes_leftover htaken hm.completion fun c s hc hs =>
          hrestoring s ⟨hhalted, hfinished, c, hc, hs⟩
        have hkept := lasting_decodedBlocks.leftover (m := taken m) h.kept m.completion
        rw [begin_eq hhalted hfinished]
        have hwatches := watches_left hresumes (halted_leftover _ _) h.pending hkept
          m.config.iterationCap
        -- taking the request changes neither the stack nor whether the machine has halted
        exact ⟨hwatches.watched, hwatches.nested⟩
  · have hbegin : Moment.begin m = ⟨m, .host⟩ := by
      simp [Moment.begin, Option.isSome_iff_ne_none, hhalted]
    rw [hbegin]
    exact watches_of_halted_eq h rfl

theorem Watched.proceeds {μ ν : Moment} (h : Watched μ) (hν : Proceeds μ ν) :
    Watches μ.machine ν := by
  cases hν with
  | step _ hcareful => exact h.step hcareful
  | run m hrestoring => exact h.begin hrestoring
  | attend ha => exact h.attend ha
  | loadSavedGame m data hdata => exact h.loadSavedGame hdata
  | restart m => exact h.restart

theorem watched_load {image : Array UInt8} {config : Config} {m : Machine}
    (h : load image config = .ok m) : Watched ⟨m, .host⟩ := by
  obtain ⟨header, random, -, rfl⟩ := load_eq_ok h
  refine ⟨Or.inl ⟨rfl, ?_, ?_⟩, ?_, fun pc block hfound => ?_, List.forall_mem_nil _⟩
  · rintro _ ⟨⟩
  · rintro _ ⟨⟩
  · rintro ⟨⟩
  · cases hfound.symm.trans Std.HashMap.getElem?_empty

/-- **All moments of careful runs are watched.** -/
theorem Attended.watched {image : Array UInt8} {config : Config} {μ : Moment}
    (h : Attended image config μ) : Watched μ := by
  induction h with
  | load h => exact watched_load h
  | proceed _ hν ih => exact (ih.proceeds hν).watched

/-- **Timeout routines and parked inputs go together** as long as the story does not throw past the
frame of such a routine and nobody restores a stack with one.  At every moment, whatever else the
story and the host have done, a machine that has not halted has one such frame if an input is parked
and none otherwise.  So whatever comes next, an interrupt does not return to no input, also while a
save file is loaded, and interrupts nest only if the frame of a timeout routine is on the stack. -/
theorem attended_interrupts {image : Array UInt8} {config : Config} {μ : Moment}
    (h : Attended image config μ) (hhalted : μ.machine.halted = none) :
    μ.machine.stack.interruptFrames = (if μ.machine.parked.isSome then 1 else 0) ∧
      (∀ ν, Proceeds μ ν → ν.machine.halted ≠ some .noPendingInput ∧
        (ν.machine.halted = some .nestedInterrupt → 0 < μ.machine.stack.interruptFrames)) ∧
      ∀ data s, μ.machine.readSave data = .ok s → s.stack.interruptFrames = 0 →
        (μ.machine.loadSavedGame data).1 ≠ .error (.fault .noPendingInput) := by
  have hwatched := h.watched
  refine ⟨(hwatched.tended_of_halted hhalted).frames, fun ν hν => ?_, fun data s hread hs => ?_⟩
  · have hwatches := hwatched.proceeds hν
    exact ⟨hwatches.watched.pending, hwatches.nested hhalted⟩
  · exact loadSavedGame_ne_noPendingInput hread hs

/-! ## A throw past a timeout routine -/

/-- Careful steps one after another. -/
theorem Attended.leads {image : Array UInt8} {config : Config} {μ ν : Moment}
    (h : Attended image config μ)
    (hν : Relation.ReflTransGen (fun μ ν => μ.Careful ∧ ν = μ.step) μ ν) :
    Attended image config ν := by
  induction hν with
  | refl => exact h
  | tail _ hstep ih =>
      rw [hstep.2]
      exact ih.proceed (.step _ hstep.1)

/-- The block at a place in dynamic memory is fetched. -/
theorem step_fetching_of_dynamic {m : Machine} (block : Block) {codec : Text.Codec}
    (habsent : m.blocks.blocks[m.pc]? = none) (hdynamic : m.pc < m.memory.staticStart)
    (hdecode : Block.decode m.codec m.memory m.pc = .ok (block, codec)) {blocks : Nat} :
    step ⟨m, .fetching (blocks + 1)⟩
      = ⟨{ m with blocks := { m.blocks with decoded := m.blocks.decoded + 1 }, codec },
          .executing block.instructions blocks⟩ := by
  rw [step, fetchBlock_run_of_dynamic habsent hdynamic hdecode]

/-- A story that calls a routine, which reads a key for seven tenths of a second.  The timeout
routine of the key throws to that routine, and then the caller reads a key in the same way. -/
def throwingImage : Array UInt8 :=
  (5 :: List.replicate 6 (0 : UInt8) ++ 0x40 :: List.replicate 7 (0 : UInt8) ++
    0x58 :: List.replicate 48 (0 : UInt8) ++
    [0x8F, 0, 0x13, 0xF6, 0x57, 1, 7, 0x15, 0x10, 0, 0, 0] ++
    [0, 0xF6, 0x57, 1, 7, 0x15, 0x10, 0] ++ [0, 0x1C, 0, 1]).toArray

/-- The machine of that story, which yields to its host after two blocks. -/
def throwingMachine : Machine :=
  (load throwingImage { iterationCap := 2, random := .lowest }).toOption.get rfl

/-- The call of the routine. -/
def calling : Instruction :=
  (Instruction.read throwingMachine.codec throwingMachine.memory 0x40).toOption.get rfl

/-- The routine's request for a key. -/
def reading : Instruction :=
  (Instruction.read throwingMachine.codec throwingMachine.memory 0x4D).toOption.get rfl

/-- The throw. -/
def throwing : Instruction :=
  (Instruction.read throwingMachine.codec throwingMachine.memory 0x55).toOption.get rfl

/-- The caller's request for a key. -/
def readingAgain : Instruction :=
  (Instruction.read throwingMachine.codec throwingMachine.memory 0x43).toOption.get rfl

/-- The machine that has called the routine. -/
def calledMachine : Machine :=
  { throwingMachine with
    blocks := { decoded := 1 }
    stack := { frames := [throwingMachine.calleeFrame 0x4C [] 0x43 none] }
    pc := 0x4D }

/-- The machine that waits for the key of the routine. -/
def waitingMachine : Machine :=
  { calledMachine with
    blocks := { decoded := 2 }
    pc := 0x53
    request := some (.charInput 7)
    completion := some (.input (.char 0x10 7 (some 0x15))) }

/-- The machine at the beginning of the timeout routine. -/
def timedOutMachine : Machine :=
  { calledMachine with
    blocks := { decoded := 2 }
    stack := calledMachine.stack.pushFrame (calledMachine.calleeFrame 0x54 [] fromInterrupt none)
    pc := 0x55
    parked := some { input := .char 0x10 7 (some 0x15), request := .charInput 7, pc := 0x53 } }

/-- The machine after the throw, in the caller. -/
def thrownMachine : Machine :=
  { timedOutMachine with
    blocks := { decoded := 3 }
    stack := .empty
    pc := 0x43 }

/-- The machine that waits for the key of the caller. -/
def strayMachine : Machine :=
  { thrownMachine with
    blocks := { decoded := 4 }
    pc := 0x49
    request := some (.charInput 7)
    completion := some (.input (.char 0x10 7 (some 0x15))) }

/-- The steps of the first run. -/
theorem leads_waitingMachine :
    Relation.ReflTransGen (fun μ ν => μ.Careful ∧ ν = μ.step) (begin throwingMachine)
      ⟨waitingMachine, .host⟩ := by
  have hfetch : step ⟨throwingMachine, .fetching 2⟩
      = ⟨{ throwingMachine with blocks := { decoded := 1 } }, .executing [calling] 1⟩ :=
    step_fetching_of_dynamic ⟨0x40, [calling]⟩ Std.HashMap.getElem?_empty (by decide) rfl
  have hcall : step ⟨{ throwingMachine with blocks := { decoded := 1 } }, .executing [calling] 1⟩
      = ⟨calledMachine, .fetching 1⟩ := rfl
  have hfetchCallee : step ⟨calledMachine, .fetching 1⟩
      = ⟨{ calledMachine with blocks := { decoded := 2 } }, .executing [reading] 0⟩ :=
    step_fetching_of_dynamic ⟨0x4D, [reading]⟩ Std.HashMap.getElem?_empty (by decide) rfl
  have hread : step ⟨{ calledMachine with blocks := { decoded := 2 } }, .executing [reading] 0⟩
      = ⟨waitingMachine, .host⟩ := rfl
  have hcarefulCall : Careful
      ⟨{ throwingMachine with blocks := { decoded := 1 } }, .executing [calling] 1⟩ :=
    fun _ _ _ => ⟨nofun, nofun⟩
  have hcarefulRead : Careful
      ⟨{ calledMachine with blocks := { decoded := 2 } }, .executing [reading] 0⟩ :=
    fun _ _ _ => ⟨nofun, nofun⟩
  have hbegin : begin throwingMachine = ⟨throwingMachine, .fetching 2⟩ := rfl
  rw [hbegin]
  exact .head ⟨trivial, hfetch.symm⟩ <| .head ⟨hcarefulCall, hcall.symm⟩ <|
    .head ⟨trivial, hfetchCallee.symm⟩ <| .single ⟨hcarefulRead, hread.symm⟩

theorem begin_waitingMachine :
    begin (waitingMachine.answer 0 (.number (-1))) = ⟨timedOutMachine, .fetching 2⟩ := rfl

/-- The steps of the second run, after the time has run out. -/
theorem leads_strayMachine : Leads ⟨timedOutMachine, .fetching 2⟩ ⟨strayMachine, .host⟩ := by
  have hfetch : step ⟨timedOutMachine, .fetching 2⟩
      = ⟨{ timedOutMachine with blocks := { decoded := 3 } }, .executing [throwing] 1⟩ :=
    step_fetching_of_dynamic ⟨0x55, [throwing]⟩ Std.HashMap.getElem?_empty (by decide) rfl
  have hthrow : step
      ⟨{ timedOutMachine with blocks := { decoded := 3 } }, .executing [throwing] 1⟩
      = ⟨thrownMachine, .fetching 1⟩ := rfl
  have hfetchCaller : step ⟨thrownMachine, .fetching 1⟩
      = ⟨{ thrownMachine with blocks := { decoded := 4 } }, .executing [readingAgain] 0⟩ :=
    step_fetching_of_dynamic ⟨0x43, [readingAgain]⟩ Std.HashMap.getElem?_empty (by decide) rfl
  have hread : step
      ⟨{ thrownMachine with blocks := { decoded := 4 } }, .executing [readingAgain] 0⟩
      = ⟨strayMachine, .host⟩ := rfl
  exact .head hfetch.symm <| .head hthrow.symm <| .head hfetchCaller.symm <| .single hread.symm

/-- In the timeout routine there is one frame and one parked input. -/
theorem attended_interrupts_timedOut :
    Attended throwingImage { iterationCap := 2, random := .lowest } ⟨timedOutMachine, .fetching 2⟩ ∧
      timedOutMachine.halted = none ∧ timedOutMachine.parked.isSome = true ∧
      timedOutMachine.stack.interruptFrames = 1 ∧
      ∀ ν, Proceeds ⟨timedOutMachine, .fetching 2⟩ ν →
        ν.machine.halted ≠ some .noPendingInput := by
  have hload :
      Attended throwingImage { iterationCap := 2, random := .lowest } ⟨throwingMachine, .host⟩ :=
    .load rfl
  have hrun :
      Attended throwingImage { iterationCap := 2, random := .lowest } (begin throwingMachine) := by
    refine hload.proceed (.run _ ?_)
    rintro s ⟨-, -, completion, hcompletion, -⟩
    cases hcompletion
  have hwaiting := hrun.leads leads_waitingMachine
  have hanswered := hwaiting.proceed (.attend (.answer _ 0 (.number (-1))))
  have htimedOut : Attended throwingImage { iterationCap := 2, random := .lowest }
      ⟨timedOutMachine, .fetching 2⟩ := by
    rw [← begin_waitingMachine]
    refine hanswered.proceed (.run _ ?_)
    rintro s ⟨-, -, completion, hcompletion, _, _, hrestore, -⟩
    cases hcompletion
    cases hrestore
  obtain ⟨hframes, hnext, -⟩ := attended_interrupts htimedOut rfl
  exact ⟨htimedOut, rfl, rfl, hframes, fun ν hν => (hnext ν hν).1⟩

/-- **A throw past the frame of a timeout routine leaves its input parked.**  The machine then waits
for another key with no such frame on its stack, and if that key times out, the interrupt counts as
a nested one. -/
theorem reachable_untended :
    Reachable throwingImage { iterationCap := 2, random := .lowest } strayMachine ∧
      strayMachine.halted = none ∧
      strayMachine.parked.isSome = true ∧ strayMachine.stack.interruptFrames = 0 ∧
      (strayMachine.answer 0 (.number (-1))).run.2.halted = some .nestedInterrupt := by
  have hfirst : throwingMachine.run.2 = waitingMachine :=
    run_snd_of_leads (Relation.ReflTransGen.mono (fun _ _ h => h.2) _ _ leads_waitingMachine)
  have hsecond : (waitingMachine.answer 0 (.number (-1))).run.2 = strayMachine := by
    apply run_snd_of_leads
    rw [begin_waitingMachine]
    exact leads_strayMachine
  have hreachable :
      Reachable throwingImage { iterationCap := 2, random := .lowest } strayMachine := by
    have hwaiting :
        Reachable throwingImage { iterationCap := 2, random := .lowest } throwingMachine.run.2 :=
      .run (.load rfl)
    rw [hfirst] at hwaiting
    rw [← hsecond]
    exact .run (.attend hwaiting (.answer _ 0 (.number (-1))))
  refine ⟨hreachable, rfl, rfl, rfl, ?_⟩
  have hthird : (strayMachine.answer 0 (.number (-1))).run.2
      = (begin (strayMachine.answer 0 (.number (-1)))).machine :=
    run_snd_of_leads Relation.ReflTransGen.refl
  rw [hthird]
  rfl

end Moment
end ZMachine
