/-
# Restarting

A restart puts the story back into the state in which it was loaded, whatever has happened to it.
The text that the host has not taken, the random generator and the count of decoded blocks stay, and
so do the printing bits of the header, from which the transcript is selected.

* `lasting_limit` : nothing changes how many snapshots are kept;
* `setUpHeader_setByte` : setting up the header does not look at the printing bits;
* `restart_eq` : the machine after a restart, in terms of the loaded one;
* `restart_eq_load` : with the printing bits of the image it is the loaded one.
-/
import Mathlib.Data.FinEnum
import ZMachine.Proofs.Machine.Restore
import ZMachine.Proofs.Machine.StackEffect
import ZMachine.Proofs.Machine.Utterance

namespace ZMachine

open Memory (SameImage)

/-! ## Memory -/

namespace Memory

/-- Writes at different addresses may be exchanged. -/
theorem setByte_comm (m : Memory) {a b : Nat} (h : a ≠ b) (v w : UInt8) :
    (m.setByte a v).setByte b w = (m.setByte b w).setByte a v :=
  Memory.ext (Array.setIfInBounds_comm v w h) rfl rfl

/-- Writing the byte that is there changes nothing. -/
theorem setByte_byteAt (m : Memory) (a : Nat) : m.setByte a (m.byteAt a) = m := by
  refine Memory.ext ?_ rfl rfl
  show m.bytes.setIfInBounds a (m.bytes.getD a 0) = m.bytes
  ext i hi
  · simp
  · simp
    grind

/-- An image that has been written to is as it was loaded after a reset. -/
theorem reset_of_sameImage {image : Array UInt8} {m : Memory} (h : SameImage (ofImage image) m) :
    m.reset = ofImage image :=
  Memory.ext h.loaded h.loaded h.staticStart

end Memory

namespace Machine

/-- Setting up the header neither looks at the byte with the printing bits nor writes it. -/
theorem setUpHeader_setByte (config : Config) (version : UInt8) (m : Memory) (v : UInt8) :
    setUpHeader config version (m.setByte Field.flags2Low v)
      = (setUpHeader config version m).setByte Field.flags2Low v := by
  have hcomm : ∀ (m : Memory) (a : Nat) (w : UInt8), Field.flags2Low ≠ a →
      (m.setByte Field.flags2Low v).setByte a w = (m.setByte a w).setByte Field.flags2Low v :=
    fun m a w h => m.setByte_comm h v w
  have hread : ∀ (m : Memory) (a : Nat), a ≠ Field.flags2Low →
      (m.setByte Field.flags2Low v).byteAt a = m.byteAt a :=
    fun m a h => m.byteAt_setByte_of_ne _ _ _ h
  unfold setUpHeader
  by_cases hfour : 4 ≤ version <;> by_cases hfive : 5 ≤ version
  all_goals
    simp (disch := decide) only [hfour, hfive, if_true, if_false, Memory.setWord, hcomm, hread]

/-- A byte is made up of its two lowest bits and the others. -/
theorem or_lowBits : ∀ b : UInt8, (b &&& ~~~0x03) ||| (b &&& 0x03) = b := by
  decide +kernel

theorem withPrintingBits_self (m : Memory) :
    withPrintingBits (m.byteAt Field.flags2Low &&& 0x03) m = m := by
  rw [withPrintingBits, or_lowBits, Memory.setByte_byteAt]

/-- Setting up the header and replacing the printing bits may be exchanged. -/
theorem setUpHeader_withPrintingBits (config : Config) (version bits : UInt8) (m : Memory) :
    setUpHeader config version (withPrintingBits bits m)
      = withPrintingBits bits (setUpHeader config version m) := by
  have hflags : Field.flags2Low ∉ setUpBytes version := fun hmem => (setUpBytes_lt hmem).2 rfl
  rw [withPrintingBits, setUpHeader_setByte, withPrintingBits, byteAt_setUpHeader hflags]

/-! ## The undo history -/

theorem Voices.limit {m : Machine} {text : Option String} {r : Except Stop Flow × Machine}
    (h : Voices m text r) : r.2.undo.limit = m.undo.limit := by
  cases h with
  | mute hmute => exact hmute.limit
  | @prints m₁ _ said hmute _ hr =>
      rw [hr, (quiet_print said m₁).undo]
      exact hmute.limit
  | @selects m₁ _ number table hmute _ hr =>
      rw [hr, (quiet_selectStream number table m₁).undo]
      exact hmute.limit

/-- **Nothing changes how many snapshots are kept.** -/
theorem lasting_limit (n : Nat) : Lasting fun m => m.undo.limit = n where
  idle h hm := by
    rw [h]
    exact hm
  execute hm ins := (voices_execute ins).limit.trans hm
  resume {m} hm completion := by
    rcases mute_resume completion with ⟨text, rfl⟩ | hmute
    · rw [resume_printLeftovers_run, (quiet_emitText m text).undo]
      exact hm
    · exact (hmute m).limit.trans hm
  fetchBlock {m} hm := (mute_fetchBlock m).limit.trans hm
  restoreSnapshot {m} hm s := (mute_restoreSnapshot s m).limit.trans hm
  attend hm h := by
    rw [h.quiet.undo]
    exact hm
  restart hm := hm

/-! ## The loaded machine -/

section
variable {image : Array UInt8} {config : Config} {m m₀ : Machine}

/-- Setting up the header leaves the printing bits as they are in the image. -/
theorem load_eq (h : load image config = .ok m₀) :
    ∃ header random, m₀ =
      { config
        memory := setUpHeader config header.version (Memory.ofImage image)
        header
        codec := .ofStory (Memory.ofImage image) header
        random
        undo := { limit := config.undoDepth }
        pc := header.initialPc
        printingBits := (Memory.ofImage image).byteAt Field.flags2Low &&& 0x03 } := by
  obtain ⟨header, random, -, rfl⟩ := load_eq_ok h
  have hflags : Field.flags2Low ∉ setUpBytes header.version :=
    fun hmem => (setUpBytes_lt hmem).2 rfl
  rw [byteAt_setUpHeader hflags]
  exact ⟨header, random, rfl⟩

theorem limit_load (h : load image config = .ok m₀) : m₀.undo.limit = config.undoDepth := by
  obtain ⟨header, random, rfl⟩ := load_eq h
  rfl

/-- **What a restart gives**, in terms of the machine that was loaded. -/
theorem restart_eq (hload : load image config = .ok m₀) (h : Reachable image config m) :
    m.restart =
      { m₀ with
        memory := withPrintingBits m.headerPrintingBits m₀.memory
        codec := .ofStory (withPrintingBits m.headerPrintingBits (Memory.ofImage image)) m₀.header
        blocks := { m₀.blocks with decoded := m.blocks.decoded }
        random := m.random
        streams :=
          { m₀.streams with
            transcript := m.headerPrintingBits &&& 0x01 ≠ 0
            console := m.streams.console
            transcriptText := m.streams.transcriptText }
        printingBits := m.headerPrintingBits } := by
  have hplays := h.plays
  have hheader := (plays_load hload).header_eq hplays
  have hundo : m.undo.clear = { limit := config.undoDepth } := by
    rw [History.clear, (lasting_limit config.undoDepth).reachable (fun _ => limit_load) h]
  obtain ⟨header, random, rfl⟩ := load_eq hload
  -- image, configuration and header never change, so the restart works on what loading worked on
  unfold restart
  rw [Memory.reset_of_sameImage hplays.image, hplays.config, hheader, hundo]
  dsimp only
  rw [setUpHeader_withPrintingBits]
  rfl

/-- **A restart is a fresh load.**  Take any machine that a host can bring about from an image.  If
its printing bits are those of the image, a restart gives the machine that loading gave, but for the
text that the host has not taken, the transcript selection, the random generator and the count of
decoded blocks.  If they are not, memory differs from that of the loaded machine in these bits and
nowhere else. -/
theorem restart_eq_load (hload : load image config = .ok m₀) (h : Reachable image config m) :
    (m.headerPrintingBits = (Memory.ofImage image).byteAt Field.flags2Low &&& 0x03 →
      m.restart =
        { m₀ with
          blocks := { m₀.blocks with decoded := m.blocks.decoded }
          random := m.random
          streams :=
            { m₀.streams with
              transcript := m.headerPrintingBits &&& 0x01 ≠ 0
              console := m.streams.console
              transcriptText := m.streams.transcriptText } }) ∧
      m.restart.memory.loaded = m₀.memory.loaded ∧
      m.restart.memory.staticStart = m₀.memory.staticStart ∧
      (∀ a, a ≠ Field.flags2Low → m.restart.memory.byteAt a = m₀.memory.byteAt a) ∧
      m.restart.memory.byteAt Field.flags2Low
        = (m₀.memory.byteAt Field.flags2Low &&& ~~~0x03) ||| m.headerPrintingBits := by
  have hrestart := restart_eq hload h
  have hmemory : m.restart.memory = withPrintingBits m.headerPrintingBits m₀.memory := by
    rw [hrestart]
  have hinside : Field.flags2Low < m₀.memory.size :=
    Nat.lt_of_lt_of_le (by decide) (plays_load hload).header_le.2
  rw [hmemory]
  refine ⟨fun hbits => ?_, rfl, rfl, fun a ha => ?_, ?_⟩
  · obtain ⟨header, random, rfl⟩ := load_eq hload
    rw [hrestart, hbits, withPrintingBits_self]
    dsimp only
    rw [← setUpHeader_withPrintingBits, withPrintingBits_self]
  · exact Memory.byteAt_setByte_of_ne _ _ _ _ ha
  · exact Memory.byteAt_setByte_self _ _ _ hinside

end

/-- A machine that has taken a reply and gone back to a save file of itself: a global has changed
and the story is somewhere else. -/
def travelled : Machine :=
  ((rewritingMachine.answer 0 (.number 7)).loadSavedGame (rewritingMachine.saveFile 0x4B)).2

theorem reachable_travelled : Reachable rewritingImage { random := .lowest } travelled :=
  ((Reachable.load load_rewritingImage).attend (.answer _ 0 (.number 7))).loadSavedGame _

/-- A restart brings it back to where it was loaded. -/
theorem restart_eq_load_travelled :
    travelled.pc = 0x4C ∧ travelled.namedVariable 0x10 = restoredCode ∧
      travelled.restart =
        { rewritingMachine with
          blocks := { rewritingMachine.blocks with decoded := travelled.blocks.decoded }
          random := travelled.random
          streams :=
            { rewritingMachine.streams with
              transcript := travelled.headerPrintingBits &&& 0x01 ≠ 0
              console := travelled.streams.console
              transcriptText := travelled.streams.transcriptText } } := by
  refine ⟨by decide +kernel, by decide +kernel, ?_⟩
  exact (restart_eq_load load_rewritingImage reachable_travelled).1 (by decide +kernel)

end Machine
end ZMachine
