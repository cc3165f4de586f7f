/-
# A program counter outside the story

A block is kept only for an address in the image, since nothing is decoded anywhere else.  So a
machine whose program counter has left the image finds no block there: it halts, and executes no
instruction before, even if it hands over to its host first because the iteration cap is reached.

* `Machine.InsideBlocks` : blocks are kept for addresses in the image;
* `Machine.Lost` : the program counter is outside the image, and blocks come next;
* `Moment.HaltsWith` : the machine halts with a fault before it executes anything;
* `Moment.Astray.haltsWith` : a lost machine does.
-/
import ZMachine.Proofs.Instruction.BlockCache
import ZMachine.Proofs.Machine.Lasting

namespace ZMachine

/-! ## Decoding outside the image -/

section
variable {c : Text.Codec} {m : Memory} {address : Nat}

theorem Instruction.decodeBody_of_size_le {version : UInt8} (h : m.size ≤ address) :
    decodeBody version m address = .error (.pcOutOfRange address m.size) := by
  rw [decodeBody, if_pos h]

theorem Block.decode_of_size_le (h : m.size ≤ address) :
    Block.decode c m address = .error (.pcOutOfRange address m.size) := by
  rw [Block.decode, Instruction.decode, Instruction.decodeBody_of_size_le h]

/-- What is decoded starts in the image. -/
theorem Block.lt_size_of_decode {decoded : Block × Text.Codec}
    (h : Block.decode c m address = .ok decoded) : address < m.size := by
  by_contra hout
  rw [Block.decode_of_size_le (Nat.not_lt.mp hout)] at h
  cases h

/-- In the image there are other faults only. -/
theorem Block.decode_ne_pcOutOfRange (h : address < m.size) (target size : Nat) :
    Block.decode c m address ≠ .error (.pcOutOfRange target size) := by
  intro hdecode
  unfold Block.decode Instruction.decode at hdecode
  cases hbody : Instruction.decodeBody c.charset.version m address with
  | error fault =>
    rw [hbody] at hdecode
    obtain rfl : fault = .pcOutOfRange target size := Except.error.inj hdecode
    unfold Instruction.decodeBody at hbody
    rw [if_neg (Nat.not_le.mpr h)] at hbody
    split at hbody
    · cases hbody
    · dsimp only at hbody
      split at hbody <;> cases hbody
  | ok body =>
    rw [hbody] at hdecode
    dsimp only at hdecode
    split at hdecode
    · rename_i hins
      split_ifs at hins
    · cases hdecode

end

namespace Machine

/-! ## Blocks in the image -/

/-- Blocks are kept for addresses in the image only. -/
def InsideBlocks (m : Machine) : Prop :=
  ∀ (pc : Nat) (block : Block), m.blocks.blocks[pc]? = some block → pc < m.memory.size

theorem InsideBlocks.fetchBlock {m : Machine} (hm : m.InsideBlocks) :
    (fetchBlock.run m).2.InsideBlocks := by
  cases hkept : m.blocks.blocks[m.pc]? with
  | some block =>
    rw [fetchBlock_run, BlockCache.fetch_of_some hkept]
    exact hm
  | none =>
    cases hdecode : Block.decode m.codec m.memory m.pc with
    | error fault =>
      rw [fetchBlock_run, BlockCache.fetch_of_none hkept, hdecode]
      exact hm
    | ok decoded =>
      rw [fetchBlock_run_of_decode hkept hdecode]
      intro pc block hfound
      dsimp only at hfound
      split_ifs at hfound
      · rw [Std.HashMap.getElem?_insert] at hfound
        split at hfound
        · rename_i hpc
          rw [← beq_iff_eq.mp hpc]
          exact Block.lt_size_of_decode hdecode
        · exact hm pc block hfound
      · exact hm pc block hfound

theorem ofEquipment_insideBlocks : OfEquipment InsideBlocks where
  work {m m'} hequipment himage hm := by
    have hblocks : m'.blocks = m.blocks := congrArg Equipment.blocks hequipment
    unfold InsideBlocks
    rw [hblocks, himage.size]
    exact hm
  decode _ hm := hm
  fetchBlock hm := hm.fetchBlock
  restart _ := by
    intro pc block hfound
    cases hfound.symm.trans Std.HashMap.getElem?_empty

/-- **So they are in every machine that a host can bring about.** -/
theorem lasting_insideBlocks : Lasting InsideBlocks :=
  ofEquipment_insideBlocks.lasting

theorem insideBlocks_load {image : Array UInt8} {config : Config} {m : Machine}
    (h : load image config = .ok m) : m.InsideBlocks := by
  obtain ⟨header, random, -, rfl⟩ := load_eq_ok h
  intro pc block hfound
  cases hfound.symm.trans Std.HashMap.getElem?_empty

/-- Nothing in the image is fetched with that fault. -/
theorem fetchBlock_ne_pcOutOfRange {m : Machine} (h : m.pc < m.memory.size) (target size : Nat) :
    (fetchBlock.run m).1 ≠ .error (.fault (.pcOutOfRange target size)) := by
  have hdecode := Block.decode_ne_pcOutOfRange (c := m.codec) h target size
  rw [fetchBlock_run]
  cases hkept : m.blocks.blocks[m.pc]? with
  | some block =>
    rw [BlockCache.fetch_of_some hkept]
    nofun
  | none =>
    rw [BlockCache.fetch_of_none hkept]
    cases hresult : Block.decode m.codec m.memory m.pc with
    | error fault =>
      intro hfault
      rw [hresult] at hdecode
      exact hdecode (congrArg Except.error (Stop.fault.inj (Except.error.inj hfault)))
    | ok decoded => nofun

/-! ## Lost machines -/

/-- The program counter is outside the image, where no block is kept, and blocks come next. -/
structure Lost (m : Machine) (target size : Nat) : Prop where
  pc : m.pc = target
  size : m.memory.size = size
  outside : m.memory.size ≤ m.pc
  kept : m.blocks.blocks[m.pc]? = none
  completion : m.completion = none
  finished : m.finished = false
  halted : m.halted = none

theorem Lost.same {m m' : Machine} {target size : Nat} (h : m.Lost target size)
    (hpc : m'.pc = m.pc) (hmemory : m'.memory = m.memory) (hblocks : m'.blocks = m.blocks)
    (hcompletion : m'.completion = m.completion) (hfinished : m'.finished = m.finished)
    (hhalted : m'.halted = m.halted) : m'.Lost target size where
  pc := hpc.trans h.pc
  size := by rw [hmemory, h.size]
  outside := by rw [hmemory, hpc]; exact h.outside
  kept := by rw [hblocks, hpc]; exact h.kept
  completion := hcompletion.trans h.completion
  finished := hfinished.trans h.finished
  halted := hhalted.trans h.halted

/-- There is nothing to fetch. -/
theorem Lost.fetchBlock {m : Machine} {target size : Nat} (h : m.Lost target size) :
    fetchBlock.run m = (.error (.fault (.pcOutOfRange target size)), m) := by
  rw [fetchBlock_run, BlockCache.fetch_of_none h.kept, Block.decode_of_size_le h.outside, ← h.pc,
    ← h.size]
  rfl

end Machine

namespace Moment

open Machine

/-- The machine halts with a fault before it executes an instruction, whatever machine and host do
except for what leads elsewhere: a restart of the story, a restore, or a load of a save file that is
not refused. -/
structure HaltsWith (f : Fault) (ν : Moment) : Prop where
  /-- It halts in this run if the run may fetch a block. -/
  now : ∀ blocks, ν.phase = .fetching (blocks + 1) →
    ν.step = ⟨{ ν.machine with halted := some f }, .host⟩
  /-- As long as it goes on like this, no instruction is executed. -/
  idle : ∀ κ, Relation.ReflTransGen Continues ν κ → ∀ rest blocks, κ.phase ≠ .executing rest blocks
  /-- Every later run that may fetch a block ends with the fault. -/
  later : ∀ m, Relation.ReflTransGen Continues ν ⟨m, .host⟩ → 0 < m.config.iterationCap →
    m.run.1 = .error (.fault f)

/-- A machine that is lost, or has halted for that. -/
inductive Astray (target size : Nat) : Moment → Prop
  | halted {m : Machine} (h : m.halted = some (.pcOutOfRange target size)) :
      Astray target size ⟨m, .host⟩
  | waiting {m : Machine} (h : m.Lost target size) : Astray target size ⟨m, .host⟩
  | fetching {m : Machine} (h : m.Lost target size) (blocks : Nat) :
      Astray target size ⟨m, .fetching blocks⟩

variable {target size : Nat}

/-- A run of a lost machine begins with a fetch. -/
theorem begin_of_lost {m : Machine} (h : m.Lost target size) :
    begin m = ⟨{ taken m with replies := [] }, .fetching m.config.iterationCap⟩ := by
  rw [begin_eq h.halted h.finished, h.completion]
  rfl

theorem lost_taken {m : Machine} (h : m.Lost target size) :
    Lost { taken m with replies := [] } target size :=
  h.same rfl rfl rfl h.completion.symm rfl rfl

theorem Astray.begin {m : Machine} (h : Astray target size ⟨m, .host⟩) :
    Astray target size (begin m) := by
  cases h with
  | halted h =>
    unfold Moment.begin
    rw [if_pos (by rw [h]; rfl)]
    exact .halted h
  | waiting h =>
    rw [begin_of_lost h]
    exact .fetching (lost_taken h) _

theorem Astray.step {μ : Moment} (h : Astray target size μ) : Astray target size μ.step := by
  cases h with
  | halted h => exact .halted h
  | waiting h => exact .waiting h
  | @fetching m h blocks =>
    cases blocks with
    | zero => exact .waiting (h.same rfl rfl rfl rfl rfl rfl)
    | succ blocks =>
      rw [Moment.step, h.fetchBlock]
      exact .halted rfl

/-- Between two runs the host touches replies, text, random numbers and texts that are kept. -/
theorem Attends.eq {m m' : Machine} (h : Attends m m') :
    ∃ codec random streams replies, m' = { m with codec, random, streams, replies } := by
  cases h with
  | answer slot reply => exact ⟨_, _, _, _, rfl⟩
  | setRandomSeed seed => exact ⟨_, _, _, _, rfl⟩
  | takeOutput => exact ⟨_, _, _, _, rfl⟩
  | takeTranscript => exact ⟨_, _, _, _, rfl⟩
  | statusLine width =>
    unfold Machine.statusLine
    split
    · exact ⟨_, _, _, _, rfl⟩
    · exact ⟨_, _, _, _, rfl⟩

theorem Astray.attend {m m' : Machine} (h : Astray target size ⟨m, .host⟩) (ha : Attends m m') :
    Astray target size ⟨m', .host⟩ := by
  obtain ⟨codec, random, streams, replies, rfl⟩ := ha.eq
  cases h with
  | halted h => exact .halted h
  | waiting h => exact .waiting (h.same rfl rfl rfl rfl rfl rfl)

/-- **Nothing that machine and host do brings a lost machine back.** -/
theorem Continues.astray {μ ν : Moment} (h : Continues μ ν) (hμ : Astray target size μ) :
    Astray target size ν := by
  cases h with
  | step _ _ => exact hμ.step
  | run m _ => exact hμ.begin
  | attend ha => exact hμ.attend ha
  | refuse m data e h =>
    rw [loadSavedGame_refused h]
    exact hμ

theorem Astray.continues {μ ν : Moment} (h : Astray target size μ)
    (hν : Relation.ReflTransGen Continues μ ν) : Astray target size ν := by
  induction hν with
  | refl => exact h
  | tail _ hstep ih => exact hstep.astray ih

theorem run_of_lost {m : Machine} (h : m.Lost target size) (hcap : 0 < m.config.iterationCap) :
    m.run.1 = .error (.fault (.pcOutOfRange target size)) := by
  obtain ⟨cap, hcap⟩ := Nat.exists_eq_add_of_lt hcap
  have hleftover : (leftover m.completion).run (taken m)
      = (.ok .next, { taken m with replies := [] }) := by
    rw [h.completion]
    rfl
  rw [Machine.run, h.halted]
  dsimp only
  rw [runStory_run h.finished, hleftover, hcap, Nat.zero_add]
  dsimp only
  rw [runBlocks, run_bind, (lost_taken h).fetchBlock]

theorem Astray.run {m : Machine} (h : Astray target size ⟨m, .host⟩)
    (hcap : 0 < m.config.iterationCap) :
    m.run.1 = .error (.fault (.pcOutOfRange target size)) := by
  cases h with
  | halted h => rw [Machine.run, h]
  | waiting h => exact run_of_lost h hcap

/-- **A machine that is lost halts before it executes anything.** -/
theorem Astray.haltsWith {μ : Moment} (h : Astray target size μ) :
    HaltsWith (.pcOutOfRange target size) μ where
  now blocks hblocks := by
    cases h with
    | halted => cases hblocks
    | waiting => cases hblocks
    | fetching h _ =>
      cases hblocks
      rw [Moment.step, h.fetchBlock]
      rfl
  idle κ hκ rest blocks hphase := by
    have hastray := h.continues hκ
    cases hastray <;> cases hphase
  later m hm hcap := (h.continues hm).run hcap

end Moment
end ZMachine
