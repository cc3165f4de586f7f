/-
# Blocks and single steps

A block is decoded as a whole before the first of its instructions is executed.  If it lies in
static memory, and so do the abbreviations, this makes no difference: as long as nothing is written
to static memory, each instruction of the block is the one that would be decoded when its turn
comes, and each that leads on leaves the program counter at the next one.

* `Text.Codec.GrowsTo` : a cache that has grown by strings of static memory shows the same texts;
* `Block.Sequence` : instructions that follow one another;
* `Machine.Follows` : static memory and its texts are what they were at the start of the block;
* `Machine.steps_run` : what a block does, single steps do;
* `Machine.reachable_block_eq_steps` : blocks and single steps agree in all machines that a host can
  bring about, at any moment.
-/
import ZMachine.Proofs.Machine.Boundary

namespace ZMachine

open Memory (AgreeFrom)

/-! ## Caches that grow -/

namespace Text.Codec

/-- A codec has grown to another one: it has the same tables and keeps the same strings and maybe
more, which are in static memory and read as memory has them. -/
structure GrowsTo (c₀ c : Codec) (m : Memory) : Prop where
  tables : c = { c₀ with cache := c.cache }
  kept : ∀ (a : Nat) (found : String × Nat), c₀.cache[a]? = some found → c.cache[a]? = some found
  grown : ∀ (a : Nat) (found : String × Nat), c.cache[a]? = some found →
    c₀.cache[a]? = some found ∨ c₀.staticStart ≤ a ∧ found = c₀.read m a

section
variable {c₀ c : Codec} {m : Memory}

theorem growsTo_refl (c₀ : Codec) (m : Memory) : c₀.GrowsTo c₀ m :=
  ⟨rfl, fun _ _ h => h, fun _ _ h => Or.inl h⟩

theorem GrowsTo.read_eq (h : c₀.GrowsTo c m) : c.read = c₀.read := by
  rw [h.tables]
  rfl

/-- The same texts are seen. -/
theorem GrowsTo.look_eq (h : c₀.GrowsTo c m) (a : Nat) : c.look m a = c₀.look m a := by
  cases hkept : c₀.cache[a]? with
  | some found =>
      rw [look_of_getElem?_eq_some hkept, look_of_getElem?_eq_some (h.kept a found hkept)]
  | none =>
      rw [look_of_getElem?_eq_none hkept]
      cases hgrown : c.cache[a]? with
      | none => rw [look_of_getElem?_eq_none hgrown, h.read_eq]
      | some found =>
          rw [look_of_getElem?_eq_some hgrown]
          rcases h.grown a found hgrown with hold | ⟨-, hread⟩
          · rw [hkept] at hold
            cases hold
          · exact hread

theorem GrowsTo.decode (h : c₀.GrowsTo c m) (a : Nat) : c₀.GrowsTo (c.decode m a).2 m := by
  have hstatic : c.staticStart = c₀.staticStart := by rw [h.tables]
  refine ⟨?_, fun b found hfound => ?_, fun b found hfound => ?_⟩
  · rw [decode_snd, h.tables]
  · rw [getElem?_cache_decode]
    split
    · rename_i hb
      obtain ⟨rfl, -⟩ := hb
      have hlook : c.look m b = found := look_of_getElem?_eq_some (h.kept b found hfound) m
      exact congrArg some hlook
    · exact h.kept b found hfound
  · rw [getElem?_cache_decode] at hfound
    split at hfound
    · rename_i hb
      obtain ⟨rfl, hb⟩ := hb
      have hlook : c₀.look m b = found := (h.look_eq b).symm.trans (Option.some.inj hfound)
      cases hkept : c₀.cache[b]? with
      | some kept =>
          rw [look_of_getElem?_eq_some hkept] at hlook
          exact Or.inl (congrArg some hlook)
      | none =>
          rw [look_of_getElem?_eq_none hkept] at hlook
          exact Or.inr ⟨hstatic ▸ hb, hlook.symm⟩
    · exact h.grown b found hfound

/-- Writes below static memory do not matter if the abbreviations are in static memory. -/
theorem GrowsTo.agree {m' : Memory} (h : c₀.GrowsTo c m) (hagree : AgreeFrom c₀.staticStart m m')
    (habove : ∀ a, c₀.AbbreviationByte m a → c₀.staticStart ≤ a) : c₀.GrowsTo c m' := by
  refine ⟨h.tables, h.kept, fun a found hfound => ?_⟩
  rcases h.grown a found hfound with hold | ⟨ha, hread⟩
  · exact Or.inl hold
  · right
    rw [hread]
    exact ⟨ha, (read_congr (sameAbbreviations_of_agreeFrom hagree habove)
      (packedWords_of_agreeFrom hagree ha)).symm⟩

end
end Text.Codec

/-! ## Instructions that follow one another -/

/-- Instructions that follow one another from an address on. -/
inductive Block.Sequence (texts : Nat → String × Nat) (version : UInt8) (m : Memory) :
    Nat → List Instruction → Prop
  | nil (pc : Nat) : Sequence texts version m pc []
  | cons {pc : Nat} {ins : Instruction} {rest : List Instruction}
      (hins : Instruction.readWith texts version m pc = .ok ins)
      (hrest : Sequence texts version m ins.next rest) : Sequence texts version m pc (ins :: rest)

theorem Block.sequence_instructionsWith (texts : Nat → String × Nat) (version : UInt8) (m : Memory)
    (count pc : Nat) : Sequence texts version m pc (instructionsWith texts version m count pc) := by
  induction count generalizing pc with
  | zero => exact .nil pc
  | succ count ih =>
      unfold instructionsWith
      split
      · exact .nil pc
      · rename_i ins hins
        split
        · exact .cons hins (.nil ins.next)
        · exact .cons hins (ih ins.next)

/-- The instructions of a block follow one another. -/
theorem Block.sequence_of_decode {c c' : Text.Codec} {m : Memory} {pc : Nat} {block : Block}
    (h : Block.decode c m pc = .ok (block, c')) :
    Sequence (c.look m) c.charset.version m pc block.instructions := by
  unfold Block.decode at h
  split at h
  · cases h
  · cases h
    show Sequence _ _ m pc (instructionsFrom m maxLength c pc).1
    rw [instructionsFrom_fst]
    exact sequence_instructionsWith _ _ _ _ _

namespace Machine

/-! ## Single steps -/

/-- Decodes the instruction at the program counter, from memory as it stands, and executes it. -/
def step : Exec Flow := do
  let m ← get
  let (ins, codec) ← orFault (Instruction.decode m.codec m.memory m.pc)
  set { m with codec }
  setPc ins.next
  execute ins

/-- The same without the string cache. -/
def uncachedStep : Exec Flow := do
  let m ← get
  let ins ← orFault (Instruction.read m.codec m.memory m.pc)
  setPc ins.next
  execute ins

/-- A number of steps one after another, with the outcome of the last. -/
def steps (x : Exec Flow) : Nat → Exec Flow
  | 0 => return .next
  | n + 1 => do
      let flow ← x
      if n = 0 then return flow else steps x n

/-- How many of a sequence of instructions are executed before control leaves it. -/
def executed : List Instruction → Machine → Nat
  | [], _ => 0
  | ins :: rest, m =>
      match (execute ins).run { m with pc := ins.next } with
      | (.ok .next, m') => executed rest m' + 1
      | _ => 1

/-- No instruction that is executed changes a byte from an address on. -/
def SparesFrom (start : Nat) : List Instruction → Machine → Prop
  | [], _ => True
  | ins :: rest, m =>
      let r := (execute ins).run { m with pc := ins.next }
      (∀ a, start ≤ a → r.2.memory.byteAt a = m.memory.byteAt a) ∧
        (r.1 = .ok .next → SparesFrom start rest r.2)

theorem steps_one_run (x : Exec Flow) (m : Machine) : (steps x 1).run m = x.run m := by
  show (x >>= fun flow => pure flow).run m = _
  rw [run_bind]
  rcases x.run m with ⟨e | flow, m'⟩ <;> rfl

/-- After a step that leads on come the others. -/
theorem steps_succ_run {x : Exec Flow} {m m' : Machine} (h : x.run m = (.ok .next, m')) (n : Nat) :
    (steps x (n + 1)).run m = (steps x n).run m' := by
  rw [steps, run_bind_ok h]
  cases n <;> rfl

/-! ## Later in a block -/

/-- Static memory is what it was, and the codec has grown only by strings of static memory. -/
structure Follows (m₀ m : Machine) : Prop where
  static : AgreeFrom m₀.codec.staticStart m₀.memory m.memory
  codec : m₀.codec.GrowsTo m.codec m.memory

/-- The abbreviation table and the abbreviation strings are in static memory. -/
def StaticAbbreviations (m : Machine) : Prop :=
  ∀ a, m.codec.AbbreviationByte m.memory a → m.codec.staticStart ≤ a

section
variable {m₀ m : Machine}

theorem Follows.withPc (h : Follows m₀ m) (pc : Nat) : Follows m₀ { m with pc } :=
  ⟨h.static, h.codec⟩

/-- In static memory the texts are the ones at the start. -/
theorem Follows.look_eq (h : Follows m₀ m) (habove : m₀.StaticAbbreviations) {a : Nat}
    (ha : m₀.codec.staticStart ≤ a) : m.codec.look m.memory a = m₀.codec.look m₀.memory a := by
  rw [h.codec.look_eq]
  cases hkept : m₀.codec.cache[a]? with
  | some found =>
      rw [Text.Codec.look_of_getElem?_eq_some hkept, Text.Codec.look_of_getElem?_eq_some hkept]
  | none =>
      rw [Text.Codec.look_of_getElem?_eq_none hkept, Text.Codec.look_of_getElem?_eq_none hkept]
      exact Text.Codec.read_congr (Text.Codec.sameAbbreviations_of_agreeFrom h.static habove)
        (Text.packedWords_of_agreeFrom h.static ha)

/-- So are the instructions. -/
theorem Follows.decode_map_fst (h : Follows m₀ m) (habove : m₀.StaticAbbreviations) {pc : Nat}
    (hpc : m₀.codec.staticStart ≤ pc) :
    (Instruction.decode m.codec m.memory pc).map Prod.fst
      = Instruction.readWith (m₀.codec.look m₀.memory) m₀.codec.charset.version m₀.memory pc := by
  have hversion : m.codec.charset.version = m₀.codec.charset.version := by rw [h.codec.tables]
  rw [Instruction.decode_map_fst, hversion]
  exact Instruction.readWith_congr h.static (fun a ha => h.look_eq habove ha) hpc _

/-- Two machines that differ in their caches see the same texts. -/
theorem Follows.sameTexts (h : Follows m₀ m) {blocks : BlockCache}
    {strings : Std.HashMap Nat (String × Nat)} (h' : Follows m₀ (m.recached blocks strings)) :
    m.SameTexts strings := by
  intro a
  have hsame : (m.recached blocks strings).codec.look m.memory a = m.codec.look m.memory a :=
    (h'.codec.look_eq a).trans (h.codec.look_eq a).symm
  exact hsame

/-- An instruction that spares static memory. -/
theorem Follows.execute (h : Follows m₀ m) (habove : m₀.StaticAbbreviations) (ins : Instruction)
    (hspares : ∀ a, m₀.codec.staticStart ≤ a →
      ((execute ins).run m).2.memory.byteAt a = m.memory.byteAt a) :
    Follows m₀ ((execute ins).run m).2 := by
  obtain ⟨codec, hspelled, hleaves⟩ := (spells_execute ins).leaves m
  have hagree : AgreeFrom m₀.codec.staticStart m.memory ((Machine.execute ins).run m).2.memory :=
    ⟨hleaves.image.size, hspares⟩
  have hcodec : ((Machine.execute ins).run m).2.codec = codec :=
    congrArg Equipment.codec hleaves.equipment
  have hgrown : m₀.codec.GrowsTo codec m.memory := by
    obtain rfl | ⟨a, rfl⟩ := hspelled
    · exact h.codec
    · exact h.codec.decode a
  have hsame := Text.Codec.sameAbbreviations_of_agreeFrom h.static habove
  refine ⟨h.static.trans hagree, ?_⟩
  rw [hcodec]
  exact hgrown.agree hagree fun a ha => habove a ((hsame.abbreviationByte_iff a).1 ha)

/-- Such an instruction does the same with other strings in the cache. -/
theorem Follows.execute_recached (h : Follows m₀ m) (habove : m₀.StaticAbbreviations)
    {strings : Std.HashMap Nat (String × Nat)} (h' : Follows m₀ (m.recached m.blocks strings))
    (ins : Instruction)
    (hspares : ∀ a, m₀.codec.staticStart ≤ a →
      ((Machine.execute ins).run m).2.memory.byteAt a = m.memory.byteAt a) :
    ∃ strings',
      (Machine.execute ins).run (m.recached m.blocks strings)
        = (((Machine.execute ins).run m).1, ((Machine.execute ins).run m).2.recached
            ((Machine.execute ins).run m).2.blocks strings') ∧
      Follows m₀ (((Machine.execute ins).run m).2.recached
        ((Machine.execute ins).run m).2.blocks strings') := by
  obtain ⟨strings', hrun⟩ := (spells_execute ins).recached m m.blocks strings (h.sameTexts h')
  obtain ⟨codec, -, hleaves⟩ := (spells_execute ins).leaves m
  have hblocks : ((Machine.execute ins).run m).2.blocks = m.blocks :=
    congrArg Equipment.blocks hleaves.equipment
  have hexecute := h'.execute habove ins (by rw [hrun]; exact hspares)
  rw [hrun] at hexecute
  rw [hblocks]
  exact ⟨strings', hrun, hexecute⟩

/-! ## The instruction at the program counter -/

/-- An action executes the instruction at the program counter as the machine `m₀` has it in static
memory; it may add strings to the cache before. -/
def Performs (m₀ : Machine) (x : Exec Flow) : Prop :=
  ∀ m ins, Follows m₀ m → m₀.codec.staticStart ≤ m.pc →
    Instruction.readWith (m₀.codec.look m₀.memory) m₀.codec.charset.version m₀.memory m.pc
      = .ok ins →
    ∃ strings, Follows m₀ (m.recached m.blocks strings) ∧
      x.run m = (Machine.execute ins).run (recached { m with pc := ins.next } m.blocks strings)

theorem performs_step (habove : m₀.StaticAbbreviations) : Performs m₀ step := by
  intro m ins hm hpc hins
  have hread := hm.decode_map_fst habove hpc
  rw [hins] at hread
  cases hdecode : Instruction.decode m.codec m.memory m.pc with
  | error fault =>
      rw [hdecode] at hread
      cases hread
  | ok decoded =>
      obtain ⟨ins', codec⟩ := decoded
      rw [hdecode] at hread
      obtain rfl : ins' = ins := Except.ok.inj hread
      have hgrown : m₀.codec.GrowsTo codec m.memory := by
        obtain rfl | ⟨a, rfl⟩ := Instruction.codec_of_decode hdecode
        · exact hm.codec
        · exact hm.codec.decode a
      have hcodec : codec = { m.codec with cache := codec.cache } := by
        rw [hgrown.tables, hm.codec.tables]
      have hrun : step.run m
          = (Machine.execute ins').run { m with codec, pc := ins'.next } := by
        unfold step
        rw [run_bind, run_get]
        dsimp only
        rw [hdecode]
        rfl
      refine ⟨codec.cache, ⟨hm.static, ?_⟩, ?_⟩
      · show m₀.codec.GrowsTo { m.codec with cache := codec.cache } m.memory
        rw [← hcodec]
        exact hgrown
      · rw [hrun]
        unfold recached
        dsimp only
        rw [← hcodec]

/-- Without the string cache as well, if the strings in it are as memory has them. -/
theorem performs_uncachedStep (habove : m₀.StaticAbbreviations)
    (hexact : ∀ (a : Nat) (found : String × Nat), m₀.codec.cache[a]? = some found →
      found = m₀.codec.read m₀.memory a) : Performs m₀ uncachedStep := by
  intro m ins hm hpc hins
  have htexts : ∀ a, m₀.codec.staticStart ≤ a →
      m.codec.read m.memory a = m₀.codec.look m₀.memory a := by
    intro a ha
    have hlook : m₀.codec.look m₀.memory a = m₀.codec.read m₀.memory a := by
      cases hkept : m₀.codec.cache[a]? with
      | none => exact Text.Codec.look_of_getElem?_eq_none hkept _
      | some found =>
          rw [Text.Codec.look_of_getElem?_eq_some hkept]
          exact hexact a found hkept
    rw [hlook, hm.codec.read_eq]
    exact Text.Codec.read_congr (Text.Codec.sameAbbreviations_of_agreeFrom hm.static habove)
      (Text.packedWords_of_agreeFrom hm.static ha)
  have hversion : m.codec.charset.version = m₀.codec.charset.version := by rw [hm.codec.tables]
  have hread : Instruction.read m.codec m.memory m.pc = .ok ins := by
    rw [Instruction.read_eq_readWith, hversion, ← hins]
    exact Instruction.readWith_congr hm.static htexts hpc _
  refine ⟨m.codec.cache, hm, ?_⟩
  unfold uncachedStep
  rw [run_bind, run_get]
  dsimp only
  rw [hread]
  rfl

/-! ## Blocks -/

/-- **What a block does, single steps do.**  The induction is on the rest of the block; the machine
of the block and the machine of the steps differ in the strings that they keep, and both follow the
machine at the start. -/
theorem steps_run (habove : m₀.StaticAbbreviations)
    (hends : ∀ a, m₀.codec.staticStart ≤ a →
      m₀.codec.staticStart ≤ (m₀.codec.look m₀.memory a).2)
    {x : Exec Flow} (hx : Performs m₀ x) {pc : Nat} {rest : List Instruction}
    (hrest : Block.Sequence (m₀.codec.look m₀.memory) m₀.codec.charset.version m₀.memory pc rest)
    {m : Machine} (hpc : m.pc = pc) (hstatic : m₀.codec.staticStart ≤ pc) (hm : Follows m₀ m)
    {strings : Std.HashMap Nat (String × Nat)} (hm' : Follows m₀ (m.recached m.blocks strings))
    (hspares : SparesFrom m₀.codec.staticStart rest m) :
    ∃ strings', (steps x (executed rest m)).run (m.recached m.blocks strings)
      = (((runInstructions rest).run m).1,
          ((runInstructions rest).run m).2.recached ((runInstructions rest).run m).2.blocks
            strings') := by
  induction hrest generalizing m strings with
  | nil pc => exact ⟨strings, rfl⟩
  | @cons pc ins rest hins _ ih =>
      subst hpc
      obtain ⟨hbytes, hspares⟩ := hspares
      obtain ⟨strings₁, hstart, hx⟩ := hx (m.recached m.blocks strings) ins hm' hstatic hins
      have hafter := (hm.withPc ins.next).execute habove ins hbytes
      obtain ⟨strings₂, hrun, hafter'⟩ :=
        (hm.withPc ins.next).execute_recached habove (hstart.withPc ins.next) ins hbytes
      have hx := hx.trans hrun
      have hnext := Instruction.le_next_of_readWith hins hstatic hends
      obtain ⟨codec, -, hleaves⟩ := (spells_execute ins).leaves { m with pc := ins.next }
      have hon := hleaves.next
      rw [runInstructions_cons_run, executed]
      -- only an instruction that leads on leaves something of the block to do
      clear hrun hleaves
      revert hspares hafter hafter' hx hon
      rcases (Machine.execute ins).run { m with pc := ins.next } with ⟨e | flow, m₁⟩
      · intro _ _ _ hx _
        exact ⟨strings₂, (steps_one_run _ _).trans hx⟩
      · cases flow with
        | next =>
            intro hspares hafter hafter' hx hon
            obtain ⟨strings', hsteps⟩ := ih (hon rfl) hnext hafter hafter' (hspares rfl)
            exact ⟨strings', (steps_succ_run hx _).trans hsteps⟩
        | jump =>
            intro _ _ _ hx _
            exact ⟨strings₂, (steps_one_run _ _).trans hx⟩
        | suspend =>
            intro _ _ _ hx _
            exact ⟨strings₂, (steps_one_run _ _).trans hx⟩

end

open Moment

/-- The machine at the start of a block follows itself. -/
theorem follows_refl (m : Machine) : Follows m m :=
  ⟨AgreeFrom.refl _ _, Text.Codec.growsTo_refl _ _⟩

/-- So it does once the block is decoded, with the texts of the block. -/
theorem follows_of_decode {m : Machine} {block : Block} {codec : Text.Codec}
    (h : Block.decode m.codec m.memory m.pc = .ok (block, codec)) :
    Follows m { m with codec } :=
  ⟨AgreeFrom.refl _ _, Block.decode_snd_induction (P := (m.codec.GrowsTo · m.memory))
    (fun _ a hc => hc.decode a) h (Text.Codec.growsTo_refl _ _)⟩

/-- What the instructions of a decoded block do, steps do from before it was decoded. -/
theorem Bounded.steps_run {m : Machine} (hm : m.Bounded) (hpc : m.memory.staticStart ≤ m.pc)
    (habove : m.StaticAbbreviations) {x : Exec Flow} (hx : Performs m x) {block : Block}
    {codec : Text.Codec} (hdecode : Block.decode m.codec m.memory m.pc = .ok (block, codec))
    (hspares : SparesFrom m.memory.staticStart block.instructions { m with codec }) :
    ∃ strings, (steps x (executed block.instructions { m with codec })).run m
      = (((runInstructions block.instructions).run { m with codec }).1,
          ((runInstructions block.instructions).run { m with codec }).2.recached
            ((runInstructions block.instructions).run { m with codec }).2.blocks strings) := by
  have hends : ∀ a, m.codec.staticStart ≤ a →
      m.codec.staticStart ≤ (m.codec.look m.memory a).2 := by
    intro a ha
    have := hm.ends.lt_look m.memory a
    omega
  have hfollows := follows_of_decode hdecode
  have htables : codec = { m.codec with cache := codec.cache } := hfollows.codec.tables
  -- the machine before is the one after with the strings that were kept before
  have hsame : recached { m with codec } m.blocks m.codec.cache = m := by
    unfold recached
    rw [htables]
  have hbefore : Follows m (recached { m with codec } m.blocks m.codec.cache) := by
    rw [hsame]
    exact follows_refl m
  have hsteps := Machine.steps_run habove hends hx (Block.sequence_of_decode hdecode)
    (m := { m with codec }) rfl (hm.codec ▸ hpc) hfollows hbefore (hm.codec ▸ hspares)
  rw [hsame] at hsteps
  exact hsteps

/-- **Blocks and single steps agree.**  Take any machine that a host can bring about from any image,
as it is between two runs or at any moment of the next run, with its program counter and all
abbreviations in static memory.  If the block there is decoded and its instructions are executed
until control leaves it, then the same outcome and the same machine come out as of the same number
of single steps, each of which decodes its instruction when its turn comes; only other strings may
be kept.  The steps need no string cache if the strings in it are as memory has them at the
start. -/
theorem reachable_block_eq_steps {image : Array UInt8} {config : Config} {m₀ : Machine}
    (h : Reachable image config m₀) {m : Machine}
    (hm : m = m₀ ∨ ∃ μ, Leads (begin m₀) μ ∧ μ.machine = m) (hpc : m.memory.staticStart ≤ m.pc)
    (habove : ∀ a, m.codec.AbbreviationByte m.memory a → m.memory.staticStart ≤ a)
    {block : Block} {codec : Text.Codec}
    (hdecode : Block.decode m.codec m.memory m.pc = .ok (block, codec))
    (hspares : SparesFrom m.memory.staticStart block.instructions { m with codec }) :
    let r := (runInstructions block.instructions).run { m with codec }
    let n := executed block.instructions { m with codec }
    (∃ strings, (steps step n).run m = (r.1, r.2.recached r.2.blocks strings)) ∧
      ((∀ (a : Nat) (found : String × Nat), m.codec.cache[a]? = some found →
          found = m.codec.read m.memory a) →
        ∃ strings, (steps uncachedStep n).run m = (r.1, r.2.recached r.2.blocks strings)) := by
  have hbounded : m.Bounded := by
    rcases hm with rfl | ⟨μ, hμ, rfl⟩
    · exact h.bounded
    · exact hμ.bounded (bounded_begin h.bounded)
  have hstatic : m.StaticAbbreviations := fun a ha => hbounded.codec ▸ habove a ha
  exact ⟨hbounded.steps_run hpc hstatic (performs_step hstatic) hdecode hspares,
    fun hexact => hbounded.steps_run hpc hstatic (performs_uncachedStep hstatic hexact) hdecode
      hspares⟩

/-- A loaded story has kept no strings and opened no tables. -/
theorem fresh_load {image : Array UInt8} {config : Config} {m : Machine}
    (h : load image config = .ok m) : m.codec.cache = ∅ ∧ m.streams.tables = [] := by
  obtain ⟨header, random, -, rfl⟩ := load_eq_ok h
  exact ⟨rfl, rfl⟩

/-- A story that writes a byte below static memory, prints an abbreviation and quits. -/
def greetingImage : Array UInt8 :=
  (2 :: List.replicate 6 (0 : UInt8) ++ 0x84 :: List.replicate 7 (0 : UInt8) ++
    0x40 :: List.replicate 9 (0 : UInt8) ++ 0x40 :: List.replicate 38 (0 : UInt8) ++
    (List.replicate 32 [(0 : UInt8), 0x40]).flatten ++ [0xE5, 0xAA, 0, 0] ++
    [0xE2, 0x57, 0x30, 0, 7, 0xB2, 0x84, 0x05, 0xBA]).toArray

/-- The machine of that story. -/
def greetingMachine : Machine :=
  (load greetingImage { random := .lowest }).toOption.get (by decide +kernel)

/-- The block that it starts with. -/
def greetingBlock : Block where
  start := 0x84
  instructions :=
    [{ address := 0x84, op := .storeb, number := 0xE2,
       operands := [.small 0x30, .small 0, .small 7], operandsEnd := 0x89,
       store := none, branch := none, text := none, next := 0x89 },
     { address := 0x89, op := .print, number := 0xB2, operands := [], operandsEnd := 0x8A,
       store := none, branch := none, text := some "the", next := 0x8C },
     { address := 0x8C, op := .quit, number := 0xBA, operands := [], operandsEnd := 0x8D,
       store := none, branch := none, text := none, next := 0x8D }]

theorem load_greetingImage : load greetingImage { random := .lowest } = .ok greetingMachine :=
  eq_ok_of_toOption (Option.some_get _).symm

/-- The abbreviations of the story are in static memory. -/
theorem abbreviationByte_greetingMachine {a : Nat}
    (h : greetingMachine.codec.AbbreviationByte greetingMachine.memory a) : 0x40 ≤ a := by
  have htable : greetingMachine.codec.abbreviations = 0x40 := by decide +kernel
  have hcount : greetingMachine.codec.charset.abbreviationCount = 32 := by decide +kernel
  have hentries : ∀ i < 32, greetingMachine.memory.pointerAt (0x40 + i * 2) = 0x40 := by
    decide +kernel
  obtain ⟨i, hi, hentry | hstring⟩ := h
  · omega
  · rw [Text.Codec.abbreviationStart, htable, hentries i (by omega)] at hstring
    omega

/-- The first block is the one above. -/
theorem decode_greetingMachine :
    ∃ codec, Block.decode greetingMachine.codec greetingMachine.memory greetingMachine.pc
      = .ok (greetingBlock, codec) := by
  have hread : Block.readWith (greetingMachine.codec.read greetingMachine.memory)
      greetingMachine.codec.charset.version greetingMachine.memory greetingMachine.pc
        = .ok greetingBlock := by decide +kernel
  have hdecode := Block.decode_map_fst greetingMachine.codec greetingMachine.memory
    greetingMachine.pc
  rw [Text.Codec.look_of_empty (fresh_load load_greetingImage).1, hread] at hdecode
  revert hdecode
  cases Block.decode greetingMachine.codec greetingMachine.memory greetingMachine.pc with
  | error fault => nofun
  | ok decoded =>
      intro hdecode
      rw [← Except.ok.inj hdecode]
      exact ⟨decoded.2, rfl⟩

/-- Three instructions of that block are executed, whatever texts the block brought along, and
static memory is spared. -/
theorem execute_greetingBlock {m : Machine} (htables : m.streams.tables = [])
    (hbits : (m.memory.setByte 0x30 7).byteAt Field.flags2Low &&& 0x03 = m.printingBits)
    (codec : Text.Codec) :
    executed greetingBlock.instructions { m with codec } = 3 ∧
      SparesFrom 0x40 greetingBlock.instructions { m with codec } := by
  have hprint : ∀ pc, (print "the").run { m with memory := m.memory.setByte 0x30 7, codec, pc }
      = (.ok .next, emitText { m with memory := m.memory.setByte 0x30 7, codec, pc } "the") := by
    intro pc
    rw [print_run]
    exact if_neg (not_not_intro hbits)
  have hmemory : ∀ pc,
      (emitText { m with memory := m.memory.setByte 0x30 7, codec, pc } "the").memory
        = m.memory.setByte 0x30 7 := by
    intro pc
    rw [emitText, htables]
  constructor
  · show (match (print "the").run
        { m with memory := m.memory.setByte 0x30 7, codec, pc := 0x8C } with
      | (.ok .next, m') => executed _ m' + 1
      | _ => 1) + 1 = 3
    rw [hprint]
    rfl
  · refine ⟨fun a ha => ?_, fun _ => ⟨fun a _ => ?_, fun _ => ⟨fun a _ => rfl, fun _ => trivial⟩⟩⟩
    · exact m.memory.byteAt_setByte_of_ne 0x30 7 a (by omega)
    · show ((print "the").run { m with memory := m.memory.setByte 0x30 7, codec, pc := 0x8C }
        ).2.memory.byteAt a = (m.memory.setByte 0x30 7).byteAt a
      rw [hprint, hmemory]

/-- Three steps of either kind do what that block does. -/
theorem reachable_block_eq_steps_greeting :
    ∃ codec,
      let m := greetingMachine
      let r := (runInstructions greetingBlock.instructions).run { m with codec }
      Reachable greetingImage { random := .lowest } m ∧ m.memory.staticStart ≤ m.pc ∧
        (∀ a, m.codec.AbbreviationByte m.memory a → m.memory.staticStart ≤ a) ∧
        Block.decode m.codec m.memory m.pc = .ok (greetingBlock, codec) ∧
        SparesFrom m.memory.staticStart greetingBlock.instructions { m with codec } ∧
        (∃ strings, (steps step 3).run m = (r.1, r.2.recached r.2.blocks strings)) ∧
        ∃ strings, (steps uncachedStep 3).run m = (r.1, r.2.recached r.2.blocks strings) := by
  obtain ⟨codec, hdecode⟩ := decode_greetingMachine
  obtain ⟨hcache, htables⟩ := fresh_load load_greetingImage
  have hreachable : Reachable greetingImage { random := .lowest } greetingMachine :=
    .load load_greetingImage
  have hstart : greetingMachine.memory.staticStart = 0x40 := by decide +kernel
  have hpc : greetingMachine.memory.staticStart ≤ greetingMachine.pc := by decide +kernel
  have habove : ∀ a, greetingMachine.codec.AbbreviationByte greetingMachine.memory a →
      greetingMachine.memory.staticStart ≤ a :=
    fun a ha => hstart ▸ abbreviationByte_greetingMachine ha
  obtain ⟨hexecuted, hspares⟩ := execute_greetingBlock htables (by decide +kernel) codec
  obtain ⟨hsteps, huncached⟩ :=
    reachable_block_eq_steps hreachable (Or.inl rfl) hpc habove hdecode (hstart ▸ hspares)
  rw [hexecuted] at hsteps huncached
  refine ⟨codec, hreachable, hpc, habove, hdecode, hstart ▸ hspares, hsteps, huncached ?_⟩
  intro a found hfound
  rw [hcache] at hfound
  cases hfound.symm.trans Std.HashMap.getElem?_empty

end Machine
end ZMachine
