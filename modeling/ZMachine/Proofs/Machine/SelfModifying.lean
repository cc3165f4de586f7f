/-
# Code that rewrites itself

A block in dynamic memory is decoded at every visit, so a story may rewrite it between two visits.
It is decoded as a whole, though, before the first of its instructions is executed: an instruction
that rewrites a later one of its own block comes too late.

* `Instruction.decodeBody_of_agreeOn` : decoding reads the bytes of the instruction and no others;
* `Machine.StaticBlocks` : the blocks that are kept lie in static memory;
* `Machine.Fetched` : what is left of a block is what its fetch has decoded;
* `Moment.executing_dynamic` : an instruction in dynamic memory is executed as its block was
  fetched, and as it stands if its bytes have not changed since;
* `Moment.executing_stale` : a story that changes an instruction of the block that it runs.
-/
import ZMachine.Proofs.Machine.Boundary

namespace ZMachine

open Memory (SameImage)

/-! ## What an instruction is decoded from -/

namespace Memory

/-- Two memories of one size have the same bytes between two addresses. -/
structure AgreeOn (start stop : Nat) (m m' : Memory) : Prop where
  size : m'.size = m.size
  byteAt : ∀ a, start ≤ a → a < stop → m'.byteAt a = m.byteAt a

theorem AgreeOn.mono {start stop start' stop' : Nat} {m m' : Memory} (h : AgreeOn start stop m m')
    (hstart : start ≤ start') (hstop : stop' ≤ stop) : AgreeOn start' stop' m m' :=
  ⟨h.size, fun a ha hlt => h.byteAt a (by omega) (by omega)⟩

end Memory

open Memory (AgreeOn)

section
variable {m m' : Memory} {address : Nat}

theorem Form.read_of_agreeOn {version : UInt8}
    (h : AgreeOn address (Form.read version m address).operandsStart m m') :
    Form.read version m' address = Form.read version m address := by
  have hbyte : m'.byteAt address = m.byteAt address :=
    h.byteAt address (Nat.le_refl address) (Form.lt_operandsStart version m address)
  unfold Form.read at h ⊢
  dsimp only at h ⊢
  rw [hbyte]
  split_ifs at h ⊢ with hextended hvarying
  · have hop := h.byteAt (address + 1) (by omega) (by show _ < address + 3; omega)
    have htypes := h.byteAt (address + 2) (by omega) (by show _ < address + 3; omega)
    rw [extended, extended, hop, htypes]
  · unfold varying at h ⊢
    dsimp only at h ⊢
    rw [hbyte]
    split_ifs at h ⊢ with hbit hpair hpair
    all_goals
      simp only [Form.mk.injEq, true_and, and_true]
      rw [h.byteAt (address + 1) (by omega) (by dsimp only; omega)]
    all_goals rw [h.byteAt (address + 2) (by omega) (by dsimp only; omega)]
  · rfl
  · rfl

theorem Operand.read_of_agreeOn {kind : OperandKind}
    (h : AgreeOn address (Operand.read m address kind).2 m m') :
    Operand.read m' address kind = Operand.read m address kind := by
  cases kind with
  | large =>
      have hhigh := h.byteAt address (by omega) (by show _ < address + 2; omega)
      have hlow := h.byteAt (address + 1) (by omega) (by show _ < address + 2; omega)
      rw [Operand.read, Operand.read, Memory.wordAt, Memory.wordAt, hhigh, hlow]
  | small =>
      rw [Operand.read, Operand.read, h.byteAt address (by omega) (by show _ < address + 1; omega)]
  | var =>
      rw [Operand.read, Operand.read, h.byteAt address (by omega) (by show _ < address + 1; omega)]

theorem Operand.readAll_of_agreeOn {kinds : List OperandKind}
    (h : AgreeOn address (Operand.readAll m address kinds).2 m m') :
    Operand.readAll m' address kinds = Operand.readAll m address kinds := by
  induction kinds generalizing address with
  | nil => rfl
  | cons kind kinds ih =>
      have hle : address ≤ (Operand.read m address kind).2 := by
        cases kind <;> exact Nat.le_add_right _ _
      have hrest := Operand.le_readAll m (Operand.read m address kind).2 kinds
      have hread := Operand.read_of_agreeOn (h.mono (Nat.le_refl address) hrest)
      rw [Operand.readAll, Operand.readAll, hread]
      dsimp only
      rw [ih (h.mono hle (Nat.le_refl _))]

namespace Instruction

theorem readStore_of_agreeOn {present : Bool}
    (h : AgreeOn address (readStore m address present).2 m m') :
    readStore m' address present = readStore m address present := by
  cases present with
  | false => rfl
  | true =>
      have hbyte := h.byteAt address (by omega) (by show _ < address + 1; omega)
      simp only [readStore, hbyte]

theorem readBranch_of_agreeOn {present : Bool}
    (h : AgreeOn address (readBranch m address present).2 m m') :
    readBranch m' address present = readBranch m address present := by
  cases present with
  | false => rfl
  | true =>
      replace h : AgreeOn address (Branch.read m address).2 m m' := h
      have hsame : Branch.read m' address = Branch.read m address := by
        unfold Branch.read at h ⊢
        dsimp only at h ⊢
        split_ifs at h with hshort
        · have hfirst := h.byteAt address (by omega) (by dsimp only; omega)
          rw [hfirst, if_pos hshort, if_pos hshort]
        · have hfirst := h.byteAt address (by omega) (by dsimp only; omega)
          have hsecond := h.byteAt (address + 1) (by omega) (by dsimp only; omega)
          rw [hfirst, hsecond]
      simp only [readBranch, hsame]

/-- **Decoding reads the bytes of the instruction and no others**, up to its text. -/
theorem decodeBody_of_agreeOn {version : UInt8} {ins : Instruction}
    (h : decodeBody version m address = .ok ins) (hagree : AgreeOn address ins.next m m') :
    decodeBody version m' address = .ok ins := by
  have hnext := lt_next_of_decodeBody h
  have hbyte := hagree.byteAt address (Nat.le_refl address) hnext
  unfold decodeBody at h ⊢
  rw [hagree.size, hbyte]
  split_ifs at h ⊢
  dsimp only at h ⊢
  -- the parts follow one another, so each lies before the next instruction
  have hform := Form.lt_operandsStart version m address
  have hoperands := Operand.le_readAll m (Form.read version m address).operandsStart
    (Form.read version m address).kinds
  cases hop : Op.lookup? version (Form.read version m address).number with
  | none =>
      rw [hop] at h
      cases h
  | some op =>
      rw [hop] at h
      cases h
      dsimp only at hagree
      have hstore := le_readStore m (Operand.readAll m (Form.read version m address).operandsStart
        (Form.read version m address).kinds).2 (op.stores version)
      have hbranch := le_readBranch m (readStore m (Operand.readAll m
        (Form.read version m address).operandsStart (Form.read version m address).kinds).2
        (op.stores version)).2 (op.branches version)
      rw [Form.read_of_agreeOn (hagree.mono (Nat.le_refl _) (by omega)), hop]
      dsimp only
      rw [Operand.readAll_of_agreeOn (hagree.mono (by omega) (by omega)),
        readStore_of_agreeOn (hagree.mono (by omega) (by omega)),
        readBranch_of_agreeOn (hagree.mono (by omega) (Nat.le_refl _))]

end Instruction

end

/-! ## Texts that a block keeps -/

namespace Text.Codec

/-- Decoding leaves all tables alone. -/
theorem tables_decode {c₀ c : Codec} (h : c = { c₀ with cache := c.cache }) (m : Memory) (a : Nat) :
    (c.decode m a).2 = { c₀ with cache := (c.decode m a).2.cache } := by
  rw [decode_snd, h]

/-- A string that is kept stays. -/
theorem getElem?_cache_decode_of_some {c : Codec} {a : Nat} {found : String × Nat}
    (h : c.cache[a]? = some found) (m : Memory) (b : Nat) :
    (c.decode m b).2.cache[a]? = some found := by
  rw [getElem?_cache_decode]
  split
  · rename_i hb
    rw [← hb.1]
    exact congrArg some (look_of_getElem?_eq_some h m)
  · exact h

end Text.Codec

namespace Instruction

/-- The text of the instruction at an address, if it has one and it is in static memory, is kept by
a later codec as it was seen. -/
def TextKept (c : Text.Codec) (m : Memory) (c' : Text.Codec) (address : Nat) : Prop :=
  ∀ body, decodeBody c.charset.version m address = .ok body → body.op.hasText →
    c.staticStart ≤ body.next → c'.cache[body.next]? = some (c.look m body.next)

theorem TextKept.decode {c c' : Text.Codec} {m : Memory} {address : Nat}
    (h : TextKept c m c' address) (m' : Memory) (a : Nat) :
    TextKept c m (c'.decode m' a).2 address :=
  fun body hbody htext hstatic =>
    Text.Codec.getElem?_cache_decode_of_some (h body hbody htext hstatic) m' a

/-- **An instruction whose bytes have not changed is decoded as before**, if its text, where it has
one, is kept or uses the same abbreviations. -/
theorem readWith_of_agreeOn {c c' : Text.Codec} {m m' : Memory} {address : Nat} {ins : Instruction}
    (h : readWith (c.look m) c.charset.version m address = .ok ins)
    (hends : c.EndsAfterStart) (htables : c' = { c with cache := c'.cache })
    (hstatic : ∀ a, a < c.staticStart → c.cache[a]? = none ∧ c'.cache[a]? = none)
    (hkept : TextKept c m c' address) (hagree : AgreeOn address ins.next m m')
    (habbreviations : ins.op.hasText → c.SameAbbreviations m m') :
    readWith (c'.look m') c.charset.version m' address = .ok ins := by
  unfold readWith at h ⊢
  cases hbody : decodeBody c.charset.version m address with
  | error fault =>
      rw [hbody] at h
      cases h
  | ok body =>
      have hnext := lt_next_of_decodeBody hbody
      rw [hbody] at h
      have hins := Except.ok.inj h
      dsimp only at hins
      split_ifs at hins with htext
      · -- the text is behind the rest of the instruction
        have hend := hends.lt_look m body.next
        have hafter : ins.next = (c.look m body.next).2 := by rw [← hins]; rfl
        have hop : ins.op = body.op := by rw [← hins]; rfl
        have hlook : c'.look m' body.next = c.look m body.next := by
          by_cases hdynamic : body.next < c.staticStart
          · obtain ⟨hnone, hnone'⟩ := hstatic body.next hdynamic
            have hread : c'.read = c.read := by rw [htables]; rfl
            rw [Text.Codec.look_of_getElem?_eq_none hnone] at hafter ⊢
            rw [Text.Codec.look_of_getElem?_eq_none hnone', hread]
            refine Text.Codec.read_congr (habbreviations (hop ▸ htext)) ?_
            exact Text.packedWords_congr hagree.size fun a ha hlt =>
              hagree.byteAt a (by omega) (hafter ▸ hlt)
          · exact Text.Codec.look_of_getElem?_eq_some
              (hkept body hbody htext (by omega)) m'
        rw [decodeBody_of_agreeOn hbody (hagree.mono (Nat.le_refl _) (by omega))]
        dsimp only [Except.map]
        rw [if_pos htext, hlook, hins]
      · have hafter : ins.next = body.next := by rw [← hins]
        rw [decodeBody_of_agreeOn hbody (hafter ▸ hagree)]
        dsimp only [Except.map]
        rw [if_neg htext, hins]

end Instruction

namespace Block

open Instruction (readWith TextKept)

/-- No instruction is further down than its block starts, if texts end after they start. -/
theorem le_address_of_mem_instructionsWith {texts : Nat → String × Nat} {version : UInt8}
    {m : Memory} {start count address : Nat} {ins : Instruction}
    (htexts : ∀ a, start ≤ a → start ≤ (texts a).2) (haddress : start ≤ address)
    (h : ins ∈ instructionsWith texts version m count address) : start ≤ ins.address := by
  induction count generalizing address with
  | zero => cases h
  | succ count ih =>
      unfold instructionsWith at h
      split at h
      · cases h
      · rename_i first hfirst
        have hat := Instruction.address_of_readWith hfirst
        have hnext := Instruction.le_next_of_readWith hfirst haddress htexts
        split at h
        · rw [List.mem_singleton.mp h, hat]
          exact haddress
        · rcases List.mem_cons.mp h with rfl | hrest
          · rw [hat]
            exact haddress
          · exact ih hnext hrest

/-- The codec that decoding a block leaves keeps the texts of its instructions. -/
theorem textKept_instructionsFrom {m : Memory} {count : Nat} {c : Text.Codec} {address : Nat}
    {ins : Instruction} (h : ins ∈ (instructionsFrom m count c address).1) :
    TextKept c m (instructionsFrom m count c address).2 ins.address := by
  induction count generalizing c address with
  | zero => cases h
  | succ count ih =>
      have hread := Instruction.decode_map_fst c m address
      unfold instructionsFrom at h ⊢
      split at h
      · cases h
      · rename_i first c₁ hdecode
        rw [hdecode] at hread
        have haddress := Instruction.address_of_readWith hread.symm
        -- the first instruction puts its text into the cache
        have hfirst : TextKept c m c₁ first.address := by
          intro body hbody htext hstatic
          rw [haddress] at hbody
          unfold Instruction.decode at hdecode
          rw [hbody] at hdecode
          dsimp only at hdecode
          rw [if_pos htext] at hdecode
          cases hdecode
          rw [Text.Codec.getElem?_cache_decode, if_pos ⟨rfl, hstatic⟩]
          rfl
        split_ifs at h ⊢ with hlast
        · rw [List.mem_singleton.mp h]
          exact hfirst
        · rcases List.mem_cons.mp h with rfl | hrest
          · intro body hbody htext hstatic
            exact instructionsFrom_snd_induction
              (P := fun c' => c'.cache[body.next]? = some (c.look m body.next))
              (fun c' a hc' => Text.Codec.getElem?_cache_decode_of_some hc' m a) count
              (hfirst body hbody htext hstatic) ins.next
          · have hsame : c₁.look m = c.look m ∧ c₁.charset = c.charset ∧
                c₁.staticStart = c.staticStart := by
              obtain rfl | ⟨a, rfl⟩ := Instruction.codec_of_decode hdecode
              · exact ⟨rfl, rfl, rfl⟩
              · refine ⟨c.look_decode m a, ?_, ?_⟩ <;> rw [Text.Codec.decode_snd]
            obtain ⟨hlook, hcharset, hstart⟩ := hsame
            intro body hbody htext hstatic
            rw [← hlook]
            exact ih hrest body (hcharset ▸ hbody) htext (hstart ▸ hstatic)

theorem textKept_of_decode {c c' : Text.Codec} {m : Memory} {start : Nat} {block : Block}
    (h : decode c m start = .ok (block, c')) {ins : Instruction}
    (hins : ins ∈ block.instructions) : TextKept c m c' ins.address := by
  unfold decode at h
  generalize maxLength = count at h
  split at h
  · cases h
  · cases h
    exact textKept_instructionsFrom hins

end Block

/-! ## What the caches hold -/

namespace Machine

/-- The strings and the blocks that are kept lie in static memory. -/
structure StaticBlocks (m : Machine) : Prop extends Bounded m where
  strings : ∀ (a : Nat) (found : String × Nat), m.codec.cache[a]? = some found →
    m.memory.staticStart ≤ a
  blocks : ∀ (pc : Nat) (block : Block), m.blocks.blocks[pc]? = some block →
    ∀ ins ∈ block.instructions, m.memory.staticStart ≤ ins.address

theorem strings_decode {c : Text.Codec} {start : Nat} (hstart : c.staticStart = start)
    (h : ∀ (a : Nat) (found : String × Nat), c.cache[a]? = some found → start ≤ a)
    (m : Memory) (b : Nat) (a : Nat) (found : String × Nat)
    (hfound : (c.decode m b).2.cache[a]? = some found) : start ≤ a := by
  rw [Text.Codec.getElem?_cache_decode] at hfound
  split at hfound
  · rename_i hb
    rw [hb.1, ← hstart]
    exact hb.2
  · exact h a found hfound

theorem StaticBlocks.fetchBlock {m : Machine} (hm : m.StaticBlocks) :
    (fetchBlock.run m).2.StaticBlocks := by
  have hbounded := hm.toBounded.fetchBlock
  cases hkept : m.blocks.blocks[m.pc]? with
  | some block =>
      rw [fetchBlock_run, BlockCache.fetch_of_some hkept]
      exact hm
  | none =>
      cases hdecode : Block.decode m.codec m.memory m.pc with
      | error fault =>
          rw [fetchBlock_run, BlockCache.fetch_of_none hkept, hdecode]
          exact hm
      | ok decoded =>
          obtain ⟨block, codec⟩ := decoded
          have hcodec : codec.staticStart = m.memory.staticStart ∧ ∀ (a : Nat)
              (found : String × Nat), codec.cache[a]? = some found → m.memory.staticStart ≤ a :=
            Block.decode_snd_induction
              (P := fun c => c.staticStart = m.memory.staticStart ∧ ∀ (a : Nat)
                (found : String × Nat), c.cache[a]? = some found → m.memory.staticStart ≤ a)
              (fun c a hc => ⟨by rw [Text.Codec.decode_snd]; exact hc.1,
                strings_decode hc.1 hc.2 m.memory a⟩)
              hdecode ⟨hm.codec, hm.strings⟩
          rw [fetchBlock_run_of_decode hkept hdecode] at hbounded ⊢
          refine ⟨hbounded, hcodec.2, fun pc kept hfound => ?_⟩
          dsimp only at hfound ⊢
          split_ifs at hfound with hstatic
          · rw [Std.HashMap.getElem?_insert] at hfound
            split at hfound
            · -- the new block starts in static memory and leads upwards
              cases hfound
              intro ins hins
              refine Block.le_address_of_mem_instructionsWith (fun a ha => ?_) hstatic
                (Block.mem_instructionsWith_of_decode hdecode hins)
              have := hm.ends.lt_look m.memory a
              omega
            · exact hm.blocks pc kept hfound
          · exact hm.blocks pc kept hfound

theorem ofEquipment_staticBlocks : OfEquipment StaticBlocks where
  work {m m'} hequipment himage hm := by
    have hcodec : m'.codec = m.codec := congrArg Equipment.codec hequipment
    have hblocks : m'.blocks = m.blocks := congrArg Equipment.blocks hequipment
    refine ⟨ofEquipment_bounded.work hequipment himage hm.toBounded, ?_, ?_⟩
    · rw [hcodec, himage.staticStart]
      exact hm.strings
    · rw [hblocks, himage.staticStart]
      exact hm.blocks
  decode {m} a hm :=
    ⟨hm.toBounded.decode a, strings_decode hm.codec hm.strings m.memory a, hm.blocks⟩
  fetchBlock hm := hm.fetchBlock
  restart {m} hm := by
    refine ⟨hm.toBounded.restart, fun a found hfound => ?_, fun pc block hfound => ?_⟩
    · cases hfound.symm.trans Std.HashMap.getElem?_empty
    · cases hfound.symm.trans Std.HashMap.getElem?_empty

theorem lasting_staticBlocks : Lasting StaticBlocks :=
  ofEquipment_staticBlocks.lasting

theorem staticBlocks_load {image : Array UInt8} {config : Config} {m : Machine}
    (h : load image config = .ok m) : m.StaticBlocks := by
  have hbounded := bounded_load h
  obtain ⟨header, random, -, rfl⟩ := load_eq_ok h
  refine ⟨hbounded, fun a found hfound => ?_, fun pc block hfound => ?_⟩
  · cases hfound.symm.trans Std.HashMap.getElem?_empty
  · cases hfound.symm.trans Std.HashMap.getElem?_empty

/-! ## What is left of a block -/

/-- What is left of the block that the machine `m₀` has fetched: the instructions are those that
`m₀` has at their addresses, and the codec still keeps the texts that they brought along. -/
structure Fetched (m₀ m : Machine) (rest : List Instruction) : Prop where
  tables : m.codec = { m₀.codec with cache := m.codec.cache }
  decoded : ∀ ins ∈ rest, Instruction.readWith (m₀.codec.look m₀.memory)
    m₀.codec.charset.version m₀.memory ins.address = .ok ins
  texts : ∀ ins ∈ rest, Instruction.TextKept m₀.codec m₀.memory m.codec ins.address

/-- After one of the instructions come the others. -/
theorem Fetched.execute {m₀ m : Machine} {ins : Instruction} {rest : List Instruction}
    (h : Fetched m₀ m (ins :: rest)) :
    Fetched m₀ ((execute ins).run { m with pc := ins.next }).2 rest := by
  obtain ⟨codec, hspelled, hleaves⟩ := (spells_execute ins).leaves { m with pc := ins.next }
  have hcodec : ((Machine.execute ins).run { m with pc := ins.next }).2.codec = codec :=
    congrArg Equipment.codec hleaves.equipment
  have hdecoded : ∀ i ∈ rest, Instruction.readWith (m₀.codec.look m₀.memory)
      m₀.codec.charset.version m₀.memory i.address = .ok i :=
    fun i hi => h.decoded i (List.mem_cons_of_mem _ hi)
  obtain rfl | ⟨a, rfl⟩ := hspelled
  · refine ⟨?_, hdecoded, fun i hi => ?_⟩
    · rw [hcodec]
      exact h.tables
    · rw [hcodec]
      exact h.texts i (List.mem_cons_of_mem _ hi)
  · refine ⟨?_, hdecoded, fun i hi => ?_⟩
    · rw [hcodec]
      exact Text.Codec.tables_decode h.tables _ a
    · rw [hcodec]
      exact (h.texts i (List.mem_cons_of_mem _ hi)).decode _ a

theorem fetched_of_decode {m : Machine} {block : Block} {codec : Text.Codec}
    (h : Block.decode m.codec m.memory m.pc = .ok (block, codec)) (blocks : BlockCache) :
    Fetched m { m with blocks, codec } block.instructions := by
  refine ⟨?_, fun ins hins => ?_, fun ins hins => ?_⟩
  · exact Block.decode_snd_induction (P := fun c => c = { m.codec with cache := c.cache })
      (fun c a hc => Text.Codec.tables_decode hc m.memory a) h rfl
  · exact Block.readWith_of_mem_instructionsWith (Block.mem_instructionsWith_of_decode h hins)
  · exact Block.textKept_of_decode h hins

end Machine

namespace Moment

open Machine

/-! ## Moments of a run -/

/-- While a block is executed, what is left of it lies in static memory, or it is what the fetch of
the block has decoded. -/
def Prepared (μ₀ μ : Moment) : Prop :=
  ∀ rest blocks, μ.phase = .executing rest blocks →
    (∀ ins ∈ rest, μ.machine.memory.staticStart ≤ ins.address) ∨
      ∃ ν, Leads μ₀ ν ∧ ν.phase = .fetching (blocks + 1) ∧ Leads ν.step μ ∧
        Fetched ν.machine μ.machine rest

theorem prepared_of_phase {μ₀ μ : Moment} (h : ∀ rest blocks, μ.phase ≠ .executing rest blocks) :
    Prepared μ₀ μ :=
  fun rest blocks hphase => absurd hphase (h rest blocks)

theorem phase_stopped (e : Stop) (m : Machine) (rest : List Instruction) (blocks : Nat) :
    (stopped e m).phase ≠ .executing rest blocks := by
  cases e <;> nofun

theorem phase_left (r : Except Stop Flow × Machine) (left' : Nat) (rest : List Instruction)
    (blocks : Nat) : (left left' r).phase ≠ .executing rest blocks := by
  rcases r with ⟨e | flow, m⟩
  · exact phase_stopped e m rest blocks
  · cases flow <;> nofun

/-- A block is fetched. -/
theorem prepared_fetch {μ₀ : Moment} {m : Machine} {blocks : Nat}
    (hm : m.StaticBlocks) (hleads : Leads μ₀ ⟨m, .fetching (blocks + 1)⟩) :
    Prepared μ₀ (step ⟨m, .fetching (blocks + 1)⟩) := by
  cases hkept : m.blocks.blocks[m.pc]? with
  | some block =>
      have hstep : step ⟨m, .fetching (blocks + 1)⟩
          = ⟨m, .executing block.instructions blocks⟩ := by
        rw [step, fetchBlock_run, BlockCache.fetch_of_some hkept]
      rw [hstep]
      rintro rest left' hphase
      cases hphase
      exact Or.inl (hm.blocks m.pc block hkept)
  | none =>
      cases hdecode : Block.decode m.codec m.memory m.pc with
      | error fault =>
          apply prepared_of_phase
          rw [step, fetchBlock_run, BlockCache.fetch_of_none hkept, hdecode]
          exact phase_stopped _ _
      | ok decoded =>
          have hstep := fetchBlock_run_of_decode hkept hdecode
          intro rest left' hphase
          right
          refine ⟨_, hleads, ?_, Relation.ReflTransGen.refl, ?_⟩
          all_goals
            rw [step, hstep] at hphase
            cases hphase
          · rfl
          · rw [step, hstep]
            exact fetched_of_decode hdecode _

/-- **A step.** -/
theorem prepared_step {μ₀ μ : Moment} (hm : μ.machine.StaticBlocks) (hleads : Leads μ₀ μ)
    (h : Prepared μ₀ μ) : Prepared μ₀ μ.step := by
  rcases μ with ⟨m, _ | blocks | ⟨_ | ⟨ins, rest⟩, blocks⟩ | _⟩
  · exact prepared_of_phase (by rintro _ _ ⟨⟩)
  · cases blocks with
    | zero => exact prepared_of_phase (by rintro _ _ ⟨⟩)
    | succ blocks => exact prepared_fetch hm hleads
  · exact prepared_of_phase (by rintro _ _ ⟨⟩)
  · intro rest' blocks' hphase
    obtain ⟨codec, -, hleaves⟩ := (spells_execute ins).leaves { m with pc := ins.next }
    have hstatic : ((execute ins).run { m with pc := ins.next }).2.memory.staticStart
        = m.memory.staticStart := hleaves.image.staticStart
    have hexecute : ∀ m₀, Fetched m₀ m (ins :: rest) →
        Fetched m₀ ((execute ins).run { m with pc := ins.next }).2 rest :=
      fun _ hfetched => hfetched.execute
    -- only an instruction that leads to the next one leaves the machine in the block
    cases hrun : (execute ins).run { m with pc := ins.next } with
    | mk result m' =>
        rw [hrun] at hstatic hexecute
        by_cases hnext : result = .ok .next
        · have hstep : step ⟨m, .executing (ins :: rest) blocks⟩
              = ⟨m', .executing rest blocks⟩ := by
            rw [step, hrun, hnext]
          rw [hstep] at hphase ⊢
          cases hphase
          rcases h (ins :: rest) blocks rfl with hall | ⟨ν, hν, hfetching, hsteps, hfetched⟩
          · exact Or.inl fun i hi => hstatic ▸ hall i (List.mem_cons_of_mem _ hi)
          · refine Or.inr ⟨ν, hν, hfetching, hsteps.tail ?_, hexecute _ hfetched⟩
            exact hstep.symm
        · have hstep : step ⟨m, .executing (ins :: rest) blocks⟩ = left blocks (result, m') := by
            rw [step, hrun]
            split
            · rename_i hresult
              exact absurd (Prod.mk.inj hresult).1 hnext
            · rfl
          rw [hstep] at hphase
          exact absurd hphase (phase_left _ _ _ _)
  · exact prepared_of_phase (by rintro _ _ ⟨⟩)

/-- **All moments of a run.** -/
theorem prepared_leads {m : Machine} (hm : m.StaticBlocks) {μ : Moment} (h : Leads (begin m) μ) :
    Prepared (begin m) μ := by
  induction h with
  | refl =>
      apply prepared_of_phase
      unfold begin
      split
      · nofun
      split
      · nofun
      · exact phase_left _ _
  | tail hleads hstep ih =>
      rw [hstep]
      exact prepared_step (lasting_staticBlocks.leads hleads (lasting_staticBlocks.begin hm)) hleads
        ih

/-- A block's fetch does not change memory. -/
theorem memory_step_fetching {ν : Moment} {blocks : Nat} (h : ν.phase = .fetching (blocks + 1)) :
    ν.step.machine.memory = ν.machine.memory := by
  rcases ν with ⟨m, phase⟩
  cases h
  obtain ⟨caches, codec, hfetch⟩ := fetchBlock_run_snd m
  rw [step]
  revert hfetch
  rcases fetchBlock.run m with ⟨(f | _) | block, m'⟩ <;> rintro rfl <;> rfl

/-- What decoding gives at an address, without the codec that it leaves. -/
def decoded (μ : Moment) (address : Nat) : Except Fault Instruction :=
  (Instruction.decode μ.machine.codec μ.machine.memory address).map Prod.fst

/-- **Code in dynamic memory is executed as its block was fetched.**  Take any machine that a host
can bring about from any image, and a moment of its next run at which an instruction below static
memory is to be executed.  Its block was fetched at an earlier moment of the run, and the
instruction is the one that decoding gives for its address at that moment.  It is also the one that
decoding gives now if its bytes have not changed since, and no abbreviation where it has a text; so it is for
the first instruction of a block. -/
theorem executing_dynamic {image : Array UInt8} {config : Config} {m : Machine}
    (h : Reachable image config m) {μ : Moment} (hμ : Leads (begin m) μ) {ins : Instruction}
    {rest : List Instruction} {blocks : Nat} (hphase : μ.phase = .executing (ins :: rest) blocks)
    (hdynamic : ins.address < μ.machine.memory.staticStart) :
    ∃ ν, Leads (begin m) ν ∧ ν.phase = .fetching (blocks + 1) ∧ Leads ν.step μ ∧
      ν.decoded ins.address = .ok ins ∧
      ((∀ a, ins.address ≤ a → a < ins.next →
          μ.machine.memory.byteAt a = ν.machine.memory.byteAt a) →
        (ins.op.hasText →
          ν.machine.codec.SameAbbreviations ν.machine.memory μ.machine.memory) →
        μ.decoded ins.address = .ok ins) ∧
      (μ = ν.step → μ.decoded ins.address = .ok ins) := by
  have hreachable := lasting_staticBlocks.reachable (fun _ hload => staticBlocks_load hload) h
  have hstatic : ∀ ν, Leads (begin m) ν → ν.machine.StaticBlocks := fun ν hν =>
    lasting_staticBlocks.leads hν (lasting_staticBlocks.begin hreachable)
  rcases prepared_leads hreachable hμ _ _ hphase with hall | ⟨ν, hν, hfetching, hsteps, hfetched⟩
  · have := hall ins List.mem_cons_self
    omega
  have hins := hfetched.decoded ins List.mem_cons_self
  have himage : SameImage ν.machine.memory μ.machine.memory :=
    (lasting_sameImage ν.machine.memory).leads hsteps.of_step (SameImage.refl _)
  have hcurrent : (∀ a, ins.address ≤ a → a < ins.next →
        μ.machine.memory.byteAt a = ν.machine.memory.byteAt a) →
      (ins.op.hasText → ν.machine.codec.SameAbbreviations ν.machine.memory μ.machine.memory) →
      μ.decoded ins.address = .ok ins := by
    intro hbytes habbreviations
    have hversion : μ.machine.codec.charset.version = ν.machine.codec.charset.version := by
      rw [hfetched.tables]
    -- strings below static memory are in neither cache
    have habsent : ∀ κ, Leads (begin m) κ → ∀ a < κ.machine.memory.staticStart,
        κ.machine.codec.cache[a]? = none := by
      intro κ hκ a ha
      cases hfound : κ.machine.codec.cache[a]? with
      | none => rfl
      | some found =>
          have := (hstatic κ hκ).strings a found hfound
          omega
    rw [decoded, Instruction.decode_map_fst, hversion]
    refine Instruction.readWith_of_agreeOn hins (hstatic ν hν).ends hfetched.tables ?_
      (hfetched.texts ins List.mem_cons_self) ⟨himage.size, hbytes⟩ habbreviations
    intro a ha
    rw [(hstatic ν hν).codec] at ha
    exact ⟨habsent ν hν a ha, habsent μ hμ a (himage.staticStart ▸ ha)⟩
  refine ⟨ν, hν, hfetching, hsteps, ?_, hcurrent, fun hfirst => ?_⟩
  · rw [decoded, Instruction.decode_map_fst]
    exact hins
  · have hmemory : μ.machine.memory = ν.machine.memory := by
      rw [hfirst]
      exact memory_step_fetching hfetching
    exact hcurrent (fun _ _ _ => by rw [hmemory]) fun _ => hmemory ▸ .refl _ _

/-- A story that writes a number into its next instruction, which prints it. -/
def selfWritingImage : Array UInt8 :=
  (5 :: List.replicate 6 (0 : UInt8) ++ 0x40 :: List.replicate 7 (0 : UInt8) ++
    0x50 :: List.replicate 48 (0 : UInt8) ++
    [0xE2, 0x57, 0x47, 0, 9, 0xE6, 0x7F, 5, 0xBA] ++ List.replicate 15 (0 : UInt8)).toArray

/-- The machine of that story, which yields to its host after one block. -/
def selfWritingMachine : Machine :=
  (load selfWritingImage { iterationCap := 1, random := .lowest }).toOption.get rfl

/-- The instruction that writes. -/
def writing : Instruction where
  address := 0x40
  op := .storeb
  number := 0xE2
  operands := [.small 0x47, .small 0, .small 9]
  operandsEnd := 0x45
  store := none
  branch := none
  text := none
  next := 0x45

/-- The instruction that prints, for the number in it. -/
def printing (number : UInt8) : Instruction where
  address := 0x45
  op := .printNum
  number := 0xE6
  operands := [.small number]
  operandsEnd := 0x48
  store := none
  branch := none
  text := none
  next := 0x48

/-- The instruction that ends the story. -/
def quitting : Instruction where
  address := 0x48
  op := .quit
  number := 0xBA
  operands := []
  operandsEnd := 0x49
  store := none
  branch := none
  text := none
  next := 0x49

/-- The moment at which the number is to be printed. -/
def selfWritten : Moment where
  machine :=
    { selfWritingMachine with
      memory := selfWritingMachine.memory.setByte 0x47 9
      blocks := { decoded := 1 }
      pc := 0x45 }
  phase := .executing [printing 5, quitting] 0

/-- It comes after the fetch of the block and the first instruction. -/
theorem leads_selfWritten : Leads (begin selfWritingMachine) selfWritten := by
  have hbegin : begin selfWritingMachine = ⟨selfWritingMachine, .fetching 1⟩ := rfl
  have hfetch : fetchBlock.run selfWritingMachine
      = (.ok ⟨0x40, [writing, printing 5, quitting]⟩,
          { selfWritingMachine with blocks := { decoded := 1 } }) :=
    fetchBlock_run_of_dynamic Std.HashMap.getElem?_empty (by decide) rfl
  rw [hbegin]
  apply Leads.of_step
  rw [step, hfetch]
  exact Leads.of_step Relation.ReflTransGen.refl

/-- The block of that moment was fetched, with the number as it was then. -/
theorem executing_dynamic_selfWritten :
    Reachable selfWritingImage { iterationCap := 1, random := .lowest } selfWritingMachine ∧
      Leads (begin selfWritingMachine) selfWritten ∧
      (printing 5).address < selfWritten.machine.memory.staticStart ∧
      ∃ ν, Leads (begin selfWritingMachine) ν ∧ ν.phase = .fetching 1 ∧
        ν.decoded 0x45 = .ok (printing 5) := by
  have hreachable :
      Reachable selfWritingImage { iterationCap := 1, random := .lowest } selfWritingMachine :=
    .load rfl
  have hdynamic : (printing 5).address < selfWritten.machine.memory.staticStart := by decide
  have hphase : selfWritten.phase = .executing (printing 5 :: [quitting]) 0 := rfl
  obtain ⟨ν, hν, hfetching, -, hdecoded, -⟩ :=
    executing_dynamic hreachable leads_selfWritten hphase hdynamic
  exact ⟨hreachable, leads_selfWritten, hdynamic, ν, hν, hfetching, hdecoded⟩

/-- **An instruction of the block that runs is not executed as it stands.**  The story has written a
nine, and decoding gives an instruction that prints nine, but the one that prints five is next. -/
theorem executing_stale :
    Reachable selfWritingImage { iterationCap := 1, random := .lowest } selfWritingMachine ∧
      Leads (begin selfWritingMachine) selfWritten ∧
      selfWritten.phase = .executing [printing 5, quitting] 0 ∧
      (printing 5).address < selfWritten.machine.memory.staticStart ∧
      selfWritten.decoded (printing 5).address = .ok (printing 9) ∧ printing 9 ≠ printing 5 :=
  ⟨.load rfl, leads_selfWritten, rfl, by decide, rfl, by decide⟩

end Moment
end ZMachine
