/-
# Instructions and where their texts come from

An instruction is decoded from the bytes from its address on; only its text may come from elsewhere,
out of a cache and through abbreviations.  Here the texts are a function of their own: reading with
given texts looks at memory from the address on and at nothing else, and decoding through a cache is
reading with the texts that the cache shows.

* `Instruction.readWith`, `Block.readWith` : reading with given texts;
* `Instruction.decode_map_fst`, `Block.decode_map_fst` : decoding is reading with the texts that are
  seen through the cache;
* `Block.decode_snd_induction` : decoding a block changes the codec by decoding strings;
* `Block.readWith_congr` : memories that agree from an address on give the same blocks there.
-/
import ZMachine.Instruction.Block
import ZMachine.Proofs.Instruction.Decode
import ZMachine.Proofs.Text.StringCache

namespace ZMachine

open Memory (AgreeFrom)

/-! ## What an instruction is decoded from -/

section
variable {start : Nat} {m m' : Memory} {address : Nat}

theorem Form.read_congr (h : AgreeFrom start m m') (ha : start ≤ address) (version : UInt8) :
    Form.read version m' address = Form.read version m address := by
  unfold Form.read Form.extended Form.varying
  rw [h.byteAt address ha, h.byteAt (address + 1) (by omega), h.byteAt (address + 2) (by omega)]

theorem Operand.readAll_congr (h : AgreeFrom start m m') (ha : start ≤ address)
    (kinds : List OperandKind) :
    Operand.readAll m' address kinds = Operand.readAll m address kinds := by
  induction kinds generalizing address with
  | nil => rfl
  | cons kind kinds ih =>
      have hread : Operand.read m' address kind = Operand.read m address kind := by
        cases kind with
        | large => rw [Operand.read, Operand.read, h.wordAt ha]
        | small => rw [Operand.read, Operand.read, h.byteAt address ha]
        | var => rw [Operand.read, Operand.read, h.byteAt address ha]
      have hle : address ≤ (Operand.read m address kind).2 := by
        cases kind <;> exact Nat.le_add_right _ _
      have hrest := ih (Nat.le_trans ha hle)
      rw [Operand.readAll, Operand.readAll, hread]
      dsimp only
      rw [hrest]

theorem Branch.read_congr (h : AgreeFrom start m m') (ha : start ≤ address) :
    Branch.read m' address = Branch.read m address := by
  unfold Branch.read
  rw [h.byteAt address ha, h.byteAt (address + 1) (by omega)]

namespace Instruction

theorem readStore_congr (h : AgreeFrom start m m') (ha : start ≤ address) (present : Bool) :
    readStore m' address present = readStore m address present := by
  rw [readStore, readStore, h.byteAt address ha]

theorem readBranch_congr (h : AgreeFrom start m m') (ha : start ≤ address) (present : Bool) :
    readBranch m' address present = readBranch m address present := by
  rw [readBranch, readBranch, Branch.read_congr h ha]

/-- **Up to its text an instruction depends on the bytes from its address on.** -/
theorem decodeBody_congr (h : AgreeFrom start m m') (ha : start ≤ address) (version : UInt8) :
    decodeBody version m' address = decodeBody version m address := by
  have hform := Form.lt_operandsStart version m address
  have hoperands := Operand.le_readAll m (Form.read version m address).operandsStart
    (Form.read version m address).kinds
  unfold decodeBody
  rw [h.size, h.byteAt address ha, Form.read_congr h ha]
  dsimp only
  rw [Operand.readAll_congr h (by omega)]
  congr 2
  cases Op.lookup? version (Form.read version m address).number with
  | none => rfl
  | some op =>
      have hstore := le_readStore m (Operand.readAll m (Form.read version m address).operandsStart
        (Form.read version m address).kinds).2 (op.stores version)
      dsimp only
      rw [readStore_congr h (by omega), readBranch_congr h (by omega)]

end Instruction
end

/-! ## Reading with given texts -/

namespace Instruction

/-- The instruction at an address, with the text after it as a function gives it. -/
def readWith (texts : Nat → String × Nat) (version : UInt8) (m : Memory) (address : Nat) :
    Except Fault Instruction :=
  (decodeBody version m address).map fun ins =>
    if ins.op.hasText then ins.withText (texts ins.next) else ins

/-- An instruction without its text. -/
def withoutText (ins : Instruction) : Instruction :=
  { ins with text := none }

/-- **Decoding is reading with the texts that are seen through the cache.** -/
theorem decode_map_fst (c : Text.Codec) (m : Memory) (address : Nat) :
    (decode c m address).map Prod.fst
      = readWith (c.look m) c.charset.version m address := by
  unfold decode readWith
  cases decodeBody c.charset.version m address with
  | error fault => rfl
  | ok ins =>
      show Except.map _ (if ins.op.hasText then _ else _)
        = Except.ok (if ins.op.hasText then _ else _)
      split <;> rfl

theorem read_eq_readWith (c : Text.Codec) (m : Memory) (address : Nat) :
    read c m address = readWith (c.read m) c.charset.version m address := by
  unfold read readWith
  cases decodeBody c.charset.version m address <;> rfl

theorem address_of_decodeBody {version : UInt8} {m : Memory} {address : Nat} {ins : Instruction}
    (h : decodeBody version m address = .ok ins) : ins.address = address := by
  unfold decodeBody at h
  split at h
  · cases h
  split at h
  · cases h
  dsimp only at h
  split at h
  · cases h
  · cases h
    rfl

theorem address_of_readWith {texts : Nat → String × Nat} {version : UInt8} {m : Memory}
    {address : Nat} {ins : Instruction} (h : readWith texts version m address = .ok ins) :
    ins.address = address := by
  unfold readWith at h
  cases hbody : decodeBody version m address with
  | error fault =>
      rw [hbody] at h
      cases h
  | ok body =>
      rw [hbody] at h
      rw [← Except.ok.inj h, ← address_of_decodeBody hbody]
      dsimp only
      split <;> rfl

/-- The codec changes by at most one string. -/
theorem codec_of_decode {c c' : Text.Codec} {m : Memory} {address : Nat} {ins : Instruction}
    (h : decode c m address = .ok (ins, c')) : c' = c ∨ ∃ a, c' = (c.decode m a).2 := by
  unfold decode at h
  split at h
  · cases h
  · rename_i body hbody
    split at h
    · cases h
      exact Or.inr ⟨body.next, rfl⟩
    · cases h
      exact Or.inl rfl

/-- The next instruction is no further down than a text ends. -/
theorem le_next_of_readWith {texts : Nat → String × Nat} {version : UInt8} {m : Memory}
    {start address : Nat} {ins : Instruction} (h : readWith texts version m address = .ok ins)
    (ha : start ≤ address) (htexts : ∀ a, start ≤ a → start ≤ (texts a).2) : start ≤ ins.next := by
  unfold readWith at h
  cases hbody : decodeBody version m address with
  | error fault =>
      rw [hbody] at h
      cases h
  | ok body =>
      have hnext := lt_next_of_decodeBody hbody
      rw [hbody] at h
      have hins := Except.ok.inj h
      dsimp only at hins
      split at hins
      · rw [← hins]
        exact htexts body.next (by omega)
      · rw [← hins]
        omega

theorem readWith_congr {texts texts' : Nat → String × Nat} {start address : Nat} {m m' : Memory}
    (h : AgreeFrom start m m') (htexts : ∀ a, start ≤ a → texts' a = texts a)
    (ha : start ≤ address) (version : UInt8) :
    readWith texts' version m' address = readWith texts version m address := by
  unfold readWith
  rw [decodeBody_congr h ha]
  cases hbody : decodeBody version m address with
  | error fault => rfl
  | ok body =>
      have hnext := lt_next_of_decodeBody hbody
      dsimp only [Except.map]
      rw [htexts body.next (by omega)]

end Instruction

namespace Block

open Instruction (readWith withoutText)

/-- The instructions from an address on, at most `count`, up to the one that ends a block. -/
def instructionsWith (texts : Nat → String × Nat) (version : UInt8) (m : Memory) :
    Nat → Nat → List Instruction
  | 0, _ => []
  | count + 1, address =>
      match Instruction.readWith texts version m address with
      | .error _ => []
      | .ok ins =>
          if ins.op.endsBlock then [ins]
          else ins :: instructionsWith texts version m count ins.next

/-- The block at an address. -/
def readWith (texts : Nat → String × Nat) (version : UInt8) (m : Memory) (start : Nat) :
    Except Fault Block :=
  (Instruction.readWith texts version m start).map fun _ =>
    { start, instructions := instructionsWith texts version m maxLength start }

/-- The instructions of a block without their texts. -/
def withoutTexts (b : Block) : Block :=
  { b with instructions := b.instructions.map withoutText }

/-- Along a block the codec keeps what decoding a string keeps. -/
theorem instructionsFrom_snd_induction {P : Text.Codec → Prop} {m : Memory}
    (hdecode : ∀ c a, P c → P (c.decode m a).2) (count : Nat) {c : Text.Codec} (hc : P c)
    (address : Nat) : P (instructionsFrom m count c address).2 := by
  induction count generalizing c address with
  | zero => exact hc
  | succ count ih =>
      unfold instructionsFrom
      split
      · exact hc
      · rename_i ins c' hins
        have hc' : P c' := by
          obtain rfl | ⟨a, rfl⟩ := Instruction.codec_of_decode hins
          · exact hc
          · exact hdecode c a hc
        split
        · exact hc'
        · exact ih hc' ins.next

theorem decode_snd_induction {P : Text.Codec → Prop} {m : Memory}
    (hdecode : ∀ c a, P c → P (c.decode m a).2) {c c' : Text.Codec} {start : Nat} {block : Block}
    (h : decode c m start = .ok (block, c')) (hc : P c) : P c' := by
  unfold decode at h
  split at h
  · cases h
  · cases h
    exact instructionsFrom_snd_induction hdecode maxLength hc start

theorem instructionsFrom_fst (m : Memory) (count : Nat) (c : Text.Codec) (address : Nat) :
    (instructionsFrom m count c address).1
      = instructionsWith (c.look m) c.charset.version m count address := by
  induction count generalizing c address with
  | zero => rfl
  | succ count ih =>
      have hread := Instruction.decode_map_fst c m address
      unfold instructionsFrom instructionsWith
      cases hins : Instruction.decode c m address with
      | error fault =>
          rw [hins] at hread
          rw [← hread]
          rfl
      | ok decoded =>
          obtain ⟨ins, c'⟩ := decoded
          rw [hins] at hread
          rw [← hread]
          dsimp only [Except.map]
          -- what is seen through the cache stays the same along the block
          have hsame : c'.look m = c.look m ∧ c'.charset = c.charset := by
            obtain rfl | ⟨a, rfl⟩ := Instruction.codec_of_decode hins
            · exact ⟨rfl, rfl⟩
            · exact ⟨c.look_decode m a, by rw [Text.Codec.decode_snd]⟩
          split
          · rfl
          · rw [ih, hsame.1, hsame.2]

/-- **Decoding a block is reading it with the texts that are seen through the cache.** -/
theorem decode_map_fst (c : Text.Codec) (m : Memory) (start : Nat) :
    (decode c m start).map Prod.fst = readWith (c.look m) c.charset.version m start := by
  unfold decode readWith
  rw [← Instruction.decode_map_fst, ← instructionsFrom_fst]
  cases Instruction.decode c m start <;> rfl

/-- Every instruction of a block is the one at its address. -/
theorem readWith_of_mem_instructionsWith {texts : Nat → String × Nat} {version : UInt8} {m : Memory}
    {count address : Nat} {ins : Instruction}
    (h : ins ∈ instructionsWith texts version m count address) :
    Instruction.readWith texts version m ins.address = .ok ins := by
  induction count generalizing address with
  | zero => cases h
  | succ count ih =>
      unfold instructionsWith at h
      split at h
      · cases h
      · rename_i first hfirst
        have haddress := Instruction.address_of_readWith hfirst
        split at h
        · rw [List.mem_singleton.mp h, haddress]
          exact hfirst
        · rcases List.mem_cons.mp h with rfl | hrest
          · rw [haddress]
            exact hfirst
          · exact ih hrest

theorem mem_instructionsWith_of_decode {c c' : Text.Codec} {m : Memory} {start : Nat}
    {block : Block} (h : decode c m start = .ok (block, c')) {ins : Instruction}
    (hins : ins ∈ block.instructions) :
    ins ∈ instructionsWith (c.look m) c.charset.version m maxLength start := by
  unfold decode at h
  split at h
  · cases h
  · cases h
    rw [← instructionsFrom_fst]
    exact hins

/-- All instructions of a decoded block have been decoded. -/
theorem decoded_of_decode {c c' : Text.Codec} {m : Memory} {start : Nat} {block : Block}
    (h : decode c m start = .ok (block, c')) {ins : Instruction}
    (hins : ins ∈ block.instructions) : ins.Decoded := by
  have hread := readWith_of_mem_instructionsWith (mem_instructionsWith_of_decode h hins)
  rw [← Instruction.decode_map_fst] at hread
  cases hdecode : Instruction.decode c m ins.address with
  | error fault =>
      rw [hdecode] at hread
      cases hread
  | ok decoded =>
      obtain ⟨ins', codec'⟩ := decoded
      rw [hdecode] at hread
      cases hread
      exact ⟨c, m, _, codec', hdecode⟩

theorem start_of_readWith {texts : Nat → String × Nat} {version : UInt8} {m : Memory} {start : Nat}
    {block : Block} (h : readWith texts version m start = .ok block) : block.start = start := by
  unfold readWith at h
  generalize maxLength = count at h
  cases hins : Instruction.readWith texts version m start with
  | error fault =>
      rw [hins] at h
      cases h
  | ok ins =>
      rw [hins] at h
      cases h
      rfl

/-! ## What a block depends on -/

theorem instructionsWith_congr {texts texts' : Nat → String × Nat} {start : Nat} {m m' : Memory}
    (h : AgreeFrom start m m') (htexts : ∀ a, start ≤ a → texts' a = texts a)
    (hends : ∀ a, start ≤ a → start ≤ (texts a).2) (version : UInt8) (count : Nat) {address : Nat}
    (ha : start ≤ address) :
    instructionsWith texts' version m' count address
      = instructionsWith texts version m count address := by
  induction count generalizing address with
  | zero => rfl
  | succ count ih =>
      unfold instructionsWith
      rw [Instruction.readWith_congr h htexts ha]
      split
      · rfl
      · rename_i ins hins
        rw [ih (Instruction.le_next_of_readWith hins ha hends)]

/-- **Memories that agree from an address on give the same blocks there**, if the texts there are
the same and none ends further down. -/
theorem readWith_congr {texts texts' : Nat → String × Nat} {start : Nat} {m m' : Memory}
    (h : AgreeFrom start m m') (htexts : ∀ a, start ≤ a → texts' a = texts a)
    (hends : ∀ a, start ≤ a → start ≤ (texts a).2) (version : UInt8) {address : Nat}
    (ha : start ≤ address) :
    readWith texts' version m' address = readWith texts version m address := by
  unfold readWith
  rw [Instruction.readWith_congr h htexts ha, instructionsWith_congr h htexts hends version _ ha]

/-- Texts of which only the ends are kept. -/
def endsOf (texts : Nat → String × Nat) (a : Nat) : String × Nat :=
  ("", (texts a).2)

theorem map_withoutText_instructionsWith (texts : Nat → String × Nat) (version : UInt8) (m : Memory)
    (count address : Nat) :
    (instructionsWith texts version m count address).map withoutText
      = (instructionsWith (endsOf texts) version m count address).map withoutText := by
  induction count generalizing address with
  | zero => rfl
  | succ count ih =>
      unfold instructionsWith Instruction.readWith
      cases Instruction.decodeBody version m address with
      | error fault => rfl
      | ok body =>
          dsimp only [Except.map]
          by_cases htext : body.op.hasText
          · rw [if_pos htext, if_pos htext]
            show List.map withoutText (if body.op.endsBlock then _ else _)
              = List.map withoutText (if body.op.endsBlock then _ else _)
            split
            · rfl
            · exact congrArg (_ :: ·) (ih (texts body.next).2)
          · rw [if_neg htext, if_neg htext]
            split
            · rfl
            · exact congrArg (_ :: ·) (ih body.next)

theorem withoutTexts_mk (texts : Nat → String × Nat) (version : UInt8) (m : Memory)
    (count start : Nat) :
    withoutTexts ⟨start, instructionsWith texts version m count start⟩
      = withoutTexts ⟨start, instructionsWith (endsOf texts) version m count start⟩ := by
  unfold withoutTexts
  rw [map_withoutText_instructionsWith]

theorem map_readWith (f : Block → Block) (texts : Nat → String × Nat) (version : UInt8) (m : Memory)
    (start : Nat) :
    (readWith texts version m start).map f
      = (Instruction.decodeBody version m start).map fun _ =>
          f ⟨start, instructionsWith texts version m maxLength start⟩ := by
  unfold readWith Instruction.readWith
  generalize maxLength = count
  cases Instruction.decodeBody version m start <;> rfl

/-- Without its texts a block depends on where they end. -/
theorem readWith_withoutTexts (texts : Nat → String × Nat) (version : UInt8) (m : Memory)
    (start : Nat) :
    (readWith texts version m start).map withoutTexts
      = (readWith (endsOf texts) version m start).map withoutTexts := by
  rw [map_readWith, map_readWith, withoutTexts_mk]

end Block
end ZMachine
