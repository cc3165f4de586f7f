/-
# Line input

What a typed line leaves in memory.  The host may reply with text of any length; the text buffer
says how many characters of it are taken, and the parse buffer how many words.

* `lineCapacity` : how many characters a text buffer takes;
* `HoldsLine` : a text buffer holds a line, after a length byte or before a zero;
* `finishInput_line_run` : the machine after a line input;
* `resumeInput_line` : the line is stored, cut to the capacity, and no byte outside the two buffers
  and the result changes;
* `Overlong` : the word whose position does not fit a byte;
* `Reachable.tokenise_fields` : all other fields of a parse buffer fit;
* `finishInput_line_overlong` : a story and a line with such a word.
-/
import ZMachine.Proofs.Dictionary.ParseBuffer
import ZMachine.Proofs.Machine.Boundary
import ZMachine.Proofs.Machine.Restore

namespace ZMachine
namespace Machine

/-! ## Storing a line -/

/-- How many characters a text buffer takes: its first byte from version 5 on, and one less before,
where a zero ends the line. -/
def lineCapacity (m : Machine) (textBuffer : Nat) : Nat :=
  (m.memory.byteAt textBuffer).toNat - if 5 ≤ m.version then 0 else 1

theorem toNat_textCapacity (m : Machine) (textBuffer : Nat) :
    (m.textCapacity textBuffer).toNat = m.lineCapacity textBuffer := by
  unfold textCapacity lineCapacity
  dsimp only
  split
  · rfl
  · split
    · rename_i hzero
      rw [hzero]
      rfl
    · rename_i hzero
      have hone : 1 ≤ m.memory.byteAt textBuffer := by
        rw [UInt8.le_iff_toNat_le]
        have hne : (m.memory.byteAt textBuffer).toNat ≠ 0 := by
          intro h
          exact hzero (UInt8.toNat_inj.mp h)
        exact Nat.one_le_iff_ne_zero.mpr hne
      exact UInt8.toNat_sub_of_le _ _ hone

theorem lineCapacity_le (m : Machine) (textBuffer : Nat) : m.lineCapacity textBuffer ≤ 255 := by
  have hbyte := (m.memory.byteAt textBuffer).toNat_lt
  unfold lineCapacity
  omega

/-- Only the largest first byte gives the largest capacity. -/
theorem byteAt_eq_of_le_lineCapacity {m : Machine} {textBuffer : Nat}
    (h : 255 ≤ m.lineCapacity textBuffer) : m.memory.byteAt textBuffer = 255 := by
  have hbyte := (m.memory.byteAt textBuffer).toNat_lt
  have hfull : 255 ≤ (m.memory.byteAt textBuffer).toNat := Nat.le_trans h (Nat.sub_le _ _)
  exact UInt8.toNat_inj.mp (Nat.le_antisymm (Nat.le_of_lt_succ hbyte) hfull)

/-- Before version 5 it is one less at most. -/
theorem lineCapacity_le_of_version (m : Machine) (textBuffer : Nat) :
    m.lineCapacity textBuffer ≤ if 5 ≤ m.version then 255 else 254 := by
  have hbyte := (m.memory.byteAt textBuffer).toNat_lt
  unfold lineCapacity
  split <;> omega

theorem length_lineCodes_le (m : Machine) (capacity : Nat) (line : String) :
    (m.lineCodes capacity line).length ≤ capacity :=
  List.length_take_le _ _

section
variable {version : UInt8} {textBuffer b : Nat} {codes : List UInt8} {m n : Memory}

/-- A text buffer holds a line, after a length byte or before a zero. -/
def HoldsLine (version : UInt8) (m : Memory) (textBuffer : Nat) (codes : List UInt8) : Prop :=
  if 5 ≤ version then
    (m.byteAt (textBuffer + 1)).toNat = codes.length ∧ m.Holds (textBuffer + 2) codes
  else m.Holds (textBuffer + 1) codes ∧ m.byteAt (textBuffer + 1 + codes.length) = 0

theorem byteAt_writeLine_of_outside
    (h : b < textBuffer + 1 ∨ textBuffer + 1 + codes.length < b) :
    (writeLine version textBuffer codes m).byteAt b = m.byteAt b := by
  unfold writeLine
  split
  · rw [Memory.byteAt_setBytes_of_outside _ _ _ _ (by omega),
      Memory.byteAt_setByte_of_ne _ _ _ _ (by omega)]
  · rw [Memory.byteAt_setByte_of_ne _ _ _ _ (by omega),
      Memory.byteAt_setBytes_of_outside _ _ _ _ (by omega)]

theorem holdsLine_writeLine (hinside : textBuffer + 2 + codes.length ≤ m.size)
    (hcodes : codes.length < 256) :
    HoldsLine version (writeLine version textBuffer codes m) textBuffer codes := by
  unfold HoldsLine writeLine
  split
  · constructor
    · rw [Memory.byteAt_setBytes_of_outside _ _ _ _ (by omega),
        Memory.byteAt_setByte_self _ _ _ (by omega)]
      exact UInt8.toNat_ofNat_of_lt hcodes
    · exact Memory.slice_setBytes_self _ _ _ (by rw [Memory.size_setByte]; omega)
  · constructor
    · refine (Memory.slice_congr fun b _ hb => ?_).trans
        (Memory.slice_setBytes_self m _ codes (by omega))
      exact Memory.byteAt_setByte_of_ne _ _ _ _ (by omega)
    · exact Memory.byteAt_setByte_self _ _ _ (by rw [Memory.size_setBytes]; omega)

/-- Only the buffer after its first byte matters. -/
theorem HoldsLine.congr (h : HoldsLine version m textBuffer codes)
    (hsame : ∀ b, textBuffer < b → b ≤ textBuffer + 1 + codes.length → n.byteAt b = m.byteAt b) :
    HoldsLine version n textBuffer codes := by
  unfold HoldsLine at h ⊢
  split_ifs at h ⊢
  · refine ⟨?_, (Memory.slice_congr fun b _ _ => hsame b (by omega) (by omega)).trans h.2⟩
    rw [hsame _ (by omega) (by omega)]
    exact h.1
  · refine ⟨(Memory.slice_congr fun b _ _ => hsame b (by omega) (by omega)).trans h.1, ?_⟩
    rw [hsame _ (by omega) (by omega)]
    exact h.2

/-- A line after its length byte is read back as it is. -/
theorem typedLine_of_holdsLine (hversion : 5 ≤ version)
    (h : HoldsLine version m textBuffer codes) : typedLine m version textBuffer = (codes, 2) := by
  unfold HoldsLine at h
  rw [if_pos hversion] at h
  unfold typedLine
  rw [if_neg (UInt8.not_lt.mpr hversion), h.1]
  exact congrArg (·, 2) h.2

end

/-! ## Finishing a line input -/

/-- The bytes of the global that a result goes to, if it goes to one. -/
def resultBytes (h : Header) (store : Option UInt8) : List Nat :=
  store.elim [] (globalBytes h)

/-- Memory with a result in its global, if it goes to one. -/
def withResult (h : Header) (store : Option UInt8) (value : UInt16) (m : Memory) : Memory :=
  store.elim m fun code => withGlobal h code value m

theorem byteAt_withResult {h : Header} {store : Option UInt8} {b : Nat}
    (hb : b ∉ resultBytes h store) (value : UInt16) (m : Memory) :
    (withResult h store value m).byteAt b = m.byteAt b := by
  cases store with
  | none => rfl
  | some code => exact byteAt_withGlobal hb value m

theorem storeResult_run_eq (store : Option UInt8) (value : UInt16) (m : Machine) :
    (storeResult store value).run m
      = (.ok (), { m with
          stack := m.stack.receive store value
          memory := withResult m.header store value m.memory }) := by
  cases store with
  | none => rfl
  | some code => exact writeVariable_run m code value

/-- Memory with a line in a text buffer. -/
def lineMemory (m : Machine) (textBuffer : Nat) (line : String) : Memory :=
  writeLine m.version textBuffer (m.lineCodes (m.textCapacity textBuffer).toNat line) m.memory

/-- Memory with a line in a text buffer and its words in a parse buffer, if there is one. -/
def parsedMemory (m : Machine) (textBuffer parseBuffer : Nat) (line : String) : Memory :=
  if parseBuffer = 0 then m.lineMemory textBuffer line
  else
    tokenise m.codec.charset (m.lineMemory textBuffer line) textBuffer parseBuffer
      m.header.dictionary false

/-- **The machine after a line input.** -/
theorem finishInput_line_run (m : Machine) (textBuffer parseBuffer : Nat) (store : Option UInt8)
    (timeout : UInt16) (routine : Option UInt16) (terminator : Int) (line : String) :
    (finishInput (.line textBuffer parseBuffer store timeout routine) terminator line).run m
      = (.ok (), { m with
          stack := m.stack.receive store (terminatorWord terminator)
          memory := withResult m.header store (terminatorWord terminator)
            (m.parsedMemory textBuffer parseBuffer line) }) := by
  unfold finishInput parsedMemory
  dsimp only
  rw [run_modify_bind]
  by_cases hparse : parseBuffer = 0
  · rw [if_neg (not_not_intro hparse), if_pos hparse]
    exact storeResult_run_eq store _ _
  · rw [if_pos hparse, if_neg hparse, run_modify_bind]
    exact storeResult_run_eq store _ _

/-- A reply that is no timeout ends the input. -/
theorem resumeInput_line_run (m : Machine) (textBuffer parseBuffer : Nat) (store : Option UInt8)
    (timeout : UInt16) (routine : Option UInt16) (hreply : 0 ≤ m.repliedTerminator) :
    (resumeInput (.line textBuffer parseBuffer store timeout routine)).run m
      = (.ok .next, { m with
          stack := m.stack.receive store (terminatorWord m.repliedTerminator)
          memory := withResult m.header store (terminatorWord m.repliedTerminator)
            (m.parsedMemory textBuffer parseBuffer m.repliedLine) }) := by
  have htimed : decide (m.repliedEnd (.line textBuffer parseBuffer store timeout routine) < 0)
      = false := decide_eq_false (Int.not_lt.mpr hreply)
  have hfinish := run_bind_ok (f := fun _ => (pure Flow.next : Exec Flow))
    (finishInput_line_run m textBuffer parseBuffer store timeout routine m.repliedTerminator
      m.repliedLine)
  unfold resumeInput
  rw [run_bind, run_get]
  dsimp only
  rw [htimed]
  cases routine with
  | none => exact hfinish
  | some routine => exact hfinish

/-- Room for a line: the text buffer lies inside the image, apart from parse buffer and result. -/
structure LineRoom (m : Machine) (textBuffer parseBuffer : Nat) (store : Option UInt8) : Prop where
  inside : textBuffer + 2 + m.lineCapacity textBuffer ≤ m.memory.size
  parse : parseBuffer ≠ 0 → textBuffer + 2 + m.lineCapacity textBuffer ≤ parseBuffer ∨
    parseBuffer + 2 + 4 * (m.memory.byteAt parseBuffer).toNat ≤ textBuffer
  result : ∀ b ∈ resultBytes m.header store,
    b < textBuffer ∨ textBuffer + 2 + m.lineCapacity textBuffer ≤ b

section
variable {m : Machine} {textBuffer parseBuffer b : Nat} {line : String}

theorem length_codes_le (m : Machine) (textBuffer : Nat) (line : String) :
    (m.lineCodes (m.textCapacity textBuffer).toNat line).length ≤ m.lineCapacity textBuffer := by
  rw [← toNat_textCapacity]
  exact m.length_lineCodes_le _ line

/-- A line does not leave its buffer, whatever was typed. -/
theorem byteAt_lineMemory_of_outside
    (h : b < textBuffer + 1 ∨ textBuffer + 1 + m.lineCapacity textBuffer < b) :
    (m.lineMemory textBuffer line).byteAt b = m.memory.byteAt b := by
  have hlength := m.length_codes_le textBuffer line
  exact byteAt_writeLine_of_outside (by omega)

theorem holdsLine_lineMemory (line : String)
    (hinside : textBuffer + 2 + m.lineCapacity textBuffer ≤ m.memory.size) :
    HoldsLine m.version (m.lineMemory textBuffer line) textBuffer
      (m.lineCodes (m.textCapacity textBuffer).toNat line) := by
  have hlength := m.length_codes_le textBuffer line
  have hcapacity := m.lineCapacity_le textBuffer
  exact holdsLine_writeLine (by omega) (by omega)

/-- Its words do not leave the parse buffer, whose room the line does not change. -/
theorem byteAt_parsedMemory_of_outside
    (hapart : parseBuffer ≠ 0 → parseBuffer ≤ textBuffer ∨
      textBuffer + 1 + m.lineCapacity textBuffer < parseBuffer)
    (h : parseBuffer ≠ 0 → b < parseBuffer + 1 ∨
      parseBuffer + 1 + 4 * (m.memory.byteAt parseBuffer).toNat < b) :
    (m.parsedMemory textBuffer parseBuffer line).byteAt b
      = (m.lineMemory textBuffer line).byteAt b := by
  unfold parsedMemory
  split
  · rfl
  · rename_i hparse
    have hslots := length_recordedTokens m.codec.charset (m.lineMemory textBuffer line) textBuffer
      parseBuffer m.header.dictionary
    have hb := h hparse
    have hbefore := hapart hparse
    rw [byteAt_lineMemory_of_outside (by omega)] at hslots
    exact byteAt_tokenise_of_outside (by omega) (by omega)

end

/-- **Line input cannot overrun its buffers.**  Whatever text the host replies, the text buffer
takes the first codes of it, as many as its capacity says, and no byte changes outside the text
buffer, the parse buffer, if there is one, and the global that the result goes to, if it goes to
one. -/
theorem resumeInput_line (m : Machine) (textBuffer parseBuffer : Nat) (store : Option UInt8)
    (timeout : UInt16) (routine : Option UInt16) (hreply : 0 ≤ m.repliedTerminator)
    (hroom : m.LineRoom textBuffer parseBuffer store) :
    let capacity := (m.memory.byteAt textBuffer).toNat - if 5 ≤ m.version then 0 else 1
    let codes := (((Text.lowerCase m.repliedLine.toList).filter
      fun ch => ch ≠ '\n' ∧ ch ≠ '\r').map m.codec.zsciiOf).take capacity
    ∃ m', (resumeInput (.line textBuffer parseBuffer store timeout routine)).run m
        = (.ok .next, m') ∧
      HoldsLine m.version m'.memory textBuffer codes ∧
      ∀ b, ¬ (textBuffer + 1 ≤ b ∧ b ≤ textBuffer + 1 + capacity) →
        ¬ (parseBuffer ≠ 0 ∧ parseBuffer + 1 ≤ b ∧
          b ≤ parseBuffer + 1 + 4 * (m.memory.byteAt parseBuffer).toNat) →
        b ∉ resultBytes m.header store →
        m'.memory.byteAt b = m.memory.byteAt b := by
  intro capacity codes
  have hapart : parseBuffer ≠ 0 → parseBuffer ≤ textBuffer ∨
      textBuffer + 1 + m.lineCapacity textBuffer < parseBuffer := by
    intro hparse
    have := hroom.parse hparse
    omega
  refine ⟨_, m.resumeInput_line_run textBuffer parseBuffer store timeout routine hreply, ?_, ?_⟩
  · have hholds := holdsLine_lineMemory m.repliedLine hroom.inside
    have hlength := m.length_codes_le textBuffer m.repliedLine
    have hcodes : codes = m.lineCodes (m.textCapacity textBuffer).toNat m.repliedLine := by
      rw [lineCodes, toNat_textCapacity]
      rfl
    rw [hcodes]
    refine hholds.congr fun b hafter hbefore => ?_
    have hresult : b ∉ resultBytes m.header store := by
      intro hb
      have hb := hroom.result b hb
      omega
    show (withResult _ _ _ _).byteAt b = _
    rw [byteAt_withResult hresult]
    exact byteAt_parsedMemory_of_outside hapart fun hparse => by have := hroom.parse hparse; omega
  · intro b htext hparse hresult
    have hcapacity : capacity = m.lineCapacity textBuffer := rfl
    show (withResult _ _ _ _).byteAt b = _
    rw [byteAt_withResult hresult, byteAt_parsedMemory_of_outside hapart ?_,
      byteAt_lineMemory_of_outside (by omega)]
    intro hne
    omega

/-- A story of version 5 with a text buffer for four characters at `0x40`, a parse buffer for one
word at `0x46`, an empty dictionary at `0x4C` and its globals at `0x50`. -/
def typingImage : Array UInt8 :=
  (5 :: List.replicate 6 (0 : UInt8) ++ [0x40, 0, 0x4C, 0, 0, 0, 0x50, 0, 0x58] ++
    List.replicate 48 (0 : UInt8) ++ [4, 0, 0, 0, 0, 0, 1, 0, 0, 0, 0, 0, 0, 9, 0, 0] ++
    List.replicate 8 (0 : UInt8)).toArray

/-- The machine of that story after the host has replied two lines of text. -/
def typingMachine : Machine :=
  (((load typingImage { random := .lowest }).toOption.get (by decide +kernel)).answer 0
      (.number 13)).answer 1
    (.text "OI\nL lamp")

/-- The line break does not count, the blank after the first word is the last character taken. -/
theorem resumeInput_line_typing :
    0 ≤ typingMachine.repliedTerminator ∧ typingMachine.LineRoom 0x40 0x46 (some 16) ∧
      ∃ m', (resumeInput (.line 0x40 0x46 (some 16) 0 none)).run typingMachine
          = (.ok .next, m') ∧
        m'.memory.byteAt 0x41 = 4 ∧ m'.memory.Holds 0x42 [111, 105, 108, 32] ∧
        ∀ b < 0x41, m'.memory.byteAt b = typingMachine.memory.byteAt b := by
  have hreply : 0 ≤ typingMachine.repliedTerminator := by decide +kernel
  have hroom : typingMachine.LineRoom 0x40 0x46 (some 16) :=
    ⟨by decide +kernel, fun _ => Or.inl (by decide +kernel), by decide +kernel⟩
  obtain ⟨m', hrun, hholds, hkept⟩ := resumeInput_line typingMachine 0x40 0x46 (some 16) 0 none
    hreply hroom
  have hcodes : (((Text.lowerCase typingMachine.repliedLine.toList).filter
      fun ch => ch ≠ '\n' ∧ ch ≠ '\r').map typingMachine.codec.zsciiOf).take
        ((typingMachine.memory.byteAt 0x40).toNat - if 5 ≤ typingMachine.version then 0 else 1)
      = [111, 105, 108, 32] := by decide +kernel
  have hresult : resultBytes typingMachine.header (some 16) = [0x50, 0x51] := by decide +kernel
  rw [hcodes, HoldsLine, if_pos (by decide +kernel)] at hholds
  refine ⟨hreply, hroom, m', hrun, UInt8.toNat_inj.mp hholds.1, hholds.2, fun b hb => ?_⟩
  apply hkept b
  · omega
  · omega
  · rw [hresult]
    simp only [List.mem_cons, List.not_mem_nil, or_false]
    omega

/-! ## The fields of the parse buffer -/

/-- The codec is for the version of the story. -/
theorem lasting_codecVersion : Lasting fun m => m.codec.charset.version = m.version :=
  OfEquipment.lasting
    { work := fun {m m'} hequipment _ hm => by
        have hheader : m'.header = m.header := congrArg Equipment.header hequipment
        have hcodec : m'.codec = m.codec := congrArg Equipment.codec hequipment
        rw [version, hcodec, hheader]
        exact hm
      decode := fun a hm => by
        rw [Text.Codec.decode_snd]
        exact hm
      fetchBlock := fun {m} hm => by
        have hcodec := fetchBlock_codec_induction (P := fun c => c.charset.version = m.version)
          (fun c a hc => by rw [Text.Codec.decode_snd]; exact hc) hm
        obtain ⟨blocks, codec, hfetch⟩ := fetchBlock_run_snd m
        rw [hfetch] at hcodec ⊢
        exact hcodec
      restart := fun _ => rfl }

theorem Reachable.codecVersion {image : Array UInt8} {config : Config} {m : Machine}
    (h : Reachable image config m) : m.codec.charset.version = m.version := by
  refine lasting_codecVersion.reachable (fun m hload => ?_) h
  obtain ⟨header, random, -, rfl⟩ := load_eq_ok hload
  rfl

section
variable {m : Machine} {n : Memory} {textBuffer : Nat} {line : String}

/-- The line that is read back is not longer than the capacity, wherever the buffer lies. -/
theorem length_typedLine_le (hn : ∀ b, textBuffer < b →
      b ≤ textBuffer + 1 + m.lineCapacity textBuffer →
      n.byteAt b = (m.lineMemory textBuffer line).byteAt b) :
    (typedLine n m.version textBuffer).1.length ≤ m.lineCapacity textBuffer := by
  have hlength := m.length_codes_le textBuffer line
  have hcapacity := m.lineCapacity_le textBuffer
  generalize hcodes : m.lineCodes (m.textCapacity textBuffer).toNat line = codes at hlength
  unfold typedLine
  by_cases hversion : 5 ≤ m.version
  · have hlate : ¬ m.version < 5 := UInt8.not_lt.mpr hversion
    rw [if_neg hlate]
    show (n.slice _ _).length ≤ _
    rw [Memory.length_slice, hn _ (by omega) (by omega), lineMemory, hcodes, writeLine,
      if_pos hversion, Memory.byteAt_setBytes_of_outside _ _ _ _ (by omega)]
    rcases m.memory.byteAt_setByte_or (textBuffer + 1) (UInt8.ofNat codes.length) with h | h
    · rw [h]
      have hfits : (UInt8.ofNat codes.length).toNat = codes.length :=
        UInt8.toNat_ofNat_of_lt (show codes.length < 256 by omega)
      omega
    · rw [h]
      exact Nat.zero_le _
  · have hearly : m.version < 5 := UInt8.not_le.mp hversion
    rw [if_pos hearly]
    refine Nat.le_trans (Memory.length_takeWhile_slice_le ?_) hlength
    rw [hn _ (by omega) (by omega), lineMemory, hcodes, writeLine, if_neg hversion]
    rcases (m.memory.setBytes (textBuffer + 1) codes).byteAt_setByte_or
      (textBuffer + 1 + codes.length) 0 with h | h
    · exact h
    · exact h

end

/-- The one word whose position does not fit a byte: a single character at the end of a line of 255
characters, before which the buffer has two bytes. -/
def Overlong (version : UInt8) (t : Token) : Prop :=
  5 ≤ version ∧ t = ⟨254, 1⟩

instance (version : UInt8) (t : Token) : Decidable (Overlong version t) :=
  inferInstanceAs (Decidable (5 ≤ version ∧ t = ⟨254, 1⟩))

/-- Which words of a line have a position that fits. -/
theorem overlong_iff {capacity : Nat} {version : UInt8} {t : Token}
    (hcapacity : capacity ≤ if 5 ≤ version then 255 else 254) (hlength : 0 < t.length)
    (hend : t.position + t.length ≤ capacity) :
    255 < t.position + (if version < 5 then 1 else 2) ↔ Overlong version t := by
  unfold Overlong
  by_cases hversion : 5 ≤ version
  · have hlate : ¬ version < 5 := UInt8.not_lt.mpr hversion
    rw [if_pos hversion] at hcapacity
    rw [if_neg hlate, Token.mk.injEq]
    constructor
    · intro h
      exact ⟨hversion, by omega, by omega⟩
    · rintro ⟨-, hposition, -⟩
      omega
  · have hearly : version < 5 := UInt8.not_le.mp hversion
    rw [if_neg hversion] at hcapacity
    rw [if_pos hearly]
    constructor
    · intro h
      omega
    · rintro ⟨h, -⟩
      exact absurd h hversion

theorem reachable_typingMachine : Reachable typingImage { random := .lowest } typingMachine :=
  .attend (.attend (.load (eq_ok_of_toOption (Option.some_get _).symm)) (.answer _ 0 (.number 13)))
    (.answer _ 1 (.text "OI\nL lamp"))

/-- **All fields of a parse buffer fit their bytes, but for one.**  Take the text buffer as a line
input leaves it, whatever the host typed and whatever the capacity.  When its words are recorded,
there or later and from any dictionary, their number and all lengths and positions are what is
written, except for the position of an overlong word, for which a zero is written.  Such a word
takes a story of version 5 or later and a text buffer for 255 characters. -/
theorem Reachable.tokenise_fields {image : Array UInt8} {config : Config} {m : Machine}
    (hm : Reachable image config m) (textBuffer : Nat) (line : String) {n : Memory}
    (hn : ∀ b, textBuffer < b → b ≤ textBuffer + 1 + m.lineCapacity textBuffer →
      n.byteAt b = (m.lineMemory textBuffer line).byteAt b)
    (parseBuffer dictionary : Nat) (skipUnknown : Bool) :
    let words := recordedTokens m.codec.charset n textBuffer parseBuffer dictionary
    let offset := if m.version < 5 then 1 else 2
    let n' := tokenise m.codec.charset n textBuffer parseBuffer dictionary skipUnknown
    words.length ≤ 255 ∧
      (∀ t ∈ words, t.length ≤ 255 ∧ (255 < t.position + offset ↔ Overlong m.version t) ∧
        (Overlong m.version t → m.memory.byteAt textBuffer = 255)) ∧
      (parseBuffer + 2 + 4 * words.length ≤ n.size →
        (n'.byteAt (parseBuffer + 1)).toNat = words.length ∧
          ∀ i t, words[i]? = some t →
            skipUnknown = true ∧
                n'.slice (parseBuffer + 2 + 4 * i) 4 = n.slice (parseBuffer + 2 + 4 * i) 4 ∨
              (n'.byteAt (parseBuffer + 2 + 4 * i + 2)).toNat = t.length ∧
                (n'.byteAt (parseBuffer + 2 + 4 * i + 3)).toNat
                  = if Overlong m.version t then 0 else t.position + offset) := by
  intro words offset n'
  have hversion := hm.codecVersion
  have hcapacity := m.lineCapacity_le textBuffer
  have hbounds : ∀ t ∈ words,
      0 < t.length ∧ t.position + t.length ≤ m.lineCapacity textBuffer := by
    intro t ht
    obtain ⟨hlength, hend⟩ := bounds_of_mem_recordedTokens ht
    rw [hversion] at hend
    exact ⟨hlength, Nat.le_trans hend (length_typedLine_le hn)⟩
  have hoverlong : ∀ t ∈ words, 255 < t.position + offset ↔ Overlong m.version t := by
    intro t ht
    obtain ⟨hlength, hend⟩ := hbounds t ht
    exact overlong_iff (m.lineCapacity_le_of_version textBuffer) hlength hend
  have hcount : words.length < 256 := length_recordedTokens_lt
  refine ⟨Nat.le_of_lt_succ hcount, fun t ht => ?_, fun hinside => ?_⟩
  · obtain ⟨hlength, hend⟩ := hbounds t ht
    refine ⟨by omega, hoverlong t ht, ?_⟩
    rintro ⟨-, rfl⟩
    exact byteAt_eq_of_le_lineCapacity hend
  · refine ⟨byteAt_tokenise_count (by omega), fun i t ht => ?_⟩
    have hmem : t ∈ words := List.mem_of_getElem? ht
    obtain ⟨hlength, hend⟩ := hbounds t hmem
    obtain ⟨mᵢ, -, hfilled⟩ := tokenise_slot skipUnknown hinside ht
    rw [hversion] at hfilled
    rcases hfilled.fields with hskipped | ⟨hlengthByte, hpositionByte⟩
    · exact Or.inl hskipped
    · rw [Nat.mod_eq_of_lt (by omega)] at hlengthByte
      refine Or.inr ⟨hlengthByte, hpositionByte.trans ?_⟩
      by_cases hover : Overlong m.version t
      · rw [if_pos hover]
        obtain ⟨hlate, rfl⟩ := hover
        have hoffset : (if m.version < 5 then 1 else 2) = 2 := if_neg (UInt8.not_lt.mpr hlate)
        exact congrArg (fun offset => (254 + offset) % 256) hoffset
      · have hposition := (not_congr (hoverlong t hmem)).mpr hover
        rw [if_neg hover]
        exact Nat.mod_eq_of_lt (by omega)

/-- The first word of the line is three characters long and starts after the two bytes of the buffer
that come before the line. -/
theorem tokenise_fields_typing :
    let n := typingMachine.lineMemory 0x40 "OI\nL lamp"
    let n' := tokenise typingMachine.codec.charset n 0x40 0x46 0x4C false
    (n'.byteAt 0x47).toNat = 1 ∧ (n'.byteAt 0x4A).toNat = 3 ∧ (n'.byteAt 0x4B).toNat = 2 := by
  intro n n'
  obtain ⟨-, -, hfields⟩ := reachable_typingMachine.tokenise_fields 0x40 "OI\nL lamp"
    (fun b _ _ => rfl) 0x46 0x4C false
  have hwords : recordedTokens typingMachine.codec.charset n 0x40 0x46 0x4C = [⟨0, 3⟩] := by
    decide +kernel
  rw [hwords] at hfields
  obtain ⟨hcount, hslots⟩ := hfields (by decide +kernel)
  rcases hslots 0 ⟨0, 3⟩ rfl with ⟨hskip, -⟩ | ⟨hlength, hposition⟩
  · cases hskip
  · rw [if_neg (by decide), if_neg (by decide +kernel)] at hposition
    exact ⟨hcount, hlength, hposition⟩

/-- A story of version 5 that reads a line into a text buffer for 255 characters at `0x60` and its
words into a parse buffer for four at `0x164`.  Its dictionary at `0x178` is empty. -/
def fullImage : Array UInt8 :=
  (5 :: List.replicate 6 (0 : UInt8) ++ [0x40, 1, 0x78, 0, 0, 0, 0x50, 1, 0x78] ++
    List.replicate 48 (0 : UInt8) ++ [0xE4, 0x0F, 0, 0x60, 1, 0x64, 16, 0xBA] ++
    List.replicate 24 (0 : UInt8) ++ 255 :: List.replicate 259 (0 : UInt8) ++
    4 :: List.replicate 20 (0 : UInt8) ++ [9, 0, 0, 0, 0, 0, 0]).toArray

/-- The machine of that story.  It is not unfolded, as comparing an address with the capacity of its
buffer would load the story. -/
@[irreducible]
def fullMachine : Machine :=
  (load fullImage { random := .lowest }).toOption.get (by decide +kernel)

theorem reachable_fullMachine : Reachable fullImage { random := .lowest } fullMachine := by
  have hload : load fullImage { random := .lowest }
      = .ok ((load fullImage { random := .lowest }).toOption.get (by decide +kernel)) :=
    eq_ok_of_toOption (Option.some_get _).symm
  unfold fullMachine
  exact .load hload

/-- A line of 255 characters with a single word at its end. -/
def fullLine : String :=
  String.ofList (List.replicate 254 ' ' ++ ['x'])

/-- Memory of that story with that line in the text buffer. -/
def fullMemory : Memory :=
  fullMachine.lineMemory 0x60 fullLine

theorem lineCodes_fullLine :
    fullMachine.lineCodes 255 fullLine = List.replicate 254 32 ++ [120] := by
  have hline : fullLine.toList = List.replicate 254 ' ' ++ ['x'] := String.toList_ofList
  unfold lineCodes
  rw [hline]
  decide +kernel

theorem lineCapacity_fullMachine : fullMachine.lineCapacity 0x60 = 255 := by
  decide +kernel

theorem byteAt_fullMemory {b : Nat} (hb : 0x61 + 255 < b) :
    fullMemory.byteAt b = fullMachine.memory.byteAt b := by
  rw [← lineCapacity_fullMachine] at hb
  exact byteAt_lineMemory_of_outside (Or.inr hb)

theorem typedLine_fullMemory :
    typedLine fullMemory fullMachine.version 0x60 = (List.replicate 254 32 ++ [120], 2) := by
  apply typedLine_of_holdsLine (by decide +kernel)
  rw [← lineCodes_fullLine, ← lineCapacity_fullMachine, ← toNat_textCapacity]
  apply holdsLine_lineMemory
  rw [lineCapacity_fullMachine]
  decide +kernel

theorem recordedTokens_fullMemory :
    recordedTokens fullMachine.codec.charset fullMemory 0x60 0x164 0x178 = [⟨254, 1⟩] := by
  have hroom : (fullMemory.byteAt 0x164).toNat = 4 := by
    rw [byteAt_fullMemory (by decide)]
    decide +kernel
  have hseparators : (Dictionary.read fullMemory 0x178).separators = [] := by
    show fullMemory.slice _ (fullMemory.byteAt 0x178).toNat = []
    rw [byteAt_fullMemory (by decide)]
    decide +kernel
  have hseparator : (Dictionary.read fullMemory 0x178).isSeparator = fun _ => false := by
    unfold Dictionary.isSeparator
    rw [hseparators]
    rfl
  rw [recordedTokens, lineTokens, hroom, hseparator, reachable_fullMachine.codecVersion,
    typedLine_fullMemory]
  decide +kernel

/-- The position of that word does not fit its byte. -/
theorem finishInput_line_overlong :
    Reachable fullImage { random := .lowest } fullMachine ∧
      ∃ m', (finishInput (.line 0x60 0x164 (some 16) 0 none) 13 fullLine).run fullMachine
          = (.ok (), m') ∧
        recordedTokens fullMachine.codec.charset fullMemory 0x60 0x164 0x178 = [⟨254, 1⟩] ∧
        ¬ 254 + 2 ≤ 255 ∧ (m'.memory.byteAt 0x165).toNat = 1 ∧
        (m'.memory.byteAt 0x168).toNat = 1 ∧ (m'.memory.byteAt 0x169).toNat = 0 := by
  have hresult : resultBytes fullMachine.header (some 16) = [0x50, 0x51] := by decide +kernel
  have hdictionary : fullMachine.header.dictionary = 0x178 := by decide +kernel
  have hparsed : ∀ b, 0x51 < b →
      (withResult fullMachine.header (some 16) (terminatorWord 13)
        (fullMachine.parsedMemory 0x60 0x164 fullLine)).byteAt b
      = (tokenise fullMachine.codec.charset fullMemory 0x60 0x164 0x178 false).byteAt b := by
    intro b hb
    rw [byteAt_withResult, parsedMemory, if_neg (by decide), hdictionary, fullMemory]
    rw [hresult]
    simp only [List.mem_cons, List.not_mem_nil, or_false]
    omega
  have hinside : 0x164 + 2 + 4 * (recordedTokens fullMachine.codec.charset fullMemory 0x60 0x164
      0x178).length ≤ fullMemory.size := by
    rw [recordedTokens_fullMemory, fullMemory, lineMemory, (sameImage_writeLine _ _ _ _).size]
    decide +kernel
  have hword : (recordedTokens fullMachine.codec.charset fullMemory 0x60 0x164 0x178)[0]?
      = some ⟨254, 1⟩ := congrArg (·[0]?) recordedTokens_fullMemory
  obtain ⟨mᵢ, -, hslot⟩ := tokenise_slot false hinside hword
  rw [SlotFilled, if_neg (fun h => Bool.false_ne_true h.1)] at hslot
  obtain ⟨-, hlength, hposition⟩ := hslot
  refine ⟨reachable_fullMachine, _,
    finishInput_line_run fullMachine 0x60 0x164 (some 16) 0 none 13 fullLine,
    recordedTokens_fullMemory, by decide, ?_, ?_, ?_⟩
  · refine (congrArg UInt8.toNat (hparsed 0x165 (by decide))).trans ?_
    rw [byteAt_tokenise_count (by omega), recordedTokens_fullMemory]
    rfl
  · refine (congrArg UInt8.toNat (hparsed 0x168 (by decide))).trans ?_
    rw [hlength]
    rfl
  · refine (congrArg UInt8.toNat (hparsed 0x169 (by decide))).trans ?_
    rw [hposition]
    decide +kernel

end Machine
end ZMachine
