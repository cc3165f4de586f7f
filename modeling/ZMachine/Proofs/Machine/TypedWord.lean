/-
# Typed words

A word that the host types reaches the dictionary by a detour: its characters become codes in the
text buffer and characters again when the word is looked up.  The detour changes nothing, if the
characters come back from their codes, and neither does the case in which the word was typed.

* `Text.Charset.Keeps` : a character comes back from its code;
* `Text.Charset.encodeZscii_ofChar` : codes of such characters in dictionary form;
* `Machine.TypesWord` : a word of a line that has room in a text buffer;
* `Machine.TypesWord.mem_lineTokens`, `Machine.TypesWord.wordKey_eq` : the word is found in the text
  buffer, and what is looked up for it;
* `Machine.typed_word_resolves` : the slot of a typed word has the entry of the word.
-/
import ZMachine.Proofs.Machine.LineInput
import ZMachine.Proofs.Text.LowerCase

namespace ZMachine

/-! ## Characters and their codes -/

namespace Text
namespace Charset

variable {cs : Charset} {chars text : List Char}

/-- A character comes back from its code. -/
def Keeps (cs : Charset) (ch : Char) : Prop :=
  Zscii.char? cs.extra (Zscii.ofChar cs.extra ch).toNat = some ch

instance (cs : Charset) (ch : Char) : Decidable (cs.Keeps ch) :=
  inferInstanceAs (Decidable (_ = _))

theorem text_map_ofChar (h : ∀ ch ∈ chars, cs.Keeps ch) :
    Zscii.text cs.extra (chars.map (Zscii.ofChar cs.extra)) = chars := by
  induction chars with
  | nil => rfl
  | cons ch rest ih =>
      obtain ⟨hch, hrest⟩ := List.forall_mem_cons.mp h
      unfold Keeps at hch
      rw [List.map_cons, Zscii.text, List.filterMap_cons, hch]
      exact congrArg (ch :: ·) (ih hrest)

/-- A carriage return comes back as a line break. -/
theorem Keeps.ne_return {ch : Char} (h : cs.Keeps ch) : ch ≠ '\r' := by
  rintro rfl
  have hbreak : some '\n' = some '\r' := h
  exact absurd hbreak (by decide)

theorem encodeWord_lowerCase (cs : Charset) (text : List Char) :
    cs.encodeWord (lowerCase text) = cs.encodeWord text := by
  unfold encodeWord wordCodesOf
  rw [lowerCase_lowerCase]

/-- **The codes of a word in lower case stand for the word**, if its characters come back. -/
theorem encodeZscii_ofChar (h : ∀ ch ∈ lowerCase text, cs.Keeps ch) :
    cs.encodeZscii ((lowerCase text).map (Zscii.ofChar cs.extra)) = cs.encodeWord text := by
  rw [encodeZscii, text_map_ofChar h, encodeWord_lowerCase]

/-- The codes that are stored for typed characters.  Line breaks are not stored. -/
def typedCodes (cs : Charset) (chars : List Char) : List UInt8 :=
  ((lowerCase chars).filter fun ch => ch ≠ '\n' ∧ ch ≠ '\r').map (Zscii.ofChar cs.extra)

theorem typedCodes_append (cs : Charset) (first second : List Char) :
    cs.typedCodes (first ++ second) = cs.typedCodes first ++ cs.typedCodes second := by
  unfold typedCodes
  rw [lowerCase_append, List.filter_append, List.map_append]

theorem typedCodes_of_keeps (h : ∀ ch ∈ lowerCase chars, cs.Keeps ch)
    (hunbroken : '\n' ∉ lowerCase chars) :
    cs.typedCodes chars = (lowerCase chars).map (Zscii.ofChar cs.extra) := by
  unfold typedCodes
  rw [List.filter_eq_self.mpr]
  intro ch hch
  have hbreak : ch ≠ '\n' := fun heq => hunbroken (heq ▸ hch)
  exact decide_eq_true ⟨hbreak, (h ch hch).ne_return⟩

end Charset
end Text

/-! ## Lines in text buffers -/

/-- A line of nonzero codes is read back as it is, from before a zero or after its length. -/
theorem typedLine_fst_of_holdsLine {version : UInt8} {m : Memory} {textBuffer : Nat}
    {codes : List UInt8} (h : Machine.HoldsLine version m textBuffer codes)
    (hlength : codes.length ≤ 255) (hzero : version < 5 → ∀ b ∈ codes, b ≠ 0) :
    (typedLine m version textBuffer).1 = codes := by
  by_cases hversion : 5 ≤ version
  · rw [Machine.typedLine_of_holdsLine hversion h]
  · have hearly : version < 5 := UInt8.not_le.mp hversion
    unfold Machine.HoldsLine at h
    rw [if_neg hversion] at h
    obtain ⟨hcodes, hend⟩ := h
    -- the reader takes up to 255 bytes: the line, then what starts with the zero after it
    have hslice : m.slice (textBuffer + 1) 255
        = codes ++ m.slice (textBuffer + 1 + codes.length) (255 - codes.length) := by
      rw [← Nat.add_sub_cancel' hlength, Memory.slice_add, Nat.add_sub_cancel_left]
      exact congrArg (· ++ _) hcodes
    have hnothing : ((m.slice (textBuffer + 1 + codes.length) (255 - codes.length)).takeWhile
        (· ≠ 0)) = [] :=
      List.eq_nil_of_length_eq_zero (Nat.le_zero.mp (Memory.length_takeWhile_slice_le hend))
    unfold typedLine
    rw [if_pos hearly]
    show (m.slice (textBuffer + 1) 255).takeWhile (· ≠ 0) = codes
    rw [hslice, List.takeWhile_append_of_pos fun b hb => decide_eq_true (hzero hearly b hb),
      hnothing, List.append_nil]

namespace Machine

/-! ## A word of a line -/

/-- A line that is stored in a text buffer has a word that no blank, separator or line break
interrupts, with blanks, separators or the ends of the line on both sides, and the text buffer has
room up to the end of the word. -/
structure TypesWord (m : Machine) (textBuffer dictionary : Nat) (line : String)
    (before word after : List Char) : Prop where
  line_eq : line.toList = before ++ (word ++ after)
  inside : textBuffer + 2 + m.lineCapacity textBuffer ≤ m.memory.size
  fits : (m.codec.charset.typedCodes before).length + (m.codec.charset.typedCodes word).length
    ≤ m.lineCapacity textBuffer
  alone : Token.StandsAlone
    (Dictionary.read (m.lineMemory textBuffer line) dictionary).isSeparator
    (m.codec.charset.typedCodes before) (m.codec.charset.typedCodes word)
    (m.codec.charset.typedCodes after)
  unbroken : '\n' ∉ Text.lowerCase word
  nonzero : m.version < 5 → ∀ b ∈ m.codec.charset.typedCodes line.toList, b ≠ 0

namespace TypesWord

variable {m : Machine} {textBuffer dictionary : Nat} {line : String} {before word after : List Char}

/-- Where the word is in the text. -/
def token (m : Machine) (before word : List Char) : Token :=
  ⟨(m.codec.charset.typedCodes before).length, (m.codec.charset.typedCodes word).length⟩

/-- The line in the text buffer, which may lack the end of what was typed. -/
theorem typedLine_eq (h : m.TypesWord textBuffer dictionary line before word after) :
    ∃ rest, Token.StandsAlone
        (Dictionary.read (m.lineMemory textBuffer line) dictionary).isSeparator
        (m.codec.charset.typedCodes before) (m.codec.charset.typedCodes word) rest ∧
      (typedLine (m.lineMemory textBuffer line) m.version textBuffer).1
        = m.codec.charset.typedCodes before ++ (m.codec.charset.typedCodes word ++ rest) := by
  have hfits := h.fits
  have hcapacity := m.lineCapacity_le textBuffer
  have hcodes : m.lineCodes (m.textCapacity textBuffer).toNat line
      = (m.codec.charset.typedCodes line.toList).take (m.lineCapacity textBuffer) := by
    rw [← toNat_textCapacity]
    rfl
  have hlength := m.length_codes_le textBuffer line
  have hline := typedLine_fst_of_holdsLine (holdsLine_lineMemory line h.inside) (by omega)
    fun hearly b hb => h.nonzero hearly b (by rw [hcodes] at hb; exact List.mem_of_mem_take hb)
  -- a cut at the capacity leaves what comes before the word and the word as they are
  refine ⟨_, h.alone.take (m.lineCapacity textBuffer
    - (m.codec.charset.typedCodes before).length - (m.codec.charset.typedCodes word).length), ?_⟩
  rw [hline, hcodes, h.line_eq, Text.Charset.typedCodes_append, Text.Charset.typedCodes_append,
    List.take_append, List.take_append, List.take_of_length_le (by omega),
    List.take_of_length_le (by omega)]

/-- The word is among the words of the text buffer. -/
theorem mem_lineTokens (h : m.TypesWord textBuffer dictionary line before word after)
    (hversion : m.codec.charset.version = m.version) :
    token m before word
      ∈ lineTokens m.codec.charset (m.lineMemory textBuffer line) textBuffer dictionary := by
  obtain ⟨rest, halone, hline⟩ := h.typedLine_eq
  rw [lineTokens, hversion, hline]
  exact halone.mem_split

/-- It is looked up by its own dictionary form. -/
theorem wordKey_eq (h : m.TypesWord textBuffer dictionary line before word after)
    (hversion : m.codec.charset.version = m.version)
    (hkeeps : ∀ ch ∈ Text.lowerCase word, m.codec.charset.Keeps ch) :
    wordKey m.codec.charset (m.lineMemory textBuffer line) textBuffer (token m before word)
      = m.codec.charset.encodeWord word := by
  obtain ⟨rest, -, hline⟩ := h.typedLine_eq
  rw [wordKey, hversion, hline, Token.of, token, List.drop_left, List.take_left,
    Text.Charset.typedCodes_of_keeps hkeeps h.unbroken, Text.Charset.encodeZscii_ofChar hkeeps]

end TypesWord

/-- **A typed word meets its dictionary word.**  Take any codec and any word whose characters in
lower case come back from their codes.  The codes of the word, looked up as they stand in a text
buffer, have the dictionary form of the word.  So has what is typed for it in any mixture of cases:
every dictionary has the same entry for both, and when the words of a typed line are recorded, the
slot of the word has the entry of the word in dictionary form. -/
theorem typed_word_resolves (cs : Text.Charset) (word : List Char)
    (hkeeps : ∀ ch ∈ Text.lowerCase word,
      Zscii.char? cs.extra (Zscii.ofChar cs.extra ch).toNat = some ch) :
    cs.encodeZscii ((Text.lowerCase word).map (Zscii.ofChar cs.extra)) = cs.encodeWord word ∧
      ∀ typed, Text.lowerCase typed = Text.lowerCase word →
        (∀ (d : Dictionary) (n : Memory),
          d.lookup n (cs.encodeZscii ((Text.lowerCase typed).map (Zscii.ofChar cs.extra)))
            = d.lookup n (cs.encodeWord word)) ∧
        ∀ (m : Machine) (textBuffer parseBuffer dictionary : Nat) (skipUnknown : Bool)
          (line : String) (before after : List Char),
          m.codec.charset = cs → cs.version = m.version →
          m.TypesWord textBuffer dictionary line before typed after →
          let n := m.lineMemory textBuffer line
          let n' := tokenise cs n textBuffer parseBuffer dictionary skipUnknown
          let t : Token := ⟨(cs.typedCodes before).length, (cs.typedCodes typed).length⟩
          let room := (n.byteAt parseBuffer).toNat
          parseBuffer + 2 + 4 * room ≤ n.size →
          ∃ i, (lineTokens cs n textBuffer dictionary)[i]? = some t ∧
            (i < room → ∃ nᵢ : Memory,
              (∀ b, b < parseBuffer + 2 ∨ parseBuffer + 2 + 4 * i ≤ b →
                nᵢ.byteAt b = n.byteAt b) ∧
              SlotFilled skipUnknown
                ((Dictionary.read n dictionary).lookup nᵢ (cs.encodeWord word))
                (if cs.version < 5 then 1 else 2) t (parseBuffer + 2 + 4 * i) n n') := by
  have hword : cs.encodeZscii ((Text.lowerCase word).map (Zscii.ofChar cs.extra))
      = cs.encodeWord word := Text.Charset.encodeZscii_ofChar hkeeps
  refine ⟨hword, fun typed hcase => ⟨fun d n => by rw [hcase, hword], ?_⟩⟩
  rintro m textBuffer parseBuffer dictionary skipUnknown line before after rfl hversion htypes
    n n' t room hinside
  -- what is typed need not come back as it was typed, but in lower case it is the word
  have hsame : m.codec.charset.encodeWord typed = m.codec.charset.encodeWord word := by
    rw [← Text.Charset.encodeWord_lowerCase, hcase, Text.Charset.encodeWord_lowerCase]
  have hkey := (htypes.wordKey_eq hversion (by rw [hcase]; exact hkeeps)).trans hsame
  obtain ⟨i, hi⟩ := List.mem_iff_getElem?.mp (htypes.mem_lineTokens hversion)
  refine ⟨i, hi, fun hroom => ?_⟩
  have hrecorded : (recordedTokens m.codec.charset n textBuffer parseBuffer dictionary)[i]?
      = some t := by
    rw [recordedTokens, List.getElem?_take_of_lt hroom]
    exact hi
  have hlength := length_recordedTokens m.codec.charset n textBuffer parseBuffer dictionary
  obtain ⟨nᵢ, hkept, hfilled⟩ := tokenise_slot skipUnknown (by omega) hrecorded
  rw [show wordKey m.codec.charset n textBuffer t = _ from hkey] at hfilled
  exact ⟨nᵢ, hkept, hfilled⟩

/-- A story of version 5 with a text buffer for four characters at `0x40`, a parse buffer for three
words at `0x46` and a dictionary of the one word `né` at `0x54`, not in order, with commas as
separators. -/
def accentedImage : Array UInt8 :=
  (5 :: List.replicate 6 (0 : UInt8) ++ [0x40, 0, 0x54, 0, 0, 0, 0x60, 0, 0x70] ++
    List.replicate 48 (0 : UInt8) ++ [4, 0, 0, 0, 0, 0, 3] ++ List.replicate 13 (0 : UInt8) ++
    [1, 44, 6, 0xFF, 0xFF, 0x4C, 0xA6, 0x15, 0x45, 0x94, 0xA5] ++
    List.replicate 17 (0 : UInt8)).toArray

/-- The machine of that story. -/
def accentedMachine : Machine :=
  (load accentedImage { random := .lowest }).toOption.get (by decide +kernel)

theorem typesWord_accented :
    accentedMachine.TypesWord 0x40 0x54 "1,NÉ" ['1', ','] ['N', 'É'] [] where
  line_eq := by decide +kernel
  inside := by decide +kernel
  fits := by decide +kernel
  alone := ⟨by decide +kernel, by decide +kernel, by decide +kernel, by decide +kernel⟩
  unbroken := by decide +kernel
  nonzero := by decide +kernel

/-- The word is the third of the line, after a number and a comma, and typed in capitals. -/
theorem typed_word_resolves_accented :
    (∀ ch ∈ Text.lowerCase ['n', 'é'], accentedMachine.codec.charset.Keeps ch) ∧
      let n := accentedMachine.lineMemory 0x40 "1,NÉ"
      let n' := tokenise accentedMachine.codec.charset n 0x40 0x46 0x54 false
      n'.wordAt 0x50 = 0x59 ∧ n'.byteAt 0x52 = 2 ∧ n'.byteAt 0x53 = 4 := by
  have hletters : (Text.lowerCase ['n', 'é']).all
      fun ch => decide (accentedMachine.codec.charset.Keeps ch) := by
    decide +kernel
  have hkeeps : ∀ ch ∈ Text.lowerCase ['n', 'é'], accentedMachine.codec.charset.Keeps ch :=
    fun ch hch => of_decide_eq_true (List.all_eq_true.mp hletters ch hch)
  refine ⟨hkeeps, ?_⟩
  intro n n'
  obtain ⟨-, hmeets⟩ := typed_word_resolves accentedMachine.codec.charset ['n', 'é'] hkeeps
  obtain ⟨i, hi, hslot⟩ := (hmeets ['N', 'É'] (by decide +kernel)).2 accentedMachine 0x40 0x46 0x54
    false "1,NÉ" ['1', ','] [] rfl (by decide +kernel) typesWord_accented (by decide +kernel)
  have hwords : lineTokens accentedMachine.codec.charset n 0x40 0x54
      = [⟨0, 1⟩, ⟨1, 1⟩, ⟨2, 2⟩] := by
    decide +kernel
  have htoken : (⟨(accentedMachine.codec.charset.typedCodes ['1', ',']).length,
      (accentedMachine.codec.charset.typedCodes ['N', 'É']).length⟩ : Token) = ⟨2, 2⟩ := by
    decide +kernel
  rw [show lineTokens _ _ _ _ = _ from hwords, htoken] at hi
  obtain rfl : i = 2 := by
    match i, hi with
    | 2, _ => rfl
  have hroom : 2 < (n.byteAt 0x46).toNat := by decide +kernel
  obtain ⟨nᵢ, hkept, hfilled⟩ := hslot hroom
  have hcompared : ∀ a ∈ (Dictionary.read n 0x54).compared n
      (accentedMachine.codec.charset.encodeWord ['n', 'é']), 0x50 ≤ a := by
    decide +kernel
  have hfound : (Dictionary.read n 0x54).lookup nᵢ
      (accentedMachine.codec.charset.encodeWord ['n', 'é']) = 0x59 := by
    rw [Dictionary.lookup_congr fun a ha => hkept a (Or.inr (hcompared a ha))]
    decide +kernel
  rw [show Dictionary.lookup _ _ _ = _ from hfound, htoken, SlotFilled, if_neg (by decide),
    if_neg (by decide +kernel)] at hfilled
  exact hfilled

end Machine
end ZMachine
