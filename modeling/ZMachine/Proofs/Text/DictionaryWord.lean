/-
# Reading back dictionary words

A word in dictionary form is cut to a fixed number of codes, wherever that falls: in the middle of a
shift or of an escape as well.  Reading it back prints the characters whose codes are all there, and
nothing for what is left of the next one or for the codes that fill the word.

* `Charset.cost`, `Charset.printed` : how many codes a character takes and what it prints as;
* `Charset.codesOfChar_cases` : the three ways in which a character is spelled;
* `Reader.render_codesOfChar_append` and `Reader.render_take_codesOfChar` : a spelling that is all
  there is printed and leaves the reader where it was, and a fragment of one prints nothing;
* `Stopped.packedWords_eq` : the words of a string are found again in memory;
* `Codec.decode_encodeWord` : a word is read back as the longest part of it that fits.
-/
import ZMachine.Proofs.Memory
import ZMachine.Proofs.Text.StringCache

namespace ZMachine
namespace Text

/-! ## How characters are spelled -/

/-- The characters that a row has codes for.  The escape mark of the third row is none of them. -/
def Alphabets.places (a : Alphabets) : Row → List Char
  | .punctuation => a.punctuation.toList.tail
  | r => (a.row r).toList

/-- A character has a place if it is one of those. -/
theorem Alphabets.position?_eq_none_iff {a : Alphabets} {r : Row} {ch : Char} :
    a.position? r ch = none ↔ ch ∉ a.places r := by
  cases r <;> simp [position?, places, List.idxOf?_eq_none_iff]

/-- The character stands at its place, which is never the one of the escape mark. -/
theorem Alphabets.of_position?_eq_some {a : Alphabets} {r : Row} {ch : Char} {i : Nat}
    (h : a.position? r ch = some i) :
    i < 26 ∧ (a.row r).toArray.getD i ' ' = ch ∧ (r = .punctuation → i ≠ 0) := by
  have hplace : ∀ (v : Vector Char 26) (j : Nat), v.toList[j]? = some ch →
      j < 26 ∧ v.toArray.getD j ' ' = ch := by
    intro v j hj
    have hlt : j < 26 := by
      obtain ⟨hlength, -⟩ := List.getElem?_eq_some_iff.mp hj
      simpa using hlength
    refine ⟨hlt, ?_⟩
    rw [Vector.getElem?_toList] at hj
    rw [Array.getD_eq_getD_getElem?, Vector.getElem?_toArray, hj, Option.getD_some]
  have hfirst : ∀ {l : List Char} {j : Nat}, l.idxOf? ch = some j → l[j]? = some ch := by
    intro l j hj
    obtain ⟨hlt, hget, -⟩ := List.idxOf?_eq_some_iff.mp hj
    exact List.getElem?_eq_some_iff.mpr ⟨hlt, hget⟩
  cases r with
  | lower =>
      obtain ⟨hlt, hget⟩ := hplace a.lower i (hfirst h)
      exact ⟨hlt, hget, nofun⟩
  | upper =>
      obtain ⟨hlt, hget⟩ := hplace a.upper i (hfirst h)
      exact ⟨hlt, hget, nofun⟩
  | punctuation =>
      obtain ⟨j, hj, rfl⟩ := Option.map_eq_some_iff.mp h
      have hnext : a.punctuation.toList[j + 1]? = some ch := by
        rw [← List.getElem?_tail]
        exact hfirst hj
      obtain ⟨hlt, hget⟩ := hplace a.punctuation (j + 1) hnext
      exact ⟨hlt, hget, fun _ => Nat.succ_ne_zero j⟩

namespace Charset

/-- How many codes a character takes. -/
def cost (cs : Charset) (ch : Char) : Nat :=
  if ch ∈ cs.alphabets.places .lower then 1
  else if ch ∈ cs.alphabets.places .upper ∨ ch ∈ cs.alphabets.places .punctuation then 2
  else 4

/-- What a character prints as: itself if a row has it, and otherwise the character of its code. -/
def printed (cs : Charset) (ch : Char) : List Char :=
  if ch ∈ cs.alphabets.places .lower ∨ ch ∈ cs.alphabets.places .upper ∨
      ch ∈ cs.alphabets.places .punctuation then [ch]
  else (Zscii.char? cs.extra (Zscii.ofChar cs.extra ch).toNat).toList

/-- **A character is spelled in one of three ways**: by its place in the first row, by its place in
another row after a shift, or by its code after a shift and the escape mark. -/
theorem codesOfChar_cases (cs : Charset) (ch : Char) :
    (∃ i, cs.alphabets.position? .lower ch = some i ∧ cs.codesOfChar ch = [placeCode i] ∧
      cs.cost ch = 1 ∧ cs.printed ch = [ch]) ∨
    (∃ r i, r ≠ .lower ∧ cs.alphabets.position? r ch = some i ∧
      cs.codesOfChar ch = [cs.shiftCode r, placeCode i] ∧ cs.cost ch = 2 ∧ cs.printed ch = [ch]) ∨
    (∃ code : UInt8,
      cs.codesOfChar ch = [cs.shiftCode .punctuation, escapeCode, .ofNat (code.toNat / 32),
        .ofNat code.toNat] ∧
      cs.cost ch = 4 ∧ cs.printed ch = (Zscii.char? cs.extra code.toNat).toList) := by
  have hmem : ∀ {r i}, cs.alphabets.position? r ch = some i → ch ∈ cs.alphabets.places r := by
    intro r i hi
    by_cases hin : ch ∈ cs.alphabets.places r
    · exact hin
    · rw [Alphabets.position?_eq_none_iff.mpr hin] at hi
      cases hi
  have hnot : ∀ {r}, cs.alphabets.position? r ch = none → ch ∉ cs.alphabets.places r :=
    fun h => Alphabets.position?_eq_none_iff.mp h
  cases hlower : cs.alphabets.position? .lower ch with
  | some i =>
      left
      refine ⟨i, rfl, ?_, ?_, ?_⟩
      · simp [codesOfChar, hlower]
      · simp [cost, hmem hlower]
      · simp [printed, hmem hlower]
  | none =>
      right
      cases hupper : cs.alphabets.position? .upper ch with
      | some i =>
          left
          refine ⟨.upper, i, nofun, hupper, ?_, ?_, ?_⟩
          · simp [codesOfChar, hlower, hupper]
          · simp [cost, hnot hlower, hmem hupper]
          · simp [printed, hmem hupper]
      | none =>
          cases hpunctuation : cs.alphabets.position? .punctuation ch with
          | some i =>
              left
              refine ⟨.punctuation, i, nofun, hpunctuation, ?_, ?_, ?_⟩
              · simp [codesOfChar, hlower, hupper, hpunctuation]
              · simp [cost, hnot hlower, hmem hpunctuation]
              · simp [printed, hmem hpunctuation]
          | none =>
              right
              refine ⟨Zscii.ofChar cs.extra ch, ?_, ?_, ?_⟩
              · simp [codesOfChar, hlower, hupper, hpunctuation]
              · simp [cost, hnot hlower, hnot hupper, hnot hpunctuation]
              · simp [printed, hnot hlower, hnot hupper, hnot hpunctuation]

/-- The cost of a character is the number of its codes. -/
theorem length_codesOfChar (cs : Charset) (ch : Char) :
    (cs.codesOfChar ch).length = cs.cost ch := by
  obtain ⟨i, -, hcodes, hcost, -⟩ | ⟨r, i, -, -, hcodes, hcost, -⟩ | ⟨code, hcodes, hcost, -⟩ :=
    cs.codesOfChar_cases ch
  all_goals
    rw [hcodes, hcost]
    rfl

end Charset

/-! ## Reading a spelling -/

namespace Reader

variable {cs : Charset} {expand : Nat → List Char}

/-- What a run of codes prints, code by code. -/
theorem render_cons {s s' : Reader} {z : ZChar} {out : List Char}
    (h : s.step cs expand z = (s', out)) (zs : List ZChar) :
    render cs expand s (z :: zs) = out ++ render cs expand s' zs := by
  rw [render, h]

/-- From the first row, the code of a shift changes the row for one character. -/
theorem step_shiftCode {r : Row} (hr : r ≠ .lower) :
    step cs expand {} (cs.shiftCode r) = ({ current := r }, []) := by
  show plain cs {} (cs.shiftCode r) = _
  -- a shift is relative to the row in use up to version 2, and names its row from version 3 on
  by_cases hversion : cs.version ≤ 2
  · have hold : ¬ 3 ≤ cs.version := by
      rw [UInt8.le_iff_toNat_le] at hversion ⊢
      exact Nat.not_le_of_lt (Nat.lt_succ_of_le hversion)
    cases r with
    | lower => exact absurd rfl hr
    | upper =>
        simp only [Charset.shiftCode, plain, hversion, hold, if_true, if_false]
        rfl
    | punctuation =>
        simp only [Charset.shiftCode, plain, hversion, hold, if_true, if_false]
        rfl
  · have hnew : 3 ≤ cs.version := by
      rw [UInt8.le_iff_toNat_le] at hversion ⊢
      exact Nat.lt_of_not_le hversion
    cases r with
    | lower => exact absurd rfl hr
    | upper =>
        simp only [Charset.shiftCode, plain, hversion, hnew, if_true, if_false]
        rfl
    | punctuation =>
        simp only [Charset.shiftCode, plain, hversion, hnew, if_true, if_false]
        rfl

/-- In its row, the code of a place prints the character there and leads back to the first row. -/
theorem step_placeCode {r : Row} {ch : Char} {i : Nat}
    (h : cs.alphabets.position? r ch = some i) :
    step cs expand { current := r } (Charset.placeCode i) = ({}, [ch]) := by
  obtain ⟨hlt, hget, hmark⟩ := Alphabets.of_position?_eq_some h
  have hval : (Charset.placeCode i).val = i + 6 := Nat.mod_eq_of_lt (by omega)
  have hescape : ¬ (i + 6 = 6 ∧ r = .punctuation) := fun ⟨hi, hr⟩ => hmark hr (by omega)
  show plain cs { current := r } (Charset.placeCode i) = _
  unfold plain
  rw [hval, if_neg (by omega), if_neg hescape, if_pos (by omega)]
  simp [settled, hget]

/-- In the third row, the escape mark opens an escape. -/
theorem step_escapeCode :
    step cs expand { current := .punctuation } Charset.escapeCode
      = ({ current := .punctuation, pending := .escapeHigh }, []) :=
  rfl

/-- The first half of an escape prints nothing. -/
theorem step_escapeHigh (z : ZChar) :
    step cs expand { current := .punctuation, pending := .escapeHigh } z
      = ({ current := .punctuation, pending := .escapeLow z }, []) :=
  rfl

/-- An escape prints the character of its code and leads back to the first row. -/
theorem render_escape (code : UInt8) (zs : List ZChar) :
    render cs expand { current := .punctuation }
        (Charset.escapeCode :: .ofNat (code.toNat / 32) :: .ofNat code.toNat :: zs)
      = (Zscii.char? cs.extra code.toNat).toList ++ render cs expand {} zs := by
  have hcode := code.toNat_lt
  have hhalves : code.toNat / 32 % 32 * 32 + code.toNat % 32 = code.toNat := by omega
  have hlow : step cs expand
      { current := .punctuation, pending := .escapeLow (.ofNat (code.toNat / 32)) }
      (.ofNat code.toNat) = ({}, (Zscii.char? cs.extra code.toNat).toList) := by
    show (_, (Zscii.char? cs.extra (code.toNat / 32 % 32 * 32 + code.toNat % 32)).toList) = _
    rw [hhalves]
    rfl
  rw [render_cons step_escapeCode, render_cons (step_escapeHigh _), render_cons hlow]
  rfl

/-- **A character is read back from its codes**, whatever follows them. -/
theorem render_codesOfChar_append (ch : Char) (zs : List ZChar) :
    render cs expand {} (cs.codesOfChar ch ++ zs)
      = cs.printed ch ++ render cs expand {} zs := by
  obtain ⟨i, hi, hcodes, -, hprinted⟩ | ⟨r, i, hr, hi, hcodes, -, hprinted⟩ |
    ⟨code, hcodes, -, hprinted⟩ := cs.codesOfChar_cases ch
  · rw [hcodes, hprinted]
    exact render_cons (step_placeCode hi) zs
  · rw [hcodes, hprinted]
    exact (render_cons (step_shiftCode hr) _).trans (render_cons (step_placeCode hi) zs)
  · rw [hcodes, hprinted]
    exact (render_cons (step_shiftCode (r := .punctuation) nofun) _).trans (render_escape code zs)

/-- **A fragment of a spelling prints nothing**: a shift, or a shift with a part of an escape. -/
theorem render_take_codesOfChar {ch : Char} {n : Nat} (h : n < cs.cost ch) :
    render cs expand {} ((cs.codesOfChar ch).take n) = [] := by
  obtain ⟨i, -, hcodes, hcost, -⟩ | ⟨r, i, hr, -, hcodes, hcost, -⟩ | ⟨code, hcodes, hcost, -⟩ :=
    cs.codesOfChar_cases ch
  · obtain rfl : n = 0 := by omega
    rfl
  · have hn : n = 0 ∨ n = 1 := by omega
    rw [hcodes]
    rcases hn with rfl | rfl
    · rfl
    · exact render_cons (step_shiftCode hr) []
  · have hn : n = 0 ∨ n = 1 ∨ n = 2 ∨ n = 3 := by omega
    have hshift : step cs expand {} (cs.shiftCode .punctuation)
        = ({ current := .punctuation }, []) := step_shiftCode nofun
    rw [hcodes]
    rcases hn with rfl | rfl | rfl | rfl
    · rfl
    · exact render_cons hshift []
    · rw [List.take_succ_cons, List.take_succ_cons, render_cons hshift,
        render_cons step_escapeCode]
      rfl
    · rw [List.take_succ_cons, List.take_succ_cons, List.take_succ_cons, render_cons hshift,
        render_cons step_escapeCode, render_cons (step_escapeHigh _)]
      rfl

/-- The codes that fill a word print nothing.  Up to version 2 each locks another row, and later
each shifts to the third one, so the reader never waits for the rest of a sequence. -/
theorem render_replicate_fillCode {s : Reader} (hs : s.pending = .nothing) (n : Nat) :
    render cs expand s (List.replicate n Charset.fillCode) = [] := by
  induction n generalizing s with
  | zero => rfl
  | succ n ih =>
      have hstep : ∃ s' : Reader, s'.pending = .nothing ∧
          s.step cs expand Charset.fillCode = (s', []) := by
        unfold step
        rw [hs]
        dsimp only
        unfold plain
        by_cases hversion : 3 ≤ cs.version
        · refine ⟨s.shiftTo .punctuation, rfl, ?_⟩
          rw [if_neg (by decide), if_neg fun h => absurd h.1 (by decide),
            if_neg (by decide), if_pos hversion]
          rfl
        · refine ⟨lockedIn s.home.previous, rfl, ?_⟩
          rw [if_neg (by decide), if_neg fun h => absurd h.1 (by decide),
            if_neg (by decide), if_neg hversion]
          rfl
      obtain ⟨s', hs', hstep⟩ := hstep
      rw [List.replicate_succ, render_cons hstep, ih hs', List.append_nil]

end Reader

/-! ## What fits into a word -/

namespace Charset

/-- The number of codes that some characters take. -/
def totalCost (cs : Charset) : List Char → Nat
  | [] => 0
  | ch :: rest => cs.cost ch + totalCost cs rest

/-- The characters from the first on whose codes fit into a number of codes. -/
def fitting (cs : Charset) : Nat → List Char → List Char
  | _, [] => []
  | room, ch :: rest =>
      if cs.cost ch ≤ room then ch :: cs.fitting (room - cs.cost ch) rest else []

/-- Some characters are the longest part at the beginning of others that fits. -/
structure LongestFitting (cs : Charset) (room : Nat) (chars kept : List Char) : Prop where
  is_part : kept <+: chars
  fits : cs.totalCost kept ≤ room
  longest : ∀ other, other <+: chars → cs.totalCost other ≤ room → other <+: kept

theorem longestFitting_fitting (cs : Charset) (room : Nat) (chars : List Char) :
    cs.LongestFitting room chars (cs.fitting room chars) := by
  induction chars generalizing room with
  | nil => exact ⟨List.prefix_refl _, Nat.zero_le _, fun _ hother _ => hother⟩
  | cons ch rest ih =>
      unfold fitting
      split
      · rename_i hcost
        have htail := ih (room - cs.cost ch)
        refine ⟨?_, ?_, fun other hother hfits => ?_⟩
        · exact List.cons_prefix_cons.mpr ⟨rfl, htail.is_part⟩
        · have := htail.fits
          simp only [totalCost] at this ⊢
          omega
        · cases other with
          | nil => exact List.nil_prefix
          | cons first other =>
              obtain ⟨rfl, hpart⟩ := List.cons_prefix_cons.mp hother
              simp only [totalCost] at hfits
              refine List.cons_prefix_cons.mpr ⟨rfl, htail.longest other hpart ?_⟩
              omega
      · rename_i hcost
        refine ⟨List.nil_prefix, Nat.zero_le _, fun other hother hfits => ?_⟩
        cases other with
        | nil => exact List.prefix_refl _
        | cons first other =>
            obtain ⟨rfl, -⟩ := List.cons_prefix_cons.mp hother
            simp only [totalCost] at hfits
            omega

/-- The codes of some characters, cut or filled to a length. -/
def cutCodes (cs : Charset) (room : Nat) (chars : List Char) : List ZChar :=
  let codes := (chars.flatMap cs.codesOfChar).take room
  codes ++ List.replicate (room - codes.length) fillCode

/-- **Reading cut codes prints the characters that fit.**  The induction is on the characters; the
reader is in the first row at the start of each. -/
theorem render_cutCodes (cs : Charset) (expand : Nat → List Char) (room : Nat)
    (chars : List Char) :
    Reader.render cs expand {} (cs.cutCodes room chars)
      = (cs.fitting room chars).flatMap cs.printed := by
  induction chars generalizing room with
  | nil =>
      have hfill : cs.cutCodes room [] = List.replicate room fillCode := by simp [cutCodes]
      rw [hfill]
      exact Reader.render_replicate_fillCode rfl room
  | cons ch rest ih =>
      have hlength := cs.length_codesOfChar ch
      unfold fitting
      split
      · rename_i hcost
        have hcut : cs.cutCodes room (ch :: rest)
            = cs.codesOfChar ch ++ cs.cutCodes (room - cs.cost ch) rest := by
          unfold cutCodes
          dsimp only
          rw [List.flatMap_cons, List.take_append, List.take_of_length_le (by omega), hlength,
            List.append_assoc, List.length_append, hlength, Nat.sub_add_eq]
        rw [hcut, Reader.render_codesOfChar_append, ih, List.flatMap_cons]
      · rename_i hcost
        have hcut : cs.cutCodes room (ch :: rest) = (cs.codesOfChar ch).take room := by
          unfold cutCodes
          dsimp only
          rw [List.flatMap_cons, List.take_append_of_le_length (by omega), List.length_take,
            Nat.min_eq_left (by omega), Nat.sub_self]
          exact List.append_nil _
        rw [hcut, Reader.render_take_codesOfChar (by omega)]
        rfl

theorem length_wordCodesOf (cs : Charset) (text : List Char) :
    (cs.wordCodesOf text).length = cs.wordCodes := by
  unfold wordCodesOf
  dsimp only
  rw [List.length_append, List.length_replicate, List.length_take]
  omega

end Charset

/-! ## Words in memory -/

/-- Codes and the words that hold them, three to a word, the last word with the stop bit. -/
inductive Packed : List ZChar → List UInt16 → Prop
  | last (a b c : ZChar) : Packed [a, b, c] [0x8000 + wordOfCodes a b c]
  | more (a b c : ZChar) {codes : List ZChar} {words : List UInt16} (h : Packed codes words) :
      Packed (a :: b :: c :: codes) (wordOfCodes a b c :: words)

/-- Codes that fill their words are packed. -/
theorem packed_packWords {codes : List ZChar} {n : Nat} (h : codes.length = 3 * (n + 1)) :
    Packed codes (packWords codes) := by
  induction n generalizing codes with
  | zero =>
      match codes, h with
      | [a, b, c], _ => exact .last a b c
  | succ n ih =>
      match codes, h with
      | a :: b :: c :: d :: rest, h =>
          have hrest : (d :: rest).length = 3 * (n + 1) := by
            simp only [List.length_cons] at h ⊢
            omega
          exact .more a b c (ih hrest)

section
variable {codes : List ZChar} {words : List UInt16}

theorem toNat_wordOfCodes (a b c : ZChar) :
    (wordOfCodes a b c).toNat = a.val * 1024 + b.val * 32 + c.val := by
  have := a.isLt
  have := b.isLt
  have := c.isLt
  rw [wordOfCodes, UInt16.toNat_ofNat']
  omega

theorem toNat_lastWordOfCodes (a b c : ZChar) :
    (0x8000 + wordOfCodes a b c).toNat = 0x8000 + (a.val * 1024 + b.val * 32 + c.val) := by
  have := a.isLt
  have := b.isLt
  have := c.isLt
  have hstop : (0x8000 : UInt16).toNat = 0x8000 := rfl
  rw [UInt16.toNat_add, toNat_wordOfCodes, hstop]
  omega

/-- A word gives its codes back, with the stop bit or without it. -/
theorem codesOfWord_of_toNat {w : UInt16} {a b c : ZChar} (stop : Nat)
    (h : w.toNat = stop * 0x8000 + (a.val * 1024 + b.val * 32 + c.val)) :
    codesOfWord w = [a, b, c] := by
  have := a.isLt
  have := b.isLt
  have := c.isLt
  have ha : ZChar.ofNat (w.toNat / 1024) = a := Fin.ext (by simp only [ZChar.ofNat]; omega)
  have hb : ZChar.ofNat (w.toNat / 32) = b := Fin.ext (by simp only [ZChar.ofNat]; omega)
  have hc : ZChar.ofNat w.toNat = c := Fin.ext (by simp only [ZChar.ofNat]; omega)
  rw [codesOfWord, ha, hb, hc]

theorem Packed.flatMap_codesOfWord (h : Packed codes words) :
    words.flatMap codesOfWord = codes := by
  induction h with
  | last a b c =>
      have hword := toNat_lastWordOfCodes a b c
      rw [List.flatMap_cons, codesOfWord_of_toNat 1 (by rw [hword, Nat.one_mul])]
      rfl
  | more a b c h ih =>
      have hword := toNat_wordOfCodes a b c
      rw [List.flatMap_cons, codesOfWord_of_toNat 0 (by rw [hword, Nat.zero_mul, Nat.zero_add]),
        ih]
      rfl

theorem Packed.length_words (h : Packed codes words) : codes.length = 3 * words.length := by
  induction h with
  | last a b c => rfl
  | more a b c h ih =>
      simp only [List.length_cons]
      omega

/-- The bytes of words, high byte first. -/
def bytesOfWords (words : List UInt16) : List UInt8 :=
  words.flatMap fun w => [Word.high w, Word.low w]

theorem length_bytesOfWords (words : List UInt16) :
    (bytesOfWords words).length = 2 * words.length := by
  induction words with
  | nil => rfl
  | cons w words ih =>
      show (bytesOfWords words).length + 2 = 2 * (words.length + 1)
      omega

/-- Memory that holds the bytes of words holds the first word and, two bytes on, the others. -/
theorem wordAt_of_slice {m : Memory} {a : Nat} {w : UInt16}
    (h : m.slice a (bytesOfWords (w :: words)).length = bytesOfWords (w :: words)) :
    m.wordAt a = w ∧
      m.slice (a + 2) (bytesOfWords words).length = bytesOfWords words := by
  have hlength : (bytesOfWords (w :: words)).length = (bytesOfWords words).length + 2 := rfl
  rw [hlength, Memory.slice_succ, Memory.slice_succ] at h
  obtain ⟨hhigh, hlow, hrest⟩ :
      m.byteAt a = Word.high w ∧ m.byteAt (a + 1) = Word.low w ∧
        m.slice (a + 2) (bytesOfWords words).length = bytesOfWords words := by
    have h' : m.byteAt a :: m.byteAt (a + 1) :: m.slice (a + 2) (bytesOfWords words).length
        = Word.high w :: Word.low w :: bytesOfWords words := h
    simpa using h'
  refine ⟨?_, hrest⟩
  rw [Memory.wordAt, hhigh, hlow, Word.ofBytes_high_low]

/-- Words of which the last one, and no other, has the stop bit. -/
inductive Stopped : List UInt16 → Prop
  | last {w : UInt16} (h : isLastWord w = true) : Stopped [w]
  | more {w : UInt16} {words : List UInt16} (h : isLastWord w = false) (rest : Stopped words) :
      Stopped (w :: words)

/-- **The words of a string are found again in memory**: the string there is made up of just these
words. -/
theorem Stopped.packedWords_eq (h : Stopped words) {m : Memory} {a : Nat}
    (hholds : m.slice a (bytesOfWords words).length = bytesOfWords words)
    (hinside : a + (bytesOfWords words).length ≤ m.size) :
    packedWords m a = (words, a + (bytesOfWords words).length) := by
  induction h generalizing a with
  | last hlast =>
      obtain ⟨hword, -⟩ := wordAt_of_slice hholds
      rw [packedWords, hword]
      dsimp only
      rw [if_pos (Or.inl hlast)]
      rfl
  | @more w words hmore rest ih =>
      obtain ⟨hword, hrest⟩ := wordAt_of_slice hholds
      have hlength : (bytesOfWords (w :: words)).length = (bytesOfWords words).length + 2 := rfl
      have hpositive : 0 < words.length := by cases rest <;> exact Nat.succ_pos _
      have hbytes := length_bytesOfWords words
      have hgoesOn : ¬ (isLastWord w = true ∨ m.size ≤ a + 2) := by
        rw [hmore]
        simp only [Bool.false_eq_true, false_or]
        omega
      rw [packedWords, hword]
      dsimp only
      rw [if_neg hgoesOn, ih hrest (by omega), hlength]
      dsimp only
      rw [Nat.add_assoc, Nat.add_comm 2]

/-- Packed words have the stop bit on the last one. -/
theorem Packed.stopped (h : Packed codes words) : Stopped words := by
  induction h with
  | last a b c =>
      refine .last ?_
      unfold isLastWord
      rw [decide_eq_true_iff, UInt16.le_iff_toNat_le, toNat_lastWordOfCodes]
      exact Nat.le_add_right _ _
  | more a b c h ih =>
      refine .more ?_ ih
      have := a.isLt
      have := b.isLt
      have := c.isLt
      unfold isLastWord
      rw [decide_eq_false_iff_not, UInt16.le_iff_toNat_le, toNat_wordOfCodes]
      show ¬ 0x8000 ≤ _
      omega

theorem Packed.packedWords_eq (h : Packed codes words) {m : Memory} {a : Nat}
    (hholds : m.slice a (bytesOfWords words).length = bytesOfWords words)
    (hinside : a + (bytesOfWords words).length ≤ m.size) :
    packedWords m a = (words, a + (bytesOfWords words).length) :=
  h.stopped.packedWords_eq hholds hinside

end

/-! ## Dictionary words -/

theorem Charset.packed_wordCodesOf (cs : Charset) (text : List Char) :
    Packed (cs.wordCodesOf text) (packWords (cs.wordCodesOf text)) := by
  have hlength := cs.length_wordCodesOf text
  unfold wordCodes at hlength
  split at hlength
  · exact packed_packWords (n := 1) hlength
  · exact packed_packWords (n := 2) hlength

theorem Charset.length_encodeWord (cs : Charset) (text : List Char) :
    (cs.encodeWord text).length = if cs.version < 4 then 4 else 6 := by
  have hcodes := (cs.packed_wordCodesOf text).length_words
  rw [cs.length_wordCodesOf] at hcodes
  show (bytesOfWords (packWords (cs.wordCodesOf text))).length = _
  rw [length_bytesOfWords]
  unfold wordCodes at hcodes
  split at hcodes <;> rename_i hversion
  · rw [if_pos hversion]
    omega
  · rw [if_neg hversion]
    omega

/-- **A dictionary word is read back as far as it fits.**  Take any codec and any memory that holds
a text in dictionary form at an address where no string is remembered.  The string there ends after
four bytes up to version 3 and after six bytes later, and it is what the characters of the text in
lower case print, from the first on and as far as their codes fit into a dictionary word. -/
theorem Codec.decode_encodeWord (c : Codec) (m : Memory) (a : Nat) (text : List Char)
    (hholds : m.slice a (c.charset.encodeWord text).length = c.charset.encodeWord text)
    (hinside : a + (c.charset.encodeWord text).length ≤ m.size) (hcache : c.cache[a]? = none) :
    (c.decode m a).1.2 = a + (if c.charset.version < 4 then 4 else 6) ∧
      ∃ kept,
        c.charset.LongestFitting (if c.charset.version < 4 then 6 else 9) (lowerCase text) kept ∧
        (c.decode m a).1.1 = String.ofList (kept.flatMap c.charset.printed) := by
  have hpacked := c.charset.packed_wordCodesOf text
  have hwords := hpacked.packedWords_eq hholds hinside
  have hdecode : (c.decode m a).1 = c.read m a := by
    rw [Codec.decode_fst, hcache, Option.getD_none]
  rw [hdecode]
  refine ⟨?_, c.charset.fitting c.charset.wordCodes (lowerCase text),
    c.charset.longestFitting_fitting _ _, ?_⟩
  · show (packedWords m a).2 = _
    rw [hwords]
    exact congrArg (a + ·) (c.charset.length_encodeWord text)
  · show String.ofList (c.textAt m _ a) = _
    rw [Codec.textAt, hwords, hpacked.flatMap_codesOfWord]
    exact congrArg String.ofList (c.charset.render_cutCodes _ _ _)

/-- A story of version 2 with nothing but a header and room for a word. -/
def wordStory : Memory :=
  .ofImage (2 :: List.replicate 14 (0 : UInt8) ++ 0x40 :: List.replicate 56 (0 : UInt8)).toArray

/-- The codec of that story. -/
def wordCodec : Codec :=
  .ofStory wordStory (Header.fields wordStory)

/-- The text `Ab,~` in dictionary form.  The first three characters take four codes, so there is
room for a shift and the escape mark of the last one and no more. -/
def cutWord : List UInt8 :=
  wordCodec.charset.encodeWord ['A', 'b', ',', '~']

/-- The word is read back as far as it fits. -/
theorem Codec.decode_encodeWord_cutWord :
    let m := wordStory.setBytes 0x42 cutWord
    m.slice 0x42 cutWord.length = cutWord ∧ 0x42 + cutWord.length ≤ m.size ∧
      wordCodec.cache[0x42]? = none ∧ (wordCodec.decode m 0x42).1.2 = 0x46 ∧
      ∃ kept, wordCodec.charset.LongestFitting 6 ['a', 'b', ',', '~'] kept ∧
        (wordCodec.decode m 0x42).1.1 = String.ofList (kept.flatMap wordCodec.charset.printed) := by
  intro m
  have hholds : m.slice 0x42 cutWord.length = cutWord := by decide +kernel
  have hinside : 0x42 + cutWord.length ≤ m.size := by decide +kernel
  have hcache : wordCodec.cache[0x42]? = none := Std.HashMap.getElem?_empty
  have hlower : lowerCase ['A', 'b', ',', '~'] = ['a', 'b', ',', '~'] := by decide +kernel
  have hdecode := wordCodec.decode_encodeWord m 0x42 ['A', 'b', ',', '~'] hholds hinside hcache
  rw [hlower] at hdecode
  exact ⟨hholds, hinside, hcache, hdecode⟩

end Text
end ZMachine
