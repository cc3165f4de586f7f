/-
# What a string is read from

A string is read from its own words and from the abbreviations that it uses: their entries in the
table and their own words.  So a write elsewhere does not change it.

* `Memory.AgreeFrom` : two memories have the same bytes from an address on;
* `packedWords_congr` : the words of a string depend on the bytes up to its end;
* `Reader.render_congr` : a text uses the abbreviations of its version and no others;
* `Codec.AbbreviationByte` : a byte that abbreviations are read from;
* `Codec.read_congr` : the string at an address depends on its own bytes and on those of the
  abbreviations.
-/
import ZMachine.Text.Codec

namespace ZMachine
namespace Memory

/-- Two memories of one size have the same bytes from an address on. -/
structure AgreeFrom (start : Nat) (m m' : Memory) : Prop where
  size : m'.size = m.size
  byteAt : ∀ a, start ≤ a → m'.byteAt a = m.byteAt a

theorem AgreeFrom.refl (start : Nat) (m : Memory) : AgreeFrom start m m :=
  ⟨rfl, fun _ _ => rfl⟩

theorem AgreeFrom.trans {start : Nat} {m₁ m₂ m₃ : Memory} (h : AgreeFrom start m₁ m₂)
    (h' : AgreeFrom start m₂ m₃) : AgreeFrom start m₁ m₃ :=
  ⟨h'.size.trans h.size, fun a ha => (h'.byteAt a ha).trans (h.byteAt a ha)⟩

theorem AgreeFrom.wordAt {start : Nat} {m m' : Memory} (h : AgreeFrom start m m') {a : Nat}
    (ha : start ≤ a) : m'.wordAt a = m.wordAt a := by
  rw [Memory.wordAt, Memory.wordAt, h.byteAt a ha, h.byteAt (a + 1) (by omega)]

/-- A write further down is not seen. -/
theorem agreeFrom_setByte {start a : Nat} (h : a < start) (m : Memory) (v : UInt8) :
    AgreeFrom start m (m.setByte a v) :=
  ⟨m.size_setByte a v, fun b hb => m.byteAt_setByte_of_ne a v b (by omega)⟩

end Memory

namespace Text

open Memory (AgreeFrom)

/-! ## Words -/

/-- A string has at least one word. -/
theorem add_two_le_packedWords (m : Memory) (address : Nat) :
    address + 2 ≤ (packedWords m address).2 := by
  fun_induction packedWords m address with
  | case1 => exact Nat.le_refl _
  | case2 address word h rest ih =>
      show address + 2 ≤ (packedWords m (address + 2)).2
      omega

/-- The words of a string depend on the bytes up to its end. -/
theorem packedWords_congr {m m' : Memory} (hsize : m'.size = m.size) {address : Nat}
    (h : ∀ a, address ≤ a → a < (packedWords m address).2 → m'.byteAt a = m.byteAt a) :
    packedWords m' address = packedWords m address := by
  fun_induction packedWords m address with
  | case1 address word hlast =>
      have hword : m'.wordAt address = word := by
        show _ = m.wordAt address
        rw [Memory.wordAt, Memory.wordAt, h address (by omega) (by omega),
          h (address + 1) (by omega) (by omega)]
      rw [packedWords, hword, hsize]
      dsimp only
      rw [if_pos hlast]
  | case2 address word hlast rest ih =>
      have hend : address + 2 + 2 ≤ rest.2 := add_two_le_packedWords m (address + 2)
      have hword : m'.wordAt address = word := by
        show _ = m.wordAt address
        rw [Memory.wordAt, Memory.wordAt, h address (by omega) (by show _ < rest.2; omega),
          h (address + 1) (by omega) (by show _ < rest.2; omega)]
      have hrest : packedWords m' (address + 2) = rest := ih fun a ha hlt => h a (by omega) hlt
      rw [packedWords, hword, hsize, hrest]
      dsimp only
      rw [if_neg hlast]

theorem packedWords_of_agreeFrom {start : Nat} {m m' : Memory} (h : AgreeFrom start m m')
    {address : Nat} (ha : start ≤ address) : packedWords m' address = packedWords m address :=
  packedWords_congr h.size fun a haddress _ => h.byteAt a (by omega)

/-! ## Abbreviations -/

/-- The number of abbreviations that texts of a version can name. -/
def Charset.abbreviationCount (cs : Charset) : Nat :=
  if 3 ≤ cs.version then 96 else if cs.version = 2 then 32 else 0

namespace Reader

/-- A reader that waits for the number of an abbreviation is in one of the banks of its version. -/
def InBank (cs : Charset) (s : Reader) : Prop :=
  ∀ bank, s.pending = .abbreviation bank → 32 * (bank - 1) + 32 ≤ cs.abbreviationCount

theorem inBank_of_ne {cs : Charset} {s : Reader} (h : ∀ bank, s.pending ≠ .abbreviation bank) :
    s.InBank cs :=
  fun bank hbank => absurd hbank (h bank)

theorem inBank_await {cs : Charset} {s : Reader} {bank : Nat}
    (h : 32 * (bank - 1) + 32 ≤ cs.abbreviationCount) :
    (s.await (.abbreviation bank)).InBank cs := by
  intro bank' hbank
  cases hbank
  exact h

/-- A code outside every sequence opens a bank of the version, if any. -/
theorem inBank_plain (cs : Charset) (s : Reader) (z : ZChar) : (s.plain cs z).1.InBank cs := by
  unfold plain
  split
  · exact inBank_of_ne nofun
  split
  · exact inBank_of_ne nofun
  split
  · exact inBank_of_ne nofun
  split
  · rename_i hversion
    split
    · exact inBank_of_ne nofun
    · exact inBank_of_ne nofun
    · -- neither shift, so one of the codes 1 to 3, each of which opens its own bank
      rename_i hfour hfive
      have hfour : z.val ≠ 4 := hfour
      have hfive : z.val ≠ 5 := hfive
      apply inBank_await
      rw [Charset.abbreviationCount, if_pos hversion]
      omega
  · rename_i hversion
    split
    · -- the code 1, which opens the only bank of version 2 and ends a line before that
      split
      · rename_i htwo
        have hcount : cs.abbreviationCount = 32 := by
          rw [Charset.abbreviationCount, if_neg hversion, if_pos htwo]
        apply inBank_await
        omega
      · exact inBank_of_ne nofun
    all_goals exact inBank_of_ne nofun

theorem inBank_step (cs : Charset) (expand : Nat → List Char) (s : Reader) (z : ZChar) :
    (s.step cs expand z).1.InBank cs := by
  unfold step
  split
  · exact inBank_plain cs s z
  all_goals exact inBank_of_ne nofun

/-- **A text uses the abbreviations of its version and no others.** -/
theorem render_congr {cs : Charset} {expand expand' : Nat → List Char}
    (h : ∀ i < cs.abbreviationCount, expand' i = expand i) {s : Reader} (hs : s.InBank cs)
    (zs : List ZChar) : render cs expand' s zs = render cs expand s zs := by
  induction zs generalizing s with
  | nil => rfl
  | cons z zs ih =>
      have hstep : s.step cs expand' z = s.step cs expand z := by
        unfold step
        split
        · rfl
        · rename_i bank hbank
          rw [h _ (by have := hs bank hbank; omega)]
        · rfl
        · rfl
      rw [render, render, hstep, ih (inBank_step cs expand s z)]

end Reader

namespace Codec

/-- The address of the string of an abbreviation. -/
def abbreviationStart (c : Codec) (m : Memory) (i : Nat) : Nat :=
  m.pointerAt (c.abbreviations + i * 2) * 2

/-- The address lies in the entry of an abbreviation or in its string. -/
def InAbbreviation (c : Codec) (m : Memory) (i a : Nat) : Prop :=
  (c.abbreviations + i * 2 ≤ a ∧ a < c.abbreviations + i * 2 + 2) ∨
    (c.abbreviationStart m i ≤ a ∧ a < (packedWords m (c.abbreviationStart m i)).2)

/-- A byte of the abbreviation table or of an abbreviation string. -/
def AbbreviationByte (c : Codec) (m : Memory) (a : Nat) : Prop :=
  ∃ i < c.charset.abbreviationCount, c.InAbbreviation m i a

/-- Two memories of one size have the same abbreviations, byte for byte. -/
structure SameAbbreviations (c : Codec) (m m' : Memory) : Prop where
  size : m'.size = m.size
  byteAt : ∀ a, c.AbbreviationByte m a → m'.byteAt a = m.byteAt a

section
variable {c : Codec} {m m' : Memory}

theorem SameAbbreviations.start (h : c.SameAbbreviations m m') {i : Nat}
    (hi : i < c.charset.abbreviationCount) :
    c.abbreviationStart m' i = c.abbreviationStart m i := by
  have hhigh := h.byteAt (c.abbreviations + i * 2) ⟨i, hi, Or.inl (by omega)⟩
  have hlow := h.byteAt (c.abbreviations + i * 2 + 1) ⟨i, hi, Or.inl (by omega)⟩
  rw [abbreviationStart, abbreviationStart, Memory.pointerAt, Memory.pointerAt, Memory.wordAt,
    Memory.wordAt, hhigh, hlow]

theorem SameAbbreviations.words (h : c.SameAbbreviations m m') {i : Nat}
    (hi : i < c.charset.abbreviationCount) :
    packedWords m' (c.abbreviationStart m i) = packedWords m (c.abbreviationStart m i) :=
  packedWords_congr h.size fun a hstart hend => h.byteAt a ⟨i, hi, Or.inr ⟨hstart, hend⟩⟩

/-- They are in the same places. -/
theorem SameAbbreviations.abbreviationByte_iff (h : c.SameAbbreviations m m') (a : Nat) :
    c.AbbreviationByte m' a ↔ c.AbbreviationByte m a := by
  have hsame : ∀ i < c.charset.abbreviationCount,
      (c.InAbbreviation m' i a ↔ c.InAbbreviation m i a) := by
    intro i hi
    unfold InAbbreviation
    rw [h.start hi, h.words hi]
  constructor
  · rintro ⟨i, hi, ha⟩
    exact ⟨i, hi, (hsame i hi).1 ha⟩
  · rintro ⟨i, hi, ha⟩
    exact ⟨i, hi, (hsame i hi).2 ha⟩

theorem SameAbbreviations.refl (c : Codec) (m : Memory) : c.SameAbbreviations m m :=
  ⟨rfl, fun _ _ => rfl⟩

theorem SameAbbreviations.trans {m₁ m₂ m₃ : Memory} (h : c.SameAbbreviations m₁ m₂)
    (h' : c.SameAbbreviations m₂ m₃) : c.SameAbbreviations m₁ m₃ :=
  ⟨h'.size.trans h.size, fun a ha =>
    (h'.byteAt a ((h.abbreviationByte_iff a).2 ha)).trans (h.byteAt a ha)⟩

/-- A write that does not touch the abbreviations. -/
theorem sameAbbreviations_setByte {a : Nat} (h : ¬ c.AbbreviationByte m a) (v : UInt8) :
    c.SameAbbreviations m (m.setByte a v) := by
  refine ⟨m.size_setByte a v, fun b hb => m.byteAt_setByte_of_ne a v b ?_⟩
  rintro rfl
  exact h hb

/-- Abbreviations that lie where two memories agree. -/
theorem sameAbbreviations_of_agreeFrom {start : Nat} (h : AgreeFrom start m m')
    (habove : ∀ a, c.AbbreviationByte m a → start ≤ a) : c.SameAbbreviations m m' :=
  ⟨h.size, fun a ha => h.byteAt a (habove a ha)⟩

/-- An abbreviation depends on its own bytes. -/
theorem abbreviation_congr (h : c.SameAbbreviations m m') {i : Nat}
    (hi : i < c.charset.abbreviationCount) : c.abbreviation m' i = c.abbreviation m i := by
  show c.textAt m' _ (c.abbreviationStart m' i) = c.textAt m _ (c.abbreviationStart m i)
  rw [textAt, textAt, h.start hi, h.words hi]

/-- **A string depends on its own words and on the abbreviations.** -/
theorem read_congr (h : c.SameAbbreviations m m') {address : Nat}
    (hwords : packedWords m' address = packedWords m address) :
    c.read m' address = c.read m address := by
  have hstart : Reader.InBank c.charset {} := Reader.inBank_of_ne nofun
  have htext := Reader.render_congr (fun i hi => abbreviation_congr h hi) hstart
    ((packedWords m address).1.flatMap codesOfWord)
  rw [read, read, textAt, textAt, hwords, htext]

end

end Codec
end Text
end ZMachine
