/-
# Characters and codes

A code of ZSCII stands for a character in one of two ways: it is the ASCII code of the character, or
it is the place of the character in the table of extra characters.

    codes         32 ... 126     155 ... 154 + size
    characters    ' ' ... '~'    those of the table, in order

Printing a code looks into the table at a place, and reading a character searches the table from its
end.  The one undoes the other exactly if there are codes for all places, the characters of the table
differ, and none of them is read without it.

* `lastPosition?_eq_some_iff` : where the search comes out;
* `StandsFor` : a code and its character;
* `Reversible`, `reversible_iff` : the tables all places of which come back;
* `reversible_extraOf` : the table of a story that brings none is one of them;
* `Text.Codec.codes_reverse` : the codes and the characters of a story, there and back.
-/
import Mathlib.Data.List.Nodup
import ZMachine.Proofs.Text.LowerCase
import ZMachine.Text.Codec

namespace ZMachine
namespace Zscii

variable {extra : ExtraChars} {ch : Char} {z i : Nat}

/-! ## Printable ASCII -/

/-- A character of printable ASCII. -/
def IsPrintable (ch : Char) : Prop :=
  ' ' ≤ ch ∧ ch ≤ '~'

instance (ch : Char) : Decidable (IsPrintable ch) :=
  inferInstanceAs (Decidable (_ ∧ _))

theorem isPrintable_iff : IsPrintable ch ↔ 32 ≤ ch.toNat ∧ ch.toNat ≤ 126 := by
  rw [IsPrintable, Char.le_def, Char.le_def, UInt32.le_iff_toNat_le, UInt32.le_iff_toNat_le]
  rfl

theorem IsPrintable.toNat_toUInt8 (h : IsPrintable ch) : ch.toUInt8.toNat = ch.toNat := by
  have hle := (isPrintable_iff.mp h).2
  show ch.val.toUInt8.toNat = ch.val.toNat
  rw [UInt32.toNat_toUInt8]
  exact Nat.mod_eq_of_lt (Nat.lt_of_le_of_lt hle (by decide))

/-- A character that is read without the table. -/
def IsFixed (ch : Char) : Prop :=
  ch = '\x00' ∨ ch = '\n' ∨ ch = '\r' ∨ IsPrintable ch

instance (ch : Char) : Decidable (IsFixed ch) :=
  inferInstanceAs (Decidable (_ ∨ _))

/-! ## The table -/

/-- The search comes out at the last place of a character. -/
theorem lastPosition?_eq_some_iff :
    lastPosition? extra ch = some i ↔ extra[i]? = some ch ∧ ∀ j, i < j → extra[j]? ≠ some ch := by
  unfold lastPosition?
  simp only [Option.map_eq_some_iff, List.idxOf?_eq_some_iff, List.length_reverse,
    List.getElem_reverse, Array.length_toList, Array.getElem_toList]
  -- the search runs through the reversed table, where the last place is the first one
  constructor
  · rintro ⟨k, ⟨hk, hget, hbefore⟩, rfl⟩
    refine ⟨?_, fun j hj hsame => ?_⟩
    · rw [Array.getElem?_eq_some_iff]
      exact ⟨_, hget⟩
    · obtain ⟨hlt, hsame⟩ := Array.getElem?_eq_some_iff.mp hsame
      have hearlier := hbefore (extra.size - 1 - j) (by omega)
      simp only [show extra.size - 1 - (extra.size - 1 - j) = j by omega] at hearlier
      exact hearlier hsame
  · rintro ⟨hget, hafter⟩
    obtain ⟨hlt, hget⟩ := Array.getElem?_eq_some_iff.mp hget
    refine ⟨extra.size - 1 - i, ⟨by omega, ?_, fun j hj hsame => ?_⟩, by omega⟩
    · simpa only [show extra.size - 1 - (extra.size - 1 - i) = i by omega] using hget
    · exact hafter (extra.size - 1 - j) (by omega) (Array.getElem?_eq_some_iff.mpr ⟨_, hsame⟩)

theorem lastPosition?_of_not_mem (h : ch ∉ extra) : lastPosition? extra ch = none := by
  rw [Option.eq_none_iff_forall_ne_some]
  intro i hi
  exact h (Array.mem_of_getElem? (lastPosition?_eq_some_iff.mp hi).1)

/-- Where all characters differ, the search comes out wherever the character is. -/
theorem lastPosition?_of_nodup (h : extra.toList.Nodup) (hget : extra[i]? = some ch) :
    lastPosition? extra ch = some i := by
  refine lastPosition?_eq_some_iff.mpr ⟨hget, fun j hj hsame => ?_⟩
  obtain ⟨hlt, -⟩ := Array.getElem?_eq_some_iff.mp hsame
  rw [← Array.getElem?_toList] at hget hsame
  exact List.nodup_iff_getElem?_ne_getElem?.mp h i j hj hlt (hget.trans hsame.symm)

/-! ## Printing and reading -/

theorem char?_of_isPrintable (h : IsPrintable ch) : char? extra ch.toNat = some ch := by
  have hch := isPrintable_iff.mp h
  rw [char?, if_neg (by omega), if_neg (by omega), if_pos hch, Char.ofNat_toNat]

theorem char?_extra (hi : i ≤ 96) (hget : extra[i]? = some ch) :
    char? extra (155 + i) = some ch := by
  have hplace : 155 + i - firstExtra = i := Nat.add_sub_cancel_left 155 i
  rw [char?, if_neg (by omega), if_neg (by omega), if_neg (by omega), if_pos (by omega), hplace,
    Array.getD_eq_getD_getElem?, hget, Option.getD_some]

/-- Codes from 252 on have no place in any table. -/
theorem char?_of_le (hz : 252 ≤ z) : char? extra z = some '*' := by
  rw [char?, if_neg (by omega), if_neg (by omega), if_neg (by omega), if_neg (by omega)]

theorem ofChar_of_isPrintable (h : IsPrintable ch) : (ofChar extra ch).toNat = ch.toNat := by
  have hnull : ch ≠ '\x00' := by
    rintro rfl
    exact absurd h (by decide)
  have hbreak : ¬ (ch = '\n' ∨ ch = '\r') := by
    rintro (rfl | rfl) <;> exact absurd h (by decide)
  rw [ofChar, if_neg hnull, if_neg hbreak, if_pos (show ' ' ≤ ch ∧ ch ≤ '~' from h),
    h.toNat_toUInt8]

/-- A character that is not read without the table has the code of its last place. -/
theorem ofChar_of_not_isFixed (h : ¬ IsFixed ch) :
    ofChar extra ch = ((lastPosition? extra ch).map fun i => UInt8.ofNat (155 + i)).getD asterisk := by
  simp only [IsFixed, not_or] at h
  obtain ⟨hnull, hbreak, hreturn, hprintable⟩ := h
  rw [ofChar, if_neg hnull, if_neg (not_or.mpr ⟨hbreak, hreturn⟩),
    if_neg (show ¬ (' ' ≤ ch ∧ ch ≤ '~') from hprintable)]
  cases lastPosition? extra ch <;> rfl

/-- A character that is read without the table has a code below those of the table. -/
theorem toNat_ofChar_lt (h : IsFixed ch) : (ofChar extra ch).toNat < 155 := by
  obtain rfl | rfl | rfl | hprintable := h
  · exact show (0 : UInt8).toNat < 155 by decide
  · exact show (13 : UInt8).toNat < 155 by decide
  · exact show (13 : UInt8).toNat < 155 by decide
  · rw [ofChar_of_isPrintable hprintable]
    exact Nat.lt_of_le_of_lt (isPrintable_iff.mp hprintable).2 (by decide)

/-! ## Tables that can be read backwards -/

/-- A table that can be read backwards: there is a code for each of its places, its characters
differ, and none of them is read without it. -/
structure Reversible (extra : ExtraChars) : Prop where
  size_le : extra.size ≤ 97
  nodup : extra.toList.Nodup
  not_fixed : ∀ ch ∈ extra, ¬ IsFixed ch

/-- The code of a character. -/
inductive StandsFor (extra : ExtraChars) : Nat → Char → Prop
  | printable {ch : Char} : IsPrintable ch → StandsFor extra ch.toNat ch
  | extra {i : Nat} {ch : Char} : extra[i]? = some ch → StandsFor extra (155 + i) ch

theorem exists_standsFor_code
    (hz : (32 ≤ z ∧ z ≤ 126) ∨ (155 ≤ z ∧ z < 155 + extra.size)) : ∃ ch, StandsFor extra z ch := by
  rcases hz with hz | ⟨hle, hlt⟩
  · have hcode : (Char.ofNat z).toNat = z := Text.toNat_ofNat (.inl (by omega))
    refine ⟨Char.ofNat z, ?_⟩
    conv => arg 2; rw [← hcode]
    exact .printable (isPrintable_iff.mpr (by rwa [hcode]))
  · obtain ⟨i, rfl⟩ := Nat.exists_eq_add_of_le hle
    exact ⟨_, .extra (Array.getElem?_eq_getElem (by omega))⟩

theorem exists_standsFor_char (h : IsPrintable ch ∨ ch ∈ extra) : ∃ z, StandsFor extra z ch := by
  rcases h with hprintable | hmem
  · exact ⟨_, .printable hprintable⟩
  · obtain ⟨i, hget⟩ := Array.getElem?_of_mem hmem
    exact ⟨_, .extra hget⟩

section
variable (h : Reversible extra)
include h

theorem Reversible.le_of_getElem? (hget : extra[i]? = some ch) : i ≤ 96 := by
  obtain ⟨hlt, -⟩ := Array.getElem?_eq_some_iff.mp hget
  have hsize := h.size_le
  omega

/-- A code prints the character that it stands for. -/
theorem Reversible.char?_of_standsFor (hz : StandsFor extra z ch) : char? extra z = some ch := by
  cases hz with
  | printable hprintable => exact char?_of_isPrintable hprintable
  | extra hget => exact char?_extra (h.le_of_getElem? hget) hget

/-- A character has the code that stands for it. -/
theorem Reversible.toNat_ofChar_of_standsFor (hz : StandsFor extra z ch) :
    (ofChar extra ch).toNat = z := by
  cases hz with
  | printable hprintable => exact ofChar_of_isPrintable hprintable
  | extra hget =>
      have hi := h.le_of_getElem? hget
      rw [ofChar_of_not_isFixed (h.not_fixed ch (Array.mem_of_getElem? hget)),
        lastPosition?_of_nodup h.nodup hget, Option.map_some, Option.getD_some]
      exact UInt8.toNat_ofNat_of_lt (show 155 + _ < 256 by omega)

end

/-- **A table can be read backwards** exactly if all of its places come back from the characters that
their codes print. -/
theorem reversible_iff :
    Reversible extra ↔ ∀ i < extra.size,
      (char? extra (155 + i)).map (fun ch => (ofChar extra ch).toNat) = some (155 + i) := by
  constructor
  · intro h i hi
    have hcode : StandsFor extra (155 + i) extra[i] := .extra (Array.getElem?_eq_getElem hi)
    rw [h.char?_of_standsFor hcode, Option.map_some, h.toNat_ofChar_of_standsFor hcode]
  · intro h
    -- the code of the place after 97 others prints an asterisk, which has a code of its own
    have hsize : extra.size ≤ 97 := by
      by_contra hlong
      have hread := h 97 (by omega)
      rw [char?_of_le (by decide), Option.map_some, ofChar_of_isPrintable (by decide)] at hread
      exact absurd hread (by decide)
    have hback : ∀ i ch, extra[i]? = some ch → (ofChar extra ch).toNat = 155 + i := by
      intro i ch hget
      obtain ⟨hi, -⟩ := Array.getElem?_eq_some_iff.mp hget
      have hread := h i hi
      rw [char?_extra (by omega) hget, Option.map_some] at hread
      exact Option.some.inj hread
    refine ⟨hsize, List.nodup_iff_getElem?_ne_getElem?.mpr fun i j hij hj hsame => ?_, ?_⟩
    · rw [Array.getElem?_toList, Array.getElem?_toList] at hsame
      have hget : extra[j]? = some extra[j] := Array.getElem?_eq_getElem hj
      have hfirst := hback i _ (hsame.trans hget)
      have hsecond := hback j _ hget
      omega
    · intro ch hmem hfixed
      obtain ⟨i, hget⟩ := Array.getElem?_of_mem hmem
      have hlow : (ofChar extra ch).toNat < 155 := toNat_ofChar_lt hfixed
      have hhigh := hback i ch hget
      omega

instance (extra : ExtraChars) : Decidable (Reversible extra) :=
  decidable_of_iff _ reversible_iff.symm

theorem reversible_standardExtra : Reversible standardExtra := by
  decide +kernel

/-- A story without a table of its own has one that can be read backwards. -/
theorem reversible_extraOf {m : Memory} {h : Header}
    (hown : h.unicodeTable ≠ 0 → Reversible (extraOf m h)) : Reversible (extraOf m h) := by
  by_cases htable : h.unicodeTable = 0
  · rw [extraOf, if_pos htable]
    exact reversible_standardExtra
  · exact hown htable

end Zscii

/-! ## The codes of a story -/

namespace Text
namespace Codec

/-- **Codes and characters, there and back.**  Take the codec of any story that has the standard
table of extra characters, or one of its own that can be read backwards.  Every code of printable
ASCII and of the table comes back from the character that it prints; every printable and every
extra character comes back from its code; and any other character but the null character and the
line breaks has the code of an asterisk. -/
theorem codes_reverse (m : Memory) (h : Header)
    (hown : h.unicodeTable ≠ 0 → Zscii.Reversible (Zscii.extraOf m h)) :
    let c := Codec.ofStory m h
    let extra := c.charset.extra
    (∀ z, (32 ≤ z ∧ z ≤ 126) ∨ (155 ≤ z ∧ z < 155 + extra.size) →
      ∃ ch, Zscii.char? extra z = some ch ∧ (c.zsciiOf ch).toNat = z) ∧
    (∀ ch, Zscii.IsPrintable ch ∨ ch ∈ extra →
      Zscii.char? extra (c.zsciiOf ch).toNat = some ch) ∧
    (∀ ch, ¬ (Zscii.IsPrintable ch ∨ ch ∈ extra) → ch ≠ '\x00' → ch ≠ '\n' → ch ≠ '\r' →
      c.zsciiOf ch = Zscii.asterisk) := by
  intro c extra
  have hextra : Zscii.Reversible extra := Zscii.reversible_extraOf hown
  refine ⟨fun z hz => ?_, fun ch hch => ?_, fun ch hother hnull hbreak hreturn => ?_⟩
  · obtain ⟨ch, hcode⟩ := Zscii.exists_standsFor_code hz
    exact ⟨ch, hextra.char?_of_standsFor hcode, hextra.toNat_ofChar_of_standsFor hcode⟩
  · obtain ⟨z, hcode⟩ := Zscii.exists_standsFor_char hch
    have hback : (c.zsciiOf ch).toNat = z := hextra.toNat_ofChar_of_standsFor hcode
    rw [hback]
    exact hextra.char?_of_standsFor hcode
  · obtain ⟨hprintable, hmem⟩ := not_or.mp hother
    have hfree : ¬ Zscii.IsFixed ch := by
      rintro (hfixed | hfixed | hfixed | hfixed)
      · exact hnull hfixed
      · exact hbreak hfixed
      · exact hreturn hfixed
      · exact hprintable hfixed
    rw [zsciiOf, Zscii.ofChar_of_not_isFixed hfree, Zscii.lastPosition?_of_not_mem hmem]
    rfl

/-- A story of version 5 whose header extension at `0x40` names a table of three extra characters at
`0x48`. -/
def greekStory : Memory :=
  .ofImage (5 :: List.replicate 14 (0 : UInt8) ++ 0x40 :: List.replicate 38 (0 : UInt8) ++
    [0, 0x40, 0, 0, 0, 0, 0, 0, 0, 0] ++ [0, 3, 0, 0, 0, 0, 0, 0x48] ++
    [3, 0x03, 0xB1, 0x03, 0xB2, 0x20, 0xAC, 0]).toArray

/-- A table of a story's own, with letters of another script and a sign. -/
theorem codes_reverse_greekStory :
    let c := Codec.ofStory greekStory (Header.fields greekStory)
    (Header.fields greekStory).unicodeTable = 0x48 ∧
      Zscii.Reversible (Zscii.extraOf greekStory (Header.fields greekStory)) ∧
      c.charset.extra = #['α', 'β', '€'] ∧
      (∃ ch, Zscii.char? c.charset.extra 156 = some ch ∧ (c.zsciiOf ch).toNat = 156) ∧
      Zscii.char? c.charset.extra (c.zsciiOf '€').toNat = some '€' ∧
      c.zsciiOf 'ä' = Zscii.asterisk := by
  intro c
  have hextra : Zscii.Reversible (Zscii.extraOf greekStory (Header.fields greekStory)) := by
    decide +kernel
  have hown : (Header.fields greekStory).unicodeTable = 0x48 := by decide +kernel
  have htable : c.charset.extra = #['α', 'β', '€'] := by decide +kernel
  obtain ⟨hcodes, hchars, hothers⟩ :=
    codes_reverse greekStory (Header.fields greekStory) fun _ => hextra
  have hplace : 156 < 155 + c.charset.extra.size := by
    rw [htable]
    decide
  have hsign : '€' ∈ c.charset.extra := by
    rw [htable]
    decide +kernel
  have hother : ¬ (Zscii.IsPrintable 'ä' ∨ 'ä' ∈ c.charset.extra) := by
    rw [htable]
    decide +kernel
  exact ⟨hown, hextra, htable, hcodes 156 (.inr ⟨by decide, hplace⟩), hchars '€' (.inr hsign),
    hothers 'ä' hother (by decide) (by decide) (by decide)⟩

end Codec
end Text
end ZMachine
