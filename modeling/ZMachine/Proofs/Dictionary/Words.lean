/-
# The words of a line

Which tokens a line is split into, said of the bytes of the line and not of the scanner.  A blank
belongs to no word, a separator other than a blank is a word of its own, and all other bytes form
words as long as they go.

* `Token.PlainAt`, `Token.MarkAt` : the bytes of longer words, and the separators that are words;
* `Token.IsRun` : a word that neither end can be made longer;
* `Token.Divides` : some tokens are all the words of a part of a line, in order;
* `Token.divides_splitFrom` : the scanner divides what is left of the line, from its open word on;
* `Token.mem_split_iff` : the tokens of a line are its words;
* `Token.StandsAlone` : bytes that are a word where they stand;
* `Token.split_divides_line` : what is promised of the words of a whole line.
-/
import Mathlib.Tactic.SplitIfs
import ZMachine.Dictionary.Tokens

namespace ZMachine
namespace Token

section
variable (isSeparator : UInt8 → Bool) (text : List UInt8)

/-! ## Words -/

/-- The byte at a position is neither a blank nor a separator. -/
def PlainAt (i : Nat) : Prop :=
  ∃ b, text[i]? = some b ∧ b ≠ blank ∧ isSeparator b = false

/-- The byte at a position is a separator and not a blank. -/
def MarkAt (i : Nat) : Prop :=
  ∃ b, text[i]? = some b ∧ b ≠ blank ∧ isSeparator b = true

/-- Some bytes in a row that are neither blanks nor separators, with no such byte before or after
them. -/
structure IsRun (t : Token) : Prop where
  nonempty : 0 < t.length
  plain : ∀ i, t.position ≤ i → i < t.position + t.length → PlainAt isSeparator text i
  starts : ∀ i, i + 1 = t.position → ¬ PlainAt isSeparator text i
  ends : ¬ PlainAt isSeparator text (t.position + t.length)

/-- A single separator or a run of other bytes. -/
def IsWord (t : Token) : Prop :=
  t.length = 1 ∧ MarkAt isSeparator text t.position ∨ IsRun isSeparator text t

/-- Some tokens are all the words between two positions, in order, and leave out only blanks. -/
structure Divides (low high : Nat) (words : List Token) : Prop where
  mem_iff : ∀ t, t ∈ words ↔
    IsWord isSeparator text t ∧ low ≤ t.position ∧ t.position + t.length ≤ high
  ordered : words.Pairwise fun t u => t.position + t.length ≤ u.position
  covered : ∀ i, low ≤ i → i < high → ∀ b, text[i]? = some b → b ≠ blank →
    ∃ t ∈ words, t.position ≤ i ∧ i < t.position + t.length

end

variable {isSeparator : UInt8 → Bool} {text : List UInt8} {i low middle high here : Nat}
  {b : UInt8} {t : Token} {words more : List Token} {start : Option Nat}

theorem PlainAt.lt_length (h : PlainAt isSeparator text i) : i < text.length := by
  obtain ⟨b, hb, -⟩ := h
  exact (List.getElem?_eq_some_iff.mp hb).1

theorem not_plainAt_iff (hb : text[i]? = some b) :
    ¬ PlainAt isSeparator text i ↔ b = blank ∨ isSeparator b = true := by
  constructor
  · intro h
    by_cases hblank : b = blank
    · exact Or.inl hblank
    by_cases hseparator : isSeparator b = true
    · exact Or.inr hseparator
    · exact absurd ⟨b, hb, hblank, Bool.eq_false_iff.mpr hseparator⟩ h
  · rintro hdivides ⟨c, hc, hne, hplain⟩
    obtain rfl : b = c := Option.some.inj (hb.symm.trans hc)
    exact hdivides.elim hne fun hseparator => Bool.false_ne_true (hplain.symm.trans hseparator)

theorem MarkAt.not_plainAt (h : MarkAt isSeparator text i) : ¬ PlainAt isSeparator text i := by
  obtain ⟨b, hb, -, hseparator⟩ := h
  exact (not_plainAt_iff hb).mpr (Or.inr hseparator)

theorem IsWord.length_pos (h : IsWord isSeparator text t) : 0 < t.length := by
  rcases h with ⟨hlength, -⟩ | hrun
  · exact hlength ▸ Nat.one_pos
  · exact hrun.nonempty

/-- A word begins with a byte that is no blank. -/
theorem IsWord.byte_at_position (h : IsWord isSeparator text t) :
    ∃ b, text[t.position]? = some b ∧ b ≠ blank := by
  rcases h with ⟨-, b, hb, hne, -⟩ | hrun
  · exact ⟨b, hb, hne⟩
  · have hlength := hrun.nonempty
    obtain ⟨b, hb, hne, -⟩ := hrun.plain t.position (Nat.le_refl _) (by omega)
    exact ⟨b, hb, hne⟩

theorem IsWord.end_le_length (h : IsWord isSeparator text t) :
    t.position + t.length ≤ text.length := by
  rcases h with ⟨hlength, b, hb, -⟩ | hrun
  · have hinside := (List.getElem?_eq_some_iff.mp hb).1
    omega
  · have hlength := hrun.nonempty
    have hlast := (hrun.plain (t.position + t.length - 1) (by omega) (by omega)).lt_length
    omega

/-- A word of more than one byte is a run, so it has plain bytes on both sides of any cut. -/
theorem IsWord.plainAt_of_inside (h : IsWord isSeparator text t) (hleft : t.position < i)
    (hright : i < t.position + t.length) :
    PlainAt isSeparator text (i - 1) ∧ PlainAt isSeparator text i := by
  rcases h with ⟨hlength, -⟩ | hrun
  · omega
  · exact ⟨hrun.plain _ (by omega) (by omega), hrun.plain _ (by omega) (by omega)⟩

/-! ## Parts of a line -/

theorem divides_nil : Divides isSeparator text low low [] where
  mem_iff t := by
    refine ⟨nofun, fun ⟨hword, hlow, hhigh⟩ => ?_⟩
    have hlength := hword.length_pos
    omega
  ordered := .nil
  covered i hlow hhigh := by omega

/-- A blank belongs to no word. -/
theorem divides_blank (h : text[i]? = some blank) : Divides isSeparator text i (i + 1) [] where
  mem_iff t := by
    refine ⟨nofun, fun ⟨hword, hlow, hhigh⟩ => ?_⟩
    have hlength := hword.length_pos
    obtain rfl : t.position = i := by omega
    obtain ⟨b, hb, hne⟩ := hword.byte_at_position
    exact absurd (Option.some.inj (hb.symm.trans h)) hne
  ordered := .nil
  covered j hlow hhigh b hb hne := by
    obtain rfl : j = i := by omega
    exact absurd (Option.some.inj (hb.symm.trans h)) hne

/-- A word is all there is from its beginning to its end. -/
theorem divides_word (h : IsWord isSeparator text t) :
    Divides isSeparator text t.position (t.position + t.length) [t] where
  mem_iff u := by
    rw [List.mem_singleton]
    constructor
    · rintro rfl
      exact ⟨h, Nat.le_refl _, Nat.le_refl _⟩
    · rintro ⟨hu, hlow, hhigh⟩
      have hlength := hu.length_pos
      -- a word that ended early or began late would leave a plain byte of `t` next to it
      have hposition : u.position = t.position := by
        refine Nat.le_antisymm (Nat.not_lt.mp fun hlate => ?_) hlow
        obtain ⟨hbefore, hat⟩ := h.plainAt_of_inside hlate (by omega)
        rcases hu with ⟨-, hmark⟩ | hrun
        · exact hmark.not_plainAt hat
        · exact hrun.starts _ (by omega) hbefore
      have hend : u.position + u.length = t.position + t.length := by
        refine Nat.le_antisymm hhigh (Nat.not_lt.mp fun hearly => ?_)
        obtain ⟨hbefore, hat⟩ := h.plainAt_of_inside (by omega) hearly
        rcases hu with ⟨hone, hmark⟩ | hrun
        · rw [hone, Nat.add_sub_cancel] at hbefore
          exact hmark.not_plainAt hbefore
        · exact hrun.ends hat
      exact (mk.injEq _ _ _ _).mpr ⟨hposition, by omega⟩
  ordered := List.pairwise_singleton _ _
  covered i hlow hhigh _ _ _ := ⟨t, List.mem_singleton_self t, hlow, hhigh⟩

/-- The words of two parts are those of the whole, if no run goes on over the cut. -/
theorem Divides.append (hfirst : Divides isSeparator text low middle words)
    (hsecond : Divides isSeparator text middle high more) (hlow : low ≤ middle)
    (hhigh : middle ≤ high)
    (hcut : ∀ i, i + 1 = middle → PlainAt isSeparator text i → ¬ PlainAt isSeparator text middle) :
    Divides isSeparator text low high (words ++ more) where
  mem_iff t := by
    rw [List.mem_append, hfirst.mem_iff, hsecond.mem_iff]
    constructor
    · rintro (⟨hword, hleft, hright⟩ | ⟨hword, hleft, hright⟩)
      · exact ⟨hword, hleft, by omega⟩
      · exact ⟨hword, by omega, hright⟩
    · rintro ⟨hword, hleft, hright⟩
      by_cases hbefore : t.position + t.length ≤ middle
      · exact Or.inl ⟨hword, hleft, hbefore⟩
      by_cases hafter : middle ≤ t.position
      · exact Or.inr ⟨hword, hafter, hright⟩
      · obtain ⟨hplain, hplain'⟩ := hword.plainAt_of_inside (i := middle) (by omega) (by omega)
        exact absurd hplain' (hcut _ (by omega) hplain)
  ordered := by
    refine List.pairwise_append.mpr ⟨hfirst.ordered, hsecond.ordered, fun t ht u hu => ?_⟩
    have hend := ((hfirst.mem_iff t).mp ht).2.2
    have hposition := ((hsecond.mem_iff u).mp hu).2.1
    omega
  covered i hleft hright b hb hne := by
    by_cases hbefore : i < middle
    · obtain ⟨t, ht, hinside⟩ := hfirst.covered i hleft hbefore b hb hne
      exact ⟨t, List.mem_append_left _ ht, hinside⟩
    · obtain ⟨t, ht, hinside⟩ := hsecond.covered i (by omega) hright b hb hne
      exact ⟨t, List.mem_append_right _ ht, hinside⟩

/-! ## The scanner -/

/-- What the scanner knows at a position: since the beginning of the open word, if there is one, all
bytes were plain, and there is no such byte before it. -/
structure Scanned (isSeparator : UInt8 → Bool) (text : List UInt8) (here : Nat)
    (start : Option Nat) : Prop where
  before : ∀ s, start = some s → s < here
  plain : ∀ i, start.getD here ≤ i → i < here → PlainAt isSeparator text i
  starts : ∀ i, i + 1 = start.getD here → ¬ PlainAt isSeparator text i

theorem scanned_zero : Scanned isSeparator text 0 none where
  before := nofun
  plain i _ hi := absurd hi (Nat.not_lt_zero i)
  starts i hi := absurd hi (Nat.succ_ne_zero i)

/-- After a byte that is not plain no word is open. -/
theorem scanned_succ (h : ¬ PlainAt isSeparator text here) :
    Scanned isSeparator text (here + 1) none where
  before := nofun
  plain i hleft hright := absurd hright (Nat.not_lt.mpr hleft)
  starts i hi := by
    obtain rfl : i = here := Nat.succ.inj hi
    exact h

theorem Scanned.start_le (h : Scanned isSeparator text here start) : start.getD here ≤ here := by
  cases start with
  | none => exact Nat.le_refl here
  | some s => exact Nat.le_of_lt (h.before s rfl)

theorem Scanned.getD_or (start : Option Nat) (here : Nat) :
    (start.or (some here)).getD (here + 1) = start.getD here := by
  cases start <;> rfl

/-- A plain byte opens a word or goes on with the one that is open. -/
theorem Scanned.extend (h : Scanned isSeparator text here start)
    (hplain : PlainAt isSeparator text here) :
    Scanned isSeparator text (here + 1) (start.or (some here)) where
  before s hs := by
    have hle := h.start_le
    have hstart := getD_or start here
    rw [hs] at hstart
    have : s = start.getD here := hstart
    omega
  plain i hleft hright := by
    rw [getD_or] at hleft
    by_cases hi : i = here
    · exact hi ▸ hplain
    · exact h.plain i hleft (by omega)
  starts i hi := by
    rw [getD_or] at hi
    exact h.starts i hi

/-- The open word ends where the next byte is not plain. -/
theorem Scanned.divides_closing (h : Scanned isSeparator text here start)
    (hend : ¬ PlainAt isSeparator text here) :
    Divides isSeparator text (start.getD here) here (closing start here) := by
  cases start with
  | none => exact divides_nil
  | some s =>
      have hs : s < here := h.before s rfl
      have hright : s + (here - s) = here := Nat.add_sub_cancel' (Nat.le_of_lt hs)
      have hrun : IsRun isSeparator text ⟨s, here - s⟩ :=
        { nonempty := Nat.sub_pos_of_lt hs
          plain := fun i hleft hi => h.plain i hleft (by rw [hright] at hi; exact hi)
          starts := h.starts
          ends := by rw [hright]; exact hend }
      have hword := divides_word (t := ⟨s, here - s⟩) (Or.inr hrun)
      rw [hright] at hword
      exact hword

/-- The same with what comes after that byte. -/
theorem Scanned.divides_past (h : Scanned isSeparator text here start)
    (hend : ¬ PlainAt isSeparator text here) (hbyte : Divides isSeparator text here (here + 1) words)
    (hmore : Divides isSeparator text (here + 1) high more) (hhigh : here + 1 ≤ high) :
    Divides isSeparator text (start.getD here) high (closing start here ++ (words ++ more)) := by
  have hafter : Divides isSeparator text here high (words ++ more) := by
    refine hbyte.append hmore (Nat.le_succ here) hhigh fun i hi hplain => ?_
    obtain rfl : i = here := Nat.succ.inj hi
    exact absurd hplain hend
  exact (h.divides_closing hend).append hafter h.start_le (by omega) fun _ _ _ => hend

/-- **The scanner divides what is left of a line**, from the beginning of the open word on.  The
induction is on what is left. -/
theorem divides_splitFrom {rest : List UInt8} (h : Scanned isSeparator text here start)
    (hrest : text.drop here = rest) (hlength : text.length = here + rest.length) :
    Divides isSeparator text (start.getD here) text.length
      (splitFrom isSeparator here start rest) := by
  induction rest generalizing here start with
  | nil =>
      have hend : ¬ PlainAt isSeparator text here := by
        intro hplain
        have := hplain.lt_length
        rw [List.length_nil] at hlength
        omega
      rw [hlength]
      exact h.divides_closing hend
  | cons b rest ih =>
      have hbyte : text[here]? = some b := by
        rw [← Nat.add_zero here, ← List.getElem?_drop, hrest]
        rfl
      have hdrop : text.drop (here + 1) = rest := by
        rw [← List.drop_drop, hrest]
        rfl
      rw [List.length_cons] at hlength
      unfold splitFrom
      split_ifs with hblank hseparator
      · have hend : ¬ PlainAt isSeparator text here := (not_plainAt_iff hbyte).mpr (Or.inl hblank)
        have hnext := ih (scanned_succ hend) hdrop (by omega)
        exact h.divides_past hend (divides_blank (hblank ▸ hbyte)) hnext (by omega)
      · have hmark : MarkAt isSeparator text here := ⟨b, hbyte, hblank, hseparator⟩
        have hword : IsWord isSeparator text ⟨here, 1⟩ := Or.inl ⟨rfl, hmark⟩
        have hnext := ih (scanned_succ hmark.not_plainAt) hdrop (by omega)
        exact h.divides_past hmark.not_plainAt (divides_word hword) hnext (by omega)
      · have hplain : PlainAt isSeparator text here :=
          ⟨b, hbyte, hblank, Bool.eq_false_iff.mpr hseparator⟩
        have hnext := ih (h.extend hplain) hdrop (by omega)
        rw [Scanned.getD_or] at hnext
        exact hnext

theorem divides_split (isSeparator : UInt8 → Bool) (text : List UInt8) :
    Divides isSeparator text 0 text.length (split isSeparator text) :=
  divides_splitFrom scanned_zero rfl (Nat.zero_add _).symm

/-- The words of a line are its separators, blanks apart, and its runs of other bytes. -/
theorem mem_split_iff : t ∈ split isSeparator text ↔ IsWord isSeparator text t := by
  rw [(divides_split isSeparator text).mem_iff]
  exact ⟨fun h => h.1, fun h => ⟨h, Nat.zero_le _, h.end_le_length⟩⟩

/-- Words are not empty and lie in the line. -/
theorem bounds_of_mem_split (ht : t ∈ split isSeparator text) :
    0 < t.length ∧ t.position + t.length ≤ text.length :=
  ⟨(mem_split_iff.mp ht).length_pos, (mem_split_iff.mp ht).end_le_length⟩

/-- Some bytes of a line are plain, and what comes before and after them is not. -/
structure StandsAlone (isSeparator : UInt8 → Bool) (before word after : List UInt8) : Prop where
  nonempty : word ≠ []
  plain : ∀ b ∈ word, b ≠ blank ∧ isSeparator b = false
  left : ∀ b, before.getLast? = some b → b = blank ∨ isSeparator b = true
  right : ∀ b, after.head? = some b → b = blank ∨ isSeparator b = true

section
variable {before word after : List UInt8}

theorem StandsAlone.take (h : StandsAlone isSeparator before word after) (n : Nat) :
    StandsAlone isSeparator before word (after.take n) where
  nonempty := h.nonempty
  plain := h.plain
  left := h.left
  right b hb := by
    rw [List.head?_take] at hb
    split at hb
    · cases hb
    · exact h.right b hb

/-- Bytes that stand alone are a word of the line. -/
theorem StandsAlone.mem_split (h : StandsAlone isSeparator before word after) :
    ⟨before.length, word.length⟩ ∈ split isSeparator (before ++ (word ++ after)) := by
  refine mem_split_iff.mpr (Or.inr ⟨List.length_pos_iff.mpr h.nonempty, ?_, ?_, ?_⟩)
  · intro i (hleft : before.length ≤ i) (hright : i < before.length + word.length)
    have hi : i - before.length < word.length := by omega
    refine ⟨word[i - before.length], ?_, h.plain _ (List.getElem_mem hi)⟩
    rw [List.getElem?_append_right hleft, List.getElem?_append_left hi, List.getElem?_eq_getElem hi]
  · rintro i (hi : i + 1 = before.length) hplain
    have hbyte : (before ++ (word ++ after))[i]? = before.getLast? := by
      rw [List.getElem?_append_left (by omega), List.getLast?_eq_getElem?]
      exact congrArg (before[·]?) (by omega)
    obtain ⟨b, hb, -⟩ := id hplain
    exact (not_plainAt_iff hb).mpr (h.left b (hbyte.symm.trans hb)) hplain
  · intro hplain
    have hbyte : (before ++ (word ++ after))[before.length + word.length]? = after.head? := by
      rw [List.getElem?_append_right (by omega), List.getElem?_append_right (by omega),
        List.head?_eq_getElem?]
      exact congrArg (after[·]?) (by omega)
    obtain ⟨b, hb, -⟩ := id hplain
    exact (not_plainAt_iff hb).mpr (h.right b (hbyte.symm.trans hb)) hplain

end

/-- **The words divide the line.**  Whatever the bytes and the separators are, the words follow one
another in the line and do not overlap, they take up all bytes that are no blanks and no others,
every separator other than a blank is a word, and every other word is a run of bytes that are
neither blanks nor separators and cannot be made longer. -/
theorem split_divides_line (isSeparator : UInt8 → Bool) (text : List UInt8) :
    let words := split isSeparator text
    (words.Pairwise fun t u => t.position < u.position ∧ t.position + t.length ≤ u.position) ∧
      (∀ t ∈ words, t.position + t.length ≤ text.length) ∧
      (∀ i b, text[i]? = some b →
        (b ≠ blank ↔ ∃ t ∈ words, t.position ≤ i ∧ i < t.position + t.length)) ∧
      (∀ i b, text[i]? = some b → b ≠ blank → isSeparator b = true → ⟨i, 1⟩ ∈ words) ∧
      ∀ t ∈ words,
        (∃ b, text[t.position]? = some b ∧ b ≠ blank ∧ isSeparator b = true ∧ t.length = 1) ∨
        0 < t.length ∧
          (∀ i, t.position ≤ i → i < t.position + t.length →
            ∃ b, text[i]? = some b ∧ b ≠ blank ∧ isSeparator b = false) ∧
          (∀ i b, i + 1 = t.position ∨ i = t.position + t.length → text[i]? = some b →
            b = blank ∨ isSeparator b = true) := by
  intro words
  have hdivides := divides_split isSeparator text
  refine ⟨?_, fun t ht => (bounds_of_mem_split ht).2, fun i b hb => ⟨fun hne => ?_, ?_⟩,
    fun i b hb hne hseparator => ?_, fun t ht => ?_⟩
  · refine hdivides.ordered.imp_of_mem fun ht _ hend => ⟨?_, hend⟩
    have hlength := (bounds_of_mem_split ht).1
    omega
  · exact hdivides.covered i (Nat.zero_le i) (List.getElem?_eq_some_iff.mp hb).1 b hb hne
  · rintro ⟨t, ht, hleft, hright⟩ rfl
    rcases mem_split_iff.mp ht with ⟨hlength, c, hc, hne, -⟩ | hrun
    · obtain rfl : t.position = i := by omega
      exact hne (Option.some.inj (hc.symm.trans hb))
    · exact (not_plainAt_iff hb).mpr (Or.inl rfl) (hrun.plain i hleft hright)
  · exact mem_split_iff.mpr (Or.inl ⟨rfl, b, hb, hne, hseparator⟩)
  · rcases mem_split_iff.mp ht with ⟨hlength, b, hb, hne, hseparator⟩ | hrun
    · exact Or.inl ⟨b, hb, hne, hseparator, hlength⟩
    · refine Or.inr ⟨hrun.nonempty, hrun.plain, fun i b hi hb => ?_⟩
      have hnot : ¬ PlainAt isSeparator text i := by
        rcases hi with hi | rfl
        · exact hrun.starts i hi
        · exact hrun.ends
      exact (not_plainAt_iff hb).mp hnot

/-- Blanks and separators next to each other, and a last word that the end of the line closes. -/
example : split (· = 44) [97, 32, 44, 44, 98, 99] = [⟨0, 1⟩, ⟨2, 1⟩, ⟨3, 1⟩, ⟨4, 2⟩] := by
  decide

end Token
end ZMachine
