/-
# Rows of a line

What a line looks like in rows.  The words of a line are set one after the other: on the open row
if they fit there, otherwise at the front of a new one.  Words between two blanks that follow each
other are empty, and they are set like the others, so a run of blanks takes the place it has.

* `pieces_concat`, `length_le_of_mem_pieces`, `flatten_pieces` : a word cut to the width;
* `length_le_of_mem_wrapWords`, `withoutBlanks_wrapWords` : rows respect the width and keep the text;
* `wrapWords_append` : the rows of the first words stay, but for the open one;
* `Sets` : how the rows go on with one more word;
* `wrap_sets_words` : the rows of a line.
-/
import ZMachine.Terminal.Wrap

namespace ZMachine
namespace Terminal

/-! ## Words -/

/-- A text without its blanks. -/
def withoutBlanks (text : List Char) : List Char :=
  text.filter (· ≠ ' ')

@[simp]
theorem withoutBlanks_nil : withoutBlanks [] = [] := rfl

@[simp]
theorem withoutBlanks_append (s t : List Char) :
    withoutBlanks (s ++ t) = withoutBlanks s ++ withoutBlanks t :=
  List.filter_append s t

@[simp]
theorem withoutBlanks_blank_cons (s : List Char) : withoutBlanks (' ' :: s) = withoutBlanks s := rfl

theorem fields_eq_splitOn (mark : Char) (text : List Char) :
    fields mark text = text.splitOn mark := by
  induction text with
  | nil => rfl
  | cons c cs ih =>
      rw [List.splitOn_cons_eq_if_modifyHead, fields, ih]
      by_cases hc : c = mark
      · simp [hc]
      · obtain ⟨f, fs, hfields⟩ := List.exists_cons_of_ne_nil (List.splitOn_ne_nil mark cs)
        simp [hc, hfields]

theorem fields_ne_nil (mark : Char) (text : List Char) : fields mark text ≠ [] := by
  rw [fields_eq_splitOn]
  exact List.splitOn_ne_nil mark text

theorem flatten_fields (mark : Char) (text : List Char) :
    (fields mark text).flatten = text.filter (· ≠ mark) := by
  induction text with
  | nil => rfl
  | cons c cs ih =>
      rw [fields]
      by_cases hc : c = mark
      · simpa [hc] using ih
      · obtain ⟨f, fs, hfields⟩ := List.exists_cons_of_ne_nil (fields_ne_nil mark cs)
        rw [hfields] at ih ⊢
        simpa [hc] using ih

theorem not_mem_of_mem_fields {mark : Char} {text field : List Char}
    (h : field ∈ fields mark text) : mark ∉ field := by
  intro hmark
  have hflat : mark ∈ (fields mark text).flatten := List.mem_flatten_of_mem h hmark
  rw [flatten_fields] at hflat
  simp at hflat

/-! ## One word -/

section
variable {width : Nat} {row word : List Char} {rest : List (List Char)}

theorem joinWord_of_ne_nil (h : row ≠ []) (word : List Char) :
    joinWord row word = row ++ ' ' :: word := by
  unfold joinWord
  rw [if_neg (by simpa using h)]

theorem prefix_joinWord (row word : List Char) : row <+: joinWord row word := by
  by_cases h : row = []
  · rw [h]
    exact List.nil_prefix
  · rw [joinWord_of_ne_nil h]
    exact List.prefix_append row _

theorem suffix_joinWord (row word : List Char) : word <:+ joinWord row word := by
  by_cases h : row = []
  · rw [h]
    exact List.suffix_refl word
  · rw [joinWord_of_ne_nil h]
    exact ⟨row ++ [' '], by simp⟩

@[simp]
theorem withoutBlanks_joinWord (row word : List Char) :
    withoutBlanks (joinWord row word) = withoutBlanks row ++ withoutBlanks word := by
  by_cases h : row = []
  · rw [h]
    rfl
  · simp [joinWord_of_ne_nil h]

@[simp]
theorem flatten_closedRow (row : List Char) : (closedRow row).flatten = row := by
  by_cases h : row = [] <;> simp [closedRow, h]

theorem eq_of_mem_closedRow {r : List Char} (h : r ∈ closedRow row) : r = row := by
  unfold closedRow at h
  split at h
  · cases h
  · exact List.mem_singleton.mp h

/-- A word is one piece if it fits into a row. -/
theorem pieces_of_le (hw : 1 ≤ width) (h : word.length ≤ width) : pieces width word = [word] := by
  rw [pieces, if_pos (by omega)]

/-- A longer word is cut at the width. -/
theorem pieces_of_lt (hw : 1 ≤ width) (h : width < word.length) :
    pieces width word = word.take width :: pieces width (word.drop width) := by
  rw [pieces, if_neg (by omega), Nat.max_eq_left hw]

theorem pieces_ne_nil (width : Nat) (word : List Char) : pieces width word ≠ [] := by
  rw [pieces]
  split
  · exact List.cons_ne_nil _ _
  · exact List.cons_ne_nil _ _

/-- The last piece stays open, the others are rows. -/
theorem pieces_concat (width : Nat) (word : List Char) :
    (pieces width word).dropLast ++ [(pieces width word).getLastD []] = pieces width word := by
  have hne := pieces_ne_nil width word
  rw [List.getLastD_eq_getLast?, List.getLast?_eq_some_getLast hne]
  exact List.dropLast_concat_getLast hne

theorem length_le_of_mem_pieces (hw : 1 ≤ width) {piece : List Char}
    (h : piece ∈ pieces width word) : piece.length ≤ width := by
  induction word using pieces.induct width with
  | case1 word hle =>
      rw [pieces_of_le hw (by omega), List.mem_singleton] at h
      rw [h]
      omega
  | case2 word hgt ih =>
      rw [Nat.max_eq_left hw] at ih
      rw [pieces_of_lt hw (by omega)] at h
      obtain rfl | hrest := List.mem_cons.mp h
      · exact List.length_take_le width word
      · exact ih hrest

theorem flatten_pieces (hw : 1 ≤ width) (word : List Char) :
    (pieces width word).flatten = word := by
  induction word using pieces.induct width with
  | case1 word hle =>
      rw [pieces_of_le hw (by omega)]
      exact List.append_nil word
  | case2 word hgt ih =>
      rw [Nat.max_eq_left hw] at ih
      rw [pieces_of_lt hw (by omega), List.flatten_cons, ih, List.take_append_drop]

/-- A word that fits joins the open row. -/
theorem wrapWords_cons_of_fits (h : (joinWord row word).length ≤ width) :
    wrapWords width row (word :: rest) = wrapWords width (joinWord row word) rest := by
  rw [wrapWords, if_pos h]

/-- A word that does not fit closes the open row, and its last piece is open after it. -/
theorem wrapWords_cons_of_not_fits (h : ¬ (joinWord row word).length ≤ width) :
    wrapWords width row (word :: rest) =
      closedRow row ++ (pieces width word).dropLast ++
        wrapWords width ((pieces width word).getLastD []) rest := by
  rw [wrapWords, if_neg h]

end

/-! ## A run of words -/

section
variable {width : Nat}

/-- No row is wider than the width. -/
theorem length_le_of_mem_wrapWords (hw : 1 ≤ width) {row : List Char} (hrow : row.length ≤ width)
    (words : List (List Char)) {r : List Char} (h : r ∈ wrapWords width row words) :
    r.length ≤ width := by
  induction words generalizing row with
  | nil =>
      rw [wrapWords, List.mem_singleton] at h
      rw [h]
      exact hrow
  | cons word rest ih =>
      by_cases hfits : (joinWord row word).length ≤ width
      · rw [wrapWords_cons_of_fits hfits] at h
        exact ih hfits h
      · have hlast : (pieces width word).getLastD [] ∈ pieces width word := by
          rw [← pieces_concat width word]
          simp
        rw [wrapWords_cons_of_not_fits hfits, List.mem_append, List.mem_append] at h
        obtain (hclosed | hpiece) | hlater := h
        · rw [eq_of_mem_closedRow hclosed]
          exact hrow
        · exact length_le_of_mem_pieces hw ((List.dropLast_sublist _).subset hpiece)
        · exact ih (length_le_of_mem_pieces hw hlast) hlater

/-- Nothing of the text is lost but blanks. -/
theorem withoutBlanks_wrapWords (hw : 1 ≤ width) (row : List Char) (words : List (List Char)) :
    withoutBlanks (wrapWords width row words).flatten =
      withoutBlanks row ++ withoutBlanks words.flatten := by
  induction words generalizing row with
  | nil => simp [wrapWords]
  | cons word rest ih =>
      by_cases hfits : (joinWord row word).length ≤ width
      · rw [wrapWords_cons_of_fits hfits, ih]
        simp
      · have hword : (pieces width word).dropLast.flatten ++ (pieces width word).getLastD [] =
            word := by
          have hall := congrArg List.flatten (pieces_concat width word)
          rw [flatten_pieces hw] at hall
          simpa using hall
        have hblanks := congrArg withoutBlanks hword
        rw [withoutBlanks_append] at hblanks
        rw [wrapWords_cons_of_not_fits hfits]
        simp [ih, ← hblanks]

/-- The open row is where the first row of the words after it begins. -/
theorem wrapWords_eq_cons (width : Nat) (row : List Char) (words : List (List Char)) :
    ∃ rest later, wrapWords width row words = (row ++ rest) :: later := by
  induction words generalizing row with
  | nil => exact ⟨[], [], by simp [wrapWords]⟩
  | cons word words ih =>
      by_cases hfits : (joinWord row word).length ≤ width
      · obtain ⟨rest, later, hrows⟩ := ih (joinWord row word)
        obtain ⟨joined, hjoined⟩ := prefix_joinWord row word
        refine ⟨joined ++ rest, later, ?_⟩
        rw [wrapWords_cons_of_fits hfits, hrows, ← hjoined, List.append_assoc]
      · rw [wrapWords_cons_of_not_fits hfits]
        obtain ⟨rest, later, hrows⟩ := ih ((pieces width word).getLastD [])
        rw [hrows]
        by_cases hrow : row = []
        · -- nothing is closed, and the empty row is where any row begins
          obtain ⟨first, others, hcons⟩ := List.exists_cons_of_ne_nil
            (List.append_ne_nil_of_right_ne_nil (pieces width word).dropLast
              (List.cons_ne_nil ((pieces width word).getLastD [] ++ rest) later))
          rw [hrow]
          exact ⟨first, others, hcons⟩
        · rw [closedRow, if_neg (by simpa using hrow), List.append_assoc]
          exact ⟨[], _, by rw [List.append_nil]; rfl⟩

/-- **The rows of the first words stay** when words follow, but for the last row, which is open. -/
theorem wrapWords_append (width : Nat) (row : List Char) (first words : List (List Char)) :
    ∃ done last, wrapWords width row first = done ++ [last] ∧
      wrapWords width row (first ++ words) = done ++ wrapWords width last words := by
  induction first generalizing row with
  | nil => exact ⟨[], row, rfl, rfl⟩
  | cons word first ih =>
      rw [List.cons_append]
      by_cases hfits : (joinWord row word).length ≤ width
      · rw [wrapWords_cons_of_fits hfits, wrapWords_cons_of_fits hfits]
        exact ih (joinWord row word)
      · obtain ⟨done, last, hfirst, hall⟩ := ih ((pieces width word).getLastD [])
        refine ⟨closedRow row ++ (pieces width word).dropLast ++ done, last, ?_, ?_⟩
        · rw [wrapWords_cons_of_not_fits hfits, hfirst, List.append_assoc _ done]
        · rw [wrapWords_cons_of_not_fits hfits, hall, List.append_assoc _ done]

/-- The first of the rows that a word gives by itself begins with as much of it as there is room
for. -/
theorem pieces_append_wrapWords_eq_cons (hw : 1 ≤ width) (word : List Char)
    (words : List (List Char)) :
    ∃ rest later, (pieces width word).dropLast ++
      wrapWords width ((pieces width word).getLastD []) words = (word.take width ++ rest) :: later := by
  obtain hlt | hle := Nat.lt_or_ge width word.length
  · obtain ⟨piece, others, hpieces⟩ :=
      List.exists_cons_of_ne_nil (pieces_ne_nil width (word.drop width))
    rw [pieces_of_lt hw hlt, hpieces, List.dropLast_cons_cons, List.cons_append]
    exact ⟨[], _, by rw [List.append_nil]⟩
  · rw [pieces_of_le hw hle, List.take_of_length_le hle]
    exact wrapWords_eq_cons width word words

end

/-! ## Rows and words -/

/-- How the rows go on with a word after an open row.  If the word fits it joins the row, with a
blank between them.  Otherwise the row is closed, unless it is empty, and the word starts the row
after it, as far as it has room there. -/
inductive Sets (width : Nat) (row word : List Char) : List (List Char) → Prop
  | joins (rest : List Char) (later : List (List Char)) :
      (joinWord row word).length ≤ width →
      Sets width row word ((joinWord row word ++ rest) :: later)
  | starts (rest : List Char) (later : List (List Char)) :
      width < (joinWord row word).length →
      Sets width row word (closedRow row ++ (word.take width ++ rest) :: later)

/-- A word that is not longer than a row is in one. -/
theorem Sets.exists_infix {width : Nat} {row word : List Char} {rows : List (List Char)}
    (h : Sets width row word rows) (hword : word.length ≤ width) : ∃ r ∈ rows, word <:+: r := by
  cases h with
  | joins rest later hfits =>
      refine ⟨_, List.mem_cons_self, ?_⟩
      exact (suffix_joinWord row word).isInfix.trans (List.prefix_append _ rest).isInfix
  | starts rest later hlong =>
      refine ⟨word.take width ++ rest, by simp, ?_⟩
      rw [List.take_of_length_le hword]
      exact (List.prefix_append word rest).isInfix

/-- Every word is set after the rows of the words before it. -/
theorem sets_wrapWords {width : Nat} (hw : 1 ≤ width) (row word : List Char)
    (words : List (List Char)) : Sets width row word (wrapWords width row (word :: words)) := by
  by_cases hfits : (joinWord row word).length ≤ width
  · obtain ⟨rest, later, hrows⟩ := wrapWords_eq_cons width (joinWord row word) words
    rw [wrapWords_cons_of_fits hfits, hrows]
    exact .joins rest later hfits
  · obtain ⟨rest, later, hrows⟩ := pieces_append_wrapWords_eq_cons hw word words
    rw [wrapWords_cons_of_not_fits hfits, List.append_assoc, hrows]
    exact .starts rest later (Nat.lt_of_not_le hfits)

/-- The rows of some words are those of the line that has them with blanks between. -/
theorem wrap_intercalate (width : Nat) {words : List (List Char)} (h : ∀ word ∈ words, ' ' ∉ word) :
    wrap width ([' '].intercalate words) = wrapWords (max width 1) [] words := by
  cases words with
  | nil =>
      show wrapWords (max width 1) [] [[]] = [[]]
      rw [wrapWords_cons_of_fits (Nat.zero_le _)]
      rfl
  | cons word rest =>
      rw [wrap, fields_eq_splitOn, List.splitOn_intercalate ' ' h (List.cons_ne_nil word rest)]

/-- **The rows of a line.**  For every line and every width, of which zero counts as one, there is a
row; no row is wider than the width; the rows hold the text of the line, but for blanks; and a word
between blanks that is not longer than a row is whole in one of them.  Every word is set where the
rows of the words before it end: on the last of those rows if it fits there, and only otherwise at
the front of a new one. -/
theorem wrap_sets_words (width : Nat) (line : List Char) :
    wrap width line ≠ [] ∧ (∀ row ∈ wrap width line, row.length ≤ max width 1) ∧
      withoutBlanks (wrap width line).flatten = withoutBlanks line ∧
      (∀ word ∈ line.splitOn ' ', word.length ≤ max width 1 →
        ∃ row ∈ wrap width line, word <:+: row) ∧
      ∀ before word after, line.splitOn ' ' = before ++ word :: after →
        ∃ done row next, wrap width ([' '].intercalate before) = done ++ [row] ∧
          wrap width line = done ++ next ∧ Sets (max width 1) row word next := by
  have hw : 1 ≤ max width 1 := Nat.le_max_right width 1
  have hsets : ∀ before word after, line.splitOn ' ' = before ++ word :: after →
      ∃ done row next, wrap width ([' '].intercalate before) = done ++ [row] ∧
        wrap width line = done ++ next ∧ Sets (max width 1) row word next := by
    intro before word after hline
    have hblank : ∀ field ∈ before, ' ' ∉ field := by
      intro field hfield
      have hline' : field ∈ fields ' ' line := by
        rw [fields_eq_splitOn, hline]
        exact List.mem_append_left _ hfield
      exact not_mem_of_mem_fields hline'
    obtain ⟨done, row, hbefore, hall⟩ :=
      wrapWords_append (max width 1) [] before (word :: after)
    refine ⟨done, row, wrapWords (max width 1) row (word :: after), ?_, ?_, ?_⟩
    · rw [wrap_intercalate width hblank, hbefore]
    · rw [wrap, fields_eq_splitOn, hline, hall]
    · exact sets_wrapWords hw row word after
  refine ⟨?_, fun row hrow => ?_, ?_, fun word hword hlength => ?_, hsets⟩
  · obtain ⟨rest, later, hrows⟩ := wrapWords_eq_cons (max width 1) [] (fields ' ' line)
    rw [wrap, hrows]
    exact List.cons_ne_nil _ _
  · exact length_le_of_mem_wrapWords hw (Nat.zero_le _) _ hrow
  · rw [wrap, withoutBlanks_wrapWords hw, flatten_fields]
    simp [withoutBlanks]
  · obtain ⟨before, after, hline⟩ := List.append_of_mem hword
    obtain ⟨done, row, next, -, hrows, hnext⟩ := hsets before word after hline
    obtain ⟨r, hr, hinfix⟩ := hnext.exists_infix hlength
    exact ⟨r, hrows ▸ List.mem_append_right done hr, hinfix⟩

/-- A word that is cut, one that does not fit after its last piece, and an empty word between two
blanks that joins it. -/
example : (wrap 3 "abcde fg  h".toList).map String.ofList = ["abc", "de", "fg ", "h"] := by
  decide +kernel

end Terminal
end ZMachine
