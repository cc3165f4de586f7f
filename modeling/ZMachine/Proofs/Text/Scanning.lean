/-
# Reading a string word by word

Reading a string goes through its words and their codes, and where a code names an abbreviation
another string is read in between.  Here that is a loop: its state is the string that is being read
and those that wait for it, and a pass takes one code, reads one word or gives a finished text to
the string that waits.

* `StringEndsAt`, `packedWords_end` : where a string ends;
* `Scan` : a string of which a part has been read;
* `Codec.scanPass` : one pass;
* `Codec.ends_scan` : the loop ends, and with the string as `Codec.read` has it;
* `Codec.waiting_le_one` : an abbreviation is read while one string waits, and never deeper.
-/
import Mathlib.Algebra.Ring.Nat
import ZMachine.Proofs.Loop
import ZMachine.Proofs.Text.Locality

namespace ZMachine
namespace Text

/-! ## The end of a string -/

/-- A string with a word at an address goes no further: the word has the stop bit, or the image
ends with it. -/
def StringEndsAt (m : Memory) (address : Nat) : Prop :=
  isLastWord (m.wordAt address) ∨ m.size ≤ address + 2

instance (m : Memory) (address : Nat) : Decidable (StringEndsAt m address) :=
  inferInstanceAs (Decidable (_ ∨ _))

theorem packedWords_of_endsAt {m : Memory} {address : Nat} (h : StringEndsAt m address) :
    packedWords m address = ([m.wordAt address], address + 2) := by
  rw [packedWords]
  exact if_pos h

theorem packedWords_of_not_endsAt {m : Memory} {address : Nat} (h : ¬ StringEndsAt m address) :
    packedWords m address =
      (m.wordAt address :: (packedWords m (address + 2)).1, (packedWords m (address + 2)).2) := by
  rw [packedWords]
  exact if_neg h

/-- **The end of a string** is the address after the first of its words that it goes no further
than. -/
theorem packedWords_end (m : Memory) (address : Nat) :
    ∃ k, StringEndsAt m (address + 2 * k) ∧ (∀ j < k, ¬ StringEndsAt m (address + 2 * j)) ∧
      (packedWords m address).2 = address + 2 * k + 2 := by
  induction address using packedWords.induct m with
  | case1 address word h =>
      refine ⟨0, h, fun j hj => absurd hj (Nat.not_lt_zero j), ?_⟩
      rw [packedWords_of_endsAt h]
  | case2 address word h ih =>
      obtain ⟨k, hlast, hbefore, hend⟩ := ih
      refine ⟨k + 1, ?_, fun j hj => ?_, ?_⟩
      · rwa [show address + 2 * (k + 1) = address + 2 + 2 * k by omega]
      · cases j with
        | zero => exact h
        | succ j =>
            rw [show address + 2 * (j + 1) = address + 2 + 2 * j by omega]
            exact hbefore j (by omega)
      · rw [packedWords_of_not_endsAt h, hend]
        omega

/-! ## Strings that are being read -/

/-- A string of which a part has been read. -/
structure Scan where
  /-- Whether abbreviations in it are read; those inside an abbreviation are not. -/
  nests : Bool
  /-- The word that was read last. -/
  word : UInt16
  /-- The codes of that word that are still to be taken. -/
  codes : List ZChar
  /-- The address after that word. -/
  cursor : Nat
  reader : Reader
  text : List Char
  deriving DecidableEq, Repr

namespace Scan

/-- The word that was read last is the last one of the string. -/
def IsOver (m : Memory) (s : Scan) : Prop :=
  isLastWord s.word ∨ m.size ≤ s.cursor

instance (m : Memory) (s : Scan) : Decidable (s.IsOver m) :=
  inferInstanceAs (Decidable (_ ∨ _))

/-- Reads the next word. -/
def readWord (m : Memory) (s : Scan) : Scan :=
  { s with
    word := m.wordAt s.cursor
    codes := codesOfWord (m.wordAt s.cursor)
    cursor := s.cursor + 2 }

/-- The string at an address after its first word has been read. -/
def start (m : Memory) (nests : Bool) (address : Nat) : Scan :=
  readWord m { nests, word := 0, codes := [], cursor := address, reader := {}, text := [] }

/-- Leaves only some codes of the word, with the reader in another state. -/
def leave (s : Scan) (codes : List ZChar) (reader : Reader) : Scan :=
  { s with codes, reader }

/-- Adds to the text. -/
def print (s : Scan) (text : List Char) : Scan :=
  { s with text := s.text ++ text }

/-- The codes that are still to be taken, those of the words to come included. -/
def codesLeft (m : Memory) (s : Scan) : List ZChar :=
  s.codes ++ if s.IsOver m then [] else (packedWords m s.cursor).1.flatMap codesOfWord

/-- The address after the string. -/
def endAddress (m : Memory) (s : Scan) : Nat :=
  if s.IsOver m then s.cursor else (packedWords m s.cursor).2

theorem endAddress_print (m : Memory) (s : Scan) (text : List Char) :
    (s.print text).endAddress m = s.endAddress m :=
  rfl

theorem codesLeft_readWord (m : Memory) (s : Scan) :
    (s.readWord m).codesLeft m = (packedWords m s.cursor).1.flatMap codesOfWord := by
  unfold codesLeft
  by_cases h : (s.readWord m).IsOver m
  · have hends : StringEndsAt m s.cursor := h
    rw [packedWords_of_endsAt hends, if_pos h]
    rfl
  · have hgoes : ¬ StringEndsAt m s.cursor := h
    rw [packedWords_of_not_endsAt hgoes, if_neg h]
    rfl

theorem endAddress_readWord (m : Memory) (s : Scan) :
    (s.readWord m).endAddress m = (packedWords m s.cursor).2 := by
  unfold endAddress
  by_cases h : (s.readWord m).IsOver m
  · have hends : StringEndsAt m s.cursor := h
    rw [packedWords_of_endsAt hends, if_pos h]
    rfl
  · have hgoes : ¬ StringEndsAt m s.cursor := h
    rw [packedWords_of_not_endsAt hgoes, if_neg h]
    rfl

/-- What is left of a string: its codes, and four for every byte to come, which are more than the
three of a word and the word itself. -/
def left (m : Memory) (s : Scan) : Nat :=
  s.codes.length + 4 * (m.size - s.cursor)

theorem left_start_le (m : Memory) (nests : Bool) (address : Nat) :
    (start m nests address).left m ≤ 4 * m.size + 3 := by
  show 3 + 4 * (m.size - (address + 2)) ≤ _
  omega

theorem left_leave_tail (m : Memory) {s : Scan} {z : ZChar} {rest : List ZChar}
    (h : s.codes = z :: rest) (reader : Reader) :
    (s.leave rest reader).left m + 1 = s.left m := by
  show rest.length + 4 * (m.size - s.cursor) + 1 = s.codes.length + 4 * (m.size - s.cursor)
  rw [h, List.length_cons]
  omega

theorem left_readWord_lt {m : Memory} {s : Scan} (h : ¬ s.IsOver m) :
    (s.readWord m).left m < s.left m := by
  have hinside : ¬ m.size ≤ s.cursor := fun hend => h (.inr hend)
  show 3 + 4 * (m.size - (s.cursor + 2)) < s.codes.length + 4 * (m.size - s.cursor)
  omega

/-- What is left to do for a string.  Every code may name an abbreviation, of any length, where the
string reads them. -/
def cost (m : Memory) (s : Scan) : Nat :=
  (s.left m + 1) * if s.nests then 4 * m.size + 5 else 1

theorem cost_lt_of_left_lt {m : Memory} {s s' : Scan} (hnests : s'.nests = s.nests)
    (h : s'.left m < s.left m) : s'.cost m < s.cost m := by
  unfold cost
  rw [hnests]
  refine Nat.mul_lt_mul_of_pos_right (by omega) ?_
  split <;> omega

/-- A string without abbreviations costs less than a code that may name it. -/
theorem cost_start_lt (m : Memory) (address : Nat) :
    (start m false address).cost m < 4 * m.size + 5 := by
  have hleft := left_start_le m false address
  show ((start m false address).left m + 1) * 1 < _
  omega

/-- A code that is taken costs what an abbreviation may cost, where abbreviations are read. -/
theorem cost_leave_tail (m : Memory) {s : Scan} (hnests : s.nests = true) {z : ZChar}
    {rest : List ZChar} (h : s.codes = z :: rest) (reader : Reader) :
    (s.leave rest reader).cost m + (4 * m.size + 5) = s.cost m := by
  unfold cost
  rw [show (s.leave rest reader).nests = true from hnests, hnests, if_pos rfl,
    ← left_leave_tail m h reader, Nat.succ_mul ((s.leave rest reader).left m + 1)]

theorem cost_pos (m : Memory) (s : Scan) : 0 < s.cost m := by
  unfold cost
  refine Nat.mul_pos (Nat.succ_pos _) ?_
  split <;> omega

end Scan

/-- A string that is being read, and those that wait for it, the innermost first. -/
structure Scanning where
  current : Scan
  waiting : List Scan
  deriving DecidableEq, Repr

/-- What is left to do for all of them. -/
def Scanning.cost (m : Memory) (s : Scanning) : Nat :=
  s.current.cost m + (s.waiting.map (Scan.cost m)).sum

namespace Codec

open Scan (start)

/-! ## One pass -/

/-- Takes a code of the current string.  The number of an abbreviation opens that string, where
abbreviations are read; elsewhere it prints nothing. -/
def takeCode (c : Codec) (m : Memory) (s : Scanning) (z : ZChar) (rest : List ZChar) : Scanning :=
  match s.current.nests, s.current.reader.pending with
  | true, .abbreviation bank =>
      { current := start m false (c.abbreviationStart m (32 * (bank - 1) + z.val))
        waiting := s.current.leave rest s.current.reader.settled :: s.waiting }
  | _, _ =>
      let step := s.current.reader.step c.charset (fun _ => []) z
      { s with current := (s.current.leave rest step.1).print step.2 }

/-- One pass: a code is taken, a word is read, or a finished text goes to the string that waits for
it, if any. -/
def scanPass (c : Codec) (m : Memory) (s : Scanning) : Pass Scanning (String × Nat) :=
  match s.current.codes with
  | z :: rest => .again (c.takeCode m s z rest)
  | [] =>
      if s.current.IsOver m then
        match s.waiting with
        | [] => .done (String.ofList s.current.text, s.current.cursor)
        | outer :: waiting => .again ⟨outer.print s.current.text, waiting⟩
      else .again { s with current := s.current.readWord m }

/-! ## What the loop gives -/

/-- The texts of the abbreviations in a string. -/
def expansion (c : Codec) (m : Memory) (nests : Bool) : Nat → List Char :=
  if nests then c.abbreviation m else fun _ => []

/-- The text of a string when it is finished. -/
def fullText (c : Codec) (m : Memory) (s : Scan) : List Char :=
  s.text ++ s.reader.render c.charset (c.expansion m s.nests) (s.codesLeft m)

/-- What the loop gives from a state. -/
def outcome (c : Codec) (m : Memory) : Scan → List Scan → String × Nat
  | s, [] => (String.ofList (c.fullText m s), s.endAddress m)
  | s, outer :: waiting => c.outcome m (outer.print (c.fullText m s)) waiting

section
variable (c : Codec) (m : Memory)

/-- A string that starts afresh has the text that is at its address. -/
theorem fullText_start (nests : Bool) (address : Nat) :
    c.fullText m (start m nests address) = c.textAt m (c.expansion m nests) address := by
  show [] ++ Reader.render _ _ _ (Scan.codesLeft m (Scan.readWord m _)) = _
  rw [Scan.codesLeft_readWord]
  rfl

theorem outcome_start (address : Nat) :
    c.outcome m (start m true address) [] = c.read m address := by
  show (String.ofList (c.fullText m (start m true address)), Scan.endAddress m (Scan.readWord m _))
    = _
  rw [fullText_start, Scan.endAddress_readWord]
  rfl

/-- The outcome is in the text and the end of the current string. -/
theorem outcome_congr {s s' : Scan} (htext : c.fullText m s' = c.fullText m s)
    (hend : s'.endAddress m = s.endAddress m) (waiting : List Scan) :
    c.outcome m s' waiting = c.outcome m s waiting := by
  cases waiting with
  | nil => rw [outcome, outcome, htext, hend]
  | cons outer waiting => rw [outcome, outcome, htext]

variable {c m}

/-- A code that is taken prints what it adds to the full text. -/
theorem fullText_of_codes {s : Scan} {z : ZChar} {rest : List ZChar} (h : s.codes = z :: rest)
    {reader : Reader} {printed : List Char}
    (hstep : s.reader.step c.charset (c.expansion m s.nests) z = (reader, printed)) :
    c.fullText m ((s.leave rest reader).print printed) = c.fullText m s := by
  have hcodes : s.codesLeft m =
      z :: ((s.leave rest reader).print printed).codesLeft m := by
    unfold Scan.codesLeft
    rw [h]
    rfl
  unfold fullText
  rw [hcodes, Reader.render, hstep]
  show s.text ++ printed ++ _ = _
  rw [List.append_assoc]
  rfl

/-- Only the number of an abbreviation, where abbreviations are read, prints one. -/
theorem step_expansion {nests : Bool} {reader : Reader}
    (h : ∀ bank, nests = true → reader.pending ≠ .abbreviation bank) (z : ZChar) :
    reader.step c.charset (c.expansion m nests) z = reader.step c.charset (fun _ => []) z := by
  cases nests with
  | false => rfl
  | true =>
      unfold Reader.step
      split
      · rfl
      · rename_i bank hbank
        exact absurd hbank (h bank rfl)
      · rfl
      · rfl

/-! ## What a pass does -/

/-- Taking a code: what it may lead to. -/
theorem takeCode_cases (c : Codec) (m : Memory) (s : Scanning) (z : ZChar) (rest : List ZChar) :
    (∃ bank, s.current.nests = true ∧ s.current.reader.pending = .abbreviation bank ∧
      c.takeCode m s z rest =
        { current := start m false (c.abbreviationStart m (32 * (bank - 1) + z.val))
          waiting := s.current.leave rest s.current.reader.settled :: s.waiting }) ∨
    ∃ reader printed,
      s.current.reader.step c.charset (c.expansion m s.current.nests) z = (reader, printed) ∧
      c.takeCode m s z rest =
        { s with current := (s.current.leave rest reader).print printed } := by
  unfold takeCode
  split
  · rename_i bank hnests hpending
    exact .inl ⟨bank, hnests, hpending, rfl⟩
  · rename_i hother
    refine .inr ⟨_, _, ?_, rfl⟩
    rw [step_expansion (fun bank hnests hpending => hother bank hnests hpending)]

/-- Every way in which a pass goes on. -/
theorem scanPass_again {s s' : Scanning} (h : c.scanPass m s = .again s') :
    (∃ z rest, s.current.codes = z :: rest ∧ s' = c.takeCode m s z rest) ∨
    (s.current.codes = [] ∧ ¬ s.current.IsOver m ∧
      s' = { s with current := s.current.readWord m }) ∨
    ∃ outer waiting, s.current.codes = [] ∧ s.current.IsOver m ∧ s.waiting = outer :: waiting ∧
      s' = ⟨outer.print s.current.text, waiting⟩ := by
  unfold scanPass at h
  split at h
  · rename_i z rest hcodes
    cases h
    exact .inl ⟨z, rest, hcodes, rfl⟩
  · rename_i hcodes
    split at h
    · rename_i hover
      split at h
      · cases h
      · rename_i outer waiting hwaiting
        cases h
        exact .inr (.inr ⟨outer, waiting, hcodes, hover, hwaiting, rfl⟩)
    · rename_i hover
      cases h
      exact .inr (.inl ⟨hcodes, hover, rfl⟩)

/-- The one way in which the loop ends. -/
theorem scanPass_done {s : Scanning} {r : String × Nat} (h : c.scanPass m s = .done r) :
    s.current.codes = [] ∧ s.current.IsOver m ∧ s.waiting = [] ∧
      r = (String.ofList s.current.text, s.current.cursor) := by
  unfold scanPass at h
  split at h
  · cases h
  · rename_i hcodes
    split at h
    · rename_i hover
      split at h
      · rename_i hwaiting
        cases h
        exact ⟨hcodes, hover, hwaiting, rfl⟩
      · cases h
    · cases h

/-- The text of a string that is over and has no codes left is there. -/
theorem fullText_of_isOver {s : Scan} (hcodes : s.codes = []) (hover : s.IsOver m) :
    c.fullText m s = s.text := by
  unfold fullText Scan.codesLeft
  rw [hcodes, if_pos hover]
  exact List.append_nil s.text

/-- **A pass keeps the outcome.** -/
theorem outcome_of_again {s s' : Scanning} (h : c.scanPass m s = .again s') :
    c.outcome m s'.current s'.waiting = c.outcome m s.current s.waiting := by
  obtain ⟨z, rest, hcodes, rfl⟩ | ⟨hcodes, hover, rfl⟩ |
    ⟨outer, waiting, hcodes, hover, hwaiting, rfl⟩ := scanPass_again h
  · obtain ⟨bank, hnests, hpending, htake⟩ | ⟨reader, printed, hstep, htake⟩ :=
      takeCode_cases c m s z rest
    · -- the text of the abbreviation comes to the string that waits for it
      rw [htake]
      show c.outcome m (Scan.print _ (c.fullText m (start m false _))) s.waiting = _
      rw [fullText_start]
      refine c.outcome_congr m (fullText_of_codes hcodes ?_) (Scan.endAddress_print m _ _) _
      unfold Reader.step
      rw [hpending, hnests]
      rfl
    · rw [htake]
      exact c.outcome_congr m (fullText_of_codes hcodes hstep) (Scan.endAddress_print m _ _) _
  · refine c.outcome_congr m ?_ ?_ _
    · have hleft : s.current.codesLeft m =
          (packedWords m s.current.cursor).1.flatMap codesOfWord := by
        unfold Scan.codesLeft
        rw [hcodes, if_neg hover, List.nil_append]
      unfold fullText
      rw [Scan.codesLeft_readWord, hleft]
      rfl
    · rw [Scan.endAddress_readWord, Scan.endAddress, if_neg hover]
  · rw [hwaiting, outcome, fullText_of_isOver hcodes hover]

theorem outcome_of_done {s : Scanning} {r : String × Nat} (h : c.scanPass m s = .done r) :
    r = c.outcome m s.current s.waiting := by
  obtain ⟨hcodes, hover, hwaiting, rfl⟩ := scanPass_done h
  rw [hwaiting, outcome, fullText_of_isOver hcodes hover, Scan.endAddress, if_pos hover]

/-- **A pass leaves less to do.** -/
theorem cost_of_again {s s' : Scanning} (h : c.scanPass m s = .again s') :
    s'.cost m < s.cost m := by
  unfold Scanning.cost
  obtain ⟨z, rest, hcodes, rfl⟩ | ⟨-, hover, rfl⟩ | ⟨outer, waiting, -, -, hwaiting, rfl⟩ :=
    scanPass_again h
  · obtain ⟨bank, hnests, -, htake⟩ | ⟨reader, printed, -, htake⟩ := takeCode_cases c m s z rest
    · -- an abbreviation costs less than the code that names it
      have hcode := Scan.cost_leave_tail m hnests hcodes s.current.reader.settled
      have habbreviation :=
        Scan.cost_start_lt m (c.abbreviationStart m (32 * (bank - 1) + z.val))
      rw [htake, List.map_cons, List.sum_cons]
      show Scan.cost m (start m false _) + _ < _
      omega
    · rw [htake]
      have hless : ((s.current.leave rest reader).print printed).cost m < s.current.cost m := by
        refine Scan.cost_lt_of_left_lt rfl ?_
        rw [← Scan.left_leave_tail m hcodes reader]
        exact Nat.lt_succ_self _
      exact Nat.add_lt_add_right hless _
  · have hless : (s.current.readWord m).cost m < s.current.cost m :=
      Scan.cost_lt_of_left_lt rfl (Scan.left_readWord_lt hover)
    exact Nat.add_lt_add_right hless _
  · rw [hwaiting, List.map_cons, List.sum_cons]
    exact Nat.lt_add_of_pos_left (Scan.cost_pos m s.current)

end

/-- **Reading ends**, with the string that is at the address. -/
theorem ends_scan (c : Codec) (m : Memory) (address : Nat) :
    ∃ n ≤ (4 * m.size + 5) ^ 2,
      Loop.Ends (c.scanPass m) n ⟨start m true address, []⟩ (c.read m address) := by
  obtain ⟨n, hn, hends⟩ := Loop.ends_of_measure (c.scanPass m) (Scanning.cost m)
    (fun s => c.outcome m s.current s.waiting)
    (fun s s' h => ⟨cost_of_again h, outcome_of_again h⟩)
    (fun s r h => outcome_of_done h) ⟨start m true address, []⟩
  rw [outcome_start] at hends
  refine ⟨n, Nat.le_trans hn ?_, hends⟩
  have hleft := Scan.left_start_le m true address
  calc ((start m true address).left m + 1) * (4 * m.size + 5) + 1
      ≤ (4 * m.size + 4) * (4 * m.size + 5) + (4 * m.size + 5) :=
        Nat.add_le_add (Nat.mul_le_mul_right _ (by omega)) (by omega)
    _ = (4 * m.size + 5) ^ 2 := by
        rw [← Nat.succ_mul, Nat.pow_two]

/-! ## One level deep -/

/-- Either no string waits, or a single one does and the string that is read is one in which
abbreviations are not. -/
def AtMostOneWaits (s : Scanning) : Prop :=
  s.waiting = [] ∨ s.current.nests = false ∧ s.waiting.length = 1

theorem atMostOneWaits_of_again {c : Codec} {m : Memory} {s s' : Scanning}
    (h : c.scanPass m s = .again s') (hs : AtMostOneWaits s) : AtMostOneWaits s' := by
  obtain ⟨z, rest, -, rfl⟩ | ⟨-, -, rfl⟩ | ⟨outer, waiting, -, -, hwaiting, rfl⟩ := scanPass_again h
  · obtain ⟨bank, hnests, -, htake⟩ | ⟨reader, printed, -, htake⟩ := takeCode_cases c m s z rest
    · -- an abbreviation is opened only where nothing waits yet
      rw [htake]
      obtain hnone | ⟨hplain, -⟩ := hs
      · exact .inr ⟨rfl, by rw [List.length_cons, hnone, List.length_nil]⟩
      · rw [hnests] at hplain
        cases hplain
    · rw [htake]
      exact hs
  · exact hs
  · obtain hnone | ⟨-, hone⟩ := hs
    · rw [hnone] at hwaiting
      cases hwaiting
    · rw [hwaiting] at hone
      exact .inl (List.length_eq_zero_iff.mp (Nat.succ.inj hone))

/-- **No abbreviation is read inside another.** -/
theorem waiting_le_one (c : Codec) (m : Memory) (address : Nat) {s : Scanning}
    (h : Loop.Reaches (c.scanPass m) ⟨start m true address, []⟩ s) : s.waiting.length ≤ 1 := by
  obtain hnone | ⟨-, hone⟩ :=
    h.keeps (P := AtMostOneWaits) (fun s s' => atMostOneWaits_of_again) (.inl rfl)
  · exact hnone ▸ Nat.zero_le 1
  · exact Nat.le_of_eq hone

end Codec
end Text
end ZMachine
