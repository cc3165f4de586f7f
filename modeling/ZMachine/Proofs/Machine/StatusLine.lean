/-
# The width of the status line

A status line is as wide as it is asked to be: blanks stand between the name of the location and a
right side that leaves room for one, and a name without room is cut.  The mark of the cut is three
characters wide.  Where there is no room for the mark either it stands alone, wider than the line.

* `StatusLine.length_render` : how long a line is, for every content and every width;
* `StatusLine.render_narrow` : the line where there is no room for the mark;
* `Machine.statusLine_fills` : the status line of a machine;
* `Machine.statusLine_overlong` : a line of three characters for a width of none.
-/
import ZMachine.Machine.StatusLine
import ZMachine.Proofs.Machine.BlockSteps

namespace ZMachine
namespace StatusLine

/-! ## Lines -/

/-- The right side of a line: the first text that leaves a blank beside the name, or nothing. -/
def rightSide (c : Content) (width : Nat) : String :=
  ((rightSides c).find? fun text => c.name.length + text.length < width).getD ""

/-- A right side fits beside a name that fits. -/
theorem length_rightSide_le (c : Content) {width : Nat} (h : c.name.length ≤ width) :
    c.name.length + (rightSide c width).length ≤ width := by
  unfold rightSide
  cases hfound : (rightSides c).find? fun text => c.name.length + text.length < width with
  | none => simpa using h
  | some text =>
      have hroom : c.name.length + text.length < width := by
        simpa using List.find?_some hfound
      exact Nat.le_of_lt hroom

/-- **The length of a line** is its width where the name fits, and otherwise at least that of the
mark. -/
theorem length_render (c : Content) (width : Nat) :
    (render c width).length = if width < c.name.length then max width 3 else width := by
  unfold render
  split
  · rename_i hlong
    rw [List.length_append, List.length_take]
    show min (width - 3) c.name.length + 3 = _
    omega
  · rename_i hfits
    have hright := length_rightSide_le c (Nat.le_of_not_lt hfits)
    show (c.name ++ List.replicate (width - (c.name.length + (rightSide c width).length)) ' ' ++
      (rightSide c width).toList).length = width
    rw [List.length_append, List.length_append, List.length_replicate, String.length_toList]
    omega

/-- Where there is no room for the mark of a cut, the mark is all there is. -/
theorem render_narrow (c : Content) {width : Nat} (hnarrow : width < 3)
    (hlong : width < c.name.length) : render c width = ['.', '.', '.'] := by
  unfold render
  rw [if_pos hlong, Nat.sub_eq_zero_of_le (Nat.le_of_lt hnarrow)]
  rfl

end StatusLine

namespace Machine

/-! ## The line of a machine -/

/-- The name of the location, empty if there is none. -/
def locationText (m : Machine) : List Char :=
  match m.locationName? with
  | some address => (m.codec.decode m.memory address).1.1.toList
  | none => []

/-- What the status line shows. -/
def statusContent (m : Machine) : StatusLine.Content where
  name := m.locationText
  first := m.memory.wordAt (m.header.globalAddress 1)
  second := m.memory.wordAt (m.header.globalAddress 2)
  isTime := m.memory.byteAt Field.flags1 &&& 0x02 ≠ 0

@[simp]
theorem name_statusContent (m : Machine) : m.statusContent.name = m.locationText := rfl

/-- Up to version 3 there is a status line, and it shows the location and the two numbers. -/
theorem statusLine_fst {m : Machine} (h : m.version ≤ 3) (width : Nat) :
    (m.statusLine width).1 = some (String.ofList (StatusLine.render m.statusContent width)) := by
  unfold statusLine statusContent locationText
  rw [if_neg (UInt8.not_lt.mpr h)]
  cases m.locationName? <;> rfl

/-- **The width of the status line.**  Every machine of a version up to 3 has a status line for
every width.  It has exactly that many characters if the width is at least three or the name of the
location fits into it, whatever the name and the numbers are; a narrower line whose name does not
fit is the mark of a cut name and nothing else, so it is too long. -/
theorem statusLine_fills (m : Machine) (h : m.version ≤ 3) (width : Nat) :
    ∃ line, (m.statusLine width).1 = some line ∧
      (3 ≤ width ∨ m.locationText.length ≤ width → line.length = width) ∧
      (width < 3 → width < m.locationText.length → line = "...") := by
  refine ⟨_, statusLine_fst h width, fun hroom => ?_, fun hnarrow hlong => ?_⟩
  · rw [String.length_ofList, StatusLine.length_render, name_statusContent]
    split <;> omega
  · rw [StatusLine.render_narrow m.statusContent hnarrow hlong]

/-- A story of version 3 with its globals at `0x40`, of which the first names object 1, and its
objects from `0x42` on.  The short name of object 1 is `the`. -/
def namedImage : Array UInt8 :=
  (3 :: List.replicate 6 (0 : UInt8) ++ [0x40, 0, 0, 0, 0x42, 0, 0x40, 0, 0x90] ++
    List.replicate 49 (0 : UInt8) ++ 1 :: List.replicate 70 (0 : UInt8) ++
    [0x89, 1, 0xE5, 0xAA, 0, 0, 0, 0]).toArray

/-- The machine of that story. -/
def namedMachine : Machine :=
  (load namedImage { random := .lowest }).toOption.get (by decide +kernel)

theorem load_namedImage : load namedImage { random := .lowest } = .ok namedMachine :=
  eq_ok_of_toOption (Option.some_get _).symm

theorem locationText_namedMachine : namedMachine.locationText = ['t', 'h', 'e'] := by
  have hname : namedMachine.locationName? = some 0x8A := by decide +kernel
  have hread : namedMachine.codec.read namedMachine.memory 0x8A = ("the", 0x8C) := by
    decide +kernel
  have hcache : namedMachine.codec.cache = ∅ := (fresh_load load_namedImage).1
  unfold locationText
  rw [hname]
  show (namedMachine.codec.decode namedMachine.memory 0x8A).1.1.toList = _
  rw [Text.Codec.decode_fst, hcache, Std.HashMap.getElem?_empty, Option.getD_none, hread]
  decide

/-- The name and a score of nothing in eight characters. -/
theorem statusLine_fills_namedMachine :
    namedMachine.version ≤ 3 ∧ 3 ≤ 8 ∧
      ∃ line, (namedMachine.statusLine 8).1 = some line ∧ line.length = 8 := by
  have hversion : namedMachine.version ≤ 3 := by decide +kernel
  obtain ⟨line, hline, hfills, -⟩ := statusLine_fills namedMachine hversion 8
  exact ⟨hversion, by decide, line, hline, hfills (.inl (by decide))⟩

/-- **A line too long for its width.**  The name of the location does not fit into no characters at
all, and the mark of the cut has three. -/
theorem statusLine_overlong :
    load namedImage { random := .lowest } = .ok namedMachine ∧ namedMachine.version = 3 ∧
      (namedMachine.statusLine 0).1 = some "..." ∧ "...".length ≠ 0 := by
  have hversion : namedMachine.version = 3 := by decide +kernel
  refine ⟨load_namedImage, hversion, ?_, by decide⟩
  have hlong : 0 < namedMachine.statusContent.name.length := by
    simp [locationText_namedMachine]
  rw [statusLine_fst (by rw [hversion]; decide), StatusLine.render_narrow _ (by decide) hlong]

end Machine
end ZMachine
