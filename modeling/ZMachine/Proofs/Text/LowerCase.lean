/-
# Lower case twice

A text in lower case stays as it is.  The table of capitals is checked range by range: no range of
lower-case forms meets a range of capitals, be it that the two lie apart or that the one has the odd
and the other the even code points.

* `CapitalRange.Settles` : the check of one range, which the table passes (`capitalRanges_settle`);
* `lowerCodeIn_eq_or` : where a code point goes;
* `lowerChar_of_mem` : the lower-case forms of a character are their own;
* `lowerCase_lowerCase` : so lower case once is lower case twice.
-/
import Mathlib.Data.List.Basic
import Mathlib.Tactic.SplitIfs
import ZMachine.Text.LowerCase

namespace ZMachine
namespace Text

/-! ## Ranges of code points -/

namespace CapitalRange

/-- A code point is one of the range. -/
def Contains (r : CapitalRange) (n : Nat) : Prop :=
  r.first ≤ n ∧ n ≤ r.last ∧ (n - r.first) % r.step = 0

/-- The lower-case forms of a range. -/
def lowered (r : CapitalRange) : CapitalRange where
  first := ((r.first : Int) + r.distance).toNat
  last := ((r.last : Int) + r.distance).toNat
  step := r.step
  distance := 0

/-- No code point of the range is changed by an ascending table.  Where the range meets one of the
table, the two must have different remainders. -/
def avoids (r : CapitalRange) : List CapitalRange → Bool
  | [] => true
  | s :: rest =>
      if s.last < r.first then r.avoids rest
      else
        r.last < s.first ||
          ((r.step % s.step = 0 || r.first = r.last) && r.first % s.step ≠ s.first % s.step
            && r.avoids rest)

/-- The lower-case forms of a range are characters, none of them the dotted capital, and have
themselves as lower-case forms. -/
structure Settles (r : CapitalRange) : Prop where
  nonneg : 0 ≤ (r.first : Int) + r.distance
  valid : r.lowered.last < 0xD800 ∨ 0xDFFF < r.lowered.first ∧ r.lowered.last < 0x110000
  undotted : r.lowered.last < 0x130 ∨ 0x130 < r.lowered.first
  avoids : r.lowered.avoids capitalRanges = true

instance (r : CapitalRange) : Decidable r.Settles :=
  decidable_of_iff
    (0 ≤ (r.first : Int) + r.distance ∧
      (r.lowered.last < 0xD800 ∨ 0xDFFF < r.lowered.first ∧ r.lowered.last < 0x110000) ∧
      (r.lowered.last < 0x130 ∨ 0x130 < r.lowered.first) ∧
      r.lowered.avoids capitalRanges = true)
    ⟨fun ⟨h₀, h₁, h₂, h₃⟩ => ⟨h₀, h₁, h₂, h₃⟩,
      fun h => ⟨h.nonneg, h.valid, h.undotted, h.avoids⟩⟩

variable {r s : CapitalRange} {n : Nat}

/-- The code points of a range have the remainder of its first. -/
theorem Contains.mod_eq (h : r.Contains n) : n % r.step = r.first % r.step := by
  obtain ⟨hfirst, -, hstep⟩ := h
  obtain ⟨k, hk⟩ := Nat.dvd_of_mod_eq_zero hstep
  rw [show n = r.first + r.step * k by omega, Nat.add_mul_mod_self_left]

/-- They have it for any step that goes into that of the range. -/
theorem Contains.mod_eq_of_dvd (h : r.Contains n) (hstep : r.step % s.step = 0 ∨ r.first = r.last) :
    n % s.step = r.first % s.step := by
  rcases hstep with hstep | hsingle
  · have hdvd := Nat.dvd_of_mod_eq_zero hstep
    rw [← Nat.mod_mod_of_dvd n hdvd, h.mod_eq, Nat.mod_mod_of_dvd _ hdvd]
  · obtain ⟨hfirst, hlast, -⟩ := h
    rw [show n = r.first by omega]

theorem Contains.lowered (h : r.Contains n) (hsettles : r.Settles) :
    r.lowered.Contains ((n : Int) + r.distance).toNat := by
  obtain ⟨hfirst, hlast, hstep⟩ := h
  have hnonneg := hsettles.nonneg
  have hoffset : ((n : Int) + r.distance).toNat - ((r.first : Int) + r.distance).toNat
      = n - r.first := by omega
  refine ⟨?_, ?_, ?_⟩
  · show ((r.first : Int) + r.distance).toNat ≤ _
    omega
  · show _ ≤ ((r.last : Int) + r.distance).toNat
    omega
  · show (_ - ((r.first : Int) + r.distance).toNat) % r.step = 0
    rw [hoffset, hstep]

theorem Settles.isValidChar (h : r.Settles) (hn : r.lowered.Contains n) : n.isValidChar := by
  obtain ⟨hfirst, hlast, -⟩ := hn
  rcases h.valid with hlow | ⟨hhigh, htop⟩
  · exact Or.inl (Nat.lt_of_le_of_lt hlast hlow)
  · exact Or.inr ⟨Nat.lt_of_lt_of_le hhigh hfirst, Nat.lt_of_le_of_lt hlast htop⟩

theorem Settles.ne_dotted (h : r.Settles) (hn : r.lowered.Contains n) : n ≠ 0x130 := by
  obtain ⟨hfirst, hlast, -⟩ := hn
  rcases h.undotted with hbelow | habove
  · omega
  · omega

/-- The range lies behind the first of the table, before it, or between its code points. -/
theorem avoids_cons {rest : List CapitalRange} (h : r.avoids (s :: rest) = true) :
    s.last < r.first ∧ r.avoids rest = true ∨ r.last < s.first ∨
      (r.step % s.step = 0 ∨ r.first = r.last) ∧ r.first % s.step ≠ s.first % s.step ∧
        r.avoids rest = true := by
  unfold avoids at h
  split at h
  · rename_i hbehind
    exact Or.inl ⟨hbehind, h⟩
  · simpa [and_assoc] using Or.inr h

end CapitalRange

/-! ## The table -/

variable {table : List CapitalRange} {r : CapitalRange} {n : Nat} {ch c : Char}

/-- Outside all ranges a code point stays, and in a range it goes as far as the range says. -/
theorem lowerCodeIn_eq_or (table : List CapitalRange) (n : Nat) :
    lowerCodeIn table n = n ∨
      ∃ r ∈ table, r.Contains n ∧ lowerCodeIn table n = ((n : Int) + r.distance).toNat := by
  induction table with
  | nil => exact Or.inl rfl
  | cons s rest ih =>
      unfold lowerCodeIn
      split_ifs with hbelow hinside
      · exact Or.inl rfl
      · exact Or.inr ⟨s, List.mem_cons_self, ⟨Nat.not_lt.mp hbelow, hinside⟩, rfl⟩
      · rcases ih with hstays | ⟨r, hr, hcontains, hgoes⟩
        · exact Or.inl hstays
        · exact Or.inr ⟨r, List.mem_cons_of_mem s hr, hcontains, hgoes⟩

/-- The code points of a range that avoids the table stay. -/
theorem lowerCodeIn_of_avoids (h : r.avoids table = true) (hn : r.Contains n) :
    lowerCodeIn table n = n := by
  induction table with
  | nil => rfl
  | cons s rest ih =>
      have hcases := CapitalRange.avoids_cons h
      have hfirst := hn.1
      have hlast := hn.2.1
      unfold lowerCodeIn
      split_ifs with hbelow hinside
      · rfl
      · -- a point of both ranges has the remainders of both
        have hs : s.Contains n := ⟨Nat.not_lt.mp hbelow, hinside⟩
        rcases hcases with ⟨hbehind, -⟩ | hbefore | ⟨hstep, hdiffer, -⟩
        · omega
        · omega
        · exact absurd ((hn.mod_eq_of_dvd hstep).symm.trans hs.mod_eq) hdiffer
      · rcases hcases with ⟨-, hrest⟩ | hbefore | ⟨-, -, hrest⟩
        · exact ih hrest
        · omega
        · exact ih hrest

theorem capitalRanges_settle : ∀ r ∈ capitalRanges, r.Settles := by
  decide +kernel

/-! ## Characters and texts -/

theorem toNat_ofNat (h : n.isValidChar) : (Char.ofNat n).toNat = n := by
  rw [Char.ofNat, dif_pos h]
  rfl

theorem lowerChar_of_ne_dotted (h : ch.toNat ≠ 0x130) :
    lowerChar ch = [Char.ofNat (lowerCodeIn capitalRanges ch.toNat)] :=
  if_neg h

/-- **The lower-case forms of a character are their own.** -/
theorem lowerChar_of_mem (h : c ∈ lowerChar ch) : lowerChar c = [c] := by
  by_cases hdotted : ch.toNat = 0x130
  · rw [lowerChar, if_pos hdotted] at h
    have hforms : ∀ c ∈ ['i', Char.ofNat 0x307], lowerChar c = [c] :=
      List.forall_mem_cons.mpr ⟨by decide, List.forall_mem_singleton.mpr (by decide)⟩
    exact hforms c h
  · rw [lowerChar_of_ne_dotted hdotted] at h
    obtain rfl := List.mem_singleton.mp h
    rcases lowerCodeIn_eq_or capitalRanges ch.toNat with hstays | ⟨r, hr, hcontains, hgoes⟩
    · rw [hstays, Char.ofNat_toNat, lowerChar_of_ne_dotted hdotted, hstays, Char.ofNat_toNat]
    · have hsettles := capitalRanges_settle r hr
      have hlowered := hcontains.lowered hsettles
      rw [hgoes]
      generalize ((ch.toNat : Int) + r.distance).toNat = n at hlowered
      have hcode := toNat_ofNat (hsettles.isValidChar hlowered)
      have hundotted : (Char.ofNat n).toNat ≠ 0x130 := by
        rw [hcode]
        exact hsettles.ne_dotted hlowered
      rw [lowerChar_of_ne_dotted hundotted, hcode, lowerCodeIn_of_avoids hsettles.avoids hlowered]

theorem lowerCase_append (first second : List Char) :
    lowerCase (first ++ second) = lowerCase first ++ lowerCase second :=
  List.flatMap_append

/-- **Lower case once is lower case twice.** -/
theorem lowerCase_lowerCase (text : List Char) : lowerCase (lowerCase text) = lowerCase text := by
  have hstays : ∀ c ∈ lowerCase text, lowerChar c = [c] := by
    intro c hc
    obtain ⟨ch, -, hmem⟩ := List.mem_flatMap.mp hc
    exact lowerChar_of_mem hmem
  calc lowerCase (lowerCase text)
      = (lowerCase text).flatMap fun c => [c] := List.flatMap_congr hstays
    _ = lowerCase text := List.flatMap_singleton' _

end Text
end ZMachine
