/-
# Searching a dictionary

Both ways of searching find the same entry, if the entries ascend as a story promises for a
dictionary that is searched by halving.  Only the first bytes of an entry count, as many as the key
has, and an entry may reach past the image, where all bytes are zero.

* `Dictionary.Ascends` : the first bytes of the entries ascend;
* `Dictionary.compareAt_eq_lt_iff` and its companions : a comparison follows the order of the bytes;
* `Dictionary.binarySearch_of_match`, `Dictionary.binarySearch_of_no_match` : what halving finds;
* `Dictionary.linearSearch_of_match`, `Dictionary.linearSearch_of_no_match` : what trying one entry
  after another finds;
* `Dictionary.lookup_of_ascends` : a look-up gives the entry of the key, by either search.
-/
import ZMachine.Proofs.Memory
import ZMachine.Dictionary.Basic

namespace ZMachine
namespace Dictionary

variable {d : Dictionary} {m : Memory} {key : List UInt8} {address low high i j n : Nat}

/-! ## Comparing an entry with a key -/

/-- The first `n` bytes of an entry. -/
def leading (d : Dictionary) (m : Memory) (n i : Nat) : List UInt8 :=
  m.slice (d.entry i) n

theorem compareAt_eq_eq_iff :
    compareAt m address key = .eq ↔ m.slice address key.length = key := by
  induction key generalizing address with
  | nil => exact iff_of_true rfl rfl
  | cons b key ih =>
      rw [compareAt, List.length_cons, Memory.slice_succ, Ordering.then_eq_eq,
        Std.compare_eq_iff_eq, ih, List.cons.injEq]

theorem compareAt_eq_lt_iff :
    compareAt m address key = .lt ↔ m.slice address key.length < key := by
  induction key generalizing address with
  | nil => exact iff_of_false nofun (List.not_lt_nil _)
  | cons b key ih =>
      rw [compareAt, List.length_cons, Memory.slice_succ, Ordering.then_eq_lt,
        Std.compare_eq_lt, Std.compare_eq_iff_eq, ih, List.cons_lt_cons_iff]

theorem compareAt_eq_gt_iff :
    compareAt m address key = .gt ↔ key < m.slice address key.length := by
  induction key generalizing address with
  | nil => exact iff_of_false nofun (List.lt_irrefl _)
  | cons b key ih =>
      rw [compareAt, List.length_cons, Memory.slice_succ, Ordering.then_eq_gt,
        Std.compare_eq_gt, Std.compare_eq_iff_eq, ih, List.cons_lt_cons_iff, eq_comm (a := b)]

/-! ## Entries in order -/

/-- The first `n` bytes of the entries ascend strictly. -/
def Ascends (d : Dictionary) (m : Memory) (n : Nat) : Prop :=
  ∀ i, i + 1 < d.entryCount → d.leading m n i < d.leading m n (i + 1)

instance (d : Dictionary) (m : Memory) (n : Nat) : Decidable (d.Ascends m n) :=
  decidable_of_iff (∀ i < d.entryCount - 1, d.leading m n i < d.leading m n (i + 1))
    ⟨fun h i hi => h i (Nat.lt_sub_of_add_lt hi), fun h i hi => h i (Nat.add_lt_of_lt_sub hi)⟩

/-- Each entry is below all later ones. -/
theorem Ascends.leading_lt (h : d.Ascends m n) (hij : i < j) (hj : j < d.entryCount) :
    d.leading m n i < d.leading m n j := by
  induction hij with
  | refl => exact h i hj
  | step hij ih => exact List.lt_trans (ih (Nat.lt_of_succ_lt hj)) (h _ hj)

/-- So an entry that is below another comes before it. -/
theorem Ascends.lt_of_leading_lt (h : d.Ascends m n) (hi : i < d.entryCount)
    (hlt : d.leading m n i < d.leading m n j) : i < j := by
  rcases Nat.lt_trichotomy i j with hij | rfl | hji
  · exact hij
  · exact absurd hlt (List.lt_irrefl _)
  · exact absurd (h.leading_lt hji hi) (List.lt_asymm hlt)

/-- And no two entries are equal. -/
theorem Ascends.eq_of_leading_eq (h : d.Ascends m n) (hi : i < d.entryCount)
    (hj : j < d.entryCount) (heq : d.leading m n i = d.leading m n j) : i = j := by
  rcases Nat.lt_trichotomy i j with hij | hij | hji
  · exact absurd (heq ▸ h.leading_lt hij hj) (List.lt_irrefl _)
  · exact hij
  · exact absurd (heq ▸ h.leading_lt hji hi) (List.lt_irrefl _)

/-! ## Halving -/

/-- **Halving finds the matching entry**, as long as it lies in the range.  The induction is on the
steps of the search; each keeps the entry in the range. -/
theorem binarySearch_of_match (h : d.Ascends m key.length) (hlow : low ≤ i) (hhigh : i < high)
    (hcount : high ≤ d.entryCount) (hmatch : d.leading m key.length i = key) :
    d.binarySearch m key low high = d.entry i := by
  fun_induction binarySearch d m key low high with
  | case1 low high hlt middle heq =>
      have hmiddle : d.leading m key.length middle = key := compareAt_eq_eq_iff.mp heq
      rw [h.eq_of_leading_eq (by omega) (by omega) (hmatch.trans hmiddle.symm)]
  | case2 low high hlt middle hless ih =>
      have hmiddle : d.leading m key.length middle < d.leading m key.length i := by
        rw [hmatch]
        exact compareAt_eq_lt_iff.mp hless
      exact ih (h.lt_of_leading_lt (by omega) hmiddle) hhigh hcount
  | case3 low high hlt middle hgreater ih =>
      have hmiddle : d.leading m key.length i < d.leading m key.length middle := by
        rw [hmatch]
        exact compareAt_eq_gt_iff.mp hgreater
      exact ih hlow (h.lt_of_leading_lt (by omega) hmiddle) (by omega)
  | case4 low high hle => omega

/-- It finds nothing where no entry matches, in whatever order the entries are. -/
theorem binarySearch_of_no_match
    (h : ∀ i, low ≤ i → i < high → d.leading m key.length i ≠ key) :
    d.binarySearch m key low high = 0 := by
  fun_induction binarySearch d m key low high with
  | case1 low high hlt middle heq =>
      exact absurd (compareAt_eq_eq_iff.mp heq) (h middle (by omega) (by omega))
  | case2 low high hlt middle hless ih =>
      exact ih fun i hleft hright => h i (by omega) hright
  | case3 low high hlt middle hgreater ih =>
      exact ih fun i hleft hright => h i hleft (by omega)
  | case4 low high hle => rfl

/-! ## Trying one entry after another -/

theorem linearSearch_of_match (hi : i < d.entryCount) (hmatch : d.leading m key.length i = key)
    (hfirst : ∀ j < i, d.leading m key.length j ≠ key) :
    d.linearSearch m key = d.entry i := by
  have hfind : (List.range d.entryCount).find? ((fun e => compareAt m e key == .eq) ∘ d.entry)
      = some i := by
    refine List.find?_range_eq_some.mpr ⟨?_, List.mem_range.mpr hi, fun j hj => ?_⟩
    · exact beq_iff_eq.mpr (compareAt_eq_eq_iff.mpr hmatch)
    · show (!(compareAt m (d.entry j) key == .eq)) = true
      rw [Bool.not_eq_true', beq_eq_false_iff_ne]
      exact fun heq => hfirst j hj (compareAt_eq_eq_iff.mp heq)
  rw [linearSearch, List.find?_map, hfind]
  rfl

theorem linearSearch_of_no_match (h : ∀ i < d.entryCount, d.leading m key.length i ≠ key) :
    d.linearSearch m key = 0 := by
  have hfind : (List.range d.entryCount).find? ((fun e => compareAt m e key == .eq) ∘ d.entry)
      = none := by
    refine List.find?_eq_none.mpr fun i hi heq => ?_
    exact h i (List.mem_range.mp hi) (compareAt_eq_eq_iff.mp (beq_iff_eq.mp heq))
  rw [linearSearch, List.find?_map, hfind]
  rfl

/-! ## Looking up -/

/-- **Both searches agree on entries that ascend.**  Whatever the memory and the key are, a look-up
by halving gives what trying one entry after another gives: the address of the one entry that begins
with the key, or zero if there is none. -/
theorem lookup_of_ascends (d : Dictionary) (m : Memory) (key : List UInt8)
    (hlength : d.entryLength ≠ 0) (hascends : d.Ascends m key.length) :
    let ascending : Dictionary := { d with sorted := true }
    let unordered : Dictionary := { d with sorted := false }
    ascending.lookup m key = unordered.lookup m key ∧
      ((∃ i < d.entryCount, d.leading m key.length i = key ∧
          (∀ j < d.entryCount, d.leading m key.length j = key → j = i) ∧
          ascending.lookup m key = d.entry i) ∨
        (∀ i < d.entryCount, d.leading m key.length i ≠ key) ∧ ascending.lookup m key = 0) := by
  intro ascending unordered
  have hhalving : ascending.lookup m key = ascending.binarySearch m key 0 d.entryCount :=
    (if_neg hlength).trans (if_pos rfl)
  have htrying : unordered.lookup m key = unordered.linearSearch m key :=
    (if_neg hlength).trans (if_neg Bool.false_ne_true)
  rw [hhalving, htrying]
  by_cases hsome : ∃ i < d.entryCount, d.leading m key.length i = key
  · obtain ⟨i, hi, hmatch⟩ := hsome
    have hunique : ∀ j < d.entryCount, d.leading m key.length j = key → j = i :=
      fun j hj hmatch' => hascends.eq_of_leading_eq hj hi (hmatch'.trans hmatch.symm)
    have hfirst : ∀ j < i, d.leading m key.length j ≠ key := by
      intro j hj hmatch'
      exact Nat.ne_of_lt hj (hunique j (Nat.lt_trans hj hi) hmatch')
    have hfound : ascending.binarySearch m key 0 d.entryCount = d.entry i :=
      binarySearch_of_match hascends (Nat.zero_le i) hi (Nat.le_refl _) hmatch
    have htried : unordered.linearSearch m key = d.entry i :=
      linearSearch_of_match (d := unordered) hi hmatch hfirst
    exact ⟨hfound.trans htried.symm, Or.inl ⟨i, hi, hmatch, hunique, hfound⟩⟩
  · have hnone : ∀ i < d.entryCount, d.leading m key.length i ≠ key :=
      fun i hi hmatch => hsome ⟨i, hi, hmatch⟩
    have hnothing : ascending.binarySearch m key 0 d.entryCount = 0 :=
      binarySearch_of_no_match fun i _ hi => hnone i hi
    have htried : unordered.linearSearch m key = 0 := linearSearch_of_no_match (d := unordered) hnone
    exact ⟨hnothing.trans htried.symm, Or.inr ⟨hnone, hnothing⟩⟩

/-- A dictionary of three entries of three bytes each.  The image ends after the first byte of the
last entry. -/
def brokenOffMemory : Memory :=
  .ofImage #[0, 3, 0, 3, 1, 2, 0, 1, 3, 0, 2]

/-- The last entry is found although its second byte lies past the end. -/
theorem lookup_of_ascends_brokenOff :
    let d := read brokenOffMemory 0
    d.entryLength ≠ 0 ∧ d.Ascends brokenOffMemory 2 ∧
      ({ d with sorted := true } : Dictionary).lookup brokenOffMemory [2, 0] = 10 ∧
      ({ d with sorted := false } : Dictionary).lookup brokenOffMemory [2, 0] = 10 := by
  intro d
  have hlength : d.entryLength ≠ 0 := by decide
  have hascends : d.Ascends brokenOffMemory 2 := by decide +kernel
  obtain ⟨hagree, hfound⟩ := lookup_of_ascends d brokenOffMemory [2, 0] hlength hascends
  have hlast : d.leading brokenOffMemory 2 2 = [2, 0] := by decide +kernel
  have hcount : 2 < d.entryCount := by decide +kernel
  rcases hfound with ⟨i, -, -, hunique, hentry⟩ | ⟨hnone, -⟩
  · obtain rfl : 2 = i := hunique 2 hcount hlast
    exact ⟨hlength, hascends, hentry, hagree.symm.trans hentry⟩
  · exact absurd hlast (hnone 2 hcount)

end Dictionary
end ZMachine
