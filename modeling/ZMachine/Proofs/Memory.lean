/-
# Words and runs of bytes in memory

What reading a word sees after a byte or a word has been written, and what reading a run of bytes
sees after such a run has been written.
-/
import Mathlib.Data.List.Basic
import ZMachine.Memory

namespace ZMachine
namespace Memory

/-- A byte written inside the image is seen. -/
theorem byteAt_setByte_self (m : Memory) (a : Nat) (v : UInt8) (h : a < m.size) :
    (m.setByte a v).byteAt a = v := by
  rw [byteAt_setByte, if_pos ⟨rfl, h⟩]

/-- A byte is seen after it has been written, or is zero as all bytes past the image. -/
theorem byteAt_setByte_or (m : Memory) (a : Nat) (v : UInt8) :
    (m.setByte a v).byteAt a = v ∨ (m.setByte a v).byteAt a = 0 := by
  rw [byteAt_setByte]
  split
  · exact Or.inl rfl
  · rename_i hout
    exact Or.inr (m.byteAt_of_size_le a (Nat.not_lt.mp fun ha => hout ⟨rfl, ha⟩))

/-- A word write touches two bytes. -/
theorem byteAt_setWord_of_ne (m : Memory) (a : Nat) (v : UInt16) (b : Nat) (h₀ : b ≠ a)
    (h₁ : b ≠ a + 1) : (m.setWord a v).byteAt b = m.byteAt b := by
  rw [setWord, byteAt_setByte_of_ne _ _ _ _ h₁, byteAt_setByte_of_ne _ _ _ _ h₀]

/-- A word written inside the image is seen. -/
theorem wordAt_setWord_self (m : Memory) (a : Nat) (v : UInt16) (h : a + 1 < m.size) :
    (m.setWord a v).wordAt a = v := by
  have hlow : (m.setWord a v).byteAt (a + 1) = Word.low v := by
    rw [setWord, byteAt_setByte_self _ _ _ (by rw [size_setByte]; exact h)]
  have hhigh : (m.setWord a v).byteAt a = Word.high v := by
    rw [setWord, byteAt_setByte_of_ne _ _ _ _ (by omega), byteAt_setByte_self _ _ _ (by omega)]
  rw [wordAt, hhigh, hlow, Word.ofBytes_high_low]

/-- A word written elsewhere is not seen. -/
theorem wordAt_setWord_of_disjoint (m : Memory) (a : Nat) (v : UInt16) (b : Nat)
    (h : a + 2 ≤ b ∨ b + 2 ≤ a) : (m.setWord a v).wordAt b = m.wordAt b := by
  have h₀ := byteAt_setWord_of_ne m a v b (by omega) (by omega)
  have h₁ := byteAt_setWord_of_ne m a v (b + 1) (by omega) (by omega)
  rw [wordAt, wordAt, h₀, h₁]

/-- Only its two bytes matter to a word. -/
theorem wordAt_congr {m n : Memory} {a : Nat} (h₀ : m.byteAt a = n.byteAt a)
    (h₁ : m.byteAt (a + 1) = n.byteAt (a + 1)) : m.wordAt a = n.wordAt a := by
  rw [wordAt, wordAt, h₀, h₁]

/-! ## Runs of bytes -/

@[simp]
theorem size_setBytes (m : Memory) (a : Nat) (bytes : List UInt8) :
    (m.setBytes a bytes).size = m.size := by
  induction bytes generalizing m a with
  | nil => rfl
  | cons b rest ih => rw [setBytes, ih, size_setByte]

/-- A run of bytes written elsewhere is not seen. -/
theorem byteAt_setBytes_of_outside (m : Memory) (a : Nat) (bytes : List UInt8) (b : Nat)
    (h : b < a ∨ a + bytes.length ≤ b) : (m.setBytes a bytes).byteAt b = m.byteAt b := by
  induction bytes generalizing m a with
  | nil => rfl
  | cons v rest ih =>
    rw [List.length_cons] at h
    rw [setBytes, ih _ _ (by omega), byteAt_setByte_of_ne _ _ _ _ (by omega)]

/-- The byte at an address and the bytes after it. -/
theorem slice_succ (m : Memory) (a n : Nat) :
    m.slice a (n + 1) = m.byteAt a :: m.slice (a + 1) n := by
  unfold slice
  rw [List.range_succ_eq_map, List.map_cons, List.map_map]
  refine congrArg _ (List.map_congr_left fun i _ => ?_)
  exact congrArg m.byteAt (by omega)

/-- Bytes and those after them. -/
theorem slice_add (m : Memory) (a n k : Nat) :
    m.slice a (n + k) = m.slice a n ++ m.slice (a + n) k := by
  induction n generalizing a with
  | zero => simp [slice]
  | succ n ih =>
    rw [show n + 1 + k = n + k + 1 from by omega, slice_succ, slice_succ, ih,
      show a + 1 + n = a + (n + 1) from by omega]
    rfl

/-- Only the bytes in it matter to a slice. -/
theorem slice_congr {m n : Memory} {a count : Nat}
    (h : ∀ b, a ≤ b → b < a + count → m.byteAt b = n.byteAt b) :
    m.slice a count = n.slice a count := by
  unfold slice
  refine List.map_congr_left fun i hi => ?_
  rw [List.mem_range] at hi
  exact h (a + i) (by omega) (by omega)

/-- Bytes up to a zero are not more than there are before it. -/
theorem length_takeWhile_slice_le {m : Memory} {a count k : Nat} (hzero : m.byteAt (a + k) = 0) :
    ((m.slice a count).takeWhile (· ≠ 0)).length ≤ k := by
  induction count generalizing a k with
  | zero => exact Nat.zero_le k
  | succ count ih =>
    rw [slice_succ]
    cases k with
    | zero =>
      have hstop : decide (m.byteAt a ≠ 0) = false := decide_eq_false (not_not_intro hzero)
      rw [List.takeWhile_cons_of_neg (by rw [hstop]; exact Bool.false_ne_true)]
      exact Nat.le_refl 0
    | succ k =>
      have hrest := ih (a := a + 1) (k := k) (by rw [← hzero]; exact congrArg m.byteAt (by omega))
      rw [List.takeWhile_cons]
      split
      · exact Nat.succ_le_succ hrest
      · exact Nat.zero_le _

/-- A run of bytes written inside the image is seen. -/
theorem slice_setBytes_self (m : Memory) (a : Nat) (bytes : List UInt8)
    (h : a + bytes.length ≤ m.size) : (m.setBytes a bytes).slice a bytes.length = bytes := by
  induction bytes generalizing m a with
  | nil => rfl
  | cons b rest ih =>
    rw [List.length_cons] at h ⊢
    rw [setBytes, slice_succ, ih _ _ (by rw [size_setByte]; omega),
      byteAt_setBytes_of_outside _ _ _ _ (by omega), byteAt_setByte, if_pos ⟨rfl, by omega⟩]

/-- Memory has these bytes from an address on. -/
def Holds (m : Memory) (a : Nat) (bytes : List UInt8) : Prop :=
  m.slice a bytes.length = bytes

theorem holds_cons_iff {m : Memory} {a : Nat} {b : UInt8} {rest : List UInt8} :
    m.Holds a (b :: rest) ↔ m.byteAt a = b ∧ m.Holds (a + 1) rest := by
  unfold Holds
  rw [List.length_cons, slice_succ, List.cons.injEq]

theorem holds_append_iff {m : Memory} {a : Nat} {first second : List UInt8} :
    m.Holds a (first ++ second) ↔ m.Holds a first ∧ m.Holds (a + first.length) second := by
  unfold Holds
  rw [List.length_append, slice_add]
  constructor
  · exact fun h => List.append_inj h (length_slice _ _ _)
  · rintro ⟨hfirst, hsecond⟩
    rw [hfirst, hsecond]

end Memory

theorem toNat_byteAt_of_eq_ofNat {m : Memory} {a n : Nat} (h : m.byteAt a = UInt8.ofNat n)
    (hn : n < 256) : (m.byteAt a).toNat = n := by
  rw [h]
  exact UInt8.toNat_ofNat_of_lt hn

end ZMachine
