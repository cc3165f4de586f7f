/-
# Numbers in files

Numbers of two, three and four bytes, high byte first, and the cut of a list after a given number
of elements.  Main facts: `split?_eq_some_iff` and what reading gives after writing.
-/
import ZMachine.Word

namespace ZMachine
namespace Save

/-- The first `n` elements and the rest, if there are that many. -/
def split? {α : Type} : Nat → List α → Option (List α × List α)
  | 0, l => some ([], l)
  | _ + 1, [] => none
  | n + 1, a :: l => (split? n l).map fun (front, rest) => (a :: front, rest)

/-- The cut succeeds exactly at the given length. -/
theorem split?_eq_some_iff {α : Type} (n : Nat) (l front rest : List α) :
    split? n l = some (front, rest) ↔ l = front ++ rest ∧ front.length = n := by
  induction n generalizing l front with
  | zero =>
      simp only [split?, Option.some.injEq, Prod.mk.injEq]
      constructor
      · rintro ⟨rfl, rfl⟩
        simp
      · rintro ⟨rfl, hf⟩
        rw [List.length_eq_zero_iff] at hf
        subst hf
        simp
  | succ n ih =>
      cases l with
      | nil =>
          simp only [split?, reduceCtorEq, false_iff, not_and]
          intro h
          have := congrArg List.length h
          simp at this
          omega
      | cons a l =>
          cases front with
          | nil => simp [split?]
          | cons b front =>
              simp only [split?, Option.map_eq_some_iff, Prod.exists, Prod.mk.injEq,
                List.cons.injEq, List.cons_append, List.length_cons, Nat.add_right_cancel_iff]
              constructor
              · rintro ⟨f, r, hs, ⟨rfl, rfl⟩, rfl⟩
                exact ⟨⟨rfl, ((ih l f).mp hs).1⟩, ((ih l f).mp hs).2⟩
              · rintro ⟨⟨rfl, hl⟩, hn⟩
                exact ⟨front, rest, (ih l front).mpr ⟨hl, hn⟩, ⟨rfl, rfl⟩, rfl⟩

/-- A number in two bytes. -/
def bytes16 (w : UInt16) : List UInt8 :=
  [Word.high w, Word.low w]

/-- A number in three bytes; higher bits are dropped. -/
def bytes24 (n : Nat) : List UInt8 :=
  [UInt8.ofNat (n / 65536), UInt8.ofNat (n / 256), UInt8.ofNat n]

/-- A number in four bytes; higher bits are dropped. -/
def bytes32 (n : Nat) : List UInt8 :=
  [UInt8.ofNat (n / 16777216), UInt8.ofNat (n / 65536), UInt8.ofNat (n / 256), UInt8.ofNat n]

/-- The number that bytes stand for, high byte first. -/
def number (bytes : List UInt8) : Nat :=
  bytes.foldl (fun n b => n * 256 + b.toNat) 0

/-- Three bytes give back every number that fits. -/
theorem number_bytes24 (n : Nat) (h : n < 16777216) : number (bytes24 n) = n := by
  simp [number, bytes24]
  omega

/-- Four bytes give back every number that fits. -/
theorem number_bytes32 (n : Nat) (h : n < 4294967296) : number (bytes32 n) = n := by
  simp [number, bytes32]
  omega

/-- The first `n` words of a run of bytes and the bytes after them. -/
def words? : Nat → List UInt8 → Option (List UInt16 × List UInt8)
  | 0, bytes => some ([], bytes)
  | n + 1, high :: low :: bytes =>
      (words? n bytes).map fun (words, rest) => (Word.ofBytes high low :: words, rest)
  | _ + 1, _ => none

/-- Reading words takes two bytes for each. -/
theorem length_of_words?_eq_some (n : Nat) (bytes : List UInt8) (words : List UInt16)
    (rest : List UInt8) (h : words? n bytes = some (words, rest)) :
    bytes.length = 2 * n + rest.length := by
  fun_induction words? n bytes generalizing words with
  | case1 bytes => simp_all
  | case2 n high low bytes ih =>
      simp only [Option.map_eq_some_iff, Prod.exists, Prod.mk.injEq] at h
      obtain ⟨ws, r, hw, _, rfl⟩ := h
      have := ih ws hw
      simp only [List.length_cons]
      omega
  | case3 => simp at h

end Save
end ZMachine
