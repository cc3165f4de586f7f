/-
# Compressed memory as a normal form

Data that decompression accepts is a sequence of pieces: a byte that is not zero changes one byte of
memory, and a zero with a length keeps a run of them.  The same memory has many such encodings, with
runs cut differently or written out at the end, and compression gives one that is never longer than
any other.

* `Piece` : what the data consists of, with the number of bytes that each piece covers;
* `decompress_eq_ok_iff` : the data that is accepted, and the memory that it stands for;
* `length_packDifferences_le` : pieces take no less room than the differences packed anew;
* `decompress_normalises` : so compression gives the shortest data for a memory.
-/
import Mathlib.Algebra.Ring.Nat
import ZMachine.Proofs.Save.Memory

namespace ZMachine
namespace Save

/-! ## Pieces -/

/-- A piece of compressed memory. -/
inductive Piece where
  /-- A byte differs from the loaded one. -/
  | change (difference : UInt8) (ne_zero : difference ≠ 0)
  /-- One byte more than `extra` are as they were loaded. -/
  | run (extra : UInt8)

namespace Piece

/-- The bytes of a piece. -/
def bytes : Piece → List UInt8
  | change difference _ => [difference]
  | run extra => [0, extra]

/-- How many bytes of memory a piece covers. -/
def coverage : Piece → Nat
  | change _ _ => 1
  | run extra => extra.toNat + 1

/-- The differences that a piece stands for. -/
def expansion : Piece → List UInt8
  | change difference _ => [difference]
  | run extra => List.replicate (extra.toNat + 1) 0

theorem length_expansion (p : Piece) : p.expansion.length = p.coverage := by
  cases p with
  | change difference _ => rfl
  | run extra => exact List.length_replicate

theorem length_flatMap_expansion (pieces : List Piece) :
    (pieces.flatMap expansion).length = (pieces.map coverage).sum := by
  rw [List.length_flatMap]
  congr 1
  exact List.map_congr_left fun p _ => p.length_expansion

end Piece

/-! ## The memory that pieces stand for -/

/-- Loaded memory with differences from its start on; what they do not reach is as loaded. -/
def withDifferences (loaded diffs : List UInt8) : List UInt8 :=
  List.zipWith (· ^^^ ·) loaded (diffs ++ List.replicate (loaded.length - diffs.length) 0)

@[simp]
theorem withDifferences_nil (loaded : List UInt8) : withDifferences loaded [] = loaded := by
  unfold withDifferences
  induction loaded with
  | nil => rfl
  | cons o loaded ih => simpa [List.replicate_succ] using ih

theorem withDifferences_cons (o d : UInt8) (loaded diffs : List UInt8) :
    withDifferences (o :: loaded) (d :: diffs) = (o ^^^ d) :: withDifferences loaded diffs := by
  simp [withDifferences]

/-- A run of zeros keeps as many bytes as it is long. -/
theorem withDifferences_replicate_append (front loaded diffs : List UInt8) :
    withDifferences (front ++ loaded) (List.replicate front.length 0 ++ diffs)
      = front ++ withDifferences loaded diffs := by
  induction front with
  | nil => rfl
  | cons o front ih =>
      rw [List.length_cons, List.replicate_succ, List.cons_append, List.cons_append,
        withDifferences_cons, ih, UInt8.xor_zero, List.cons_append]

@[simp]
theorem length_withDifferences {loaded diffs : List UInt8} (h : diffs.length ≤ loaded.length) :
    (withDifferences loaded diffs).length = loaded.length := by
  simp only [withDifferences, List.length_zipWith, List.length_append, List.length_replicate]
  omega

/-- The differences of the changed memory are the ones that changed it. -/
theorem differences_withDifferences {loaded diffs : List UInt8}
    (h : diffs.length ≤ loaded.length) :
    differences (withDifferences loaded diffs) loaded
      = diffs ++ List.replicate (loaded.length - diffs.length) 0 := by
  have hsame : ∀ l : List UInt8, differences l l = List.replicate l.length 0 := by
    intro l
    induction l with
    | nil => rfl
    | cons o l ih => rw [differences, UInt8.xor_self, ih, List.length_cons, List.replicate_succ]
  induction diffs generalizing loaded with
  | nil => simpa using hsame loaded
  | cons d diffs ih =>
      cases loaded with
      | nil => cases h
      | cons o loaded =>
          have hxor : o ^^^ d ^^^ o = d := by
            rw [UInt8.xor_comm o d, UInt8.xor_assoc, UInt8.xor_self, UInt8.xor_zero]
          rw [List.length_cons, List.length_cons, Nat.add_le_add_iff_right] at h
          rw [withDifferences_cons, differences, hxor, ih h, List.length_cons, List.length_cons,
            Nat.add_sub_add_right, List.cons_append]

/-! ## The data that is accepted -/

/-- Pieces that do not cover too much are accepted. -/
theorem decompress_flatMap_bytes (pieces : List Piece) {loaded : List UInt8}
    (h : (pieces.map Piece.coverage).sum ≤ loaded.length) :
    decompress (pieces.flatMap Piece.bytes) loaded
      = .ok (withDifferences loaded (pieces.flatMap Piece.expansion)) := by
  induction pieces generalizing loaded with
  | nil => simp [decompress]
  | cons p pieces ih =>
      rw [List.map_cons, List.sum_cons] at h
      rw [List.flatMap_cons, List.flatMap_cons]
      cases p with
      | change difference hne =>
          rw [Piece.coverage] at h
          cases loaded with
          | nil => rw [List.length_nil] at h; omega
          | cons o loaded =>
              have hrest : (pieces.map Piece.coverage).sum ≤ loaded.length := by
                rw [List.length_cons] at h
                omega
              show decompress (difference :: pieces.flatMap Piece.bytes) _
                = .ok (withDifferences _ (difference :: pieces.flatMap Piece.expansion))
              rw [decompress_cons_of_ne_zero _ _ _ _ hne, ih hrest, withDifferences_cons]
              rfl
      | run extra =>
          rw [Piece.coverage] at h
          -- the run keeps the front of memory, and the rest of the pieces goes on behind it
          obtain ⟨front, rest, rfl, hfront⟩ : ∃ front rest, loaded = front ++ rest ∧
              front.length = extra.toNat + 1 :=
            ⟨loaded.take (extra.toNat + 1), loaded.drop (extra.toNat + 1),
              (List.take_append_drop _ _).symm, by rw [List.length_take]; omega⟩
          have hrest : (pieces.map Piece.coverage).sum ≤ rest.length := by
            rw [List.length_append] at h
            omega
          show decompress (0 :: extra :: pieces.flatMap Piece.bytes) _
            = .ok (withDifferences _ (List.replicate (extra.toNat + 1) 0 ++ _))
          rw [decompress_run extra _ _ _ hfront, ih hrest, ← hfront,
            withDifferences_replicate_append]
          rfl

theorem exists_eq_ok_of_map {ε α β : Type} {f : α → β} {x : Except ε α} {b : β}
    (h : x.map f = .ok b) : ∃ a, x = .ok a := by
  cases x with
  | error e => cases h
  | ok a => exact ⟨a, rfl⟩

/-- Accepted data consists of pieces that do not cover too much. -/
theorem exists_pieces_of_decompress {data loaded memory : List UInt8}
    (h : decompress data loaded = .ok memory) :
    ∃ pieces : List Piece, data = pieces.flatMap Piece.bytes ∧
      (pieces.map Piece.coverage).sum ≤ loaded.length := by
  fun_induction decompress data loaded generalizing memory with
  | case1 loaded => exact ⟨[], rfl, Nat.zero_le _⟩
  | case2 => cases h
  | case3 => cases h
  | case4 loaded run data front rest hsplit ih =>
      obtain ⟨memory', hrest⟩ := exists_eq_ok_of_map h
      obtain ⟨pieces, rfl, hcoverage⟩ := ih hrest
      obtain ⟨rfl, hfront⟩ := (split?_eq_some_iff _ _ _ _).mp hsplit
      refine ⟨.run run :: pieces, rfl, ?_⟩
      rw [List.map_cons, List.sum_cons, Piece.coverage, List.length_append]
      omega
  | case5 => cases h
  | case6 b data hne o loaded ih =>
      obtain ⟨memory', hrest⟩ := exists_eq_ok_of_map h
      obtain ⟨pieces, rfl, hcoverage⟩ := ih hrest
      refine ⟨.change b hne :: pieces, rfl, ?_⟩
      rw [List.map_cons, List.sum_cons, Piece.coverage, List.length_cons]
      omega

/-- **Data is accepted exactly if it consists of pieces that do not cover too much**, and then it
stands for the loaded memory with their differences. -/
theorem decompress_eq_ok_iff {data loaded memory : List UInt8} :
    decompress data loaded = .ok memory ↔
      ∃ pieces : List Piece, data = pieces.flatMap Piece.bytes ∧
        (pieces.map Piece.coverage).sum ≤ loaded.length ∧
        memory = withDifferences loaded (pieces.flatMap Piece.expansion) := by
  constructor
  · intro h
    obtain ⟨pieces, rfl, hcoverage⟩ := exists_pieces_of_decompress h
    rw [decompress_flatMap_bytes pieces hcoverage] at h
    exact ⟨pieces, rfl, hcoverage, (Except.ok.inj h).symm⟩
  · rintro ⟨pieces, rfl, hcoverage, rfl⟩
    exact decompress_flatMap_bytes pieces hcoverage

/-! ## The shortest data -/

/-- A run takes two bytes for each 256 that it keeps, the last ones counted up. -/
theorem length_zeroRuns (zeros : Nat) : (zeroRuns zeros).length = 2 * ((zeros + 255) / 256) := by
  induction zeros using Nat.strongRecOn with
  | ind zeros ih =>
      rw [zeroRuns]
      split
      · rename_i hzero
        rw [hzero]
        rfl
      split
      · rw [List.length_cons, List.length_singleton]
        omega
      · rw [List.length_cons, List.length_cons, ih (zeros - 256) (by omega)]
        omega

theorem packDifferences_replicate_append (zeros n : Nat) (diffs : List UInt8) :
    packDifferences zeros (List.replicate n 0 ++ diffs) = packDifferences (zeros + n) diffs := by
  induction n generalizing zeros with
  | zero => rfl
  | succ n ih =>
      rw [List.replicate_succ, List.cons_append, packDifferences, if_pos rfl, ih,
        Nat.add_right_comm, Nat.add_assoc]

/-- Unchanged bytes at the end are left out. -/
theorem packDifferences_append_replicate (zeros n : Nat) (diffs : List UInt8) :
    packDifferences zeros (diffs ++ List.replicate n 0) = packDifferences zeros diffs := by
  induction diffs generalizing zeros with
  | nil =>
      have h := packDifferences_replicate_append zeros n []
      rwa [List.append_nil] at h
  | cons d diffs ih => rw [List.cons_append, packDifferences, packDifferences, ih, ih]

/-- **Pieces take no less room than their differences packed anew**, apart from a run in progress
that they may prolong. -/
theorem length_packDifferences_le (zeros : Nat) (pieces : List Piece) :
    (packDifferences zeros (pieces.flatMap Piece.expansion)).length
      ≤ (zeroRuns zeros).length + (pieces.flatMap Piece.bytes).length := by
  induction pieces generalizing zeros with
  | nil => exact Nat.zero_le _
  | cons p pieces ih =>
      rw [List.flatMap_cons, List.flatMap_cons, List.length_append]
      cases p with
      | change difference hne =>
          have hrest := ih 0
          show (packDifferences zeros (difference :: pieces.flatMap Piece.expansion)).length ≤ _
          rw [packDifferences, if_neg hne, List.length_append, List.length_cons, Piece.bytes,
            List.length_singleton]
          rw [length_zeroRuns 0] at hrest
          omega
      | run extra =>
          -- a run of at most 256 makes the one in progress longer by one piece at most
          have hrest := ih (zeros + (extra.toNat + 1))
          have hextra := extra.toNat_lt
          rw [Piece.expansion, packDifferences_replicate_append, Piece.bytes, List.length_cons,
            List.length_singleton]
          rw [length_zeroRuns] at hrest ⊢
          omega

/-- **Compression gives the shortest of the data that decompression accepts.**  Data is accepted
exactly if it consists of pieces, bytes other than zero that cover one byte each and zeros with a
length that cover one more than that, which do not cover more than there is; and then it stands for
the loaded memory, changed by the differences of the pieces.  Whatever data is accepted, compressing
the memory that it stands for gives data for the same memory that is no longer. -/
theorem decompress_normalises (loaded : List UInt8) :
    (∀ data memory : List UInt8, decompress data loaded = .ok memory ↔
      ∃ pieces : List Piece, data = pieces.flatMap Piece.bytes ∧
        (pieces.map Piece.coverage).sum ≤ loaded.length ∧
        memory = withDifferences loaded (pieces.flatMap Piece.expansion)) ∧
    ∀ data memory : List UInt8, decompress data loaded = .ok memory →
      decompress (compress memory loaded) loaded = .ok memory ∧
        (compress memory loaded).length ≤ data.length := by
  refine ⟨fun _ _ => decompress_eq_ok_iff, fun data memory h => ?_⟩
  obtain ⟨pieces, rfl, hcoverage, rfl⟩ := decompress_eq_ok_iff.mp h
  rw [← Piece.length_flatMap_expansion] at hcoverage
  refine ⟨decompress_compress _ _ (length_withDifferences hcoverage), ?_⟩
  have hlength := length_packDifferences_le 0 pieces
  rw [length_zeroRuns 0] at hlength
  rw [compress, differences_withDifferences hcoverage, packDifferences_append_replicate]
  omega

/-- Data with a run in two parts and a run at the end. -/
def wordyData : List UInt8 :=
  [5, 0, 9, 0, 199, 1, 0, 3]

/-- The run is joined and the end is left out. -/
theorem decompress_normalises_wordyData :
    ∃ memory, decompress wordyData (List.replicate 300 7) = .ok memory ∧
      compress memory (List.replicate 300 7) = [5, 0, 209, 1] ∧
      decompress [5, 0, 209, 1] (List.replicate 300 7) = .ok memory ∧
      [5, 0, 209, 1].length ≤ wordyData.length := by
  obtain ⟨memory, hmemory⟩ : ∃ memory, decompress wordyData (List.replicate 300 7) = .ok memory :=
    ⟨_, ((decompress_normalises (List.replicate 300 7)).1 wordyData _).mpr
      ⟨[.change 5 (by decide), .run 9, .run 199, .change 1 (by decide), .run 3], rfl,
        by decide +kernel, rfl⟩⟩
  obtain ⟨hback, hlength⟩ := (decompress_normalises (List.replicate 300 7)).2 _ _ hmemory
  have hcompress : compress memory (List.replicate 300 7) = [5, 0, 209, 1] := by
    have hok : (decompress wordyData (List.replicate 300 7)).map
        (fun memory => compress memory (List.replicate 300 7)) = .ok [5, 0, 209, 1] := by
      decide +kernel
    rw [hmemory] at hok
    exact Except.ok.inj hok
  rw [hcompress] at hback hlength
  exact ⟨memory, hmemory, hcompress, hback, hlength⟩

end Save
end ZMachine
