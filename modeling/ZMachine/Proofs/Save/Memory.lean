/-
# Reading back saved memory

Compressed memory is read back as the memory that was written.  The data after a pending run of
unchanged bytes stands for these bytes and the rest, so the main induction carries the run along:

* `decompress_zeroRuns_append` : the pieces of a run stand for the unchanged bytes;
* `decompress_packDifferences` : packed differences stand for the changed memory;
* `decompress_compress` : compressing and decompressing gives the memory back.
-/
import Mathlib.Data.List.Basic
import ZMachine.Proofs.Save.Container
import ZMachine.Save.Memory

namespace ZMachine
namespace Save

/-! ## One piece of the data -/

/-- A nonzero byte changes the byte that it meets. -/
theorem decompress_cons_of_ne_zero (b o : UInt8) (data loaded : List UInt8) (hb : b ≠ 0) :
    decompress (b :: data) (o :: loaded) = (decompress data loaded).map ((o ^^^ b) :: ·) := by
  rw [decompress.eq_def]
  simp only [if_neg hb]

/-- A zero and a length keep the bytes of a run. -/
theorem decompress_run (run : UInt8) (data front loaded : List UInt8)
    (h : front.length = run.toNat + 1) :
    decompress (0 :: run :: data) (front ++ loaded)
      = (decompress data loaded).map (front ++ ·) := by
  rw [decompress.eq_def]
  simp only [↓reduceIte, ← h, split?_append]

/-- The pieces of a run of zeros keep as many bytes as the run is long. -/
theorem decompress_zeroRuns_append (front loaded data : List UInt8) :
    decompress (zeroRuns front.length ++ data) (front ++ loaded)
      = (decompress data loaded).map (front ++ ·) := by
  induction hn : front.length using Nat.strongRecOn generalizing front with
  | ind n ih =>
      rw [zeroRuns]
      by_cases hzero : n = 0
      · rw [if_pos hzero, List.eq_nil_of_length_eq_zero (hn.trans hzero), List.nil_append,
          List.nil_append]
        cases decompress data loaded <;> rfl
      · rw [if_neg hzero]
        by_cases hlast : n ≤ 256
        · rw [if_pos hlast]
          apply decompress_run
          rw [UInt8.toNat_ofNat']
          omega
        · -- a full piece of 256, and the rest of the run by induction
          rw [if_neg hlast]
          have hfront : (front.take 256).length = (255 : UInt8).toNat + 1 := by
            rw [List.length_take, hn]
            simp
            omega
          have hrest : (front.drop 256).length = n - 256 := by
            rw [List.length_drop, hn]
          have hih := ih (n - 256) (by omega) (front.drop 256) hrest
          rw [List.cons_append, List.cons_append]
          nth_rewrite 1 [← List.take_append_drop 256 front]
          rw [List.append_assoc, decompress_run 255 _ _ _ hfront, hih]
          cases decompress data loaded with
          | error e => rfl
          | ok rest =>
              show Except.ok (front.take 256 ++ (front.drop 256 ++ rest)) = .ok (front ++ rest)
              rw [← List.append_assoc, List.take_append_drop]

/-! ## Whole memory -/

/-- Differences after a run of unchanged bytes stand for these bytes and the changed memory. -/
theorem decompress_packDifferences (front current loaded : List UInt8)
    (h : current.length = loaded.length) :
    decompress (packDifferences front.length (differences current loaded)) (front ++ loaded)
      = .ok (front ++ current) := by
  induction current generalizing front loaded with
  | nil =>
      rw [List.eq_nil_of_length_eq_zero h.symm]
      simp [differences, packDifferences, decompress]
  | cons c current ih =>
      cases loaded with
      | nil => simp at h
      | cons o loaded =>
          have hlength : current.length = loaded.length := by
            simpa using h
          rw [differences, packDifferences]
          by_cases hsame : c ^^^ o = 0
          · -- the pending run gets longer by the byte
            rw [if_pos hsame]
            have hco : c = o := by simpa using hsame
            have hih := ih (front ++ [o]) loaded hlength
            rw [List.length_append, List.length_singleton] at hih
            rw [hco]
            simpa using hih
          · -- the pending run ends before the byte
            rw [if_neg hsame, decompress_zeroRuns_append,
              decompress_cons_of_ne_zero _ _ _ _ hsame]
            have hih := ih [] loaded hlength
            rw [List.length_nil, List.nil_append, List.nil_append] at hih
            have hxor : o ^^^ (c ^^^ o) = c := by
              rw [UInt8.xor_comm c o, ← UInt8.xor_assoc, UInt8.xor_self, UInt8.zero_xor]
            rw [hih, hxor]
            rfl

/-- **Compressed memory is read back.** -/
theorem decompress_compress (current loaded : List UInt8) (h : current.length = loaded.length) :
    decompress (compress current loaded) loaded = .ok current :=
  decompress_packDifferences [] current loaded h

end Save
end ZMachine
