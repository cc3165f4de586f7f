/-
# Copying tables

A copy of a table that may overlap its source, in both its modes.  The usual one moves the bytes as
they were before.  The one from the front reads bytes that it has already written where the
destination begins inside the source: then it repeats the bytes in front of the destination, in
periods of the distance between the two.
-/
import ZMachine.Proofs.Image
import ZMachine.Proofs.Memory

namespace ZMachine

open Memory (SameImage)

/-! ## What is in memory -/

namespace Memory

/-- States of one story with the same bytes are equal. -/
theorem SameImage.eq_of_byteAt {m m' : Memory} (h : SameImage m m')
    (hbytes : ∀ a, m'.byteAt a = m.byteAt a) : m' = m := by
  refine Memory.ext ?_ h.loaded h.staticStart
  refine Array.ext h.size fun i hi hi' => ?_
  have hbyte := hbytes i
  unfold byteAt at hbyte
  rwa [Array.getD_eq_getD_getElem?, Array.getD_eq_getD_getElem?, Array.getElem?_eq_getElem hi,
    Array.getElem?_eq_getElem hi'] at hbyte

/-- A run of bytes written over the end of the image is seen up to there. -/
theorem byteAt_setBytes_add (m : Memory) (a : Nat) (bytes : List UInt8) (i : Nat)
    (hi : i < bytes.length) (ha : a + i < m.size) :
    (m.setBytes a bytes).byteAt (a + i) = bytes[i] := by
  induction bytes generalizing m a i with
  | nil => exact absurd hi (Nat.not_lt_zero i)
  | cons b rest ih =>
    cases i with
    | zero =>
      rw [setBytes, byteAt_setBytes_of_outside _ _ _ _ (by omega)]
      exact byteAt_setByte_self m a b ha
    | succ i =>
      have hrest := ih (m.setByte a b) (a + 1) i (Nat.lt_of_succ_lt_succ hi)
        (by rw [size_setByte]; omega)
      rw [setBytes, show a + (i + 1) = a + 1 + i from by omega, hrest]
      rfl

end Memory

namespace Table

/-! ## Filling a table -/

/-- A memory is another one with the `count` bytes from `second` on replaced, each by the old byte
at its source, as far as they are in the image. -/
structure Fills (m m' : Memory) (second count : Nat) (source : Nat → Nat) : Prop where
  image : SameImage m m'
  written : ∀ i, i < count → second + i < m.size → m'.byteAt (second + i) = m.byteAt (source i)
  outside : ∀ a, a < second ∨ second + count ≤ a → m'.byteAt a = m.byteAt a

/-- Where the bytes come from decides what memory is. -/
theorem Fills.unique {m m₁ m₂ : Memory} {second count : Nat} {source₁ source₂ : Nat → Nat}
    (h₁ : Fills m m₁ second count source₁) (h₂ : Fills m m₂ second count source₂)
    (hsource : ∀ i, i < count → source₁ i = source₂ i) : m₁ = m₂ := by
  have himage : SameImage m₂ m₁ :=
    ⟨h₁.image.loaded.trans h₂.image.loaded.symm,
      h₁.image.staticStart.trans h₂.image.staticStart.symm⟩
  refine himage.eq_of_byteAt fun a => ?_
  by_cases hin : second ≤ a ∧ a < second + count
  · obtain ⟨i, rfl⟩ := Nat.exists_eq_add_of_le hin.1
    have hi : i < count := by omega
    by_cases hsize : second + i < m.size
    · rw [h₁.written i hi hsize, h₂.written i hi hsize, hsource i hi]
    · have hsize₁ := h₁.image.size
      have hsize₂ := h₂.image.size
      rw [Memory.byteAt_of_size_le _ _ (by omega), Memory.byteAt_of_size_le _ _ (by omega)]
  · rw [h₁.outside a (by omega), h₂.outside a (by omega)]

/-- Bytes that were read before the first of them is written. -/
theorem fills_setBytes_slice (m : Memory) (first second count : Nat) :
    Fills m (m.setBytes second (m.slice first count)) second count (first + ·) where
  image := Memory.sameImage_setBytes m _ _
  written i hi hsize := by
    rw [Memory.byteAt_setBytes_add m second _ i (by rw [Memory.length_slice]; exact hi) hsize]
    simp only [Memory.slice, List.getElem_map, List.getElem_range]
  outside a ha := by
    apply Memory.byteAt_setBytes_of_outside
    rw [Memory.length_slice]
    exact ha

/-- After the first byte of a copy from the front, the byte to copy next is still the old one, or it
is the byte just written, where the copy starts again from its beginning.  A destination that does
not lie ahead has no period: the remainder by zero is the number itself. -/
theorem byteAt_setByte_period (m : Memory) (first second i : Nat) (hsize : second < m.size) :
    (m.setByte second (m.byteAt first)).byteAt (first + 1 + i % (second - first)) =
      m.byteAt (first + (i + 1) % (second - first)) := by
  obtain hahead | hbehind := Nat.lt_or_ge first second
  · have hlt : i % (second - first) < second - first := Nat.mod_lt _ (by omega)
    rw [← Nat.mod_add_mod i (second - first) 1]
    by_cases hlast : i % (second - first) + 1 = second - first
    · have hat : first + 1 + i % (second - first) = second := by omega
      rw [hlast, Nat.mod_self, hat, Memory.byteAt_setByte_self m _ _ hsize, Nat.add_zero]
    · rw [Nat.mod_eq_of_lt (by omega : i % (second - first) + 1 < second - first),
        Memory.byteAt_setByte_of_ne _ _ _ _ (by omega), Nat.add_right_comm, Nat.add_assoc]
  · rw [Nat.sub_eq_zero_of_le hbehind, Nat.mod_zero, Nat.mod_zero,
      Memory.byteAt_setByte_of_ne _ _ _ _ (by omega), Nat.add_right_comm, Nat.add_assoc]

/-- **A copy from the front** repeats the bytes between the two tables. -/
theorem fills_copyForward (m : Memory) (first second count : Nat) :
    Fills m (copyForward m first second count) second count
      fun i => first + i % (second - first) := by
  induction count generalizing m first second with
  | zero => exact ⟨SameImage.refl m, fun i hi => absurd hi (Nat.not_lt_zero i), fun _ _ => rfl⟩
  | succ count ih =>
    have hrest := ih (m.setByte second (m.byteAt first)) (first + 1) (second + 1)
    refine ⟨(Memory.sameImage_setByte m _ _).trans hrest.image, fun i hi hsize => ?_,
      fun a ha => ?_⟩
    · cases i with
      | zero =>
        rw [copyForward, hrest.outside _ (by omega), Nat.zero_mod]
        exact Memory.byteAt_setByte_self m second _ hsize
      | succ i =>
        have hbyte := hrest.written i (by omega) (by rw [Memory.size_setByte]; omega)
        rw [copyForward, show second + (i + 1) = second + 1 + i from by omega, hbyte,
          Nat.add_sub_add_right]
        exact byteAt_setByte_period m first second i (by omega)
    · rw [copyForward, hrest.outside a (by omega), Memory.byteAt_setByte_of_ne _ _ _ _ (by omega)]

/-- **Both modes of a copy.**  With a size of at least zero the bytes move as they were before,
whatever the overlap.  The same size with a minus gives the same memory unless the destination
begins inside the source, and there it repeats the bytes in front of the destination. -/
theorem copy_moves_or_repeats (m : Memory) (first second count : Nat) (h : second ≠ 0) :
    Fills m (copy m first second count) second count (first + ·) ∧
      (second ≤ first ∨ first + count ≤ second →
        copy m first second (-count) = copy m first second count) ∧
      (first < second → second < first + count →
        Fills m (copy m first second (-count)) second count
          fun i => first + i % (second - first)) := by
  have hmoves : Fills m (copy m first second count) second count (first + ·) := by
    rw [copy, if_neg h, if_neg (by omega), Int.natAbs_natCast]
    exact fills_setBytes_slice m first second count
  have hforward : 0 < count → copy m first second (-count) = copyForward m first second count := by
    intro hcount
    rw [copy, if_neg h, if_pos (by omega), Int.natAbs_neg, Int.natAbs_natCast]
  refine ⟨hmoves, fun hapart => ?_, fun hahead hinside => ?_⟩
  · obtain rfl | hcount := Nat.eq_zero_or_pos count
    · rfl
    · rw [hforward hcount]
      refine (fills_copyForward m first second count).unique hmoves fun i hi => ?_
      obtain hbehind | hbeyond := hapart
      · rw [Nat.sub_eq_zero_of_le hbehind, Nat.mod_zero]
      · rw [Nat.mod_eq_of_lt (by omega)]
  · rw [hforward (by omega)]
    exact fills_copyForward m first second count

/-- Four bytes copied one to the right, moved and then repeated, and to the left in both modes. -/
theorem copy_moves_or_repeats_overlapping :
    1 ≠ 0 ∧ 0 < 1 ∧ 1 < 0 + 4 ∧ 1 ≤ 2 ∧
      Fills (.ofImage #[1, 2, 3, 4, 5, 6]) (copy (.ofImage #[1, 2, 3, 4, 5, 6]) 0 1 4) 1 4 (0 + ·) ∧
      Fills (.ofImage #[1, 2, 3, 4, 5, 6]) (copy (.ofImage #[1, 2, 3, 4, 5, 6]) 0 1 (-4)) 1 4
        (fun i => 0 + i % (1 - 0)) ∧
      (copy (.ofImage #[1, 2, 3, 4, 5, 6]) 0 1 4).slice 0 6 = [1, 1, 2, 3, 4, 6] ∧
      (copy (.ofImage #[1, 2, 3, 4, 5, 6]) 0 1 (-4)).slice 0 6 = [1, 1, 1, 1, 1, 6] ∧
      copy (.ofImage #[1, 2, 3, 4, 5, 6]) 2 1 (-4) = copy (.ofImage #[1, 2, 3, 4, 5, 6]) 2 1 4 := by
  have hright := copy_moves_or_repeats (.ofImage #[1, 2, 3, 4, 5, 6]) 0 1 4 (by decide)
  have hleft := copy_moves_or_repeats (.ofImage #[1, 2, 3, 4, 5, 6]) 2 1 4 (by decide)
  exact ⟨by decide, by decide, by decide, by decide, hright.1,
    hright.2.2 (by decide) (by decide), by decide, by decide, hleft.2.1 (.inl (by decide))⟩

end Table
end ZMachine
