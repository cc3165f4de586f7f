/-
# Detaching objects

A record has forward links only, so taking an object out of its parent walks along the children to
the one before it.  Nothing counts the steps of that walk.

    first -> o -> o -> 0                 the object is missing from its list
    first -> o -> older -> mover         it is found
    first -> o -> o                      the walk goes round for ever
             ^____|

The walk ends exactly if the siblings lead to nothing or to the object, and until then no object
comes twice.  In a damaged table they can lead back to one of their own before that.

* `walkPass`, `WalkStops` : one pass of the walk, and the objects with which it ends;
* `olderSibling_of_ends`, `exists_ends_of_olderSibling` : the walk with and without a limit;
* `Circles`, `circles_iff` : the siblings run in a circle exactly if the walk ends nowhere;
* `insert?_eq_none_iff` : the objects that cannot be moved;
* `detaching_ends_iff` : when detaching ends;
* `detaching_endless_circularStory` : a walk that goes round for ever.
-/
import Mathlib.Data.Finset.Card
import Mathlib.Order.Interval.Finset.Nat
import ZMachine.Proofs.Loop
import ZMachine.Proofs.Object.Links

namespace ZMachine
namespace ObjectTable

/-! ## The walk -/

/-- One pass of the walk looks at one object. -/
def walkPass (t : ObjectTable) (m : Memory) (mover older : UInt16) : Pass UInt16 SiblingWalk :=
  if older = 0 then .done .absent
  else if t.sibling m older = mover then .done (.found older)
  else .again (t.sibling m older)

/-- The walk ends here: there is no object any more, or it is the one before `mover`. -/
def WalkStops (t : ObjectTable) (m : Memory) (mover older : UInt16) : Prop :=
  older = 0 ∨ t.sibling m older = mover

section
variable {t : ObjectTable} {m : Memory} {mover o : UInt16} {r : SiblingWalk} {n steps : Nat}

theorem walkPass_eq_done (h : t.walkPass m mover o = .done r) :
    t.WalkStops m mover o ∧ r ≠ .endless := by
  unfold walkPass at h
  split_ifs at h with hzero hfound <;> cases h
  · exact ⟨.inl hzero, nofun⟩
  · exact ⟨.inr hfound, nofun⟩

theorem walkPass_of_stops (h : t.WalkStops m mover o) : ∃ r, t.walkPass m mover o = .done r := by
  unfold walkPass
  split_ifs with hzero hfound
  · exact ⟨_, rfl⟩
  · exact ⟨_, rfl⟩
  · exact absurd h (not_or.mpr ⟨hzero, hfound⟩)

theorem walkPass_of_not_stops (h : ¬ t.WalkStops m mover o) :
    t.walkPass m mover o = .again (t.sibling m o) := by
  obtain ⟨hzero, hfound⟩ := not_or.mp h
  rw [walkPass, if_neg hzero, if_neg hfound]

/-- Going on leads to the next sibling. -/
theorem walkPass_eq_again {o' : UInt16} (h : t.walkPass m mover o = .again o') :
    ¬ t.WalkStops m mover o ∧ o' = t.sibling m o := by
  have hgo : ¬ t.WalkStops m mover o := by
    intro hstop
    obtain ⟨r, hdone⟩ := walkPass_of_stops hstop
    cases h.symm.trans hdone
  rw [walkPass_of_not_stops hgo] at h
  cases h
  exact ⟨hgo, rfl⟩

/-- A walk that ends does so at the first object where it can. -/
theorem exists_stops_of_ends (h : Loop.Ends (t.walkPass m mover) n o r) :
    ∃ k, n = k + 1 ∧ t.WalkStops m mover ((t.sibling m)^[k] o) ∧
      ∀ j < k, ¬ t.WalkStops m mover ((t.sibling m)^[j] o) := by
  induction h with
  | done hpass => exact ⟨0, rfl, (walkPass_eq_done hpass).1, nofun⟩
  | again hpass _ ih =>
      obtain ⟨hgo, rfl⟩ := walkPass_eq_again hpass
      obtain ⟨k, rfl, hstops, hbefore⟩ := ih
      refine ⟨k + 1, rfl, hstops, ?_⟩
      rintro (_ | j) hj
      · exact hgo
      · exact hbefore j (by omega)

theorem exists_ends_of_stops (h : t.WalkStops m mover o) :
    ∃ n r, Loop.Ends (t.walkPass m mover) n o r := by
  obtain ⟨r, hdone⟩ := walkPass_of_stops h
  exact ⟨1, r, .done hdone⟩

theorem exists_ends_of_not_stops (h : ¬ t.WalkStops m mover o)
    (hrest : ∃ n r, Loop.Ends (t.walkPass m mover) n (t.sibling m o) r) :
    ∃ n r, Loop.Ends (t.walkPass m mover) n o r := by
  obtain ⟨n, r, hends⟩ := hrest
  exact ⟨n + 1, r, .again (walkPass_of_not_stops h) hends⟩

/-- The walk ends exactly if some number of sibling steps leads to an object where it stops. -/
theorem exists_ends_iff :
    (∃ n r, Loop.Ends (t.walkPass m mover) n o r) ↔
      ∃ k, t.WalkStops m mover ((t.sibling m)^[k] o) := by
  constructor
  · rintro ⟨n, r, hends⟩
    obtain ⟨k, -, hstops, -⟩ := exists_stops_of_ends hends
    exact ⟨k, hstops⟩
  · rintro ⟨k, hstops⟩
    induction k generalizing o with
    | zero => exact exists_ends_of_stops hstops
    | succ k ih =>
        by_cases hstop : t.WalkStops m mover o
        · exact exists_ends_of_stops hstop
        · exact exists_ends_of_not_stops hstop (ih hstops)

/-! ## The walk with a limit -/

/-- A limit that is large enough does not change what the walk finds. -/
theorem olderSibling_of_ends (h : Loop.Ends (t.walkPass m mover) n o r) (hn : n ≤ steps) :
    t.olderSibling m mover steps o = r := by
  induction h generalizing steps with
  | done hpass =>
      obtain ⟨steps, rfl⟩ := Nat.exists_eq_add_of_le' hn
      unfold walkPass at hpass
      rw [olderSibling]
      split_ifs at hpass ⊢ <;> cases hpass <;> rfl
  | again hpass _ ih =>
      obtain ⟨hgo, rfl⟩ := walkPass_eq_again hpass
      obtain ⟨hzero, hfound⟩ := not_or.mp hgo
      obtain ⟨steps, rfl⟩ := Nat.exists_eq_add_of_le' (Nat.le_of_add_left_le hn)
      rw [olderSibling, if_neg hzero, if_neg hfound]
      exact ih (by omega)

/-- A walk that finds something within the limit ends. -/
theorem exists_ends_of_olderSibling (h : t.olderSibling m mover steps o ≠ .endless) :
    ∃ n r, Loop.Ends (t.walkPass m mover) n o r := by
  induction steps generalizing o with
  | zero => exact absurd rfl h
  | succ steps ih =>
      by_cases hstop : t.WalkStops m mover o
      · exact exists_ends_of_stops hstop
      · obtain ⟨hzero, hfound⟩ := not_or.mp hstop
        rw [olderSibling, if_neg hzero, if_neg hfound] at h
        exact exists_ends_of_not_stops hstop (ih h)

/-- What the walk ends with is never a circle. -/
theorem ne_endless_of_ends (h : Loop.Ends (t.walkPass m mover) n o r) : r ≠ .endless := by
  induction h with
  | done hpass => exact (walkPass_eq_done hpass).2
  | again _ _ ih => exact ih

/-! ## Circles -/

/-- A link leads to an object that it can name. -/
theorem toNat_link_le (t : ObjectTable) (m : Memory) (o : UInt16) (l : Link) :
    (t.link m o l).toNat ≤ t.maxObjects := by
  unfold link maxObjects
  split_ifs
  · exact Nat.zero_le _
  · exact Nat.zero_le _
  · exact Nat.le_of_lt_succ (UInt16.toNat_lt _)
  · rw [UInt8.toNat_toUInt16]
    exact Nat.le_of_lt_succ (UInt8.toNat_lt _)

theorem toNat_iterate_sibling_le (ho : o.toNat ≤ t.maxObjects) (k : Nat) :
    ((t.sibling m)^[k] o).toNat ≤ t.maxObjects := by
  cases k with
  | zero => exact ho
  | succ k =>
      rw [Function.iterate_succ_apply']
      exact toNat_link_le t m _ .sibling

/-- The siblings lead back to an object that they have met, and the walk stops at none of them. -/
def Circles (t : ObjectTable) (m : Memory) (mover o : UInt16) : Prop :=
  ∃ i j, i < j ∧ j ≤ t.maxObjects ∧ (t.sibling m)^[j] o = (t.sibling m)^[i] o ∧
    ∀ k < j, ¬ t.WalkStops m mover ((t.sibling m)^[k] o)

/-- A walk that goes on for long enough meets some object twice. -/
theorem circles_of_forall_not_stops (ho : o.toNat ≤ t.maxObjects)
    (h : ∀ k ≤ t.maxObjects, ¬ t.WalkStops m mover ((t.sibling m)^[k] o)) :
    t.Circles m mover o := by
  -- the walk passes one object more than there are numbers for
  have hmaps : Set.MapsTo (fun k => ((t.sibling m)^[k] o).toNat)
      (Finset.range (t.maxObjects + 1)) (Finset.Icc 1 t.maxObjects) := by
    intro k hk
    have hk' : k ≤ t.maxObjects := by simpa [Nat.lt_succ_iff] using hk
    have hne : ((t.sibling m)^[k] o).toNat ≠ 0 := fun hzero =>
      h k hk' (.inl (UInt16.toNat_inj.mp hzero))
    simpa [Nat.one_le_iff_ne_zero, hne] using toNat_iterate_sibling_le ho k
  obtain ⟨i, hi, j, hj, hij, heq⟩ :=
    Finset.exists_ne_map_eq_of_card_lt_of_maps_to (by simp) hmaps
  have hsame : (t.sibling m)^[i] o = (t.sibling m)^[j] o := UInt16.toNat_inj.mp heq
  simp only [Finset.mem_range] at hi hj
  rcases Nat.lt_or_gt_of_ne hij with hlt | hgt
  · exact ⟨i, j, hlt, by omega, hsame.symm, fun k hk => h k (by omega)⟩
  · exact ⟨j, i, hgt, by omega, hsame, fun k hk => h k (by omega)⟩

/-- A walk in a circle never stops. -/
theorem Circles.not_stops (h : t.Circles m mover o) (k : Nat) :
    ¬ t.WalkStops m mover ((t.sibling m)^[k] o) := by
  obtain ⟨i, j, hij, -, hback, hgo⟩ := h
  induction k using Nat.strongRecOn with
  | _ k ih =>
      by_cases hk : k < j
      · exact hgo k hk
      -- once round the circle earlier, the walk was at the same object
      · have hearlier : (t.sibling m)^[k] o = (t.sibling m)^[k - (j - i)] o := by
          rw [show k = (k - j) + j by omega, Function.iterate_add_apply, hback,
            ← Function.iterate_add_apply]
          congr 2
          omega
        rw [hearlier]
        exact ih _ (by omega)

theorem circles_iff (ho : o.toNat ≤ t.maxObjects) :
    t.Circles m mover o ↔ ¬ ∃ n r, Loop.Ends (t.walkPass m mover) n o r := by
  rw [exists_ends_iff]
  constructor
  · rintro hcircles ⟨k, hstops⟩
    exact hcircles.not_stops k hstops
  · intro hnever
    exact circles_of_forall_not_stops ho fun k _ hstops => hnever ⟨k, hstops⟩

/-- A walk that ends meets no object twice, so it has no more passes than there are numbers. -/
theorem le_of_ends (ho : o.toNat ≤ t.maxObjects)
    (h : Loop.Ends (t.walkPass m mover) n o r) : n ≤ t.maxObjects + 1 := by
  obtain ⟨k, rfl, hstops, hbefore⟩ := exists_stops_of_ends h
  by_contra hlong
  have hcircles : t.Circles m mover o :=
    circles_of_forall_not_stops ho fun j hj => hbefore j (by omega)
  exact hcircles.not_stops k hstops

theorem maxObjects_lt_walkLimit (t : ObjectTable) : t.maxObjects < walkLimit := by
  unfold maxObjects walkLimit
  split <;> omega

/-- **The limit of the walk is no limit.**  It is reached exactly in a circle. -/
theorem olderSibling_walkLimit_eq_endless_iff (ho : o.toNat ≤ t.maxObjects) :
    t.olderSibling m mover walkLimit o = .endless ↔ t.Circles m mover o := by
  rw [circles_iff ho]
  constructor
  · rintro hendless ⟨n, r, hends⟩
    have hn : n ≤ walkLimit := (le_of_ends ho hends).trans t.maxObjects_lt_walkLimit
    rw [olderSibling_of_ends hends hn] at hendless
    exact ne_endless_of_ends hends hendless
  · intro hnever
    by_contra hfinds
    exact hnever (exists_ends_of_olderSibling hfinds)

end

/-! ## Detaching -/

/-- **An object cannot be moved** exactly if the walk to the object before it runs in a circle. -/
theorem insert?_eq_none_iff (t : ObjectTable) (m : Memory) (mover newParent : UInt16) :
    t.insert? m mover newParent = none ↔
      t.parent m mover ≠ 0 ∧ t.child m (t.parent m mover) ≠ mover ∧
        t.Circles m mover (t.child m (t.parent m mover)) := by
  have hfirst : (t.child m (t.parent m mover)).toNat ≤ t.maxObjects := toNat_link_le t m _ .child
  have hdetach : t.detach? m mover = none ↔
      t.parent m mover ≠ 0 ∧ t.child m (t.parent m mover) ≠ mover ∧
        t.Circles m mover (t.child m (t.parent m mover)) := by
    rw [← olderSibling_walkLimit_eq_endless_iff hfirst]
    unfold detach?
    dsimp only
    split_ifs with hparent hchild
    · simp [hparent]
    · simp [hchild]
    · cases t.olderSibling m mover walkLimit (t.child m (t.parent m mover)) <;>
        simp [hparent, hchild]
  rw [← hdetach, insert?]
  by_cases hzero : mover = 0
  -- nothing is in no parent
  · subst hzero
    have hparent : t.parent m 0 = 0 := rfl
    simp [detach?, hparent]
  · rw [if_neg hzero]
    exact Option.map_eq_none_iff

/-- **Detaching ends, unless the siblings run in a circle.**

Whatever memory holds, look at the walk from the first child of the parent of `mover`.  It ends
exactly if some number of sibling steps leads to nothing or to an object before `mover`, and then
within as many passes as there are object numbers, with what `detach?` goes by.  Otherwise, and only
then, the siblings run in a circle.  The object can be moved, and can be removed, exactly if it
has no parent, is the first child, or the walk ends. -/
theorem detaching_ends_iff (t : ObjectTable) (m : Memory) (mover : UInt16) :
    let first := t.child m (t.parent m mover)
    ((∃ n r, Loop.Ends (t.walkPass m mover) n first r) ↔
      ∃ k, (t.sibling m)^[k] first = 0 ∨ (t.sibling m)^[k + 1] first = mover) ∧
    (∀ n r, Loop.Ends (t.walkPass m mover) n first r →
      n ≤ t.maxObjects + 1 ∧ t.olderSibling m mover walkLimit first = r) ∧
    ((¬ ∃ n r, Loop.Ends (t.walkPass m mover) n first r) ↔ t.Circles m mover first) ∧
    (∀ newParent, (t.insert? m mover newParent).isSome ↔
      t.parent m mover = 0 ∨ first = mover ∨
        ∃ n r, Loop.Ends (t.walkPass m mover) n first r) ∧
    ((t.remove? m mover).isSome ↔
      t.parent m mover = 0 ∨ first = mover ∨
        ∃ n r, Loop.Ends (t.walkPass m mover) n first r) := by
  intro first
  have hfirst : first.toNat ≤ t.maxObjects := toNat_link_le t m _ .child
  have hmoves : ∀ newParent, (t.insert? m mover newParent).isSome ↔
      t.parent m mover = 0 ∨ first = mover ∨
        ∃ n r, Loop.Ends (t.walkPass m mover) n first r := by
    intro newParent
    rw [Option.isSome_iff_ne_none, ne_eq, insert?_eq_none_iff, circles_iff hfirst]
    simp only [not_and_or, not_not, ne_eq]
    rfl
  refine ⟨?_, fun n r hends => ?_, (circles_iff hfirst).symm, hmoves, hmoves 0⟩
  · simp only [exists_ends_iff, WalkStops, Function.iterate_succ_apply']
  · have hn := le_of_ends hfirst hends
    exact ⟨hn, olderSibling_of_ends hends (hn.trans t.maxObjects_lt_walkLimit)⟩

/-! ## A circle -/

/-- A story of version 3 with its objects from `0x40` on.  Object 1 is in object 3, whose first child
is object 2; and the sibling of object 2 is object 2. -/
def circularImage : Array UInt8 :=
  (3 :: List.replicate 9 (0 : UInt8) ++ [0, 0x40, 0, 0x40, 0, 0xA0] ++
    List.replicate 114 (0 : UInt8) ++ 3 :: List.replicate 9 (0 : UInt8) ++
    2 :: List.replicate 9 (0 : UInt8) ++ 2 :: List.replicate 9 (0 : UInt8)).toArray

/-- Its memory. -/
def circularStory : Memory :=
  Memory.ofImage circularImage

/-- Its objects. -/
def circularTable : ObjectTable :=
  .ofHeader (Header.fields circularStory)

/-- **A walk that goes round for ever.**  Any number of sibling steps from the first child leads to
object 2 again, so object 1 can be neither moved nor removed. -/
theorem detaching_endless_circularStory :
    (Header.parse circularStory).toOption = some (Header.fields circularStory) ∧
      (∀ k, (circularTable.sibling circularStory)^[k]
        (circularTable.child circularStory (circularTable.parent circularStory 1)) = 2) ∧
      (¬ ∃ n r, Loop.Ends (circularTable.walkPass circularStory 1) n
        (circularTable.child circularStory (circularTable.parent circularStory 1)) r) ∧
      (∀ newParent, circularTable.insert? circularStory 1 newParent = none) ∧
      circularTable.remove? circularStory 1 = none := by
  have hparse : (Header.parse circularStory).toOption = some (Header.fields circularStory) := by
    decide +kernel
  have hparent : circularTable.parent circularStory 1 = 3 := by decide +kernel
  have hfirst : circularTable.child circularStory 3 = 2 := by decide +kernel
  have hself : circularTable.sibling circularStory 2 = 2 := by decide +kernel
  have hround : ∀ k, (circularTable.sibling circularStory)^[k] 2 = 2 := by
    intro k
    exact Function.iterate_fixed hself k
  have hnever : ¬ ∃ n r, Loop.Ends (circularTable.walkPass circularStory 1) n 2 r := by
    rw [exists_ends_iff]
    rintro ⟨k, hstops⟩
    rw [hround k, WalkStops, hself] at hstops
    exact absurd hstops (by decide)
  have hstuck : ∀ newParent, circularTable.insert? circularStory 1 newParent = none := by
    intro newParent
    have hcircles : circularTable.Circles circularStory 1 2 :=
      (circles_iff (by decide +kernel)).mpr hnever
    rw [insert?_eq_none_iff, hparent, hfirst]
    exact ⟨by decide, by decide, hcircles⟩
  rw [hparent, hfirst]
  exact ⟨hparse, hround, hnever, hstuck, hstuck 0⟩

end ObjectTable
end ZMachine
