/-
# What the generator draws

A draw stays in the range that is asked for, in all three modes.

For a story under test the generator counts up to a limit and starts again.  Its state is then the
value that comes next and the last one; a draw reduces the value to the range that is asked for and
moves on.  The range has no part in where the count goes, so it may be another one for every draw.

* `random_mem_range` : a draw stays in its range;
* `drawn_reseed_seeded` : a seed decides all draws after it;
* `CountsFrom` : a generator that counts, and the value that comes next;
* `CountsFrom.random` : one draw, its value and the count after it;
* `CountsFrom.afterDraws` : the count after any number of draws;
* `drawn_of_setToCount` : every value of a generator that was set to count.
-/
import ZMachine.Random

namespace ZMachine
namespace RandomGenerator

/-! ## The range of a draw -/

theorem draw_mem_range (g : RandomGenerator) {range : Nat} (h : 1 ≤ range) :
    1 ≤ (g.draw range).1 ∧ (g.draw range).1 ≤ range := by
  have hdrawn : 1 ≤ (g.source.draw g.state range).1 ∧ (g.source.draw g.state range).1 ≤ range :=
    ⟨g.source.one_le_draw g.state range h, g.source.draw_le g.state range h⟩
  unfold draw
  cases g.mode with
  | unpredictable => exact hdrawn
  | seeded => exact hdrawn
  | sequence next last =>
      have hreduced : next % range < range := Nat.mod_lt next h
      dsimp only
      omega

/-- **A draw stays in its range**, for every argument that a story can give. -/
theorem random_mem_range (g : RandomGenerator) {arg : Int} (hpos : 0 < arg) (hle : arg ≤ 32767) :
    1 ≤ (g.random arg).1.toNat ∧ ((g.random arg).1.toNat : Int) ≤ arg := by
  obtain ⟨hone, hrange⟩ := g.draw_mem_range (show 1 ≤ arg.toNat by omega)
  have hvalue : (g.random arg).1.toNat = (g.draw arg.toNat).1 := by
    unfold random
    rw [if_pos hpos]
    exact UInt16.toNat_ofNat_of_lt' (by rw [show UInt16.size = 65536 from rfl]; omega)
  omega

/-! ## One draw of a count -/

/-- The generator counts through the numbers below `limit`, and `next` comes next.  The limit is
one that a seed can set. -/
structure CountsFrom (limit next : Nat) (g : RandomGenerator) : Prop where
  mode : g.mode = .sequence next (limit - 1)
  next_lt : next < limit
  limit_lt : limit < seededFrom

/-- The seed of a limit makes any generator count from the beginning. -/
theorem countsFrom_reseed {limit : Nat} (hpos : 0 < limit) (hlt : limit < seededFrom)
    (g : RandomGenerator) : CountsFrom limit 0 (g.reseed (-limit)) := by
  refine ⟨?_, hpos, hlt⟩
  have hlength : (-(limit : Int)).natAbs = limit := by simp
  unfold reseed
  rw [hlength, if_neg (by omega), if_neg (by omega), if_neg (by omega)]

section
variable {limit next : Nat} {g : RandomGenerator}

/-- After the last value the count starts again. -/
theorem next_eq_mod (h : next < limit) :
    (if limit - 1 ≤ next then 0 else next + 1) = (next + 1) % limit := by
  split
  · rw [show next + 1 = limit by omega, Nat.mod_self]
  · rw [Nat.mod_eq_of_lt (by omega)]

/-- **One draw** gives the next value, reduced to the range, and moves the count on by one. -/
theorem CountsFrom.random (h : CountsFrom limit next g) {range : Int} (hrange : 0 < range) :
    (g.random range).1.toNat = 1 + next % range.toNat ∧
      CountsFrom limit ((next + 1) % limit) (g.random range).2 := by
  have hdraw : g.draw range.toNat =
      (1 + next % range.toNat,
        { g with mode := .sequence (if limit - 1 ≤ next then 0 else next + 1) (limit - 1) }) := by
    unfold draw
    rw [h.mode]
  have hsmall : 1 + next % range.toNat < 65536 := by
    have hreduced := Nat.mod_le next range.toNat
    have hnext := h.next_lt
    have hlimit := h.limit_lt
    unfold seededFrom at hlimit
    omega
  unfold RandomGenerator.random
  rw [if_pos hrange, hdraw]
  constructor
  · show (UInt16.ofNat (1 + next % range.toNat)).toNat = _
    rw [UInt16.toNat_ofNat', Nat.mod_eq_of_lt hsmall]
  · refine ⟨?_, Nat.mod_lt _ (Nat.zero_lt_of_lt h.next_lt), h.limit_lt⟩
    show RandomMode.sequence _ _ = _
    rw [next_eq_mod h.next_lt]

end

/-! ## A run of draws -/

/-- The generator after the first draws of a sequence of arguments. -/
def afterDraws (g : RandomGenerator) (ranges : Nat → Int) : Nat → RandomGenerator
  | 0 => g
  | k + 1 => ((g.afterDraws ranges k).random (ranges k)).2

/-- The value of the draw for the argument in a place of the sequence. -/
def drawn (g : RandomGenerator) (ranges : Nat → Int) (k : Nat) : UInt16 :=
  ((g.afterDraws ranges k).random (ranges k)).1

/-- Two generators draw from one source, in the same mode and state. -/
structure Alike (g g' : RandomGenerator) : Prop where
  source : g'.source = g.source
  mode : g'.mode = g.mode
  state : g'.state = g.state

/-- Such generators draw the same number and stay alike. -/
theorem Alike.random {g g' : RandomGenerator} (h : Alike g g') {range : Int} (hrange : 0 < range) :
    (g'.random range).1 = (g.random range).1 ∧ Alike (g.random range).2 (g'.random range).2 := by
  obtain ⟨hsource, hmode, hstate⟩ := h
  unfold RandomGenerator.random
  rw [if_pos hrange, if_pos hrange]
  unfold draw
  rw [hmode, hsource, hstate]
  cases g.mode <;> exact ⟨rfl, rfl, rfl, rfl⟩

theorem Alike.afterDraws {g g' : RandomGenerator} (h : Alike g g') {ranges : Nat → Int}
    (hranges : ∀ k, 0 < ranges k) (k : Nat) :
    Alike (g.afterDraws ranges k) (g'.afterDraws ranges k) := by
  induction k with
  | zero => exact h
  | succ k ih => exact (ih.random (hranges k)).2

/-- **A seed decides all draws after it.**  Two generators of one source, whatever they have drawn
before, draw the same numbers once they have been given the same seed. -/
theorem drawn_reseed_seeded {g g' : RandomGenerator} (hsource : g'.source = g.source) {seed : Nat}
    (hseed : seededFrom ≤ seed) {ranges : Nat → Int} (hranges : ∀ k, 0 < ranges k) (k : Nat) :
    (g'.reseed (-seed)).drawn ranges k = (g.reseed (-seed)).drawn ranges k := by
  have hpos : 0 < seed := Nat.lt_of_lt_of_le (by decide) hseed
  have hreseed : ∀ g : RandomGenerator, g.reseed (-seed)
      = { g with mode := .seeded, state := g.source.seeded (UInt64.ofNat seed) } := by
    intro g
    have hmagnitude : (-(seed : Int)).natAbs = seed := by simp
    unfold reseed
    rw [hmagnitude, if_neg (by omega), if_neg (by omega), if_pos hseed]
  have halike : Alike (g.reseed (-seed)) (g'.reseed (-seed)) := by
    rw [hreseed, hreseed, hsource]
    exact ⟨rfl, rfl, rfl⟩
  exact ((halike.afterDraws hranges k).random (hranges k)).1

/-! ## A run of a count -/

/-- **A run of draws** moves the count on by one each, whatever the ranges. -/
theorem CountsFrom.afterDraws {limit next : Nat} {g : RandomGenerator}
    (h : CountsFrom limit next g) {ranges : Nat → Int} (hranges : ∀ k, 0 < ranges k) (k : Nat) :
    CountsFrom limit ((next + k) % limit) (g.afterDraws ranges k) := by
  induction k with
  | zero =>
      rw [Nat.add_zero, Nat.mod_eq_of_lt h.next_lt]
      exact h
  | succ k ih =>
      have hstep := (ih.random (hranges k)).2
      rw [Nat.mod_add_mod] at hstep
      exact hstep

/-- A generator that was just set to count to a limit: by a story, or by a host with a seed of
either sign. -/
inductive SetToCount (limit : Nat) : RandomGenerator → Prop
  | byStory (g : RandomGenerator) : SetToCount limit (g.random (-limit)).2
  | bySeed (g : RandomGenerator) : SetToCount limit (g.setSeed limit)
  | byNegativeSeed (g : RandomGenerator) : SetToCount limit (g.setSeed (-limit))

theorem SetToCount.countsFrom {limit : Nat} (hpos : 0 < limit) (hlt : limit < seededFrom)
    {g : RandomGenerator} (h : SetToCount limit g) : CountsFrom limit 0 g := by
  have hsmall : limit ≤ maxSeed := by
    unfold seededFrom at hlt
    unfold maxSeed
    omega
  cases h with
  | byStory g =>
      have hnegative : ¬ 0 < -(limit : Int) := by omega
      unfold RandomGenerator.random
      rw [if_neg hnegative]
      exact countsFrom_reseed hpos hlt g
  | bySeed g =>
      unfold setSeed
      rw [Int.natAbs_natCast, Nat.min_eq_left hsmall]
      exact countsFrom_reseed hpos hlt g
  | byNegativeSeed g =>
      unfold setSeed
      rw [Int.natAbs_neg, Int.natAbs_natCast, Nat.min_eq_left hsmall]
      exact countsFrom_reseed hpos hlt g

/-- **The values of a generator that counts.**  Set to count to a limit between 1 and 999, from any
state, it draws for every sequence of positive arguments the place in the sequence modulo the limit,
reduced to the argument, and one more.  So every value lies in its range, and where all arguments
are the limit the values go from 1 to the limit over and over. -/
theorem drawn_of_setToCount {limit : Nat} (hpos : 1 ≤ limit) (hle : limit ≤ 999)
    {g : RandomGenerator} (hg : SetToCount limit g) {ranges : Nat → Int}
    (hranges : ∀ k, 0 < ranges k) (k : Nat) :
    (g.drawn ranges k).toNat = 1 + k % limit % (ranges k).toNat ∧
      1 ≤ (g.drawn ranges k).toNat ∧ ((g.drawn ranges k).toNat : Int) ≤ ranges k ∧
      ((∀ j, ranges j = limit) → (g.drawn ranges k).toNat = 1 + k % limit) := by
  have hlt : limit < seededFrom := Nat.lt_succ_of_le hle
  have hcount := (hg.countsFrom hpos hlt).afterDraws hranges k
  have hvalue : (g.drawn ranges k).toNat = 1 + k % limit % (ranges k).toNat := by
    have hdraw := (hcount.random (hranges k)).1
    rw [Nat.zero_add] at hdraw
    exact hdraw
  have hpositive := hranges k
  have hreduced : k % limit % (ranges k).toNat < (ranges k).toNat :=
    Nat.mod_lt _ (by omega)
  refine ⟨hvalue, by omega, by omega, fun hall => ?_⟩
  rw [hvalue, hall k, Int.toNat_natCast, Nat.mod_mod]

/-- Counting to three with the ranges three and two in turn: the sixth value is the third of the
second round, reduced to two. -/
theorem drawn_of_setToCount_inTurn :
    let g := ((start .lowest).random (-3)).2
    let ranges : Nat → Int := fun k => if k % 2 = 0 then 3 else 2
    1 ≤ 3 ∧ 3 ≤ 999 ∧ SetToCount 3 g ∧ (∀ k, 0 < ranges k) ∧ (g.drawn ranges 5).toNat = 1 := by
  intro g ranges
  have hg : SetToCount 3 g := .byStory (start .lowest)
  have hranges : ∀ k, 0 < ranges k := by
    intro k
    show (0 : Int) < if k % 2 = 0 then 3 else 2
    split <;> decide
  have hvalue : (g.drawn ranges 5).toNat = 1 + 5 % 3 % (ranges 5).toNat :=
    (drawn_of_setToCount (by decide) (by decide) hg hranges 5).1
  have hplace : 1 + 5 % 3 % (ranges 5).toNat = 1 := by decide
  exact ⟨by decide, by decide, hg, hranges, hvalue.trans hplace⟩

end RandomGenerator
end ZMachine
