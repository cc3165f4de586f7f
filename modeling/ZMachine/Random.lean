/-
# Random numbers

The numbers themselves come from outside: a library draws them, and the system gives it entropy to
start from.  `RandomSource` is all that is known of the two.

The machine draws in three modes.  Unpredictable numbers come from a generator that was started
from entropy and repeatable ones from a generator that was started from a seed; the third mode
counts 1, 2, … up to a limit and starts again, for stories under test.
-/
import ZMachine.Word

namespace ZMachine

/-! ## Where numbers come from -/

/-- A library of random numbers and the system's entropy.  The states of a generator are finitely
many, so a number stands for each of them. -/
structure RandomSource where
  /-- The states of the generators that are started from entropy, one after another. -/
  fresh : Nat → Nat
  /-- The state of a generator that is started from a seed. -/
  seeded : UInt64 → Nat
  /-- A number from 1 to `range`, drawn in a state, and the state after that. -/
  draw : (state range : Nat) → Nat × Nat
  one_le_draw : ∀ state range, 1 ≤ range → 1 ≤ (draw state range).1
  draw_le : ∀ state range, 1 ≤ range → (draw state range).1 ≤ range

/-- The source that draws the lowest number each time, for stories that draw none. -/
def RandomSource.lowest : RandomSource where
  fresh _ := 0
  seeded _ := 0
  draw state _ := (1, state)
  one_le_draw _ _ _ := Nat.le_refl 1
  draw_le _ _ h := h

/-! ## The generator -/

/-- Where the next number comes from. -/
inductive RandomMode where
  | unpredictable
  | seeded
  /-- Counting: the next value and the last one before it starts again, both from zero. -/
  | sequence (next last : Nat)
  deriving DecidableEq, Repr

/-- The state of the generator. -/
structure RandomGenerator where
  source : RandomSource
  mode : RandomMode := .unpredictable
  /-- The state of the library's generator. -/
  state : Nat
  /-- How many of the library's generators have been started from entropy. -/
  started : Nat

namespace RandomGenerator

/-- The smallest seed that does not select counting. -/
def seededFrom : Nat := 1000

/-- The greatest seed of a host. -/
def maxSeed : Nat := 2147483647

/-- A generator that is started from entropy. -/
def start (source : RandomSource) : RandomGenerator where
  source
  state := source.fresh 0
  started := 1

/-- Changes the mode: zero for unpredictable numbers, `-n` for a seed of `n`, or for counting to
`n` if that is below a thousand.  A positive argument changes nothing. -/
def reseed (g : RandomGenerator) (arg : Int) : RandomGenerator :=
  if 0 < arg then g
  else if arg = 0 then
    { g with
      mode := .unpredictable
      state := g.source.fresh g.started
      started := g.started + 1 }
  else if seededFrom ≤ arg.natAbs then
    { g with
      mode := .seeded
      state := g.source.seeded (UInt64.ofNat arg.natAbs) }
  else { g with mode := .sequence 0 (arg.natAbs - 1) }

/-- Sets the seed that a host asks for, whatever its sign. -/
def setSeed (g : RandomGenerator) (seed : Int) : RandomGenerator :=
  g.reseed (-(min seed.natAbs maxSeed : Nat))

/-- A number between 1 and `range`. -/
def draw (g : RandomGenerator) (range : Nat) : Nat × RandomGenerator :=
  match g.mode with
  | .sequence next last =>
      (1 + next % range,
        { g with mode := .sequence (if last ≤ next then 0 else next + 1) last })
  | _ =>
      let (value, state) := g.source.draw g.state range
      (value, { g with state })

/-- A draw for a positive argument; any other argument changes the mode and gives zero. -/
def random (g : RandomGenerator) (arg : Int) : UInt16 × RandomGenerator :=
  if 0 < arg then
    let (value, g) := g.draw arg.toNat
    (UInt16.ofNat value, g)
  else (0, g.reseed arg)

end RandomGenerator
end ZMachine
