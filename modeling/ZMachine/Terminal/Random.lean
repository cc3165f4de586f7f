/-
# Random numbers for the player

A linear congruential sequence of sixty-four bit states, of which the upper bits make the numbers.
-/
import ZMachine.Random

namespace ZMachine
namespace Terminal

/-- The next state of the sequence. -/
def nextState (state : Nat) : Nat :=
  (state * 6364136223846793005 + 1442695040888963407) % 18446744073709551616

/-- Numbers of the sequence.  It starts from the system's entropy, a little later each time, or from
the state after a seed. -/
def congruential (entropy : Nat) : RandomSource where
  fresh k := nextState (entropy + k)
  seeded seed := nextState seed.toNat
  draw state range := (1 + nextState state / 8589934592 % range, nextState state)
  one_le_draw _ _ _ := Nat.le_add_right 1 _
  draw_le state range h := by
    have hlt : nextState state / 8589934592 % range < range := Nat.mod_lt _ h
    dsimp only
    omega

end Terminal
end ZMachine
