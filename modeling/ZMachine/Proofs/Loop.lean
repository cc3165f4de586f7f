/-
# Loops

A loop goes from state to state, one pass at a time, until a pass ends it with a result.  Nothing
outside of it bounds the number of passes, so whether it ends is a question about what a pass does.

* `Loop.Ends` : a loop ends after a number of passes with a result;
* `Loop.ends_of_measure` : a loop ends if every pass makes a measure smaller, and it gives what all
  of its states promise;
* `Loop.Reaches` : a state that a loop comes to;
* `Loop.Reaches.keeps` : what every pass keeps holds of all of them.
-/
import Mathlib.Logic.Relation

namespace ZMachine

/-- Where one pass of a loop leads: to another pass, or to its result. -/
inductive Pass (State Result : Type) where
  | again (s : State)
  | done (r : Result)
  deriving DecidableEq, Repr

namespace Loop

variable {State Result : Type} {pass : State → Pass State Result}

/-! ## Ending -/

/-- From a state the loop ends with a result, after that many passes. -/
inductive Ends (pass : State → Pass State Result) : Nat → State → Result → Prop
  | done {s : State} {r : Result} : pass s = .done r → Ends pass 1 s r
  | again {n : Nat} {s s' : State} {r : Result} :
      pass s = .again s' → Ends pass n s' r → Ends pass (n + 1) s r

/-- **A loop whose measure goes down ends.**  If the states of a loop promise a result, every pass
that goes on keeps the promise and makes the measure smaller, and the last one gives what was
promised, then the loop ends with it from every state, in at most one pass more than the measure. -/
theorem ends_of_measure (pass : State → Pass State Result) (measure : State → Nat)
    (promise : State → Result)
    (hagain : ∀ s s', pass s = .again s' → measure s' < measure s ∧ promise s' = promise s)
    (hdone : ∀ s r, pass s = .done r → r = promise s) (s : State) :
    ∃ n ≤ measure s + 1, Ends pass n s (promise s) := by
  induction hmeasure : measure s using Nat.strongRecOn generalizing s with
  | _ k ih =>
      cases hpass : pass s with
      | done r =>
          rw [← hdone s r hpass]
          exact ⟨1, Nat.le_add_left 1 k, .done hpass⟩
      | again s' =>
          obtain ⟨hless, hpromise⟩ := hagain s s' hpass
          obtain ⟨n, hn, hends⟩ := ih (measure s') (hmeasure ▸ hless) s' rfl
          rw [← hpromise]
          exact ⟨n + 1, by omega, .again hpass hends⟩

/-! ## On the way -/

/-- The loop comes from one state to another. -/
def Reaches (pass : State → Pass State Result) : State → State → Prop :=
  Relation.ReflTransGen fun s s' => pass s = .again s'

/-- What every pass keeps holds of every state that the loop comes to. -/
theorem Reaches.keeps {P : State → Prop} (hpass : ∀ s s', pass s = .again s' → P s → P s')
    {s s' : State} (h : Reaches pass s s') (hs : P s) : P s' := by
  induction h with
  | refl => exact hs
  | tail _ hstep ih => exact hpass _ _ hstep ih

end Loop
end ZMachine
