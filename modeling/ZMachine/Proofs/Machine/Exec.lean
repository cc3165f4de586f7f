/-
# Running actions

An action turns a machine into a result and a machine.  The equations here say what the pieces of an
action give when they are run.

`Relates R x` says that the machine after the action `x` stands in the relation `R` to the machine
before it, also if the action stops half way.  For a preorder `R` this is closed under sequencing,
so a relation has to be checked only where an action touches the machine.
-/
import ZMachine.Machine.Basic

namespace ZMachine
namespace Machine

variable {α β : Type}

/-! ## What actions give -/

theorem run_get (m : Machine) : (get : Exec Machine).run m = (.ok m, m) := rfl

theorem run_modify (f : Machine → Machine) (m : Machine) :
    (modify f : Exec Unit).run m = (.ok (), f m) := rfl

/-- A sequence goes on with the result of its first part, or stops with it. -/
theorem run_bind (x : Exec α) (f : α → Exec β) (m : Machine) :
    (x >>= f).run m
      = match x.run m with
        | (.ok a, m') => (f a).run m'
        | (.error e, m') => (.error e, m') := by
  show ExceptT.bindCont f (x.run m).1 (x.run m).2 = _
  rcases x.run m with ⟨_ | _, _⟩ <;> rfl

/-- A sequence after a part that gave a result. -/
theorem run_bind_ok {x : Exec α} {f : α → Exec β} {m m' : Machine} {a : α}
    (h : x.run m = (.ok a, m')) : (x >>= f).run m = (f a).run m' := by
  rw [run_bind, h]

/-- A sequence after a machine has been put in place. -/
theorem run_set_bind (m' m : Machine) (f : Unit → Exec β) :
    (set m' >>= f : Exec β).run m = (f ()).run m' := rfl

/-- A sequence after the machine has been changed. -/
theorem run_modify_bind (g : Machine → Machine) (m : Machine) (f : Unit → Exec β) :
    (modify g >>= f : Exec β).run m = (f ()).run (g m) := rfl

/-- Giving a result at the end does not touch the machine. -/
theorem run_bind_pure_snd (x : Exec α) (b : β) (m : Machine) :
    ((x >>= fun _ => pure b).run m).2 = (x.run m).2 := by
  rw [run_bind]
  rcases x.run m with ⟨_ | _, _⟩ <;> rfl

/-! ## Relating the machines before and after -/

/-- The machine after an action is related to the one before it. -/
def Relates (R : Machine → Machine → Prop) (x : Exec α) : Prop :=
  ∀ m, R m (x.run m).2

section
variable {R : Machine → Machine → Prop}

/-- A weaker relation holds as well. -/
theorem Relates.mono {S : Machine → Machine → Prop} {x : Exec α} (h : Relates R x)
    (hRS : ∀ m m', R m m' → S m m') : Relates S x :=
  fun m => hRS m _ (h m)

/-- Sequencing composes relations. -/
theorem relates_bind {S T : Machine → Machine → Prop} {x : Exec α} {f : α → Exec β}
    (hstop : ∀ m m', R m m' → T m m') (htrans : ∀ m₁ m₂ m₃, R m₁ m₂ → S m₂ m₃ → T m₁ m₃)
    (hx : Relates R x) (hf : ∀ a, Relates S (f a)) : Relates T (x >>= f) := by
  intro m
  have hm := hx m
  rw [run_bind]
  revert hm
  rcases x.run m with ⟨e | a, m'⟩
  · intro hm
    exact hstop m m' hm
  · intro hm
    exact htrans m m' _ hm (hf a m')

/-- Sequencing keeps a transitive relation. -/
theorem relates_bind_self {x : Exec α} {f : α → Exec β}
    (htrans : ∀ m₁ m₂ m₃, R m₁ m₂ → R m₂ m₃ → R m₁ m₃) (hx : Relates R x)
    (hf : ∀ a, Relates R (f a)) : Relates R (x >>= f) :=
  relates_bind (fun _ _ h => h) htrans hx hf

/-- Reading the machine first: the rest has to be checked on the machine that it has read. -/
theorem relates_get {f : Machine → Exec β} (h : ∀ m, R m ((f m).run m).2) :
    Relates R (get >>= f) := by
  intro m
  exact h m

/-- Reading the machine first, for a rest that only looks at it. -/
theorem relates_get_of_forall {f : Machine → Exec β} (h : ∀ m, Relates R (f m)) :
    Relates R (get >>= f) :=
  relates_get fun m => h m m

end

end Machine
end ZMachine
