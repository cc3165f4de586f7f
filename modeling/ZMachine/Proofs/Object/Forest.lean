/-
# The object tree as a forest

The links of a consistent table describe a forest: for every object its child list and its parent.
Moving an object does to the links what `Forest.move` does to the forest, whatever the old and the
new parent, and any sequence of moves does so move by move.
-/
import Mathlib.Logic.Function.Basic
import ZMachine.Proofs.Object.ChildLists

namespace ZMachine
namespace ObjectTable

/-! ## Forests -/

/-- Child lists and parents. -/
structure Forest where
  children : UInt16 → List UInt16
  parent : UInt16 → UInt16

/-- Takes `mover` out of every list and puts it in front of the children of `parent`, unless that is
zero. -/
def Forest.move (f : Forest) (mover parent : UInt16) : Forest where
  children p :=
    if p = parent then mover :: (f.children p).erase mover else (f.children p).erase mover
  parent := Function.update f.parent mover parent

@[simp]
theorem Forest.parent_move (f : Forest) (mover parent : UInt16) :
    (f.move mover parent).parent = Function.update f.parent mover parent := rfl

/-- Two forests with the same lists and parents of the first `n` objects. -/
def Forest.Agrees (n : Nat) (f g : Forest) : Prop :=
  ∀ o, IsObject n o → f.children o = g.children o ∧ f.parent o = g.parent o

/-- The forest that the links of a table describe. -/
def forest (t : ObjectTable) (m : Memory) : Forest where
  children := t.children m
  parent := t.parent m

/-- Moving an object keeps forests in agreement. -/
theorem Forest.Agrees.move {n : Nat} {f g : Forest} (h : Agrees n f g) (mover parent : UInt16) :
    Agrees n (f.move mover parent) (g.move mover parent) := by
  intro o ho
  obtain ⟨hchildren, hparent⟩ := h o ho
  refine ⟨?_, ?_⟩
  · show (if o = parent then mover :: (f.children o).erase mover
      else (f.children o).erase mover) = _
    rw [hchildren]
    rfl
  · show Function.update f.parent mover parent o = Function.update g.parent mover parent o
    by_cases hmover : o = mover
    · rw [hmover, Function.update_self, Function.update_self]
    · rw [Function.update_of_ne hmover, Function.update_of_ne hmover, hparent]

/-- The forest of a table after lists and parents have changed as by a move. -/
theorem agrees_move {t : ObjectTable} {m m' : Memory} {n : Nat} {mover parent : UInt16}
    (h : t.Consistent m n) (hholds : t.Holds m' n)
    (hparent : ∀ o, t.parent m' o = if o = mover then parent else t.parent m o)
    (hlists : ∀ p l, IsObject n p → t.Lists m n p l →
      t.Lists m' n p (if p = parent then mover :: l.erase mover else l.erase mover)) :
    Forest.Agrees n (t.forest m') ((t.forest m).move mover parent) := by
  intro o ho
  refine ⟨?_, ?_⟩
  · exact (hlists o _ ho (h.lists_children ho)).children_eq hholds
  · show t.parent m' o = Function.update (t.parent m) mover parent o
    rw [hparent, Function.update_apply]

/-! ## Moves -/

/-- **One move of a consistent table.**  It succeeds, keeps the table consistent, changes the forest
as `Forest.move` does and no byte outside the links. -/
theorem Consistent.insert? {t : ObjectTable} {m : Memory} {n : Nat} (h : t.Consistent m n)
    {mover parent : UInt16} (hm : IsObject n mover) (hp : parent.toNat ≤ n) :
    ∃ m', t.insert? m mover parent = some m' ∧ t.Consistent m' n ∧
      Forest.Agrees n (t.forest m') ((t.forest m).move mover parent) ∧ t.Relinked n m m' := by
  obtain ⟨m₁, hdetach, hout⟩ := h.detach? hm
  have hlists : ∀ p, IsObject n p → ∃ l, t.Lists m₁ n p l := by
    intro p hpo
    obtain ⟨l, hl⟩ := h.lists p hpo
    exact ⟨_, hout.lists p l hpo hl⟩
  rw [ObjectTable.insert?, if_neg hm.1, hdetach, Option.map_some]
  -- with no new parent the object stays out
  by_cases hzero : parent = 0
  · rw [if_pos hzero]
    refine ⟨m₁, rfl, ⟨hout.linked, hlists⟩, ?_, hout.relinked⟩
    apply agrees_move h hout.linked.toHolds
    · rw [hzero]
      exact hout.parent_eq
    · intro p l hpo hl
      rw [if_neg (by rw [hzero]; exact hpo.1)]
      exact hout.lists p l hpo hl
  · rw [if_neg hzero]
    have hin := attached_attach hout.linked hm ⟨hzero, hp⟩ (by rw [hout.parent_eq, if_pos rfl])
    refine ⟨t.attach m₁ mover parent, rfl, ⟨hin.linked, fun p hpo => ?_⟩, ?_,
      hout.relinked.trans hin.relinked⟩
    · obtain ⟨l, hl⟩ := hlists p hpo
      exact ⟨_, hin.lists p l hpo hl⟩
    · apply agrees_move h hin.linked.toHolds
      · intro o
        rw [hin.parent_eq, hout.parent_eq]
        by_cases ho : o = mover
        · rw [if_pos ho, if_pos ho]
        · rw [if_neg ho, if_neg ho, if_neg ho]
      · intro p l hpo hl
        exact hin.lists p _ hpo (hout.lists p l hpo hl)

/-- An instruction that moves an object. -/
inductive Move where
  | insert (mover parent : UInt16)
  | remove (mover : UInt16)
  deriving DecidableEq, Repr

namespace Move

/-- A move of an object into an object or out of the tree. -/
def InRange (n : Nat) : Move → Prop
  | insert mover parent => IsObject n mover ∧ parent.toNat ≤ n
  | remove mover => IsObject n mover

instance (n : Nat) (move : Move) : Decidable (move.InRange n) :=
  match move with
  | insert .. => inferInstanceAs (Decidable (_ ∧ _))
  | remove mover => inferInstanceAs (Decidable (IsObject n mover))

/-- Carries out a move on the links of a table. -/
def onLinks? (t : ObjectTable) (m : Memory) : Move → Option Memory
  | insert mover parent => t.insert? m mover parent
  | remove mover => t.remove? m mover

/-- Carries out a move on a forest. -/
def onForest (f : Forest) : Move → Forest
  | insert mover parent => f.move mover parent
  | remove mover => f.move mover 0

end Move

/-- Carries out moves one after another. -/
def moveAll? (t : ObjectTable) (m : Memory) : List Move → Option Memory
  | [] => some m
  | move :: rest => (move.onLinks? t m).bind fun m => t.moveAll? m rest

/-- Moves keep forests in agreement. -/
theorem Forest.Agrees.foldl_onForest {n : Nat} {f g : Forest} (h : Agrees n f g)
    (moves : List Move) :
    Agrees n (moves.foldl Move.onForest f) (moves.foldl Move.onForest g) := by
  induction moves generalizing f g with
  | nil => exact h
  | cons move rest ih =>
      apply ih
      cases move with
      | insert mover parent => exact h.move mover parent
      | remove mover => exact h.move mover 0

/-- One move of any kind. -/
theorem Consistent.onLinks? {t : ObjectTable} {m : Memory} {n : Nat} (h : t.Consistent m n)
    {move : Move} (hmove : move.InRange n) :
    ∃ m', move.onLinks? t m = some m' ∧ t.Consistent m' n ∧
      Forest.Agrees n (t.forest m') (move.onForest (t.forest m)) ∧ t.Relinked n m m' := by
  cases move with
  | insert mover parent => exact h.insert? hmove.1 hmove.2
  | remove mover => exact h.insert? hmove (Nat.zero_le n)

/-- **Any sequence of moves of a consistent table** succeeds and acts on its forest. -/
theorem Consistent.moveAll? {t : ObjectTable} {m : Memory} {n : Nat} (h : t.Consistent m n)
    (moves : List Move) (hmoves : ∀ move ∈ moves, move.InRange n) :
    ∃ m', t.moveAll? m moves = some m' ∧ t.Consistent m' n ∧
      Forest.Agrees n (t.forest m') (moves.foldl Move.onForest (t.forest m)) ∧
      t.Relinked n m m' := by
  induction moves generalizing m with
  | nil => exact ⟨m, rfl, h, fun _ _ => ⟨rfl, rfl⟩, Relinked.refl t n m⟩
  | cons move rest ih =>
      rw [List.forall_mem_cons] at hmoves
      obtain ⟨m₁, hlinks, h₁, hagrees₁, hrelinked₁⟩ := h.onLinks? hmoves.1
      obtain ⟨m₂, hrest, h₂, hagrees₂, hrelinked₂⟩ := ih h₁ hmoves.2
      refine ⟨m₂, ?_, h₂, fun o ho => ?_, hrelinked₁.trans hrelinked₂⟩
      · rw [ObjectTable.moveAll?, hlinks, Option.bind_some, hrest]
      · have hfold := hagrees₁.foldl_onForest rest o ho
        exact ⟨(hagrees₂ o ho).1.trans hfold.1, (hagrees₂ o ho).2.trans hfold.2⟩

/-- **The object tree refines a forest of child lists.**  In a consistent table an insertion puts
`mover` in front of the children of its new parent and erases it from every other list, and any
sequence of moves acts on the forest; consistency is kept and only bytes of links change. -/
theorem moves_refine_forest (t : ObjectTable) (m : Memory) (n : Nat) (h : t.Consistent m n) :
    (∀ mover parent, IsObject n mover → parent.toNat ≤ n →
      ∃ m', t.insert? m mover parent = some m' ∧ t.Consistent m' n ∧
        (∀ p, IsObject n p →
          t.children m' p = if p = parent then mover :: (t.children m p).erase mover
            else (t.children m p).erase mover) ∧
        t.parent m' mover = parent ∧ t.Relinked n m m') ∧
    (∀ moves : List Move, (∀ move ∈ moves, move.InRange n) →
      ∃ m', t.moveAll? m moves = some m' ∧ t.Consistent m' n ∧
        Forest.Agrees n (t.forest m') (moves.foldl Move.onForest (t.forest m)) ∧
        t.Relinked n m m') := by
  refine ⟨fun mover parent hm hp => ?_, h.moveAll?⟩
  obtain ⟨m', hinsert, hconsistent, hagrees, hrelinked⟩ := h.insert? hm hp
  refine ⟨m', hinsert, hconsistent, fun p hpo => (hagrees p hpo).1, ?_, hrelinked⟩
  have hparent : t.parent m' mover = Function.update (t.parent m) mover parent mover :=
    (hagrees mover hm).2
  rw [hparent, Function.update_self]

/-- Five wide records.  Objects 2 and 3 are in object 1, object 4 is in object 3 and object 5 is
alone; object 2 has attribute 9 and object 3 has attribute 47. -/
def familyImage : Array UInt8 :=
  (List.replicate 126 (0 : UInt8) ++
    [0, 0, 0, 0, 0, 0, 0, 0, 0, 0, 0, 2, 0, 0] ++
    [0, 0x40, 0, 0, 0, 0, 0, 1, 0, 3, 0, 0, 0, 0] ++
    [0, 0, 0, 0, 0, 1, 0, 1, 0, 0, 0, 4, 0, 0] ++
    [0, 0, 0, 0, 0, 0, 0, 3, 0, 0, 0, 0, 0, 0] ++
    [0, 0, 0, 0, 0, 0, 0, 0, 0, 0, 0, 0, 0, 0]).toArray

/-- The table of these objects. -/
def familyTable : ObjectTable where
  base := 0
  wide := true

/-- Their memory. -/
def family : Memory :=
  .ofImage familyImage

theorem consistent_family : Consistent familyTable family 5 := by
  decide +kernel

/-- Object 3 goes to object 5 and leaves object 2 behind; and then objects are put into an object
further down, into themselves and into their own child. -/
theorem moves_refine_forest_family :
    Consistent familyTable family 5 ∧
      (∃ m', familyTable.insert? family 3 5 = some m' ∧ Consistent familyTable m' 5 ∧
        familyTable.children m' 5 = [3] ∧ familyTable.children m' 1 = [2]) ∧
      ∃ m', familyTable.moveAll? family
          [.insert 3 5, .insert 2 4, .insert 4 4, .insert 1 3, .remove 2] = some m' ∧
        Consistent familyTable m' 5 := by
  obtain ⟨hinsert, hmoves⟩ := moves_refine_forest familyTable family 5 consistent_family
  obtain ⟨m₁, hm₁, hconsistent₁, hchildren, -⟩ := hinsert 3 5 (by decide) (by decide)
  obtain ⟨m₂, hm₂, hconsistent₂, -⟩ :=
    hmoves [.insert 3 5, .insert 2 4, .insert 4 4, .insert 1 3, .remove 2] (by decide)
  have hfirst : familyTable.children family 1 = [2, 3] := by decide +kernel
  have hlast : familyTable.children family 5 = [] := by decide +kernel
  refine ⟨consistent_family, ⟨m₁, hm₁, hconsistent₁, ?_, ?_⟩, m₂, hm₂, hconsistent₂⟩
  · rw [hchildren 5 (by decide), if_pos rfl, hlast]
    rfl
  · rw [hchildren 1 (by decide), if_neg (by decide), hfirst]
    rfl

end ObjectTable
end ZMachine
