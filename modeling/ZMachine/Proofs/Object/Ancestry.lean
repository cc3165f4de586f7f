/-
# Ancestry

A move looks at no ancestor of either object, so it can put an object into itself or into one of its
own descendants.  In a tree without cycles these are the only moves that close one: parents change
at the mover alone, so a cycle after the move passes through the mover's new parent.
-/
import Mathlib.Logic.Relation
import ZMachine.Proofs.Object.Forest

namespace ZMachine
namespace ObjectTable
namespace Forest

/-- One of the first `n` objects lies directly in `p`. -/
def IsIn (f : Forest) (n : Nat) (o p : UInt16) : Prop :=
  IsObject n o ∧ p ≠ 0 ∧ f.parent o = p

/-- The parents of an object, followed once or more, lead to `p`. -/
def Descends (f : Forest) (n : Nat) : UInt16 → UInt16 → Prop :=
  Relation.TransGen (f.IsIn n)

/-- No object descends from itself. -/
def Acyclic (f : Forest) (n : Nat) : Prop :=
  ∀ o, ¬ f.Descends n o o

variable {f g : Forest} {n : Nat}

/-! ## Forests that agree -/

theorem Agrees.isIn_iff (h : Agrees n f g) (o p : UInt16) : f.IsIn n o p ↔ g.IsIn n o p :=
  and_congr_right fun ho => by rw [(h o ho).2]

theorem Agrees.descends_iff (h : Agrees n f g) (o p : UInt16) :
    f.Descends n o p ↔ g.Descends n o p := by
  have hisIn : f.IsIn n = g.IsIn n := by
    funext o p
    exact propext (h.isIn_iff o p)
  rw [Descends, Descends, hisIn]

/-- Whether there is a cycle depends on the parents of the objects only. -/
theorem Agrees.acyclic_iff (h : Agrees n f g) : f.Acyclic n ↔ g.Acyclic n :=
  forall_congr' fun o => not_congr (h.descends_iff o o)

/-! ## Paths across a move -/

variable {mover parent : UInt16}

/-- A step after a move is an earlier step of another object or the step to the new parent. -/
theorem isIn_move {o p : UInt16} :
    (f.move mover parent).IsIn n o p ↔
      o ≠ mover ∧ f.IsIn n o p ∨ o = mover ∧ IsObject n mover ∧ parent ≠ 0 ∧ p = parent := by
  simp only [IsIn, parent_move, Function.update_apply]
  by_cases ho : o = mover
  · rw [if_pos ho, ho]
    constructor
    · rintro ⟨hobject, hp, rfl⟩
      exact .inr ⟨rfl, hobject, hp, rfl⟩
    · rintro (⟨hne, -⟩ | ⟨-, hobject, hp, rfl⟩)
      · exact absurd rfl hne
      · exact ⟨hobject, hp, rfl⟩
  · rw [if_neg ho]
    constructor
    · intro hold
      exact .inl ⟨ho, hold⟩
    · rintro (⟨-, hold⟩ | ⟨heq, -⟩)
      · exact hold
      · exact absurd heq ho

/-- Without cycles, a path to the mover does not leave the mover and is kept by the move. -/
theorem Acyclic.descends_move (h : f.Acyclic n) {o : UInt16} (hpath : f.Descends n o mover) :
    (f.move mover parent).Descends n o mover := by
  induction hpath using Relation.TransGen.head_induction_on with
  | single hstep =>
      refine Relation.TransGen.single (isIn_move.mpr (.inl ⟨?_, hstep⟩))
      rintro rfl
      exact h _ (Relation.TransGen.single hstep)
  | head hstep hrest ih =>
      refine Relation.TransGen.head (isIn_move.mpr (.inl ⟨?_, hstep⟩)) ih
      rintro rfl
      exact h _ (Relation.TransGen.head hstep hrest)

/-- A path after a move was there before, or it comes up to the mover and goes on from its new
parent. -/
theorem descends_of_move {o p : UInt16} (hpath : (f.move mover parent).Descends n o p) :
    f.Descends n o p ∨ Relation.ReflTransGen (f.IsIn n) o mover ∧
      Relation.ReflTransGen (f.IsIn n) parent p := by
  induction hpath with
  | single hstep =>
      obtain ⟨-, hold⟩ | ⟨rfl, -, -, rfl⟩ := isIn_move.mp hstep
      · exact .inl (Relation.TransGen.single hold)
      · exact .inr ⟨Relation.ReflTransGen.refl, Relation.ReflTransGen.refl⟩
  | tail _ hstep ih =>
      obtain ⟨-, hold⟩ | ⟨rfl, -, -, rfl⟩ := isIn_move.mp hstep
      · obtain hpath | ⟨hto, hfrom⟩ := ih
        · exact .inl (Relation.TransGen.tail hpath hold)
        · exact .inr ⟨hto, Relation.ReflTransGen.tail hfrom hold⟩
      · obtain hpath | ⟨hto, -⟩ := ih
        · exact .inr ⟨hpath.to_reflTransGen, Relation.ReflTransGen.refl⟩
        · exact .inr ⟨hto, Relation.ReflTransGen.refl⟩

/-! ## Cycles -/

/-- An object that is put into itself or into a descendant closes a cycle. -/
theorem Acyclic.not_acyclic_move (h : f.Acyclic n) (hm : IsObject n mover)
    (hparent : parent = mover ∨ f.Descends n parent mover) :
    ¬ (f.move mover parent).Acyclic n := by
  intro hmove
  obtain rfl | hdescends := hparent
  · exact hmove parent (Relation.TransGen.single (isIn_move.mpr (.inr ⟨rfl, hm, hm.1, rfl⟩)))
  · have hzero : parent ≠ 0 := by
      rintro rfl
      obtain ⟨_, hstep, -⟩ := Relation.TransGen.head'_iff.mp hdescends
      exact hstep.1.1 rfl
    have hnew : (f.move mover parent).IsIn n mover parent :=
      isIn_move.mpr (.inr ⟨rfl, hm, hzero, rfl⟩)
    exact hmove mover (Relation.TransGen.head hnew (h.descends_move hdescends))

/-- Any other move leaves a tree without cycles as it was. -/
theorem Acyclic.acyclic_move (h : f.Acyclic n) (hself : parent ≠ mover)
    (hdescends : ¬ f.Descends n parent mover) : (f.move mover parent).Acyclic n := by
  intro o hcycle
  obtain hold | ⟨hto, hfrom⟩ := descends_of_move hcycle
  · exact h o hold
  · obtain heq | hpath := Relation.reflTransGen_iff_eq_or_transGen.mp (hfrom.trans hto)
    · exact hself heq.symm
    · exact hdescends hpath

/-- A move keeps a forest without cycles acyclic exactly if it puts the object neither into itself
nor into a descendant. -/
theorem Acyclic.move_iff (h : f.Acyclic n) (hm : IsObject n mover) (parent : UInt16) :
    (f.move mover parent).Acyclic n ↔ parent ≠ mover ∧ ¬ f.Descends n parent mover := by
  constructor
  · intro hmove
    refine ⟨fun hself => ?_, fun hdescends => ?_⟩
    · exact h.not_acyclic_move hm (.inl hself) hmove
    · exact h.not_acyclic_move hm (.inr hdescends) hmove
  · rintro ⟨hself, hdescends⟩
    exact h.acyclic_move hself hdescends

/-- Where objects lie in objects with smaller numbers, no object descends from itself. -/
theorem acyclic_of_parent_lt
    (h : ∀ o, IsObject n o → f.parent o ≠ 0 → (f.parent o).toNat < o.toNat) : f.Acyclic n := by
  intro o hcycle
  have hlt : ∀ {o p : UInt16}, f.Descends n o p → p.toNat < o.toNat := by
    intro o p hpath
    induction hpath with
    | single hstep =>
        obtain ⟨ho, hp, rfl⟩ := hstep
        exact h _ ho hp
    | tail _ hstep ih =>
        obtain ⟨ho, hp, rfl⟩ := hstep
        exact Nat.lt_trans (h _ ho hp) ih
  exact Nat.lt_irrefl _ (hlt hcycle)

end Forest

/-- **Insertions and cycles.**  In a consistent table without cycles an insertion leaves the parents
acyclic exactly if the new parent is neither the mover nor one of its descendants; no check stops
the others. -/
theorem acyclic_insert_iff (t : ObjectTable) (m : Memory) (n : Nat) (h : t.Consistent m n)
    (hacyclic : (t.forest m).Acyclic n) (mover parent : UInt16) (hm : IsObject n mover)
    (hp : parent.toNat ≤ n) :
    ∃ m', t.insert? m mover parent = some m' ∧
      ((t.forest m').Acyclic n ↔
        parent ≠ mover ∧ ¬ (t.forest m).Descends n parent mover) := by
  obtain ⟨m', hinsert, -, hagrees, -⟩ := h.insert? hm hp
  exact ⟨m', hinsert, hagrees.acyclic_iff.trans (hacyclic.move_iff hm parent)⟩

/-- Object 5 goes into object 4 without a cycle; but object 1 goes there with one, as object 4 is in
object 3 and object 3 is in object 1. -/
theorem acyclic_insert_iff_family :
    Consistent familyTable family 5 ∧ (forest familyTable family).Acyclic 5 ∧
      (∃ m', familyTable.insert? family 5 4 = some m' ∧ (forest familyTable m').Acyclic 5) ∧
      ∃ m', familyTable.insert? family 1 4 = some m' ∧ ¬ (forest familyTable m').Acyclic 5 := by
  have hacyclic : (forest familyTable family).Acyclic 5 :=
    Forest.acyclic_of_parent_lt (by decide +kernel)
  obtain ⟨m₁, hm₁, hiff₁⟩ :=
    acyclic_insert_iff familyTable family 5 consistent_family hacyclic 5 4 (by decide) (by decide)
  obtain ⟨m₂, hm₂, hiff₂⟩ :=
    acyclic_insert_iff familyTable family 5 consistent_family hacyclic 1 4 (by decide) (by decide)
  have hfour : (forest familyTable family).IsIn 5 4 3 := by unfold Forest.IsIn; decide +kernel
  have hthree : (forest familyTable family).IsIn 5 3 1 := by unfold Forest.IsIn; decide +kernel
  refine ⟨consistent_family, hacyclic, ⟨m₁, hm₁, hiff₁.mpr ⟨by decide, fun hpath => ?_⟩⟩, m₂, hm₂,
    fun hcycle => (hiff₂.mp hcycle).2 ((Relation.TransGen.single hfour).tail hthree)⟩
  -- a path into object 5 would end at an object whose parent it is
  obtain ⟨o, -, ho⟩ := Relation.TransGen.tail'_iff.mp hpath
  have hempty : ∀ o, IsObject 5 o → familyTable.parent family o ≠ 5 := by decide +kernel
  exact hempty o ho.1 ho.2.2

end ObjectTable
end ZMachine
