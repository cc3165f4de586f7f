/-
# Links of object records

Both record layouts keep the three links of an object in fields of their own.  Within the objects of
a table, writing a link is seen by that link alone, and changes no byte outside its field:

* `link_setLink` : what a link leads to after another has been set;
* `Relinked` : the memories that differ in link fields only, a preorder that every `setLink` obeys.
-/
import ZMachine.Object.Tree
import ZMachine.Proofs.Memory

namespace ZMachine
namespace ObjectTable

/-- The number of an object of a table with `n` of them; zero is no object. -/
def IsObject (n : Nat) (o : UInt16) : Prop :=
  o ≠ 0 ∧ o.toNat ≤ n

instance (n : Nat) (o : UInt16) : Decidable (IsObject n o) :=
  inferInstanceAs (Decidable (_ ∧ _))

/-- An object has a positive number. -/
theorem IsObject.pos {n : Nat} {o : UInt16} (h : IsObject n o) : 0 < o.toNat := by
  apply Nat.pos_of_ne_zero
  intro hzero
  exact h.1 (UInt16.toNat_inj.mp hzero)

/-- The objects of a table are those of the first numbers that fit in a word. -/
theorem forall_isObject_iff {n : Nat} {P : UInt16 → Prop} :
    (∀ o, IsObject n o → P o) ↔ ∀ k < n, k < 65535 → P (UInt16.ofNat (k + 1)) := by
  constructor
  · intro h k hk hword
    have hnumber : (UInt16.ofNat (k + 1)).toNat = k + 1 :=
      UInt16.toNat_ofNat_of_lt' (by rw [show UInt16.size = 65536 from rfl]; omega)
    refine h _ ⟨fun hzero => ?_, by omega⟩
    rw [hzero, UInt16.toNat_zero] at hnumber
    omega
  · intro h o ho
    have hpos := ho.pos
    have hle := ho.2
    have hlt := o.toNat_lt
    have hobject := h (o.toNat - 1) (by omega) (by omega)
    rw [Nat.sub_add_cancel hpos, UInt16.ofNat_toNat] at hobject
    exact hobject

instance (n : Nat) (P : UInt16 → Prop) [DecidablePred P] : Decidable (∀ o, IsObject n o → P o) :=
  decidable_of_iff _ forall_isObject_iff.symm

/-- The number of bytes of a link. -/
def linkWidth (t : ObjectTable) : Nat :=
  if t.wide then 2 else 1

/-- The greatest object number that a link can hold. -/
def maxObjects (t : ObjectTable) : Nat :=
  if t.wide then 65535 else 255

/-- The table has room for `n` objects: links can name them all and their records lie in the
image. -/
structure Holds (t : ObjectTable) (m : Memory) (n : Nat) : Prop where
  count_le : n ≤ t.maxObjects
  record_le : ∀ o, IsObject n o → t.entry o + t.recordLength ≤ m.size

instance (t : ObjectTable) (m : Memory) (n : Nat) : Decidable (t.Holds m n) :=
  decidable_of_iff (n ≤ t.maxObjects ∧ ∀ o, IsObject n o → t.entry o + t.recordLength ≤ m.size)
    ⟨fun h => ⟨h.1, h.2⟩, fun h => ⟨h.count_le, h.record_le⟩⟩

/-! ## Where links stand -/

/-- A link lies inside the record of its object. -/
theorem linkOffset_add_linkWidth_le (t : ObjectTable) (l : Link) :
    t.linkOffset l + t.linkWidth ≤ t.recordLength := by
  unfold linkOffset linkWidth recordLength
  cases t.wide <;> cases l <;> simp

/-- A link of an object lies inside the image. -/
theorem Holds.linkAddress_le {t : ObjectTable} {m : Memory} {n : Nat} (h : t.Holds m n)
    {o : UInt16} (ho : IsObject n o) (l : Link) :
    t.linkAddress o l + t.linkWidth ≤ m.size := by
  have hrecord := h.record_le o ho
  have hoffset := linkOffset_add_linkWidth_le t l
  unfold linkAddress
  omega

/-- Different links stand in different bytes. -/
theorem linkAddress_disjoint (t : ObjectTable) {o o' : UInt16} {l l' : Link} (ho : o ≠ 0)
    (ho' : o' ≠ 0) (h : ¬ (o' = o ∧ l' = l)) :
    t.linkAddress o l + t.linkWidth ≤ t.linkAddress o' l' ∨
      t.linkAddress o' l' + t.linkWidth ≤ t.linkAddress o l := by
  have hpos : o.toNat ≠ 0 := fun hz => ho (UInt16.toNat_inj.mp hz)
  have hpos' : o'.toNat ≠ 0 := fun hz => ho' (UInt16.toNat_inj.mp hz)
  have hcases : o'.toNat ≠ o.toNat ∨ l' ≠ l := by
    by_cases hl : l' = l
    · left
      intro hn
      exact h ⟨UInt16.toNat_inj.mp hn, hl⟩
    · exact Or.inr hl
  unfold linkAddress entry linkOffset linkWidth recordLength
  cases t.wide <;> cases l <;> cases l' <;> simp at hcases ⊢ <;> omega

/-! ## Setting a link -/

/-- Setting a link to an object is seen by that link and no other. -/
theorem link_setLink {t : ObjectTable} {m : Memory} {n : Nat} (h : t.Holds m n) {o v : UInt16}
    (ho : IsObject n o) (hv : v.toNat ≤ n) (l : Link) (o' : UInt16) (l' : Link) :
    t.link (t.setLink m o l v) o' l' = if o' = o ∧ l' = l then v else t.link m o' l' := by
  have hinside := h.linkAddress_le ho l
  have hcount := h.count_le
  by_cases hsame : o' = o ∧ l' = l
  · obtain ⟨rfl, rfl⟩ := hsame
    rw [if_pos ⟨rfl, rfl⟩, link, setLink, if_neg ho.1, if_neg ho.1]
    unfold linkWidth at hinside
    unfold maxObjects at hcount
    cases hwide : t.wide with
    | true =>
        simp only [hwide, ↓reduceIte] at hinside ⊢
        exact Memory.wordAt_setWord_self m _ v (by omega)
    | false =>
        simp only [hwide, Bool.false_eq_true, ↓reduceIte] at hinside hcount ⊢
        rw [Memory.byteAt_setByte_self m _ _ (by omega)]
        apply UInt16.toNat_inj.mp
        rw [UInt8.toNat_toUInt16, Word.toNat_low]
        omega
  · rw [if_neg hsame, link, link, setLink, if_neg ho.1]
    by_cases hzero : o' = 0
    · rw [if_pos hzero, if_pos hzero]
    · have hdisjoint := linkAddress_disjoint t ho.1 hzero hsame
      rw [if_neg hzero, if_neg hzero]
      unfold linkWidth at hdisjoint
      cases hwide : t.wide with
      | true =>
          simp only [hwide, ↓reduceIte] at hdisjoint ⊢
          exact Memory.wordAt_setWord_of_disjoint m _ v _ hdisjoint
      | false =>
          simp only [hwide, Bool.false_eq_true, ↓reduceIte] at hdisjoint ⊢
          rw [Memory.byteAt_setByte_of_ne m _ _ _ (by omega)]

/-! ## What setting links leaves alone -/

/-- An address that belongs to a link of one of `n` objects. -/
def IsLinkByte (t : ObjectTable) (n : Nat) (address : Nat) : Prop :=
  ∃ o l, IsObject n o ∧ t.linkAddress o l ≤ address ∧ address < t.linkAddress o l + t.linkWidth

/-- The second memory differs from the first in the links of `n` objects only. -/
structure Relinked (t : ObjectTable) (n : Nat) (m m' : Memory) : Prop where
  size_eq : m'.size = m.size
  loaded_eq : m'.loaded = m.loaded
  staticStart_eq : m'.staticStart = m.staticStart
  byteAt_eq : ∀ address, ¬ t.IsLinkByte n address → m'.byteAt address = m.byteAt address

theorem Relinked.refl (t : ObjectTable) (n : Nat) (m : Memory) : t.Relinked n m m :=
  ⟨rfl, rfl, rfl, fun _ _ => rfl⟩

theorem Relinked.trans {t : ObjectTable} {n : Nat} {m₁ m₂ m₃ : Memory}
    (h : t.Relinked n m₁ m₂) (h' : t.Relinked n m₂ m₃) : t.Relinked n m₁ m₃ where
  size_eq := h'.size_eq.trans h.size_eq
  loaded_eq := h'.loaded_eq.trans h.loaded_eq
  staticStart_eq := h'.staticStart_eq.trans h.staticStart_eq
  byteAt_eq a ha := (h'.byteAt_eq a ha).trans (h.byteAt_eq a ha)

/-- Setting a link of an object changes link bytes only. -/
theorem relinked_setLink (t : ObjectTable) (m : Memory) {n : Nat} {o : UInt16}
    (ho : IsObject n o) (l : Link) (v : UInt16) : t.Relinked n m (t.setLink m o l v) := by
  have houtside : ∀ address, ¬ t.IsLinkByte n address →
      ¬ (t.linkAddress o l ≤ address ∧ address < t.linkAddress o l + t.linkWidth) := by
    intro address ha hinside
    exact ha ⟨o, l, ho, hinside.1, hinside.2⟩
  rw [setLink, if_neg ho.1]
  unfold linkWidth at houtside
  cases hwide : t.wide with
  | true =>
      simp only [hwide, ↓reduceIte] at houtside ⊢
      refine ⟨Memory.size_setWord m _ v, rfl, rfl, fun a ha => ?_⟩
      have := houtside a ha
      exact Memory.byteAt_setWord_of_ne m _ v a (by omega) (by omega)
  | false =>
      simp only [hwide, Bool.false_eq_true, ↓reduceIte] at houtside ⊢
      refine ⟨Memory.size_setByte m _ _, rfl, rfl, fun a ha => ?_⟩
      have := houtside a ha
      exact Memory.byteAt_setByte_of_ne m _ _ a (by omega)

/-- Relinking keeps the room of a table. -/
theorem Holds.relinked {t : ObjectTable} {m m' : Memory} {n k : Nat} (h : t.Holds m n)
    (hm : t.Relinked k m m') : t.Holds m' n where
  count_le := h.count_le
  record_le o ho := by
    rw [hm.size_eq]
    exact h.record_le o ho

/-! ## Tables whose links lead to objects -/

/-- A table with room for `n` objects whose links lead to one of them or nowhere. -/
structure Linked (t : ObjectTable) (m : Memory) (n : Nat) : Prop extends t.Holds m n where
  link_le : ∀ o l, IsObject n o → (t.link m o l).toNat ≤ n

instance (t : ObjectTable) (m : Memory) (n : Nat) : Decidable (t.Linked m n) :=
  decidable_of_iff (t.Holds m n ∧ ∀ o, IsObject n o →
      ∀ l ∈ [Link.parent, .sibling, .child], (t.link m o l).toNat ≤ n)
    ⟨fun h => ⟨h.1, fun o l ho => h.2 o ho l (by cases l <;> decide)⟩,
      fun h => ⟨h.toHolds, fun o ho l _ => h.link_le o l ho⟩⟩

/-- Setting a link to an object or to nothing keeps all links among the objects. -/
theorem Linked.setLink {t : ObjectTable} {m : Memory} {n : Nat} (h : t.Linked m n)
    {o v : UInt16} (ho : IsObject n o) (hv : v.toNat ≤ n) (l : Link) :
    t.Linked (t.setLink m o l v) n where
  toHolds := h.toHolds.relinked (relinked_setLink t m ho l v)
  link_le o' l' ho' := by
    rw [link_setLink h.toHolds ho hv]
    split
    · exact hv
    · exact h.link_le o' l' ho'

/-- A link that does not lead nowhere leads to an object. -/
theorem Linked.isObject_link {t : ObjectTable} {m : Memory} {n : Nat} (h : t.Linked m n)
    {o : UInt16} (ho : IsObject n o) (l : Link) (hl : t.link m o l ≠ 0) :
    IsObject n (t.link m o l) :=
  ⟨hl, h.link_le o l ho⟩

end ObjectTable
end ZMachine
