/-
# Attributes

An attribute is one bit in the first bytes of a record, in front of the links and of the pointer to
the properties.  Setting or clearing it is seen by that attribute of that object alone, and moving
objects is seen by no attribute.

* `entry_add_inj` : records do not overlap;
* `Reflagged` : the memories that differ in bytes of attributes only;
* `testAttribute_setAttribute`, `testAttribute_clearAttribute` : one attribute changes;
* `ObjectAction` : the instructions that write to the object tree, with the account of what the last
  of them has made of an attribute;
* `attributes_independent` : after any of them, that account is what a test finds.
-/
import ZMachine.Proofs.Object.Forest

namespace ZMachine
namespace ObjectTable

variable {t : ObjectTable} {m m' : Memory} {n : Nat} {o o' a a' : UInt16}

/-! ## The bits of a byte -/

/-- The bit of an attribute in its byte, the topmost bit first. -/
def attributeBit (k : Nat) : UInt8 :=
  0x80 >>> UInt8.ofNat k

theorem attributeBit_ne_zero {k : Nat} (hk : k < 8) : attributeBit k ≠ 0 :=
  (by decide : ∀ k : Fin 8, attributeBit k ≠ 0) ⟨k, hk⟩

/-- Two different bits have nothing in common. -/
theorem attributeBit_and_attributeBit {k j : Nat} (hk : k < 8) (hj : j < 8) (h : k ≠ j) :
    attributeBit k &&& attributeBit j = 0 :=
  (by decide : ∀ k j : Fin 8, (k : Nat) ≠ j → attributeBit k &&& attributeBit j = 0)
    ⟨k, hk⟩ ⟨j, hj⟩ h

/-- A bit is among those that the complement of a different one leaves. -/
theorem not_attributeBit_and_attributeBit {k j : Nat} (hk : k < 8) (hj : j < 8) (h : k ≠ j) :
    ~~~attributeBit k &&& attributeBit j = attributeBit j :=
  (by decide : ∀ k j : Fin 8, (k : Nat) ≠ j →
    ~~~attributeBit k &&& attributeBit j = attributeBit j) ⟨k, hk⟩ ⟨j, hj⟩ h

/-- Bits of two bytes are bits of one or of the other. -/
theorem or_and_eq (b c d : UInt8) : (b ||| c) &&& d = b &&& d ||| c &&& d :=
  UInt8.toBitVec_inj.mp BitVec.and_or_distrib_right

/-- Whether a bit is found after a bit has been set. -/
theorem decide_set_attributeBit (b : UInt8) {k j : Nat} (hk : k < 8) (hj : j < 8) :
    decide ((b ||| attributeBit k) &&& attributeBit j ≠ 0)
      = if j = k then true else decide (b &&& attributeBit j ≠ 0) := by
  rw [or_and_eq]
  by_cases h : j = k
  · subst h
    rw [UInt8.and_self, if_pos rfl]
    simp [attributeBit_ne_zero hk]
  · rw [attributeBit_and_attributeBit hk hj (Ne.symm h), UInt8.or_zero, if_neg h]

/-- Whether a bit is found after a bit has been cleared. -/
theorem decide_clear_attributeBit (b : UInt8) {k j : Nat} (hk : k < 8) (hj : j < 8) :
    decide (b &&& ~~~attributeBit k &&& attributeBit j ≠ 0)
      = if j = k then false else decide (b &&& attributeBit j ≠ 0) := by
  rw [UInt8.and_assoc]
  by_cases h : j = k
  · subst h
    rw [UInt8.not_and_self, UInt8.and_zero, if_pos rfl]
    rfl
  · rw [not_attributeBit_and_attributeBit hk hj (Ne.symm h), if_neg h]

/-! ## Where attributes stand -/

/-- Records do not overlap: a byte of one is a byte of no other. -/
theorem entry_add_inj (t : ObjectTable) (ho : o ≠ 0) (ho' : o' ≠ 0) {i i' : Nat}
    (hi : i < t.recordLength) (hi' : i' < t.recordLength)
    (h : t.entry o + i = t.entry o' + i') : o = o' ∧ i = i' := by
  have hpos : o.toNat ≠ 0 := fun hz => ho (UInt16.toNat_inj.mp hz)
  have hpos' : o'.toNat ≠ 0 := fun hz => ho' (UInt16.toNat_inj.mp hz)
  have hnumbers : o.toNat = o'.toNat ∧ i = i' := by
    unfold entry recordLength at h
    unfold recordLength at hi hi'
    cases hwide : t.wide <;> simp only [hwide, Bool.false_eq_true, ↓reduceIte] at h hi hi' <;> omega
  exact ⟨UInt16.toNat_inj.mp hnumbers.1, hnumbers.2⟩

/-- The number of bytes of attributes, which stand first in a record. -/
def attributeLength (t : ObjectTable) : Nat :=
  t.attributeCount / 8

/-- The links follow the attributes. -/
theorem attributeLength_le_linkOffset (t : ObjectTable) (l : Link) :
    t.attributeLength ≤ t.linkOffset l := by
  unfold attributeLength attributeCount linkOffset
  cases t.wide <;> cases l <;> decide

/-- The byte of an attribute is one of the attribute bytes. -/
theorem div_lt_attributeLength (ha : a.toNat < t.attributeCount) :
    a.toNat / 8 < t.attributeLength := by
  unfold attributeLength attributeCount at *
  cases hwide : t.wide <;> simp only [hwide, Bool.false_eq_true, ↓reduceIte] at ha ⊢ <;> omega

theorem attributeLength_lt_recordLength (t : ObjectTable) :
    t.attributeLength < t.recordLength := by
  unfold attributeLength attributeCount recordLength
  cases t.wide <;> decide

/-- An address that belongs to the attributes of some object. -/
def IsAttributeByte (t : ObjectTable) (address : Nat) : Prop :=
  ∃ o i, o ≠ 0 ∧ i < t.attributeLength ∧ address = t.entry o + i

/-- What follows the attributes in a record is no attribute. -/
theorem not_isAttributeByte (ho : o ≠ 0) {i : Nat} (hi : t.attributeLength ≤ i)
    (hi' : i < t.recordLength) : ¬ t.IsAttributeByte (t.entry o + i) := by
  rintro ⟨o', i', ho', hlt, heq⟩
  have hi'' := Nat.lt_trans hlt t.attributeLength_lt_recordLength
  obtain ⟨-, rfl⟩ := entry_add_inj t ho ho' hi' hi'' heq
  omega

/-- An attribute byte belongs to no link. -/
theorem not_isLinkByte (ho : o ≠ 0) {i : Nat} (hi : i < t.attributeLength) :
    ¬ t.IsLinkByte n (t.entry o + i) := by
  rintro ⟨o', l, ho', hle, hlt⟩
  have hoffset := t.attributeLength_le_linkOffset l
  have hrecord := linkOffset_add_linkWidth_le t l
  unfold linkAddress at hle hlt
  have hi' := Nat.lt_trans hi t.attributeLength_lt_recordLength
  obtain ⟨k, hk⟩ := Nat.exists_eq_add_of_le hle
  have heq : t.entry o + i = t.entry o' + (t.linkOffset l + k) := by omega
  obtain ⟨-, rfl⟩ := entry_add_inj t ho ho'.1 hi' (by omega) heq
  omega

/-- An attribute of an object has its byte and its bit. -/
theorem attributeSlot?_of_lt (ho : o ≠ 0) (ha : a.toNat < t.attributeCount) :
    t.attributeSlot? o a
      = some (t.entry o + a.toNat / 8, attributeBit (a.toNat % 8)) := by
  rw [attributeSlot?, if_neg (not_or.mpr ⟨ho, Nat.not_le.mpr ha⟩)]
  rfl

/-- Nothing has attributes, and no object has more than there are. -/
theorem attributeSlot?_of_outside (h : o = 0 ∨ t.attributeCount ≤ a.toNat) :
    t.attributeSlot? o a = none :=
  if_pos h

theorem testAttribute_of_lt (m : Memory) (ho : o ≠ 0) (ha : a.toNat < t.attributeCount) :
    t.testAttribute m o a
      = decide (m.byteAt (t.entry o + a.toNat / 8) &&& attributeBit (a.toNat % 8) ≠ 0) := by
  rw [testAttribute, attributeSlot?_of_lt ho ha]

theorem testAttribute_of_outside (m : Memory) (h : o = 0 ∨ t.attributeCount ≤ a.toNat) :
    t.testAttribute m o a = false := by
  rw [testAttribute, attributeSlot?_of_outside h]

theorem setAttribute_of_outside (m : Memory) (h : o = 0 ∨ t.attributeCount ≤ a.toNat) :
    t.setAttribute m o a = m := by
  rw [setAttribute, attributeSlot?_of_outside h]

theorem clearAttribute_of_outside (m : Memory) (h : o = 0 ∨ t.attributeCount ≤ a.toNat) :
    t.clearAttribute m o a = m := by
  rw [clearAttribute, attributeSlot?_of_outside h]

/-! ## What writing attributes leaves alone -/

/-- The second memory differs from the first in bytes of attributes only. -/
structure Reflagged (t : ObjectTable) (m m' : Memory) : Prop where
  size_eq : m'.size = m.size
  byteAt_eq : ∀ address, ¬ t.IsAttributeByte address → m'.byteAt address = m.byteAt address

/-- Writing to the byte of an attribute. -/
theorem reflagged_setByte (m : Memory) (ho : o ≠ 0) (ha : a.toNat < t.attributeCount) (v : UInt8) :
    t.Reflagged m (m.setByte (t.entry o + a.toNat / 8) v) where
  size_eq := Memory.size_setByte m _ v
  byteAt_eq address haddress := by
    apply Memory.byteAt_setByte_of_ne
    rintro rfl
    exact haddress ⟨o, _, ho, div_lt_attributeLength ha, rfl⟩

theorem reflagged_setAttribute (t : ObjectTable) (m : Memory) (o a : UInt16) :
    t.Reflagged m (t.setAttribute m o a) := by
  by_cases h : o = 0 ∨ t.attributeCount ≤ a.toNat
  · rw [setAttribute_of_outside m h]
    exact ⟨rfl, fun _ _ => rfl⟩
  · obtain ⟨ho, ha⟩ := not_or.mp h
    rw [setAttribute, attributeSlot?_of_lt ho (Nat.not_le.mp ha)]
    exact reflagged_setByte m ho (Nat.not_le.mp ha) _

theorem reflagged_clearAttribute (t : ObjectTable) (m : Memory) (o a : UInt16) :
    t.Reflagged m (t.clearAttribute m o a) := by
  by_cases h : o = 0 ∨ t.attributeCount ≤ a.toNat
  · rw [clearAttribute_of_outside m h]
    exact ⟨rfl, fun _ _ => rfl⟩
  · obtain ⟨ho, ha⟩ := not_or.mp h
    rw [clearAttribute, attributeSlot?_of_lt ho (Nat.not_le.mp ha)]
    exact reflagged_setByte m ho (Nat.not_le.mp ha) _

/-- Words behind the attributes of a record are kept. -/
theorem Reflagged.wordAt_eq (h : t.Reflagged m m') (ho : o ≠ 0) {i : Nat}
    (hi : t.attributeLength ≤ i) (hi' : i + 1 < t.recordLength) :
    m'.wordAt (t.entry o + i) = m.wordAt (t.entry o + i) :=
  Memory.wordAt_congr (h.byteAt_eq _ (not_isAttributeByte ho hi (by omega)))
    (h.byteAt_eq _ (not_isAttributeByte ho (Nat.le_succ_of_le hi) hi'))

/-- Links do not depend on attributes. -/
theorem Reflagged.link_eq (h : t.Reflagged m m') (o : UInt16) (l : Link) :
    t.link m' o l = t.link m o l := by
  have hoffset := t.attributeLength_le_linkOffset l
  have hrecord := linkOffset_add_linkWidth_le t l
  unfold linkWidth at hrecord
  by_cases ho : o = 0
  · rw [link, link, if_pos ho, if_pos ho]
  rw [link, link, if_neg ho, if_neg ho, linkAddress]
  cases hwide : t.wide with
  | true =>
      simp only [hwide, ↓reduceIte] at hrecord ⊢
      exact h.wordAt_eq ho hoffset (by omega)
  | false =>
      simp only [hwide, Bool.false_eq_true, ↓reduceIte] at hrecord ⊢
      rw [h.byteAt_eq _ (not_isAttributeByte ho hoffset (by omega))]

/-- The pointer to the properties does not depend on attributes. -/
theorem Reflagged.propertyTable_eq (h : t.Reflagged m m') (o : UInt16) :
    t.propertyTable m' o = t.propertyTable m o := by
  by_cases ho : o = 0
  · rw [propertyTable, propertyTable, if_pos ho, if_pos ho]
  have hbounds : t.attributeLength ≤ (if t.wide then 12 else 7) ∧
      (if t.wide then 12 else 7) + 1 < t.recordLength := by
    unfold attributeLength attributeCount recordLength
    cases t.wide <;> decide
  rw [propertyTable, propertyTable, if_neg ho, if_neg ho, Memory.pointerAt, Memory.pointerAt,
    h.wordAt_eq ho hbounds.1 hbounds.2]

/-- A table stays consistent, its child lists being those of the same links. -/
theorem Consistent.reflagged (h : t.Consistent m n) (hm : t.Reflagged m m') :
    t.Consistent m' n where
  count_le := h.count_le
  record_le o ho := by
    rw [hm.size_eq]
    exact h.record_le o ho
  link_le o l ho := by
    rw [hm.link_eq]
    exact h.link_le o l ho
  lists p hp := by
    obtain ⟨l, hl⟩ := h.lists p hp
    have hsibling : t.sibling m' = t.sibling m := funext fun o => hm.link_eq o .sibling
    refine ⟨l, ?_, hl.nodup, fun o => ?_⟩
    · rw [hsibling, child, hm.link_eq]
      exact hl.chain
    · rw [parent, hm.link_eq]
      exact hl.mem_iff o

/-! ## What a test finds -/

/-- Attributes do not depend on links. -/
theorem Relinked.testAttribute_eq (h : t.Relinked n m m') (o a : UInt16) :
    t.testAttribute m' o a = t.testAttribute m o a := by
  by_cases hout : o = 0 ∨ t.attributeCount ≤ a.toNat
  · rw [testAttribute_of_outside m hout, testAttribute_of_outside m' hout]
  · obtain ⟨ho, ha⟩ := not_or.mp hout
    rw [Nat.not_le] at ha
    rw [testAttribute_of_lt m ho ha, testAttribute_of_lt m' ho ha,
      h.byteAt_eq _ (not_isLinkByte ho (div_lt_attributeLength ha))]

/-- Attributes with the same byte and the same bit are the same. -/
theorem eq_of_div_eq_of_mod_eq (hdiv : a'.toNat / 8 = a.toNat / 8)
    (hmod : a'.toNat % 8 = a.toNat % 8) : a' = a :=
  UInt16.toNat_inj.mp (by omega)

/-- **Writing the byte of an attribute** so that one bit gets a value and the others stay gives that
value to the attribute and keeps all others, of this object and of any other. -/
theorem testAttribute_setByte (h : t.Holds m n) (ho : IsObject n o)
    (ha : a.toNat < t.attributeCount) {v : UInt8} {value : Bool}
    (hv : ∀ j < 8, decide (v &&& attributeBit j ≠ 0)
      = if j = a.toNat % 8 then value
        else decide (m.byteAt (t.entry o + a.toNat / 8) &&& attributeBit j ≠ 0))
    (ho' : o' ≠ 0) (ha' : a'.toNat < t.attributeCount) :
    t.testAttribute (m.setByte (t.entry o + a.toNat / 8) v) o' a'
      = if o' = o ∧ a' = a then value else t.testAttribute m o' a' := by
  have hrecord := t.attributeLength_lt_recordLength
  have hbyte := Nat.lt_trans (div_lt_attributeLength ha) hrecord
  have hbyte' := Nat.lt_trans (div_lt_attributeLength ha') hrecord
  have hbit' := Nat.mod_lt a'.toNat (by decide : 0 < 8)
  rw [testAttribute_of_lt _ ho' ha', testAttribute_of_lt _ ho' ha']
  by_cases hsame : o' = o ∧ a'.toNat / 8 = a.toNat / 8
  · obtain ⟨rfl, hdiv⟩ := hsame
    have hinside := h.record_le o' ho
    rw [hdiv, Memory.byteAt_setByte_self m _ v (by omega), hv _ hbit']
    by_cases hattr : a' = a
    · rw [if_pos (by rw [hattr]), if_pos ⟨rfl, hattr⟩]
    · have hmod : a'.toNat % 8 ≠ a.toNat % 8 := fun hmod =>
        hattr (eq_of_div_eq_of_mod_eq hdiv hmod)
      rw [if_neg hmod, if_neg fun heq => hattr heq.2]
  · have hne : t.entry o' + a'.toNat / 8 ≠ t.entry o + a.toNat / 8 := fun heq =>
      hsame (entry_add_inj t ho' ho.1 hbyte' hbyte heq)
    rw [Memory.byteAt_setByte_of_ne m _ v _ hne, if_neg]
    rintro ⟨rfl, rfl⟩
    exact hsame ⟨rfl, rfl⟩

/-- **A set attribute is found**, and all others are as they were. -/
theorem testAttribute_setAttribute (h : t.Holds m n) (ho : IsObject n o) (ho' : o' ≠ 0)
    (ha' : a'.toNat < t.attributeCount) :
    t.testAttribute (t.setAttribute m o a) o' a'
      = if o' = o ∧ a' = a then true else t.testAttribute m o' a' := by
  by_cases ha : a.toNat < t.attributeCount
  · rw [setAttribute, attributeSlot?_of_lt ho.1 ha]
    exact testAttribute_setByte h ho ha (fun j hj =>
      decide_set_attributeBit _ (Nat.mod_lt a.toNat (by decide : 0 < 8)) hj) ho' ha'
  · rw [setAttribute_of_outside m (Or.inr (Nat.not_lt.mp ha)), if_neg]
    rintro ⟨-, rfl⟩
    exact ha ha'

/-- **A cleared attribute is not found**, and all others are as they were. -/
theorem testAttribute_clearAttribute (h : t.Holds m n) (ho : IsObject n o) (ho' : o' ≠ 0)
    (ha' : a'.toNat < t.attributeCount) :
    t.testAttribute (t.clearAttribute m o a) o' a'
      = if o' = o ∧ a' = a then false else t.testAttribute m o' a' := by
  by_cases ha : a.toNat < t.attributeCount
  · rw [clearAttribute, attributeSlot?_of_lt ho.1 ha]
    exact testAttribute_setByte h ho ha (fun j hj =>
      decide_clear_attributeBit _ (Nat.mod_lt a.toNat (by decide : 0 < 8)) hj) ho' ha'
  · rw [clearAttribute_of_outside m (Or.inr (Nat.not_lt.mp ha)), if_neg]
    rintro ⟨-, rfl⟩
    exact ha ha'

/-! ## Sequences of instructions -/

/-- An instruction that writes to the object tree. -/
inductive ObjectAction where
  | set (object attr : UInt16)
  | clear (object attr : UInt16)
  | move (step : Move)
  deriving DecidableEq, Repr

namespace ObjectAction

/-- An instruction on the objects of a table, with any attribute number. -/
def InRange (n : Nat) : ObjectAction → Prop
  | set o _ => IsObject n o
  | clear o _ => IsObject n o
  | move step => step.InRange n

instance (n : Nat) (action : ObjectAction) : Decidable (action.InRange n) :=
  match action with
  | set o _ => inferInstanceAs (Decidable (IsObject n o))
  | clear o _ => inferInstanceAs (Decidable (IsObject n o))
  | move step => inferInstanceAs (Decidable (step.InRange n))

/-- Carries out an instruction. -/
def onTable? (t : ObjectTable) (m : Memory) : ObjectAction → Option Memory
  | set o a => some (t.setAttribute m o a)
  | clear o a => some (t.clearAttribute m o a)
  | move step => step.onLinks? t m

/-- What an instruction makes of an attribute that it names. -/
def setting? (o a : UInt16) : ObjectAction → Option Bool
  | set o' a' => if o = o' ∧ a = a' then some true else none
  | clear o' a' => if o = o' ∧ a = a' then some false else none
  | move _ => none

end ObjectAction

/-- Carries out instructions one after another. -/
def actAll? (t : ObjectTable) (m : Memory) : List ObjectAction → Option Memory
  | [] => some m
  | action :: rest => (action.onTable? t m).bind fun m => t.actAll? m rest

/-- What the last instruction to name an attribute makes of it. -/
def lastSetting? (actions : List ObjectAction) (o a : UInt16) : Option Bool :=
  (actions.filterMap (·.setting? o a)).getLast?

/-- Later instructions decide, and the first one only if they do not name the attribute. -/
theorem getD_lastSetting?_cons (action : ObjectAction) (rest : List ObjectAction) (o a : UInt16)
    (initial : Bool) :
    (lastSetting? (action :: rest) o a).getD initial
      = (lastSetting? rest o a).getD ((action.setting? o a).getD initial) := by
  unfold lastSetting?
  cases hsetting : action.setting? o a with
  | none => rw [List.filterMap_cons_none hsetting, Option.getD_none]
  | some value =>
      rw [List.filterMap_cons_some hsetting, List.getLast?_cons, Option.getD_some,
        Option.getD_some]

/-- **One instruction** on a consistent table succeeds, keeps it consistent and leaves each
attribute as it was, unless it names it. -/
theorem Consistent.onTable? (h : t.Consistent m n) {action : ObjectAction}
    (haction : action.InRange n) :
    ∃ m', action.onTable? t m = some m' ∧ t.Consistent m' n ∧
      ∀ o a, o ≠ 0 → a.toNat < t.attributeCount →
        t.testAttribute m' o a = (action.setting? o a).getD (t.testAttribute m o a) := by
  cases action with
  | set o a =>
      refine ⟨_, rfl, h.reflagged (reflagged_setAttribute t m o a), fun o' a' ho' ha' => ?_⟩
      rw [testAttribute_setAttribute h.toHolds haction ho' ha', ObjectAction.setting?]
      split <;> rfl
  | clear o a =>
      refine ⟨_, rfl, h.reflagged (reflagged_clearAttribute t m o a), fun o' a' ho' ha' => ?_⟩
      rw [testAttribute_clearAttribute h.toHolds haction ho' ha', ObjectAction.setting?]
      split <;> rfl
  | move step =>
      obtain ⟨m', hlinks, hconsistent, -, hrelinked⟩ := h.onLinks? haction
      exact ⟨m', hlinks, hconsistent, fun o a _ _ => hrelinked.testAttribute_eq o a⟩

/-- **Any sequence of instructions** succeeds, keeps a table consistent and makes of each attribute
what the last instruction to name it makes of it. -/
theorem Consistent.actAll? (h : t.Consistent m n) (actions : List ObjectAction)
    (hactions : ∀ action ∈ actions, action.InRange n) :
    ∃ m', t.actAll? m actions = some m' ∧ t.Consistent m' n ∧
      ∀ o a, o ≠ 0 → a.toNat < t.attributeCount →
        t.testAttribute m' o a = (lastSetting? actions o a).getD (t.testAttribute m o a) := by
  induction actions generalizing m with
  | nil => exact ⟨m, rfl, h, fun _ _ _ _ => rfl⟩
  | cons action rest ih =>
      rw [List.forall_mem_cons] at hactions
      obtain ⟨m₁, haction, h₁, htest₁⟩ := h.onTable? hactions.1
      obtain ⟨m₂, hrest, h₂, htest₂⟩ := ih h₁ hactions.2
      refine ⟨m₂, ?_, h₂, fun o a ho ha => ?_⟩
      · rw [ObjectTable.actAll?, haction, Option.bind_some, hrest]
      · rw [htest₂ o a ho ha, htest₁ o a ho ha, getD_lastSetting?_cons]

/-- **Attributes are independent bits.**  After any instructions on the objects of a consistent
table, an object has an attribute exactly if there is such an attribute and the last instruction to
name it has set it, or none has named it and the object had it before.  The instructions on
attributes change no link and no pointer to properties, and none of them does anything to what is no
object or no attribute. -/
theorem attributes_independent (t : ObjectTable) (m : Memory) (n : Nat) (h : t.Consistent m n) :
    (∀ actions : List ObjectAction, (∀ action ∈ actions, action.InRange n) →
      ∃ m', t.actAll? m actions = some m' ∧ t.Consistent m' n ∧
        ∀ o a, IsObject n o →
          (t.testAttribute m' o a = true ↔ a.toNat < (if t.wide then 48 else 32) ∧
            (lastSetting? actions o a).getD (t.testAttribute m o a) = true)) ∧
    (∀ o a m', m' = t.setAttribute m o a ∨ m' = t.clearAttribute m o a →
      (∀ o' l, t.link m' o' l = t.link m o' l) ∧
        (∀ o', t.propertyTable m' o' = t.propertyTable m o') ∧
        (o = 0 ∨ (if t.wide then 48 else 32) ≤ a.toNat → m' = m)) := by
  constructor
  · intro actions hactions
    obtain ⟨m', hrun, hconsistent, htest⟩ := h.actAll? actions hactions
    refine ⟨m', hrun, hconsistent, fun o a ho => ?_⟩
    by_cases ha : a.toNat < t.attributeCount
    · rw [htest o a ho.1 ha]
      exact ⟨fun hlast => ⟨ha, hlast⟩, And.right⟩
    · rw [testAttribute_of_outside m' (Or.inr (Nat.not_lt.mp ha))]
      exact ⟨fun hfalse => absurd hfalse Bool.false_ne_true, fun hand => absurd hand.1 ha⟩
  · rintro o a m' (rfl | rfl)
    · have hflags := reflagged_setAttribute t m o a
      exact ⟨hflags.link_eq, hflags.propertyTable_eq, setAttribute_of_outside m⟩
    · have hflags := reflagged_clearAttribute t m o a
      exact ⟨hflags.link_eq, hflags.propertyTable_eq, clearAttribute_of_outside m⟩

/-- Instructions on five objects: attribute 20 of one is set before it moves, attribute 9 is set and
cleared of another, attribute 47 is cleared of a third, and attribute 48 does not exist. -/
def mixedActions : List ObjectAction :=
  [.set 2 20, .move (.insert 2 4), .set 1 9, .clear 3 47, .set 2 48, .clear 1 9,
    .move (.remove 3)]

/-- The moved object keeps its attribute and the one that it had before. -/
theorem attributes_independent_family :
    Consistent familyTable family 5 ∧
      testAttribute familyTable family 2 9 = true ∧
      testAttribute familyTable family 3 47 = true ∧
      ∃ m', actAll? familyTable family mixedActions = some m' ∧
        testAttribute familyTable m' 2 20 = true ∧ testAttribute familyTable m' 2 9 = true ∧
        ¬ testAttribute familyTable m' 1 9 = true ∧ ¬ testAttribute familyTable m' 3 47 = true ∧
        ¬ testAttribute familyTable m' 2 48 = true := by
  have hbefore : testAttribute familyTable family 2 9 = true := by decide +kernel
  obtain ⟨hrun, -⟩ := attributes_independent familyTable family 5 consistent_family
  obtain ⟨m', hm', -, htest⟩ := hrun mixedActions (by decide)
  have hset : lastSetting? mixedActions 2 20 = some true := by decide
  have hkept : lastSetting? mixedActions 2 9 = none := by decide
  have hcleared : lastSetting? mixedActions 1 9 = some false := by decide
  have hcleared' : lastSetting? mixedActions 3 47 = some false := by decide
  refine ⟨consistent_family, hbefore, by decide +kernel, m', hm', ?_, ?_, ?_, ?_, ?_⟩
  · rw [htest 2 20 (by decide), hset, Option.getD_some]
    exact ⟨by decide, rfl⟩
  · rw [htest 2 9 (by decide), hkept, Option.getD_none]
    exact ⟨by decide, hbefore⟩
  · rw [htest 1 9 (by decide), hcleared, Option.getD_some]
    exact fun h => Bool.false_ne_true h.2
  · rw [htest 3 47 (by decide), hcleared', Option.getD_some]
    exact fun h => Bool.false_ne_true h.2
  · rw [htest 2 48 (by decide)]
    exact fun h => absurd h.1 (by decide)

end ObjectTable
end ZMachine
