/-
# Child lists

Every object has a list of children: its first child, that one's sibling, and so on.  A table is
consistent if each such walk ends without repetition and meets exactly the objects whose parent
link leads back.

* `Chain` : a list read off by following links, with what unlinking one element does to it;
* `Consistent.detach?` : taking an object out erases it from every child list;
* `attached_attach` : putting an object in makes it the first of one list.
-/
import Mathlib.Data.List.Nodup
import Mathlib.Data.List.Perm.Subperm
import ZMachine.Proofs.Object.Links

namespace ZMachine
namespace ObjectTable

/-! ## Chains of links -/

/-- Following `next` from `o` on meets exactly the objects of a list and then zero. -/
def Chain (next : UInt16 → UInt16) : UInt16 → List UInt16 → Prop
  | o, [] => o = 0
  | o, x :: rest => o = x ∧ x ≠ 0 ∧ Chain next (next x) rest

instance decidableChain (next : UInt16 → UInt16) (o : UInt16) :
    (l : List UInt16) → Decidable (Chain next o l)
  | [] => inferInstanceAs (Decidable (o = 0))
  | x :: rest =>
      have := decidableChain next (next x) rest
      inferInstanceAs (Decidable (o = x ∧ x ≠ 0 ∧ Chain next (next x) rest))

/-- A chain looks at the links of its own objects only. -/
theorem Chain.congr {next next' : UInt16 → UInt16} {o : UInt16} {l : List UInt16}
    (h : Chain next o l) (hsame : ∀ x ∈ l, next' x = next x) : Chain next' o l := by
  induction l generalizing o with
  | nil => exact h
  | cons x rest ih =>
      obtain ⟨ho, hx, hrest⟩ := h
      rw [List.forall_mem_cons] at hsame
      refine ⟨ho, hx, ?_⟩
      rw [hsame.1]
      exact ih hrest hsame.2

/-- Making the object before `mover` lead past it takes `mover` out of the chain. -/
theorem Chain.unlink {next next' : UInt16 → UInt16} {o older mover : UInt16}
    {front rest : List UInt16} (h : Chain next o (front ++ older :: mover :: rest))
    (hpast : next' older = next mover) (hfront : ∀ x ∈ front, next' x = next x)
    (hrest : ∀ x ∈ rest, next' x = next x) : Chain next' o (front ++ older :: rest) := by
  induction front generalizing o with
  | nil =>
      obtain ⟨ho, hne, _, _, htail⟩ := h
      refine ⟨ho, hne, ?_⟩
      rw [hpast]
      exact htail.congr hrest
  | cons x front ih =>
      obtain ⟨ho, hne, htail⟩ := h
      rw [List.forall_mem_cons] at hfront
      refine ⟨ho, hne, ?_⟩
      rw [hfront.1]
      exact ih htail hfront.2

/-- The walk along a chain finds the object just before `mover`. -/
theorem olderSibling_of_chain (t : ObjectTable) (m : Memory) {mover older o : UInt16}
    {front rest : List UInt16} {steps : Nat}
    (h : Chain (t.sibling m) o (front ++ older :: mover :: rest))
    (hnodup : (front ++ older :: mover :: rest).Nodup) (hsteps : front.length < steps) :
    t.olderSibling m mover steps o = .found older := by
  induction front generalizing o steps with
  | nil =>
      obtain ⟨rfl, hne, hnext, _⟩ := h
      cases steps with
      | zero => cases hsteps
      | succ steps => rw [olderSibling, if_neg hne, if_pos hnext]
  | cons x front ih =>
      obtain ⟨rfl, hne, htail⟩ := h
      rw [List.cons_append, List.nodup_cons] at hnodup
      have hnext : t.sibling m o ≠ mover := by
        intro heq
        cases front with
        | nil =>
            have := hnodup.2
            simp [← htail.1, heq] at this
        | cons y front =>
            have := hnodup.2
            simp [← htail.1, heq] at this
      cases steps with
      | zero => cases hsteps
      | succ steps =>
          rw [olderSibling, if_neg hne, if_neg hnext]
          apply ih htail hnodup.2
          rw [List.length_cons] at hsteps
          omega

/-- An object that is not the first of a list has one before it. -/
theorem exists_older_of_mem {mover first : UInt16} {l : List UInt16} (hmem : mover ∈ first :: l)
    (hfirst : first ≠ mover) :
    ∃ front older rest, first :: l = front ++ older :: mover :: rest := by
  obtain ⟨before, rest, hl⟩ := List.append_of_mem hmem
  rcases List.eq_nil_or_concat before with rfl | ⟨front, older, rfl⟩
  · cases hl
    exact absurd rfl hfirst
  · exact ⟨front, older, rest, by simpa using hl⟩

/-! ## Child lists -/

/-- The objects met from `o` on by following siblings, at most a number of them. -/
def siblingsFrom (t : ObjectTable) (m : Memory) : Nat → UInt16 → List UInt16
  | 0, _ => []
  | steps + 1, o => if o = 0 then [] else o :: siblingsFrom t m steps (t.sibling m o)

/-- The children of an object, the first one first. -/
def children (t : ObjectTable) (m : Memory) (parent : UInt16) : List UInt16 :=
  t.siblingsFrom m walkLimit (t.child m parent)

/-- A list is the child list of `parent` among `n` objects: the chain of its children, without
repetition, and exactly the objects whose parent it is. -/
structure Lists (t : ObjectTable) (m : Memory) (n : Nat) (parent : UInt16) (l : List UInt16) :
    Prop where
  chain : Chain (t.sibling m) (t.child m parent) l
  nodup : l.Nodup
  mem_iff : ∀ o, o ∈ l ↔ IsObject n o ∧ t.parent m o = parent

/-- The first `n` objects of a table are consistent: they have room, their links lead to objects or
nowhere, and each has a child list. -/
structure Consistent (t : ObjectTable) (m : Memory) (n : Nat) : Prop extends t.Linked m n where
  lists : ∀ p, IsObject n p → ∃ l, t.Lists m n p l

/-- A list of different objects is no longer than there are objects. -/
theorem length_le_of_nodup {n : Nat} {l : List UInt16} (hnodup : l.Nodup)
    (hmem : ∀ o ∈ l, IsObject n o) : l.length ≤ n := by
  have hnat : (l.map UInt16.toNat).Nodup :=
    hnodup.map fun _ _ h => UInt16.toNat_inj.mp h
  have hsub : l.map UInt16.toNat ⊆ List.range' 1 n := by
    intro k hk
    obtain ⟨o, ho, rfl⟩ := List.mem_map.mp hk
    have hpos := (hmem o ho).pos
    have hle := (hmem o ho).2
    rw [List.mem_range'_1]
    omega
  have hlength := (List.subperm_of_subset hnat hsub).length_le
  rwa [List.length_map, List.length_range'] at hlength

/-- Following siblings along a chain gives the chain. -/
theorem siblingsFrom_of_chain (t : ObjectTable) (m : Memory) {o : UInt16} {l : List UInt16}
    {steps : Nat} (h : Chain (t.sibling m) o l) (hsteps : l.length < steps) :
    t.siblingsFrom m steps o = l := by
  induction l generalizing o steps with
  | nil =>
      cases steps with
      | zero => cases hsteps
      | succ steps => rw [siblingsFrom, if_pos (show o = 0 from h)]
  | cons x rest ih =>
      obtain ⟨rfl, hne, hrest⟩ := h
      cases steps with
      | zero => cases hsteps
      | succ steps =>
          rw [List.length_cons] at hsteps
          rw [siblingsFrom, if_neg hne, ih hrest (by omega)]

/-- The walk limit is longer than any child list. -/
theorem Lists.length_lt_walkLimit {t : ObjectTable} {m : Memory} {n : Nat} {p : UInt16}
    {l : List UInt16} (h : t.Lists m n p l) (hholds : t.Holds m n) : l.length < walkLimit := by
  have hlength := length_le_of_nodup h.nodup fun o ho => ((h.mem_iff o).mp ho).1
  have hcount := hholds.count_le
  unfold maxObjects at hcount
  unfold walkLimit
  split at hcount <;> omega

/-- A child list is what `children` computes. -/
theorem Lists.children_eq {t : ObjectTable} {m : Memory} {n : Nat} {p : UInt16}
    {l : List UInt16} (h : t.Lists m n p l) (hholds : t.Holds m n) : t.children m p = l :=
  siblingsFrom_of_chain t m h.chain (h.length_lt_walkLimit hholds)

/-- In a consistent table the computed children are the child list. -/
theorem Consistent.lists_children {t : ObjectTable} {m : Memory} {n : Nat}
    (h : t.Consistent m n) {p : UInt16} (hp : IsObject n p) :
    t.Lists m n p (t.children m p) := by
  obtain ⟨l, hl⟩ := h.lists p hp
  rw [hl.children_eq h.toHolds]
  exact hl

instance (t : ObjectTable) (m : Memory) (n : Nat) (p : UInt16) (l : List UInt16) :
    Decidable (t.Lists m n p l) :=
  -- the members of the list are checked, and not all words
  haveI := List.decidableBAll (fun o => IsObject n o ∧ t.parent m o = p) l
  decidable_of_iff (Chain (t.sibling m) (t.child m p) l ∧ l.Nodup ∧
      (∀ o ∈ l, IsObject n o ∧ t.parent m o = p) ∧ ∀ o, IsObject n o → t.parent m o = p → o ∈ l)
    ⟨fun h => ⟨h.1, h.2.1, fun o => ⟨h.2.2.1 o, fun ho => h.2.2.2 o ho.1 ho.2⟩⟩,
      fun h => ⟨h.chain, h.nodup, fun o => (h.mem_iff o).mp,
        fun o ho hp => (h.mem_iff o).mpr ⟨ho, hp⟩⟩⟩

/-- A table is checked by computing the children. -/
instance (t : ObjectTable) (m : Memory) (n : Nat) : Decidable (t.Consistent m n) :=
  decidable_of_iff (t.Linked m n ∧ ∀ p, IsObject n p → t.Lists m n p (t.children m p))
    ⟨fun h => ⟨h.1, fun p hp => ⟨_, h.2 p hp⟩⟩,
      fun h => ⟨h.toLinked, fun _ hp => h.lists_children hp⟩⟩

/-- Child lists are unique. -/
theorem Lists.unique {t : ObjectTable} {m : Memory} {n : Nat} {p : UInt16} {l l' : List UInt16}
    (h : t.Lists m n p l) (h' : t.Lists m n p l') (hholds : t.Holds m n) : l = l' := by
  rw [← h.children_eq hholds, h'.children_eq hholds]

/-- The lists of other parents do not have an object. -/
theorem Lists.not_mem {t : ObjectTable} {m : Memory} {n : Nat} {p o : UInt16} {l : List UInt16}
    (h : t.Lists m n p l) (ho : t.parent m o ≠ p) : o ∉ l := by
  intro hmem
  exact ho ((h.mem_iff o).mp hmem).2

/-! ## Taking an object out -/

/-- Memory in which an object has no parent and no sibling. -/
def cutLinks (t : ObjectTable) (m : Memory) (mover : UInt16) : Memory :=
  t.setLink (t.setLink m mover .parent 0) mover .sibling 0

theorem Linked.cutLinks {t : ObjectTable} {m : Memory} {n : Nat} (h : t.Linked m n)
    {mover : UInt16} (hm : IsObject n mover) : t.Linked (t.cutLinks m mover) n := by
  have hzero : (0 : UInt16).toNat ≤ n := Nat.zero_le n
  exact (h.setLink hm hzero .parent).setLink hm hzero .sibling

theorem relinked_cutLinks (t : ObjectTable) (m : Memory) {n : Nat} {mover : UInt16}
    (hm : IsObject n mover) : t.Relinked n m (t.cutLinks m mover) :=
  (relinked_setLink t m hm .parent 0).trans (relinked_setLink t _ hm .sibling 0)

/-- Cutting sets two links to zero and keeps the others. -/
theorem link_cutLinks {t : ObjectTable} {m : Memory} {n : Nat} (h : t.Linked m n)
    {mover : UInt16} (hm : IsObject n mover) (o : UInt16) (l : Link) :
    t.link (t.cutLinks m mover) o l
      = if o = mover ∧ l ≠ .child then 0 else t.link m o l := by
  have hzero : (0 : UInt16).toNat ≤ n := Nat.zero_le n
  have hcut := h.setLink hm hzero .parent
  rw [cutLinks, link_setLink hcut.toHolds hm hzero, link_setLink h.toHolds hm hzero]
  cases l <;> simp

/-- What taking an object out does to a table. -/
structure Detached (t : ObjectTable) (n : Nat) (mover : UInt16) (m m' : Memory) : Prop where
  linked : t.Linked m' n
  relinked : t.Relinked n m m'
  parent_eq : ∀ o, t.parent m' o = if o = mover then 0 else t.parent m o
  lists : ∀ p l, IsObject n p → t.Lists m n p l → t.Lists m' n p (l.erase mover)

/-- An object without a parent is already out. -/
theorem detached_of_parent_eq_zero {t : ObjectTable} {m : Memory} {n : Nat}
    (h : t.Consistent m n) {mover : UInt16} (hzero : t.parent m mover = 0) :
    t.Detached n mover m m where
  linked := h.toLinked
  relinked := Relinked.refl t n m
  parent_eq o := by
    by_cases ho : o = mover
    · rw [if_pos ho, ho, hzero]
    · rw [if_neg ho]
  lists p l hp hl := by
    have hmem : mover ∉ l := hl.not_mem (by rw [hzero]; exact hp.1.symm)
    rw [List.erase_of_not_mem hmem]
    exact hl

/-- Memory in which the link that led to `mover` leads past it, and `mover` is cut off. -/
def bypass (t : ObjectTable) (m : Memory) (mover o : UInt16) (l : Link) : Memory :=
  t.cutLinks (t.setLink m o l (t.sibling m mover)) mover

/-- Bypassing redirects one link, cuts two and keeps the others. -/
theorem link_bypass {t : ObjectTable} {m : Memory} {n : Nat} (h : t.Linked m n)
    {mover o : UInt16} (hm : IsObject n mover) (ho : IsObject n o) (l : Link) (o' : UInt16)
    (l' : Link) :
    t.link (t.bypass m mover o l) o' l'
      = if o' = mover ∧ l' ≠ .child then 0
        else if o' = o ∧ l' = l then t.sibling m mover
        else t.link m o' l' := by
  have hsibling : (t.sibling m mover).toNat ≤ n := h.link_le mover .sibling hm
  rw [bypass, link_cutLinks (h.setLink ho hsibling l) hm, link_setLink h.toHolds ho hsibling]

/-- Bypassing takes `mover` out if it makes every child list one without `mover`. -/
theorem detached_bypass {t : ObjectTable} {m : Memory} {n : Nat} (h : t.Linked m n)
    {mover o : UInt16} (hm : IsObject n mover) (ho : IsObject n o) {l : Link} (hl : l ≠ .parent)
    (hchain : ∀ p list, IsObject n p → t.Lists m n p list →
      Chain (t.sibling (t.bypass m mover o l)) (t.child (t.bypass m mover o l) p)
        (list.erase mover)) :
    t.Detached n mover m (t.bypass m mover o l) := by
  have hsibling : (t.sibling m mover).toNat ≤ n := h.link_le mover .sibling hm
  have hparent : ∀ o', t.parent (t.bypass m mover o l) o'
      = if o' = mover then 0 else t.parent m o' := by
    intro o'
    rw [parent, link_bypass h hm ho]
    simp [parent, hl.symm]
  refine ⟨(h.setLink ho hsibling l).cutLinks hm,
    (relinked_setLink t m ho _ _).trans (relinked_cutLinks t _ hm), hparent,
    fun p list hp hlist => ⟨hchain p list hp hlist, hlist.nodup.erase mover, fun o' => ?_⟩⟩
  -- the parent link of `mover` is zero now, which is the number of no object
  rw [hlist.nodup.mem_erase_iff, hlist.mem_iff, hparent]
  by_cases hmover : o' = mover
  · simp [hmover, hp.1.symm]
  · simp [hmover]

/-- A first child is taken out by making its sibling the first child. -/
theorem detached_first {t : ObjectTable} {m : Memory} {n : Nat} (h : t.Linked m n)
    {mover p : UInt16} {tail : List UInt16} (hm : IsObject n mover) (hp : IsObject n p)
    (hl : t.Lists m n p (mover :: tail)) : t.Detached n mover m (t.bypass m mover p .child) := by
  have hlink := link_bypass h hm hp .child
  have hsibling : ∀ o, o ≠ mover → t.sibling (t.bypass m mover p .child) o = t.sibling m o := by
    intro o ho
    rw [sibling, hlink]
    simp [ho, sibling]
  apply detached_bypass h hm hp (by decide)
  intro q list hq hlist
  rw [child, hlink]
  by_cases hqp : q = p
  · subst hqp
    have hnodup := List.nodup_cons.mp hl.nodup
    rw [hlist.unique hl h.toHolds, List.erase_cons_head]
    simp only [ne_eq, not_true_eq_false, and_false, ↓reduceIte, and_self]
    exact hl.chain.2.2.congr fun x hx => hsibling x fun hxm => hnodup.1 (hxm ▸ hx)
  -- an object is in the list of its parent only
  · have hparent : t.parent m mover = p := ((hl.mem_iff mover).mp List.mem_cons_self).2
    have hmem : mover ∉ list := hlist.not_mem (by rw [hparent]; exact fun heq => hqp heq.symm)
    rw [List.erase_of_not_mem hmem]
    simp only [ne_eq, not_true_eq_false, and_false, ↓reduceIte, hqp, false_and]
    exact hlist.chain.congr fun x hx => hsibling x fun hxm => hmem (hxm ▸ hx)

/-- Any other child is taken out by making the sibling before it lead past it. -/
theorem detached_older {t : ObjectTable} {m : Memory} {n : Nat} (h : t.Linked m n)
    {mover older p : UInt16} {front rest : List UInt16} (hm : IsObject n mover)
    (hl : t.Lists m n p (front ++ older :: mover :: rest)) :
    t.Detached n mover m (t.bypass m mover older .sibling) := by
  have holder := (hl.mem_iff older).mp (by simp)
  have hmover := (hl.mem_iff mover).mp (by simp)
  have hlink := link_bypass h hm holder.1 .sibling
  have hsibling : ∀ o, o ≠ mover → o ≠ older →
      t.sibling (t.bypass m mover older .sibling) o = t.sibling m o := by
    intro o ho ho'
    rw [sibling, hlink]
    simp [ho, ho', sibling]
  have hchild : ∀ o, t.child (t.bypass m mover older .sibling) o = t.child m o := by
    intro o
    rw [child, hlink]
    simp [child]
  apply detached_bypass h hm holder.1 (by decide)
  intro q list hq hlist
  rw [hchild]
  by_cases hqp : q = p
  · subst hqp
    have hnodup := hl.nodup
    simp only [List.nodup_append, List.nodup_cons, List.mem_cons, not_or] at hnodup
    obtain ⟨_, ⟨⟨hne, hrest⟩, hrest', _⟩, hfront⟩ := hnodup
    have herase : (front ++ older :: mover :: rest).erase mover = front ++ older :: rest := by
      rw [List.erase_append_right, List.erase_cons_tail, List.erase_cons_head]
      · simpa using hne
      · intro hmem
        exact hfront mover hmem mover (by simp) rfl
    rw [hlist.unique hl h.toHolds, herase]
    -- only the link of `older` has changed, and the chain goes on behind `mover`
    apply hl.chain.unlink
    · rw [sibling, hlink]
      simp [hne]
    · intro x hx
      exact hsibling x (hfront x hx mover (by simp)) (hfront x hx older (by simp))
    · intro x hx
      exact hsibling x (fun hxm => hrest' (hxm ▸ hx)) (fun hxo => hrest (hxo ▸ hx))
  · have hmem : mover ∉ list :=
      hlist.not_mem (by rw [hmover.2]; exact fun heq => hqp heq.symm)
    have hmem' : older ∉ list :=
      hlist.not_mem (by rw [holder.2]; exact fun heq => hqp heq.symm)
    rw [List.erase_of_not_mem hmem]
    exact hlist.chain.congr fun x hx =>
      hsibling x (fun hxm => hmem (hxm ▸ hx)) (fun hxo => hmem' (hxo ▸ hx))

/-- **An object of a consistent table can be taken out.** -/
theorem Consistent.detach? {t : ObjectTable} {m : Memory} {n : Nat} (h : t.Consistent m n)
    {mover : UInt16} (hm : IsObject n mover) :
    ∃ m', t.detach? m mover = some m' ∧ t.Detached n mover m m' := by
  unfold ObjectTable.detach?
  by_cases hzero : t.parent m mover = 0
  · exact ⟨m, if_pos hzero, detached_of_parent_eq_zero h hzero⟩
  · rw [if_neg hzero]
    have hp : IsObject n (t.parent m mover) := h.isObject_link hm .parent hzero
    obtain ⟨l, hl⟩ := h.lists _ hp
    have hmem : mover ∈ l := (hl.mem_iff mover).mpr ⟨hm, rfl⟩
    cases l with
    | nil => cases hmem
    | cons first tail =>
        have hchild : t.child m (t.parent m mover) = first := hl.chain.1
        by_cases hfirst : first = mover
        · subst hfirst
          exact ⟨_, if_pos hchild, detached_first h.toLinked hm hp hl⟩
        · obtain ⟨front, older, rest, hsplit⟩ := exists_older_of_mem hmem hfirst
          -- a list without repetition is too short for the walk to give up
          have hlimit := hl.length_lt_walkLimit h.toHolds
          rw [hsplit] at hl hlimit
          have hwalk : t.olderSibling m mover walkLimit (t.child m (t.parent m mover))
              = .found older := by
            apply olderSibling_of_chain t m hl.chain hl.nodup
            rw [List.length_append] at hlimit
            omega
          refine ⟨t.bypass m mover older .sibling, ?_, detached_older h.toLinked hm hl⟩
          rw [if_neg (by rw [hchild]; exact hfirst)]
          simp only [hwalk]
          rfl

/-! ## Putting an object in -/

/-- Memory in which `mover` comes before the children of `parent`. -/
def attach (t : ObjectTable) (m : Memory) (mover parent : UInt16) : Memory :=
  t.setLink (t.setLink (t.setLink m mover .sibling (t.child m parent)) mover .parent parent)
    parent .child mover

/-- Attaching sets three links, none of them twice, and keeps the others. -/
theorem link_attach {t : ObjectTable} {m : Memory} {n : Nat} (h : t.Linked m n)
    {mover parent : UInt16} (hm : IsObject n mover) (hp : IsObject n parent) (o : UInt16)
    (l : Link) :
    t.link (t.attach m mover parent) o l
      = match l with
        | .parent => if o = mover then parent else t.link m o .parent
        | .sibling => if o = mover then t.child m parent else t.link m o .sibling
        | .child => if o = parent then mover else t.link m o .child := by
  have hchild : (t.child m parent).toNat ≤ n := h.link_le parent .child hp
  have h₁ := h.setLink hm hchild .sibling
  have h₂ := h₁.setLink hm hp.2 .parent
  rw [attach, link_setLink h₂.toHolds hp hm.2, link_setLink h₁.toHolds hm hp.2,
    link_setLink h.toHolds hm hchild]
  cases l <;> simp

/-- What putting an object in does to a table. -/
structure Attached (t : ObjectTable) (n : Nat) (mover parent : UInt16) (m m' : Memory) :
    Prop where
  linked : t.Linked m' n
  relinked : t.Relinked n m m'
  parent_eq : ∀ o, t.parent m' o = if o = mover then parent else t.parent m o
  lists : ∀ p l, IsObject n p → t.Lists m n p l →
    t.Lists m' n p (if p = parent then mover :: l else l)

/-- **An object without a parent can be put in anywhere**, into itself as well. -/
theorem attached_attach {t : ObjectTable} {m : Memory} {n : Nat} (h : t.Linked m n)
    {mover parent : UInt16} (hm : IsObject n mover) (hp : IsObject n parent)
    (hzero : t.parent m mover = 0) :
    t.Attached n mover parent m (t.attach m mover parent) := by
  have hchild : (t.child m parent).toNat ≤ n := h.link_le parent .child hp
  have hlink := link_attach h hm hp
  have hparent : ∀ o, t.parent (t.attach m mover parent) o
      = if o = mover then parent else t.parent m o := fun o => hlink o .parent
  have hsibling : ∀ o, t.sibling (t.attach m mover parent) o
      = if o = mover then t.child m parent else t.sibling m o := fun o => hlink o .sibling
  have hfirst : ∀ o, t.child (t.attach m mover parent) o
      = if o = parent then mover else t.child m o := fun o => hlink o .child
  refine ⟨((h.setLink hm hchild .sibling).setLink hm hp.2 .parent).setLink hp hm.2 .child,
    ((relinked_setLink t m hm _ _).trans (relinked_setLink t _ hm _ _)).trans
      (relinked_setLink t _ hp _ _), hparent, fun p l hpo hl => ?_⟩
  -- `mover` has no parent yet, so no list has it and all chains stay as they are
  have hmem : mover ∉ l := hl.not_mem (by rw [hzero]; exact hpo.1.symm)
  have hrest : ∀ x ∈ l, t.sibling (t.attach m mover parent) x = t.sibling m x := by
    intro x hx
    have hxm : x ≠ mover := fun heq => hmem (heq ▸ hx)
    rw [hsibling, if_neg hxm]
  have hmemIff : ∀ o, o ≠ mover →
      (o ∈ l ↔ IsObject n o ∧ t.parent (t.attach m mover parent) o = p) := by
    intro o ho
    rw [hl.mem_iff, hparent, if_neg ho]
  by_cases hpp : p = parent
  · subst hpp
    rw [if_pos rfl]
    refine ⟨⟨?_, hm.1, ?_⟩, List.nodup_cons.mpr ⟨hmem, hl.nodup⟩, fun o => ?_⟩
    · rw [hfirst, if_pos rfl]
    · rw [hsibling, if_pos rfl]
      exact hl.chain.congr hrest
    · rw [List.mem_cons]
      by_cases ho : o = mover
      · rw [hparent, if_pos ho]
        simp [ho, hm]
      · rw [← hmemIff o ho]
        simp [ho]
  · rw [if_neg hpp]
    refine ⟨?_, hl.nodup, fun o => ?_⟩
    · rw [hfirst, if_neg hpp]
      exact hl.chain.congr hrest
    · by_cases ho : o = mover
      · rw [hparent, if_pos ho, ho]
        simp [hmem, Ne.symm hpp]
      · exact hmemIff o ho

end ObjectTable
end ZMachine
