/-
# The image of a story

Whatever is written to memory, the loaded bytes and the boundary of static memory stay what they
were, and so does the size.  `Memory.SameImage` says so of two memories; here it is shown of every
operation that changes memory.
-/
import ZMachine.Machine.Execute

namespace ZMachine

namespace Memory

/-- Two states of one story: the loaded bytes and the boundary of static memory are the same. -/
structure SameImage (m m' : Memory) : Prop where
  loaded : m'.loaded = m.loaded
  staticStart : m'.staticStart = m.staticStart

theorem SameImage.refl (m : Memory) : SameImage m m :=
  ⟨rfl, rfl⟩

theorem SameImage.trans {m₁ m₂ m₃ : Memory} (h : SameImage m₁ m₂) (h' : SameImage m₂ m₃) :
    SameImage m₁ m₃ :=
  ⟨h'.loaded.trans h.loaded, h'.staticStart.trans h.staticStart⟩

/-- The image neither grows nor shrinks. -/
theorem SameImage.size {m m' : Memory} (h : SameImage m m') : m'.size = m.size := by
  unfold Memory.size
  rw [m'.size_eq, m.size_eq, h.loaded]

theorem sameImage_setByte (m : Memory) (a : Nat) (v : UInt8) : SameImage m (m.setByte a v) :=
  ⟨rfl, rfl⟩

theorem sameImage_setWord (m : Memory) (a : Nat) (v : UInt16) : SameImage m (m.setWord a v) :=
  ⟨rfl, rfl⟩

theorem sameImage_setBytes (m : Memory) (a : Nat) (bytes : List UInt8) :
    SameImage m (m.setBytes a bytes) := by
  induction bytes generalizing m a with
  | nil => exact SameImage.refl m
  | cons b rest ih => exact (sameImage_setByte m a b).trans (ih _ _)

theorem sameImage_restoreDynamic (m : Memory) (saved : List UInt8) :
    SameImage m (m.restoreDynamic saved) :=
  ⟨rfl, rfl⟩

theorem sameImage_reset (m : Memory) : SameImage m m.reset :=
  ⟨rfl, rfl⟩

end Memory

open Memory (SameImage)

/-! ## Tables and tokens -/

theorem Table.sameImage_copyForward (m : Memory) (first second count : Nat) :
    SameImage m (copyForward m first second count) := by
  induction count generalizing m first second with
  | zero => exact SameImage.refl m
  | succ count ih => exact (Memory.sameImage_setByte m _ _).trans (ih _ _ _)

theorem Table.sameImage_copy (m : Memory) (first second : Nat) (size : Int) :
    SameImage m (copy m first second size) := by
  unfold copy
  split
  · exact Memory.sameImage_setBytes m _ _
  split
  · exact Table.sameImage_copyForward m _ _ _
  · exact Memory.sameImage_setBytes m _ _

theorem sameImage_writeTokens (cs : Text.Charset) (d : Dictionary) (line : List UInt8)
    (offset : Nat) (skipUnknown : Bool) (m : Memory) (slot : Nat) (tokens : List Token) :
    SameImage m (writeTokens cs d line offset skipUnknown m slot tokens) := by
  induction tokens generalizing m slot with
  | nil => exact SameImage.refl m
  | cons t rest ih =>
      unfold writeTokens
      dsimp only
      refine SameImage.trans ?_ (ih _ _)
      split
      · exact SameImage.refl m
      · exact ⟨rfl, rfl⟩

theorem sameImage_tokenise (cs : Text.Charset) (m : Memory)
    (textBuffer parseBuffer dictionary : Nat) (skipUnknown : Bool) :
    SameImage m (tokenise cs m textBuffer parseBuffer dictionary skipUnknown) :=
  (sameImage_writeTokens cs _ _ _ skipUnknown m _ _).trans (Memory.sameImage_setByte _ _ _)

/-! ## Objects -/

namespace ObjectTable

theorem sameImage_setLink (t : ObjectTable) (m : Memory) (object : UInt16) (l : Link)
    (value : UInt16) : SameImage m (t.setLink m object l value) := by
  unfold setLink
  split
  · exact SameImage.refl m
  split
  · exact Memory.sameImage_setWord m _ _
  · exact Memory.sameImage_setByte m _ _

theorem sameImage_setAttribute (t : ObjectTable) (m : Memory) (object attr : UInt16) :
    SameImage m (t.setAttribute m object attr) := by
  unfold setAttribute
  split
  · exact Memory.sameImage_setByte m _ _
  · exact SameImage.refl m

theorem sameImage_clearAttribute (t : ObjectTable) (m : Memory) (object attr : UInt16) :
    SameImage m (t.clearAttribute m object attr) := by
  unfold clearAttribute
  split
  · exact Memory.sameImage_setByte m _ _
  · exact SameImage.refl m

theorem sameImage_detach? (t : ObjectTable) {m m' : Memory} {mover : UInt16}
    (h : t.detach? m mover = some m') : SameImage m m' := by
  have hcut : ∀ n : Memory,
      SameImage n (t.setLink (t.setLink n mover .parent 0) mover .sibling 0) :=
    fun n => (t.sameImage_setLink n _ _ _).trans (t.sameImage_setLink _ _ _ _)
  unfold detach? at h
  dsimp only at h
  split at h
  · cases h
    exact SameImage.refl m
  split at h
  · cases h
    exact (t.sameImage_setLink m _ _ _).trans (hcut _)
  split at h
  · cases h
    exact (t.sameImage_setLink m _ _ _).trans (hcut _)
  · cases h
    exact hcut m
  · cases h

theorem sameImage_insert? (t : ObjectTable) {m m' : Memory} {mover newParent : UInt16}
    (h : t.insert? m mover newParent = some m') : SameImage m m' := by
  unfold insert? at h
  split at h
  · cases h
    exact SameImage.refl m
  · obtain ⟨n, hdetach, rfl⟩ := Option.map_eq_some_iff.mp h
    refine (t.sameImage_detach? hdetach).trans ?_
    dsimp only
    split
    · exact SameImage.refl n
    · exact ((t.sameImage_setLink n _ _ _).trans (t.sameImage_setLink _ _ _ _)).trans
        (t.sameImage_setLink _ _ _ _)

theorem sameImage_putProp (t : ObjectTable) {m m' : Memory} {object number value : UInt16}
    (h : t.putProp m object number value = .ok m') : SameImage m m' := by
  unfold putProp at h
  split at h
  · cases h
    exact SameImage.refl m
  split at h
  · split at h
    · cases h
      exact Memory.sameImage_setByte m _ _
    split at h
    · cases h
      exact Memory.sameImage_setWord m _ _
    · cases h
  · cases h

end ObjectTable

/-! ## The header and typed lines -/

namespace Machine

theorem sameImage_setUpHeader (config : Config) (version : UInt8) (m : Memory) :
    SameImage m (setUpHeader config version m) := by
  unfold setUpHeader
  extract_lets m₁ m₂ flags m₃ m₄ width height m₅
  have h₃ : SameImage m m₃ := ⟨rfl, rfl⟩
  have h₄ : SameImage m₃ m₄ := by
    dsimp only [m₄]
    split
    · exact (Memory.sameImage_setByte m₃ _ _).trans (Memory.sameImage_setByte _ _ _)
    · exact SameImage.refl m₃
  have h₅ : SameImage m₄ m₅ := by
    dsimp only [m₅]
    split
    · have hunits : SameImage m₄ height :=
        (Memory.sameImage_setWord m₄ _ _).trans (Memory.sameImage_setWord width _ _)
      exact hunits.trans
        ((Memory.sameImage_setByte height _ _).trans (Memory.sameImage_setByte _ _ _))
    · exact SameImage.refl m₄
  exact ((h₃.trans h₄).trans h₅).trans
    ((Memory.sameImage_setByte m₅ _ _).trans (Memory.sameImage_setByte _ _ _))

theorem sameImage_withPrintingBits (bits : UInt8) (m : Memory) :
    SameImage m (withPrintingBits bits m) :=
  Memory.sameImage_setByte m _ _

theorem sameImage_writeLine (version : UInt8) (textBuffer : Nat) (codes : List UInt8)
    (m : Memory) : SameImage m (writeLine version textBuffer codes m) := by
  unfold writeLine
  split
  · exact (Memory.sameImage_setByte m _ _).trans (Memory.sameImage_setBytes _ _ _)
  · exact (Memory.sameImage_setBytes m _ _).trans (Memory.sameImage_setByte _ _ _)

end Machine
end ZMachine
