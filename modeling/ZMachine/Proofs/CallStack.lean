/-
# Well-formed call stacks

A stack is well formed if the floors of its frames never decrease from the oldest frame to the
newest and none lies above the evaluation stack, so that every frame owns a stretch of it.

An `Edit` is one thing that running code can do to the stack without leaving a routine: push, pop,
replace the top, write a local, enter a routine.  Main facts:

* `Edit.wellFormed` and `WellFormed.popFrame` : neither an edit nor a return breaks a stack;
* `WellFormed.stretches_ordered` : the stretches of a well-formed stack have ordered ends inside it.
-/
import Mathlib.Data.List.Basic
import Mathlib.Logic.Relation
import ZMachine.CallStack

namespace ZMachine
namespace CallStack

/-- Floors rise with the frames and stay within the evaluation stack, and no routine has too many
locals.  Frames are listed from the newest on. -/
structure WellFormed (s : CallStack) : Prop where
  ordered : s.frames.Pairwise fun newer older => older.evalFloor ≤ newer.evalFloor
  floor_le : ∀ f ∈ s.frames, f.evalFloor ≤ s.eval.size
  localCount_le : ∀ f ∈ s.frames, f.localCount ≤ maxLocals

instance (s : CallStack) : Decidable s.WellFormed :=
  decidable_of_iff
    (s.frames.Pairwise (fun newer older => older.evalFloor ≤ newer.evalFloor) ∧
      (∀ f ∈ s.frames, f.evalFloor ≤ s.eval.size) ∧ ∀ f ∈ s.frames, f.localCount ≤ maxLocals)
    ⟨fun ⟨hordered, hfloor, hcount⟩ => ⟨hordered, hfloor, hcount⟩,
      fun ⟨hordered, hfloor, hcount⟩ => ⟨hordered, hfloor, hcount⟩⟩

/-- The stack with no frame is well formed. -/
theorem wellFormed_empty : empty.WellFormed where
  ordered := List.Pairwise.nil
  floor_le := by simp [empty]
  localCount_le := by simp [empty]

/-- All floors lie at or below the one of the running routine. -/
theorem WellFormed.floor_le_floor {s : CallStack} (h : s.WellFormed) :
    ∀ f ∈ s.frames, f.evalFloor ≤ s.floor := by
  intro f hf
  have hordered := h.ordered
  unfold floor
  cases hs : s.frames with
  | nil => simp [hs] at hf
  | cons top older =>
      rw [hs] at hf hordered
      rcases List.mem_cons.mp hf with rfl | hf
      · exact Nat.le_refl _
      · exact (List.pairwise_cons.mp hordered).1 f hf

/-- Another evaluation stack under the same frames is well formed if it reaches the newest
floor. -/
theorem WellFormed.withEval {s : CallStack} (h : s.WellFormed) (eval : Array UInt16)
    (hsize : s.floor ≤ eval.size) : WellFormed { s with eval } where
  ordered := h.ordered
  floor_le f hf := Nat.le_trans (h.floor_le_floor f hf) hsize
  localCount_le := h.localCount_le

/-! ## Popping and replacing -/

/-- There is an entry to see only above the floor. -/
theorem floor_lt_of_peek? {s : CallStack} {v : UInt16} (h : s.peek? = some v) :
    s.floor < s.eval.size := by
  unfold peek? at h
  split at h
  · cases h
  · omega

/-- A pop takes the last entry, which lies above the floor. -/
theorem pop?_eq_some {s s' : CallStack} {v : UInt16} (h : s.pop? = some (v, s')) :
    s.floor < s.eval.size ∧ s' = { s with eval := s.eval.pop } := by
  obtain ⟨w, hw, heq⟩ := Option.map_eq_some_iff.mp h
  cases heq
  exact ⟨floor_lt_of_peek? hw, rfl⟩

/-- Replacing the top changes the last entry, which lies above the floor. -/
theorem setTop?_eq_some {s s' : CallStack} {v : UInt16} (h : s.setTop? v = some s') :
    s.floor < s.eval.size ∧ s' = { s with eval := s.eval.pop.push v } := by
  obtain ⟨w, hw, heq⟩ := Option.map_eq_some_iff.mp h
  cases heq
  exact ⟨floor_lt_of_peek? hw, rfl⟩

/-! ## Edits -/

/-- One change of the stack by running code that does not leave a routine. -/
inductive Edit : CallStack → CallStack → Prop
  | push (s : CallStack) (value : UInt16) : Edit s (s.push value)
  | pop {s s' : CallStack} {value : UInt16} (h : s.pop? = some (value, s')) : Edit s s'
  | setTop {s s' : CallStack} {value : UInt16} (h : s.setTop? value = some s') : Edit s s'
  | setLocal (s : CallStack) (index : Nat) (value : UInt16) : Edit s (s.setLocal index value)
  | enter (s : CallStack) (frame : Frame) (hfloor : frame.evalFloor = s.eval.size)
      (hcount : frame.localCount ≤ maxLocals) : Edit s (s.pushFrame frame)

/-- Any number of edits. -/
abbrev Edits : CallStack → CallStack → Prop :=
  Relation.ReflTransGen Edit

/-- Writing a local keeps all that well-formedness looks at. -/
theorem WellFormed.setLocal {s : CallStack} (h : s.WellFormed) (index : Nat) (value : UInt16) :
    (s.setLocal index value).WellFormed := by
  obtain ⟨hordered, hfloor, hcount⟩ := h
  unfold CallStack.setLocal
  split
  · exact ⟨hordered, hfloor, hcount⟩
  · rename_i top older hs
    rw [hs] at hordered hfloor hcount
    rw [List.forall_mem_cons] at hfloor hcount
    rw [List.pairwise_cons] at hordered
    exact ⟨List.pairwise_cons.mpr hordered, List.forall_mem_cons.mpr hfloor,
      List.forall_mem_cons.mpr hcount⟩

/-- A routine entered at the top of the evaluation stack lies above all others. -/
theorem WellFormed.pushFrame {s : CallStack} (h : s.WellFormed) {frame : Frame}
    (hfloor : frame.evalFloor = s.eval.size) (hcount : frame.localCount ≤ maxLocals) :
    (s.pushFrame frame).WellFormed where
  ordered := by
    refine List.pairwise_cons.mpr ⟨fun f hf => ?_, h.ordered⟩
    rw [hfloor]
    exact h.floor_le f hf
  floor_le := List.forall_mem_cons.mpr ⟨Nat.le_of_eq hfloor, h.floor_le⟩
  localCount_le := List.forall_mem_cons.mpr ⟨hcount, h.localCount_le⟩

/-- **An edit keeps a stack well formed.** -/
theorem Edit.wellFormed {s s' : CallStack} (e : Edit s s') (h : s.WellFormed) :
    s'.WellFormed := by
  cases e with
  | push value =>
      refine ⟨h.ordered, fun f hf => ?_, h.localCount_le⟩
      have := h.floor_le f hf
      simp only [CallStack.push, Array.size_push]
      omega
  | pop hpop =>
      obtain ⟨hlt, rfl⟩ := pop?_eq_some hpop
      apply h.withEval
      rw [Array.size_pop]
      omega
  | setTop htop =>
      obtain ⟨hlt, rfl⟩ := setTop?_eq_some htop
      apply h.withEval
      rw [Array.size_push, Array.size_pop]
      omega
  | setLocal index value => exact h.setLocal index value
  | enter frame hfloor hcount => exact h.pushFrame hfloor hcount

/-- Any number of edits keep a stack well formed. -/
theorem Edits.wellFormed {s s' : CallStack} (e : Edits s s') (h : s.WellFormed) :
    s'.WellFormed := by
  induction e with
  | refl => exact h
  | tail _ e ih => exact e.wellFormed ih

/-! ## Returns -/

/-- Leaving a routine uncovers the older frames and cuts the evaluation stack to the floor. -/
theorem popFrame?_eq_some {s s' : CallStack} {frame : Frame}
    (h : s.popFrame? = some (frame, s')) :
    s.frames = frame :: s'.frames ∧
      s' = { s with frames := s'.frames, eval := s.eval.take frame.evalFloor } := by
  unfold popFrame? at h
  split at h
  · cases h
  · rename_i top older hs
    cases h
    exact ⟨hs, rfl⟩

/-- **A return keeps a stack well formed.** -/
theorem WellFormed.popFrame {s s' : CallStack} {frame : Frame} (h : s.WellFormed)
    (hpop : s.popFrame? = some (frame, s')) : s'.WellFormed := by
  obtain ⟨hordered, hfloor, hcount⟩ := h
  obtain ⟨hframes, hs'⟩ := popFrame?_eq_some hpop
  rw [hframes] at hordered hfloor hcount
  rw [List.pairwise_cons] at hordered
  rw [List.forall_mem_cons] at hfloor hcount
  refine ⟨hordered.2, fun f hf => ?_, hcount.2⟩
  have hsize : s'.eval.size = frame.evalFloor := by
    rw [hs']
    simp [hfloor.1]
  rw [hsize]
  exact hordered.1 f hf

/-- The stack after a returned value has gone to the variable that waits for it: on top for the code
zero, into a local of the caller for the codes up to fifteen.  A global is not on the stack. -/
def receive (s : CallStack) (result : Option UInt8) (value : UInt16) : CallStack :=
  match result with
  | none => s
  | some code =>
      if code = 0 then s.push value
      else if code ≤ 15 then s.setLocal (code.toNat - 1) value
      else s

/-- Receiving a value is an edit. -/
theorem edits_receive (s : CallStack) (result : Option UInt8) (value : UInt16) :
    Edits s (s.receive result value) := by
  unfold receive
  split
  · exact Relation.ReflTransGen.refl
  split
  · exact Relation.ReflTransGen.single (Edit.push s value)
  split
  · exact Relation.ReflTransGen.single (Edit.setLocal s _ value)
  · exact Relation.ReflTransGen.refl

/-- A received value comes or goes without a routine. -/
theorem depth_receive (s : CallStack) (result : Option UInt8) (value : UInt16) :
    (s.receive result value).depth = s.depth := by
  unfold receive
  split
  · rfl
  split
  · rfl
  split
  · unfold setLocal depth
    split <;> simp_all
  · rfl

/-! ## Stretches of the evaluation stack -/

/-- Where the stretches of the evaluation stack end, the oldest first: at the floor of the next
frame, and the last one at the top. -/
def ends (s : CallStack) : List Nat :=
  s.frames.reverse.map Frame.evalFloor ++ [s.eval.size]

/-- The stretches of the evaluation stack that belong to the code outside every routine and to each
frame, the oldest first, by their lower and upper ends. -/
def stretches (s : CallStack) : List (Nat × Nat) :=
  (0 :: s.ends).zip s.ends

/-- No stretch of a well-formed stack ends past the top. -/
theorem WellFormed.ends_le {s : CallStack} (h : s.WellFormed) :
    ∀ e ∈ s.ends, e ≤ s.eval.size := by
  intro e he
  rcases List.mem_append.mp he with he | he
  · obtain ⟨f, hf, rfl⟩ := List.mem_map.mp he
    exact h.floor_le f (List.mem_reverse.mp hf)
  · exact Nat.le_of_eq (List.mem_singleton.mp he)

/-- The ends of the stretches of a well-formed stack never decrease. -/
theorem WellFormed.ends_sorted {s : CallStack} (h : s.WellFormed) :
    s.ends.Pairwise (· ≤ ·) := by
  refine List.pairwise_append.mpr ⟨?_, List.pairwise_singleton _ _, ?_⟩
  · rw [List.pairwise_map, List.pairwise_reverse]
    exact h.ordered
  · intro e he top htop
    rw [List.mem_singleton.mp htop]
    exact h.ends_le e (List.mem_append_left _ he)

/-- **Every stretch of a well-formed stack** has ordered ends that lie inside the evaluation
stack. -/
theorem WellFormed.stretches_ordered {s : CallStack} (h : s.WellFormed) :
    ∀ p ∈ s.stretches, p.1 ≤ p.2 ∧ p.2 ≤ s.eval.size := by
  intro p hp
  have hsorted : (0 :: s.ends).Pairwise (· ≤ ·) :=
    List.pairwise_cons.mpr ⟨fun _ _ => Nat.zero_le _, h.ends_sorted⟩
  obtain ⟨i, hi, rfl⟩ := List.getElem_of_mem hp
  have hends : i < s.ends.length := by
    rw [stretches, List.length_zip, List.length_cons] at hi
    omega
  simp only [stretches, List.getElem_zip]
  refine ⟨?_, h.ends_le _ (List.getElem_mem hends)⟩
  have hstep := List.pairwise_iff_getElem.mp hsorted i (i + 1) (by simp; omega)
    (by simpa using hends) (Nat.lt_succ_self i)
  simpa using hstep

end CallStack
end ZMachine
