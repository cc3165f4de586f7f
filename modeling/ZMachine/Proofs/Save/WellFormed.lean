/-
# Save files and well-formed stacks

Two facts about the stacks of save files that hold for all bytes and all stacks:

* `wellFormed_of_read` : whatever the bytes, a stack that is read from them is well formed;
* `checkedStackBytes?_eq_some` : a well-formed stack is written without a slice whose ends are out
  of order or out of range.

Writing never looks at such ends, so the second fact is about `checkedStackBytes?`, which writes the
same bytes but gives up where an end is wrong.
-/
import ZMachine.Proofs.Save.RoundTrip

namespace ZMachine
namespace Save

/-! ## Reading -/

/-- A record has at most as many locals as a routine. -/
theorem FrameRecord.localCount_toFrame_le (r : FrameRecord) (floor : Nat) :
    (r.toFrame floor).localCount ≤ maxLocals := by
  have hmod : r.flags.toNat % discardFlag < discardFlag := Nat.mod_lt _ (by decide)
  exact Nat.le_of_lt_succ hmod

/-- The frame of a record starts at the top of the entries read so far, and its own entries come
above it. -/
theorem wellFormed_pushRecords {s : CallStack} (h : s.WellFormed) (records : List FrameRecord) :
    (pushRecords s records).WellFormed := by
  induction records generalizing s with
  | nil => exact h
  | cons r newer ih =>
      apply ih
      have hframe : (s.pushFrame (r.toFrame s.eval.size)).WellFormed :=
        h.pushFrame rfl (r.localCount_toFrame_le s.eval.size)
      apply hframe.withEval
      show s.eval.size ≤ (s.eval ++ r.entries.toArray).size
      rw [Array.size_append]
      exact Nat.le_add_right _ _

/-- Records give a well-formed stack. -/
theorem wellFormed_stackOfRecords (records : List FrameRecord) :
    (stackOfRecords records).WellFormed := by
  cases records with
  | nil => exact CallStack.wellFormed_empty
  | cons first newer =>
      apply wellFormed_pushRecords
      exact CallStack.wellFormed_empty.withEval first.entries.toArray (Nat.zero_le _)

/-- A stack that is read is well formed. -/
theorem wellFormed_of_readStacks {bytes : List UInt8} {s : CallStack}
    (h : readStacks bytes = .ok s) : s.WellFormed := by
  unfold readStacks at h
  cases hrecords : FrameRecord.readAll bytes with
  | error e =>
      rw [hrecords] at h
      cases h
  | ok records =>
      rw [hrecords] at h
      cases h
      exact wellFormed_stackOfRecords records

/-- A container gives a well-formed stack. -/
theorem wellFormed_of_ofContainer {f : Container} {id : StoryId} {loaded : List UInt8}
    {s : Snapshot} (h : Quetzal.ofContainer f id loaded = .ok s) : s.stack.WellFormed := by
  obtain ⟨-, -, -, frames, -, hstack⟩ := Quetzal.ofContainer_eq_ok_iff.mp h
  exact wellFormed_of_readStacks hstack

/-- **Every snapshot that is read from a file has a well-formed stack**, whatever the file. -/
theorem wellFormed_of_read {bytes : List UInt8} {id : StoryId} {loaded : List UInt8}
    {s : Snapshot} (h : Quetzal.read bytes id loaded = .ok s) : s.stack.WellFormed := by
  unfold Quetzal.read at h
  cases hparse : Container.parse bytes with
  | error e =>
      rw [hparse] at h
      cases h
  | ok f =>
      rw [hparse] at h
      have hcontainer : Quetzal.ofContainer f id loaded = .ok s := h
      exact wellFormed_of_ofContainer hcontainer

/-! ## Writing -/

/-- The entries of an array between two ends, if they are in order and inside it. -/
def slice? {α : Type} (a : Array α) (lower upper : Nat) : Option (List α) :=
  if lower ≤ upper ∧ upper ≤ a.size then some (a.extract lower upper).toList else none

theorem slice?_eq_some {α : Type} {a : Array α} {lower upper : Nat} (horder : lower ≤ upper)
    (hrange : upper ≤ a.size) : slice? a lower upper = some (a.extract lower upper).toList :=
  if_pos ⟨horder, hrange⟩

/-- The records of frames, the oldest first, from slices with proper ends only.  Ends past the
evaluation stack are cut to it, so that only their order can be wrong. -/
def checkedFrameRecords? (eval : Array UInt16) : List Frame → Option (List FrameRecord)
  | [] => some []
  | f :: newer => do
      let entries ← slice? eval (min f.evalFloor eval.size) (min (lowest eval newer) eval.size)
      let locals ← slice? f.locals.toArray 0 f.localCount
      let records ← checkedFrameRecords? eval newer
      return { FrameRecord.ofFrame f entries with locals } :: records

/-- The bytes of a stack, from slices with proper ends only. -/
def checkedStackBytes? (s : CallStack) : Option (List UInt8) := do
  let entries ← slice? s.eval 0 (min (lowest s.eval s.frames.reverse) s.eval.size)
  let records ← checkedFrameRecords? s.eval s.frames.reverse
  return (FrameRecord.base entries :: records).flatMap FrameRecord.toBytes

/-- The lowest of some floors is at least a number that none of them is below. -/
theorem le_lowest {eval : Array UInt16} {frames : List Frame} {n : Nat} (hn : n ≤ eval.size)
    (h : ∀ f ∈ frames, n ≤ f.evalFloor) : n ≤ lowest eval frames := by
  cases frames with
  | nil => exact hn
  | cons f newer => exact h f List.mem_cons_self

/-- Entries begin inside the evaluation stack. -/
theorem lowest_le {eval : Array UInt16} {frames : List Frame}
    (h : ∀ f ∈ frames, f.evalFloor ≤ eval.size) : lowest eval frames ≤ eval.size := by
  cases frames with
  | nil => exact Nat.le_refl _
  | cons f newer => exact h f List.mem_cons_self

/-- All ends are proper in the records of frames whose floors rise within the evaluation stack. -/
theorem checkedFrameRecords?_eq_some {eval : Array UInt16} {frames : List Frame}
    (hordered : frames.Pairwise fun f newer => f.evalFloor ≤ newer.evalFloor)
    (hfloor : ∀ f ∈ frames, f.evalFloor ≤ eval.size)
    (hcount : ∀ f ∈ frames, f.localCount ≤ maxLocals) :
    checkedFrameRecords? eval frames = some (frameRecords eval frames) := by
  induction frames with
  | nil => rfl
  | cons f newer ih =>
      rw [List.pairwise_cons] at hordered
      rw [List.forall_mem_cons] at hfloor hcount
      have hlower : min f.evalFloor eval.size = f.evalFloor := Nat.min_eq_left hfloor.1
      have hupper : min (lowest eval newer) eval.size = lowest eval newer :=
        Nat.min_eq_left (lowest_le hfloor.2)
      have hentries : slice? eval f.evalFloor (lowest eval newer)
          = some (eval.extract f.evalFloor (lowest eval newer)).toList :=
        slice?_eq_some (le_lowest hfloor.1 hordered.1) (lowest_le hfloor.2)
      have hlocals : slice? f.locals.toArray 0 f.localCount
          = some (f.locals.toList.take f.localCount) := by
        rw [slice?_eq_some (Nat.zero_le _) (by simpa using hcount.1)]
        show _ = some (f.locals.toArray.toList.take f.localCount)
        simp
      rw [checkedFrameRecords?, hlower, hupper, hentries, hlocals,
        ih hordered.2 hfloor.2 hcount.2, frameRecords_cons]
      rfl

/-- **A well-formed stack is written from slices with proper ends**, and they make up its bytes. -/
theorem checkedStackBytes?_eq_some {s : CallStack} (h : s.WellFormed) :
    checkedStackBytes? s = some (stackBytes s) := by
  have hfloor : ∀ f ∈ s.frames.reverse, f.evalFloor ≤ s.eval.size :=
    fun f hf => h.floor_le f (List.mem_reverse.mp hf)
  have hrecords := checkedFrameRecords?_eq_some (List.pairwise_reverse.mpr h.ordered) hfloor
    fun f hf => h.localCount_le f (List.mem_reverse.mp hf)
  have hupper : min (lowest s.eval s.frames.reverse) s.eval.size
      = lowest s.eval s.frames.reverse := Nat.min_eq_left (lowest_le hfloor)
  rw [checkedStackBytes?, hupper, slice?_eq_some (Nat.zero_le _) (lowest_le hfloor), hrecords,
    stackBytes, stackRecords_eq]
  rfl

end Save
end ZMachine
