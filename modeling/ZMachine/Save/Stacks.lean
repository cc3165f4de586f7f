/-
# Stacks in save files

The call stack is written as one record per frame, the oldest first, after a record for the
evaluation stack entries that belong to no frame.

    return pc: 3 | flags: 1 | result variable: 1 | arguments: 1
    entry count: 2 | locals: 2 each | entries: 2 each

The low half of the flags is the number of locals, and their bit 4 says that the result is
discarded.  The arguments are a mask with one bit for each.  The floors of the frames are not
written; they are the running totals of the entry counts.
-/
import ZMachine.CallStack
import ZMachine.Save.Bytes
import ZMachine.Save.Error

namespace ZMachine
namespace Save

/-- A record of the stack chunk. -/
structure FrameRecord where
  returnPc : Nat
  flags : UInt8
  result : UInt8
  arguments : UInt8
  locals : List UInt16
  entries : List UInt16
  deriving DecidableEq, Repr

namespace FrameRecord

/-- The flag of a discarded result. -/
def discardFlag : Nat := 16

/-! ## Records and frames -/

/-- The record of the entries below the first frame. -/
def base (entries : List UInt16) : FrameRecord where
  returnPc := 0
  flags := 0
  result := 0
  arguments := 0
  locals := []
  entries

/-- The record of a frame and the entries that it owns. -/
def ofFrame (f : Frame) (entries : List UInt16) : FrameRecord where
  returnPc := f.returnPc
  flags := UInt8.ofNat (f.localCount + if f.result.isNone then discardFlag else 0)
  result := f.result.getD 0
  arguments := UInt8.ofNat ((1 <<< min f.argCount 7) - 1)
  locals := f.locals.toList.take f.localCount
  entries

/-- The number of one bits at the low end of a number. -/
def trailingOnes : Nat → Nat → Nat
  | 0, _ => 0
  | width + 1, n => if n % 2 = 1 then trailingOnes width (n / 2) + 1 else 0

/-- The number of locals that flags give. -/
def localsOf (flags : UInt8) : Nat :=
  flags.toNat % discardFlag

/-- Whether flags say that the result is discarded. -/
def discards (flags : UInt8) : Bool :=
  flags.toNat / discardFlag % 2 = 1

/-- The frame of a record whose entries lie above a floor. -/
def toFrame (r : FrameRecord) (floor : Nat) : Frame where
  returnPc := r.returnPc
  locals := Vector.ofFn fun i => r.locals.getD i 0
  localCount := localsOf r.flags
  argCount := trailingOnes 8 r.arguments.toNat
  result := if discards r.flags then none else some r.result
  evalFloor := floor

/-! ## Records and bytes -/

/-- The bytes of a record. -/
def toBytes (r : FrameRecord) : List UInt8 :=
  bytes24 r.returnPc ++ [r.flags, r.result, r.arguments] ++
    bytes16 (UInt16.ofNat r.entries.length) ++ r.locals.flatMap bytes16 ++
    r.entries.flatMap bytes16

/-- The record at the front of some bytes and the bytes after it. -/
def read? (bytes : List UInt8) : Option (FrameRecord × List UInt8) :=
  match bytes with
  | p₂ :: p₁ :: p₀ :: flags :: result :: arguments :: c₁ :: c₀ :: rest =>
      match words? (localsOf flags) rest with
      | none => none
      | some (locals, rest) =>
          match words? (Word.ofBytes c₁ c₀).toNat rest with
          | none => none
          | some (entries, rest) =>
              some ({ returnPc := number [p₂, p₁, p₀], flags, result, arguments, locals, entries },
                rest)
  | _ => none

/-- A record takes at least eight bytes. -/
theorem length_lt_of_read?_eq_some (bytes : List UInt8) (r : FrameRecord) (rest : List UInt8)
    (h : read? bytes = some (r, rest)) : rest.length < bytes.length := by
  unfold read? at h
  split at h
  · split at h
    · simp at h
    · rename_i hl
      split at h
      · simp at h
      · rename_i he
        simp only [Option.some.injEq, Prod.mk.injEq] at h
        obtain ⟨_, rfl⟩ := h
        have h₁ := length_of_words?_eq_some _ _ _ _ hl
        have h₂ := length_of_words?_eq_some _ _ _ _ he
        simp only [List.length_cons]
        omega
  · simp at h

/-- All records of some bytes. -/
def readAll (bytes : List UInt8) : Except SaveError (List FrameRecord) :=
  if bytes.isEmpty then .ok []
  else
    match _h : read? bytes with
    | none => .error .truncatedStacks
    | some (r, rest) =>
        match readAll rest with
        | .error e => .error e
        | .ok records => .ok (r :: records)
termination_by bytes.length
decreasing_by exact length_lt_of_read?_eq_some bytes r rest _h

end FrameRecord

/-! ## Whole stacks -/

/-- The records of frames, the oldest first, on an evaluation stack.  A frame owns the entries from
its floor to the floor of the next one. -/
def frameRecords (eval : Array UInt16) : List Frame → List FrameRecord
  | [] => []
  | f :: newer =>
      let upper := match newer with
        | [] => eval.size
        | next :: _ => next.evalFloor
      .ofFrame f (eval.extract f.evalFloor upper).toList :: frameRecords eval newer

/-- The records of a stack. -/
def stackRecords (s : CallStack) : List FrameRecord :=
  let oldestFirst := s.frames.reverse
  let upper := match oldestFirst with
    | [] => s.eval.size
    | f :: _ => f.evalFloor
  .base (s.eval.extract 0 upper).toList :: frameRecords s.eval oldestFirst

/-- Adds the frames and entries of records, the oldest first, to a stack. -/
def pushRecords (s : CallStack) : List FrameRecord → CallStack
  | [] => s
  | r :: newer =>
      pushRecords
        { s with
          frames := r.toFrame s.eval.size :: s.frames
          eval := s.eval ++ r.entries.toArray }
        newer

/-- The stack of some records; the first one has entries only. -/
def stackOfRecords : List FrameRecord → CallStack
  | [] => .empty
  | first :: records => pushRecords { eval := first.entries.toArray } records

/-- The bytes of a stack. -/
def stackBytes (s : CallStack) : List UInt8 :=
  (stackRecords s).flatMap FrameRecord.toBytes

/-- The stack of some bytes. -/
def readStacks (bytes : List UInt8) : Except SaveError CallStack :=
  (FrameRecord.readAll bytes).map stackOfRecords

end Save
end ZMachine
