/-
# Reading back saved stacks

The stack chunk holds one record for each stretch of the evaluation stack.  A record is read back
if its numbers fit their fields, and the records of a stack give the stack back, floors included,
if every frame can be told from its record:

* `FrameRecord.readAll_flatMap_toBytes` : written records are read back;
* `FrameRecord.toFrame_ofFrame` : a frame is told from its record and its floor;
* `readStacks_stackBytes` : a written stack is read back.
-/
import ZMachine.Proofs.CallStack
import ZMachine.Save.Stacks

namespace ZMachine

/-! ## What can be stored -/

/-- A frame that a record can hold: its numbers fit and no local past its count has a value. -/
structure Frame.Storable (f : Frame) : Prop where
  returnPc_lt : f.returnPc < 16777216
  localCount_le : f.localCount ≤ maxLocals
  argCount_le : f.argCount ≤ 7
  locals_eq_zero : ∀ i (h : i < maxLocals), f.localCount ≤ i → f.locals[i] = 0

instance (f : Frame) : Decidable f.Storable :=
  decidable_of_iff
    (f.returnPc < 16777216 ∧ f.localCount ≤ maxLocals ∧ f.argCount ≤ 7 ∧
      ∀ i (h : i < maxLocals), f.localCount ≤ i → f.locals[i] = 0)
    ⟨fun ⟨hpc, hcount, hargs, hzero⟩ => ⟨hpc, hcount, hargs, hzero⟩,
      fun ⟨hpc, hcount, hargs, hzero⟩ => ⟨hpc, hcount, hargs, hzero⟩⟩

/-- A stack that a save file can hold. -/
structure CallStack.Storable (s : CallStack) : Prop extends s.WellFormed where
  frames_storable : ∀ f ∈ s.frames, f.Storable
  baseLocals : s.baseLocals = Vector.replicate maxLocals 0
  stretch_lt : ∀ p ∈ s.stretches, p.2 - p.1 < 65536

instance (s : CallStack) : Decidable s.Storable :=
  decidable_of_iff
    (s.WellFormed ∧ (∀ f ∈ s.frames, f.Storable) ∧ s.baseLocals = Vector.replicate maxLocals 0 ∧
      ∀ p ∈ s.stretches, p.2 - p.1 < 65536)
    ⟨fun ⟨hformed, hframes, hbase, hstretch⟩ => ⟨hformed, hframes, hbase, hstretch⟩,
      fun ⟨hformed, hframes, hbase, hstretch⟩ => ⟨hformed, hframes, hbase, hstretch⟩⟩

namespace Save

/-- Written words are read back, whatever follows them. -/
theorem words?_flatMap_bytes16_append (words : List UInt16) (rest : List UInt8) :
    words? words.length (words.flatMap bytes16 ++ rest) = some (words, rest) := by
  induction words with
  | nil => rfl
  | cons w words ih =>
      rw [List.flatMap_cons, List.length_cons]
      show words? (words.length + 1)
        (Word.high w :: Word.low w :: (words.flatMap bytes16 ++ rest)) = _
      rw [words?, ih, Option.map_some, Word.ofBytes_high_low]

namespace FrameRecord

/-! ## Records and bytes -/

/-- The numbers of a record fit their fields, and the flags give the number of its locals. -/
structure Fits (r : FrameRecord) : Prop where
  returnPc_lt : r.returnPc < 16777216
  localsOf_flags : localsOf r.flags = r.locals.length
  entries_lt : r.entries.length < 65536

/-- A written record is read back, whatever follows it. -/
theorem read?_toBytes_append (r : FrameRecord) (h : r.Fits) (rest : List UInt8) :
    read? (r.toBytes ++ rest) = some (r, rest) := by
  have hpc := number_bytes24 r.returnPc h.returnPc_lt
  have hlocals := words?_flatMap_bytes16_append r.locals (r.entries.flatMap bytes16 ++ rest)
  have hentries := words?_flatMap_bytes16_append r.entries rest
  have hcount : (UInt16.ofNat r.entries.length).toNat = r.entries.length := by
    rw [UInt16.toNat_ofNat']
    exact Nat.mod_eq_of_lt h.entries_lt
  have hbytes : r.toBytes ++ rest
      = UInt8.ofNat (r.returnPc / 65536) :: UInt8.ofNat (r.returnPc / 256)
        :: UInt8.ofNat r.returnPc :: r.flags :: r.result :: r.arguments
        :: Word.high (UInt16.ofNat r.entries.length) :: Word.low (UInt16.ofNat r.entries.length)
        :: (r.locals.flatMap bytes16 ++ (r.entries.flatMap bytes16 ++ rest)) := by
    simp [toBytes, bytes24, bytes16]
  rw [bytes24] at hpc
  rw [hbytes, read?]
  simp only [h.localsOf_flags, hlocals, Word.ofBytes_high_low, hcount, hentries, hpc]

/-- Written records are read back. -/
theorem readAll_flatMap_toBytes (records : List FrameRecord) (h : ∀ r ∈ records, r.Fits) :
    readAll (records.flatMap toBytes) = .ok records := by
  induction records with
  | nil =>
      rw [List.flatMap_nil, readAll]
      rfl
  | cons r records ih =>
      obtain ⟨hr, hrecords⟩ := List.forall_mem_cons.mp h
      have hread := read?_toBytes_append r hr (records.flatMap toBytes)
      rw [List.flatMap_cons, readAll, if_neg (by simp [toBytes, bytes24])]
      split
      · rename_i hnone
        rw [hread] at hnone
        cases hnone
      · rename_i r' rest hsome
        rw [hread] at hsome
        cases hsome
        rw [ih hrecords]

/-! ## Records and frames -/

/-- The flags of a frame give its number of locals. -/
theorem localsOf_flags_ofFrame (f : Frame) (entries : List UInt16) (h : f.localCount ≤ maxLocals) :
    localsOf (ofFrame f entries).flags = f.localCount := by
  have hmax : maxLocals = 15 := rfl
  simp only [localsOf, ofFrame, discardFlag, UInt8.toNat_ofNat']
  split <;> omega

/-- The flags of a frame say whether its result is discarded. -/
theorem discards_flags_ofFrame (f : Frame) (entries : List UInt16) (h : f.localCount ≤ maxLocals) :
    discards (ofFrame f entries).flags = f.result.isNone := by
  have hmax : maxLocals = 15 := rfl
  simp only [discards, ofFrame, discardFlag, UInt8.toNat_ofNat']
  cases f.result.isNone <;> simp <;> omega

/-- The mask of some arguments gives their number. -/
theorem trailingOnes_mask (n : Nat) (h : n ≤ 7) :
    trailingOnes 8 (UInt8.ofNat ((1 <<< min n 7) - 1)).toNat = n := by
  have hall : ∀ k : Fin 8,
      trailingOnes 8 (UInt8.ofNat ((1 <<< min k.val 7) - 1)).toNat = k.val := by
    decide
  exact hall ⟨n, by omega⟩

/-- **A frame is told from its record**, given its floor. -/
theorem toFrame_ofFrame (f : Frame) (h : f.Storable) (entries : List UInt16) :
    (ofFrame f entries).toFrame f.evalFloor = f := by
  have hlocals : (Vector.ofFn fun i : Fin maxLocals => (ofFrame f entries).locals.getD i 0)
      = f.locals := by
    apply Vector.ext
    intro i hi
    simp only [Vector.getElem_ofFn, ofFrame, List.getD_eq_getElem?_getD, List.getElem?_take]
    split
    · simp [hi]
    · rename_i hpast
      exact (h.locals_eq_zero i hi (by omega)).symm
  have hresult : (if discards (ofFrame f entries).flags then none
      else some (ofFrame f entries).result) = f.result := by
    rw [discards_flags_ofFrame f entries h.localCount_le]
    cases hr : f.result <;> simp [ofFrame, hr]
  unfold toFrame
  rw [hlocals, hresult, localsOf_flags_ofFrame f entries h.localCount_le]
  show Frame.mk f.returnPc f.locals f.localCount
    (trailingOnes 8 (UInt8.ofNat ((1 <<< min f.argCount 7) - 1)).toNat) f.result f.evalFloor = f
  rw [trailingOnes_mask f.argCount h.argCount_le]

/-- The record of a frame fits if its entries can be counted. -/
theorem fits_ofFrame (f : Frame) (h : f.Storable) (entries : List UInt16)
    (hentries : entries.length < 65536) : (ofFrame f entries).Fits where
  returnPc_lt := h.returnPc_lt
  localsOf_flags := by
    have hcount := h.localCount_le
    rw [localsOf_flags_ofFrame f entries hcount]
    simp only [ofFrame, List.length_take, Vector.length_toList]
    omega
  entries_lt := hentries

end FrameRecord

/-! ## Whole stacks -/

/-- Where the entries of some frames, the oldest first, begin. -/
def lowest (eval : Array UInt16) : List Frame → Nat
  | [] => eval.size
  | f :: _ => f.evalFloor

/-- The record of a frame holds its stretch, up to where the newer frames begin. -/
theorem frameRecords_cons (eval : Array UInt16) (f : Frame) (newer : List Frame) :
    frameRecords eval (f :: newer)
      = .ofFrame f (eval.extract f.evalFloor (lowest eval newer)).toList
        :: frameRecords eval newer := by
  cases newer <;> rfl

/-- The records of a stack: one for the entries below the first frame, and those of the frames. -/
theorem stackRecords_eq (s : CallStack) :
    stackRecords s
      = .base (s.eval.extract 0 (lowest s.eval s.frames.reverse)).toList
        :: frameRecords s.eval s.frames.reverse := by
  unfold stackRecords
  cases s.frames.reverse <;> rfl

/-- Two adjacent stretches from the bottom on are one. -/
theorem extract_append_stretch (eval : Array UInt16) (lower upper : Nat) (h : lower ≤ upper) :
    eval.extract 0 lower ++ (eval.extract lower upper).toList.toArray = eval.extract 0 upper := by
  rw [Array.toArray_toList, Array.extract_append_extract, Nat.zero_min, Nat.max_eq_right h]

/-- **Pushing the records of frames** on the entries below them puts the frames and all entries
back.  Each floor is where the entries read so far end. -/
theorem pushRecords_frameRecords (eval : Array UInt16) (base : Locals)
    (frames older : List Frame)
    (hordered : frames.Pairwise fun f newer => f.evalFloor ≤ newer.evalFloor)
    (hfloor : ∀ f ∈ frames, f.evalFloor ≤ eval.size)
    (hframes : ∀ f ∈ frames, f.Storable) :
    pushRecords ⟨older, eval.extract 0 (lowest eval frames), base⟩ (frameRecords eval frames)
      = ⟨frames.reverse ++ older, eval, base⟩ := by
  induction frames generalizing older with
  | nil =>
      show CallStack.mk older (eval.extract 0 eval.size) base = _
      rw [Array.extract_size]
      rfl
  | cons f newer ih =>
      rw [List.pairwise_cons] at hordered
      rw [List.forall_mem_cons] at hfloor hframes
      -- the entries read so far end at the floor of `f`, and its own reach up to the next floor
      have hlowest : f.evalFloor ≤ lowest eval newer := by
        cases newer with
        | nil => exact hfloor.1
        | cons next _ => exact hordered.1 next List.mem_cons_self
      have hsize : (eval.extract 0 f.evalFloor).size = f.evalFloor := by
        rw [Array.size_extract]
        omega
      have hframe := FrameRecord.toFrame_ofFrame f hframes.1
        (eval.extract f.evalFloor (lowest eval newer)).toList
      have hentries := extract_append_stretch eval f.evalFloor (lowest eval newer) hlowest
      have hnewer := ih (f :: older) hordered.2 hfloor.2 hframes.2
      rw [frameRecords_cons]
      show pushRecords
        ⟨(FrameRecord.ofFrame f (eval.extract f.evalFloor (lowest eval newer)).toList).toFrame
            (eval.extract 0 f.evalFloor).size :: older,
          eval.extract 0 f.evalFloor ++
            (eval.extract f.evalFloor (lowest eval newer)).toList.toArray, base⟩
        (frameRecords eval newer) = _
      rw [hsize, hframe, hentries, hnewer, List.reverse_cons, List.append_assoc]
      rfl

/-- The stack of its own records. -/
theorem stackOfRecords_stackRecords (s : CallStack) (h : s.Storable) :
    stackOfRecords (stackRecords s) = s := by
  have hordered := List.pairwise_reverse.mpr h.ordered
  have hpush := pushRecords_frameRecords s.eval (Vector.replicate maxLocals 0) s.frames.reverse []
    hordered (fun f hf => h.floor_le f (List.mem_reverse.mp hf))
    (fun f hf => h.frames_storable f (List.mem_reverse.mp hf))
  rw [stackRecords_eq]
  show pushRecords ⟨[], (s.eval.extract 0 _).toList.toArray, Vector.replicate maxLocals 0⟩ _ = s
  rw [Array.toArray_toList, hpush, List.reverse_reverse, List.append_nil, ← h.baseLocals]

/-- The entries of the records of frames, after a stretch that ends where they begin. -/
theorem frameRecords_map_entries (eval : Array UInt16) (lower : Nat) (frames : List Frame) :
    (eval.extract lower (lowest eval frames)).toList
        :: (frameRecords eval frames).map FrameRecord.entries
      = ((lower :: (frames.map Frame.evalFloor ++ [eval.size])).zip
          (frames.map Frame.evalFloor ++ [eval.size])).map
        fun p => (eval.extract p.1 p.2).toList := by
  induction frames generalizing lower with
  | nil => rfl
  | cons f newer ih =>
      rw [frameRecords_cons, List.map_cons]
      show _ :: (eval.extract f.evalFloor (lowest eval newer)).toList :: _ = _
      rw [ih f.evalFloor]
      rfl

/-- The entries of the records of a stack are its stretches. -/
theorem stackRecords_map_entries (s : CallStack) :
    (stackRecords s).map FrameRecord.entries
      = s.stretches.map fun p => (s.eval.extract p.1 p.2).toList := by
  rw [stackRecords_eq, List.map_cons]
  exact frameRecords_map_entries s.eval 0 s.frames.reverse

/-- The records of frames hold the frames that they were made from. -/
theorem exists_frame_of_mem_frameRecords (eval : Array UInt16) (frames : List Frame)
    (r : FrameRecord) (hr : r ∈ frameRecords eval frames) :
    ∃ f ∈ frames, r = .ofFrame f r.entries := by
  induction frames with
  | nil => cases hr
  | cons f newer ih =>
      rw [frameRecords_cons] at hr
      rcases List.mem_cons.mp hr with rfl | hr
      · exact ⟨f, List.mem_cons_self, rfl⟩
      · obtain ⟨f', hf', hr'⟩ := ih hr
        exact ⟨f', List.mem_cons_of_mem f hf', hr'⟩

/-- The records of a storable stack fit. -/
theorem fits_of_mem_stackRecords (s : CallStack) (h : s.Storable) (r : FrameRecord)
    (hr : r ∈ stackRecords s) : r.Fits := by
  have hentries : r.entries.length < 65536 := by
    have hmem := List.mem_map_of_mem (f := FrameRecord.entries) hr
    rw [stackRecords_map_entries] at hmem
    obtain ⟨p, hp, heq⟩ := List.mem_map.mp hmem
    have hlt := h.stretch_lt p hp
    rw [← heq, Array.length_toList, Array.size_extract]
    omega
  rw [stackRecords_eq] at hr
  rcases List.mem_cons.mp hr with rfl | hr
  · exact ⟨Nat.zero_lt_succ _, rfl, hentries⟩
  · obtain ⟨f, hf, heq⟩ := exists_frame_of_mem_frameRecords _ _ r hr
    rw [heq]
    exact FrameRecord.fits_ofFrame f (h.frames_storable f (List.mem_reverse.mp hf)) _ hentries

/-- **A written stack is read back.** -/
theorem readStacks_stackBytes (s : CallStack) (h : s.Storable) :
    readStacks (stackBytes s) = .ok s := by
  have hrecords := FrameRecord.readAll_flatMap_toBytes (stackRecords s)
    (fits_of_mem_stackRecords s h)
  rw [readStacks, stackBytes, hrecords]
  show Except.ok (stackOfRecords (stackRecords s)) = _
  rw [stackOfRecords_stackRecords s h]

end Save
end ZMachine
