/-
# Saving again what was read

Every file that is read as a save gives a snapshot that can be saved again, also a file that no
writer would produce: with chunks of other ids, plain memory, locals in the record of the entries
below the first frame, unknown flags or gaps in the mask of the arguments.  What is read back then
is the snapshot, but for one number.  The mask has eight bits and reading counts all of them, where
a call and a save count at most seven arguments; a frame read with eight comes back with seven.

* `fits_of_mem_readAll` : the numbers of every record that is read fit their fields;
* `storable_masked_of_readStacks` : so the stack of a file can be stored once its arguments are
  counted to seven;
* `write_masked` : a save makes no difference between the two;
* `read_write_of_read` : saving again gives the snapshot with its arguments counted to seven, which
  is the snapshot itself exactly if no frame has eight.
-/
import ZMachine.Proofs.Save.WellFormed

namespace ZMachine

/-! ## Counting arguments to seven -/

/-- The frame with as many arguments as a save counts. -/
def Frame.masked (f : Frame) : Frame :=
  { f with argCount := min f.argCount 7 }

/-- The stack whose frames have as many arguments as a save counts. -/
def CallStack.masked (s : CallStack) : CallStack :=
  { s with frames := s.frames.map Frame.masked }

/-- The snapshot whose frames have as many arguments as a save counts. -/
def Snapshot.masked (s : Snapshot) : Snapshot :=
  { s with stack := s.stack.masked }

/-- Only a frame with more than seven arguments is changed. -/
theorem Frame.masked_eq_self_iff {f : Frame} : f.masked = f ↔ f.argCount ≤ 7 := by
  constructor
  · intro h
    have hcount : min f.argCount 7 = f.argCount := congrArg Frame.argCount h
    omega
  · intro h
    rw [masked, Nat.min_eq_left h]

/-- Only a snapshot with such a frame is changed. -/
theorem Snapshot.masked_eq_self_iff {s : Snapshot} :
    s.masked = s ↔ ∀ f ∈ s.stack.frames, f.argCount ≤ 7 := by
  constructor
  · intro h f hf
    have hframes : s.stack.frames.map Frame.masked = s.stack.frames :=
      congrArg (fun s => s.stack.frames) h
    have hf' := List.map_eq_map_iff.mp (hframes.trans (List.map_id' _).symm) f hf
    exact Frame.masked_eq_self_iff.mp hf'
  · intro h
    have hframes : s.stack.frames.map Frame.masked = s.stack.frames :=
      (List.map_congr_left fun f hf => Frame.masked_eq_self_iff.mpr (h f hf)).trans
        (List.map_id' _)
    rw [masked, CallStack.masked, hframes]

/-! ## Records that are read -/

namespace Save

/-- Three bytes give a number that fits three bytes. -/
theorem number_three_lt (a b c : UInt8) : number [a, b, c] < 16777216 := by
  have ha := a.toNat_lt
  have hb := b.toNat_lt
  have hc := c.toNat_lt
  show ((0 * 256 + a.toNat) * 256 + b.toNat) * 256 + c.toNat < 16777216
  omega

/-- As many words are read as were asked for. -/
theorem length_fst_of_words?_eq_some {n : Nat} {bytes : List UInt8} {words : List UInt16}
    {rest : List UInt8} (h : words? n bytes = some (words, rest)) : words.length = n := by
  fun_induction words? n bytes generalizing words with
  | case1 bytes =>
      cases h
      rfl
  | case2 n high low bytes ih =>
      obtain ⟨p, hp, heq⟩ := Option.map_eq_some_iff.mp h
      cases heq
      rw [List.length_cons, ih hp]
  | case3 => cases h

namespace FrameRecord

/-- The numbers of a record that is read fit their fields. -/
theorem fits_of_read?_eq_some {bytes : List UInt8} {r : FrameRecord} {rest : List UInt8}
    (h : read? bytes = some (r, rest)) : r.Fits := by
  unfold read? at h
  split at h
  · split at h
    · cases h
    · rename_i hlocals
      split at h
      · cases h
      · rename_i hentries
        cases h
        refine ⟨number_three_lt _ _ _, (length_fst_of_words?_eq_some hlocals).symm, ?_⟩
        show List.length _ < 65536
        rw [length_fst_of_words?_eq_some hentries]
        exact UInt16.toNat_lt _
  · cases h

/-- **The numbers of all records that are read fit their fields**, whatever the bytes. -/
theorem fits_of_mem_readAll {bytes : List UInt8} {records : List FrameRecord}
    (h : readAll bytes = .ok records) : ∀ r ∈ records, r.Fits := by
  fun_induction readAll bytes generalizing records with
  | case1 bytes hempty =>
      cases h
      nofun
  | case2 bytes hsome hread => cases h
  | case3 bytes hsome r rest hread e hrest ih => cases h
  | case4 bytes hsome r rest hread newer hrest ih =>
      cases h
      exact List.forall_mem_cons.mpr ⟨fits_of_read?_eq_some hread, ih hrest⟩

/-- **The frame of a record that fits can be stored** once its arguments are counted to seven. -/
theorem storable_masked_toFrame {r : FrameRecord} (h : r.Fits) (floor : Nat) :
    (r.toFrame floor).masked.Storable where
  returnPc_lt := h.returnPc_lt
  localCount_le := r.localCount_toFrame_le floor
  argCount_le := Nat.min_le_right _ 7
  locals_eq_zero i hi hcount := by
    show (Vector.ofFn fun i : Fin maxLocals => r.locals.getD i 0)[i] = 0
    have hpast : r.locals.length ≤ i := h.localsOf_flags ▸ hcount
    rw [Vector.getElem_ofFn, List.getD_eq_getElem?_getD, List.getElem?_eq_none hpast]
    rfl

end FrameRecord
end Save

/-! ## Stacks that are read -/

/-- A frame on top of all entries, with entries of its own, adds one stretch. -/
theorem CallStack.stretches_cons (s : CallStack) {f : Frame} (h : f.evalFloor = s.eval.size)
    (entries : Array UInt16) :
    stretches { s with frames := f :: s.frames, eval := s.eval ++ entries }
      = s.stretches ++ [(s.eval.size, s.eval.size + entries.size)] := by
  have hends : ends { s with frames := f :: s.frames, eval := s.eval ++ entries }
      = s.ends ++ [s.eval.size + entries.size] := by
    simp [ends, h]
  have hlength : (0 :: s.frames.reverse.map Frame.evalFloor).length = s.ends.length := by
    simp [ends]
  -- the lower ends are zero and the floors, and then the top that the new frame begins at
  have hlower : 0 :: s.ends = (0 :: s.frames.reverse.map Frame.evalFloor) ++ [s.eval.size] := rfl
  have hold : s.stretches = (0 :: s.frames.reverse.map Frame.evalFloor).zip s.ends := by
    have hzip : ((0 :: s.frames.reverse.map Frame.evalFloor) ++ [s.eval.size]).zip (s.ends ++ [])
        = (0 :: s.frames.reverse.map Frame.evalFloor).zip s.ends ++ [s.eval.size].zip [] :=
      List.zip_append hlength
    rw [List.append_nil, List.zip_nil_right, List.append_nil] at hzip
    rw [stretches, hlower, hzip]
  rw [stretches, hends, hold, ← List.cons_append, hlower, List.append_assoc,
    List.zip_append hlength]
  rfl

/-- **A frame on top of all entries can be stored** with the rest of the stack. -/
theorem CallStack.Storable.cons {s : CallStack} (h : s.Storable) {f : Frame} (hf : f.Storable)
    (hfloor : f.evalFloor = s.eval.size) {entries : Array UInt16} (hentries : entries.size < 65536) :
    Storable { s with frames := f :: s.frames, eval := s.eval ++ entries } := by
  have hframe : (s.pushFrame f).WellFormed := h.toWellFormed.pushFrame hfloor hf.localCount_le
  have hformed : WellFormed { s with frames := f :: s.frames, eval := s.eval ++ entries } := by
    apply hframe.withEval
    show f.evalFloor ≤ (s.eval ++ entries).size
    rw [Array.size_append]
    omega
  refine ⟨hformed, List.forall_mem_cons.mpr ⟨hf, h.frames_storable⟩, h.baseLocals, ?_⟩
  intro p hp
  rw [s.stretches_cons hfloor] at hp
  rcases List.mem_append.mp hp with hp | hp
  · exact h.stretch_lt p hp
  · rw [List.mem_singleton.mp hp]
    show s.eval.size + entries.size - s.eval.size < 65536
    omega

namespace Save

/-- Records that fit keep a stack storable, each with a frame on top of what was read before. -/
theorem storable_masked_pushRecords {s : CallStack} (h : s.masked.Storable)
    (records : List FrameRecord) (hfits : ∀ r ∈ records, r.Fits) :
    (pushRecords s records).masked.Storable := by
  induction records generalizing s with
  | nil => exact h
  | cons r newer ih =>
      rw [List.forall_mem_cons] at hfits
      refine ih ?_ hfits.2
      exact h.cons (FrameRecord.storable_masked_toFrame hfits.1 s.eval.size) rfl hfits.1.entries_lt

/-- **A stack that is read can be stored again** once its arguments are counted to seven. -/
theorem storable_masked_of_readStacks {bytes : List UInt8} {s : CallStack}
    (h : readStacks bytes = .ok s) : s.masked.Storable := by
  unfold readStacks at h
  cases hrecords : FrameRecord.readAll bytes with
  | error e =>
      rw [hrecords] at h
      cases h
  | ok records =>
      rw [hrecords] at h
      cases h
      have hfits := FrameRecord.fits_of_mem_readAll hrecords
      cases records with
      | nil => decide
      | cons first newer =>
          rw [List.forall_mem_cons] at hfits
          refine storable_masked_pushRecords ?_ newer hfits.2
          refine ⟨CallStack.wellFormed_empty.withEval _ (Nat.zero_le _), nofun, rfl, ?_⟩
          intro p hp
          rw [List.mem_singleton.mp hp]
          exact hfits.1.entries_lt

/-! ## Memory and place -/

/-- Memory that is read is as long as the loaded one. -/
theorem length_of_decompress {data loaded memory : List UInt8}
    (h : decompress data loaded = .ok memory) : memory.length = loaded.length := by
  fun_induction decompress data loaded generalizing memory with
  | case1 loaded =>
      cases h
      rfl
  | case2 loaded => cases h
  | case3 loaded run data hsplit => cases h
  | case4 loaded run data front rest hsplit ih =>
      obtain ⟨rfl, -⟩ := (split?_eq_some_iff _ _ _ _).mp hsplit
      cases hrest : decompress data rest with
      | error e =>
          rw [hrest] at h
          cases h
      | ok memory' =>
          rw [hrest] at h
          cases h
          rw [List.length_append, List.length_append, ih hrest]
  | case5 b data hb => cases h
  | case6 b data hb o loaded ih =>
      cases hrest : decompress data loaded with
      | error e =>
          rw [hrest] at h
          cases h
      | ok memory' =>
          rw [hrest] at h
          cases h
          rw [List.length_cons, List.length_cons, ih hrest]

end Save

namespace Quetzal

/-- Memory that is read is as long as the loaded one, compressed or plain. -/
theorem length_of_readMemory {f : Container} {loaded memory : List UInt8}
    (h : readMemory f loaded = .ok memory) : memory.length = loaded.length := by
  unfold readMemory at h
  split at h
  · exact Save.length_of_decompress h
  split at h
  · split at h
    · rename_i hlength
      cases h
      exact hlength
    · cases h
  · cases h

/-- The place that is read fits three bytes. -/
theorem lt_of_readHead {id : StoryId} {data : List UInt8} {pc : Nat}
    (h : readHead id data = .ok pc) : pc < 16777216 := by
  unfold readHead at h
  split at h
  · dsimp only at h
    split at h
    · cases h
      exact Save.number_three_lt _ _ _
    · cases h
  · cases h

/-! ## Saving again -/

/-- The records of frames count their arguments to seven. -/
theorem frameRecords_map_masked (eval : Array UInt16) (frames : List Frame) :
    Save.frameRecords eval (frames.map Frame.masked) = Save.frameRecords eval frames := by
  induction frames with
  | nil => rfl
  | cons f newer ih =>
      have hlowest : Save.lowest eval (newer.map Frame.masked) = Save.lowest eval newer := by
        cases newer <;> rfl
      have hrecord : ∀ entries,
          Save.FrameRecord.ofFrame f.masked entries = Save.FrameRecord.ofFrame f entries := by
        intro entries
        unfold Save.FrameRecord.ofFrame Frame.masked
        dsimp only
        rw [Nat.min_assoc, Nat.min_self]
      rw [List.map_cons, Save.frameRecords_cons, Save.frameRecords_cons, hlowest, hrecord, ih]
      rfl

/-- **A save counts the arguments of a frame to seven.** -/
theorem write_masked (id : StoryId) (s : Snapshot) (loaded : List UInt8) :
    write id s.masked loaded = write id s loaded := by
  have hframes : s.masked.stack.frames.reverse = s.stack.frames.reverse.map Frame.masked :=
    List.map_reverse.symm
  have hlowest : Save.lowest s.stack.eval (s.stack.frames.reverse.map Frame.masked)
      = Save.lowest s.stack.eval s.stack.frames.reverse := by
    cases s.stack.frames.reverse <;> rfl
  have hrecords : Save.stackRecords s.masked.stack = Save.stackRecords s.stack := by
    rw [Save.stackRecords_eq, Save.stackRecords_eq, hframes]
    show Save.FrameRecord.base (s.stack.eval.extract 0 (Save.lowest s.stack.eval _)).toList
      :: Save.frameRecords s.stack.eval _ = _
    rw [hlowest, frameRecords_map_masked]
  unfold write container Save.stackBytes
  rw [hrecords]
  rfl

/-- What is read from a file is read back from the file that it is saved to, with its arguments
counted to seven. -/
theorem ofContainer_container_masked {f : Container} {id : StoryId} {loaded : List UInt8}
    {s : Snapshot} (h : ofContainer f id loaded = .ok s) :
    ofContainer (container id s.masked loaded) id loaded = .ok s.masked := by
  obtain ⟨-, ⟨head, -, hpc⟩, hmemory, frames, -, hstack⟩ := ofContainer_eq_ok_iff.mp h
  exact ofContainer_container id s.masked loaded (lt_of_readHead hpc)
    (length_of_readMemory hmemory) (Save.storable_masked_of_readStacks hstack)

/-- **A save that was read is stable when it is saved again**, if its frames have no more than seven
arguments.  Whatever file is read, saving the snapshot and reading that file gives the snapshot
back, its place, its memory, its evaluation stack and all fields of its frames, but that frames with
eight arguments have seven. -/
theorem read_write_of_read {data : List UInt8} {id : StoryId} {loaded : List UInt8} {s : Snapshot}
    (h : read data id loaded = .ok s) (hsize : (write id s loaded).length < 4294967296) :
    read (write id s loaded) id loaded = .ok s.masked ∧
      (read (write id s loaded) id loaded = .ok s ↔ ∀ f ∈ s.stack.frames, f.argCount ≤ 7) := by
  have hagain : read (write id s loaded) id loaded = .ok s.masked := by
    rw [← write_masked] at hsize ⊢
    have hbody : (container id s.masked loaded).bodyBytes.length < 4294967296 :=
      Nat.lt_of_le_of_lt (Container.length_bodyBytes_le_toBytes _) hsize
    unfold read at h ⊢
    cases hparse : Container.parse data with
    | error e =>
        rw [hparse] at h
        cases h
    | ok f =>
        rw [hparse] at h
        rw [write, Container.parse_toBytes _ hbody]
        exact ofContainer_container_masked h
  refine ⟨hagain, ?_⟩
  rw [hagain, ← Snapshot.masked_eq_self_iff]
  exact ⟨Except.ok.inj, congrArg Except.ok⟩

/-- A save file of a foreign writer: with a chunk of its own, plain memory, a local below the first
frame, and a frame with unknown flags and the given mask of arguments. -/
def foreignSave (mask : UInt8) : List UInt8 :=
  Container.toBytes
    { type := formType
      chunks :=
        [{ id := #v[65, 78, 78, 79], data := [1] },
         { id := headTag, data := headBytes sampleId 0x4E21 },
         { id := plainTag, data := [7, 8] },
         { id := stacksTag
           data :=
            [0, 0, 9, 1, 0, 0, 0, 1, 0, 3, 0, 5] ++ [0, 18, 52, 0xE1, 16, mask, 0, 1, 0, 4, 0, 6] }] }

/-- The snapshot in that file, whose frame has the given number of arguments. -/
def foreignSnapshot (argCount : Nat) : Snapshot where
  pc := 0x4E21
  dynamic := [7, 8]
  stack :=
    { frames :=
        [{ returnPc := 0x1234, locals := Vector.ofFn fun i => if i.val = 0 then 4 else 0,
           localCount := 1, argCount, result := some 16, evalFloor := 1 }]
      eval := #[5, 6] }

/-- With a gap in the mask the file has two arguments, and it is stable. -/
theorem read_write_of_read_foreign :
    read (foreignSave 0xFB) sampleId [1, 2] = .ok (foreignSnapshot 2) ∧
      read (write sampleId (foreignSnapshot 2) [1, 2]) sampleId [1, 2]
        = .ok (foreignSnapshot 2) := by
  have hread : read (foreignSave 0xFB) sampleId [1, 2] = .ok (foreignSnapshot 2) := by
    decide +kernel
  exact ⟨hread, (read_write_of_read hread (by decide +kernel)).2.mpr (by decide)⟩

/-- With a full mask it has eight arguments, and seven once it is saved again. -/
theorem read_write_eightArguments :
    read (foreignSave 0xFF) sampleId [1, 2] = .ok (foreignSnapshot 8) ∧
      read (write sampleId (foreignSnapshot 8) [1, 2]) sampleId [1, 2]
        ≠ .ok (foreignSnapshot 8) := by
  decide +kernel

end Quetzal
end ZMachine
