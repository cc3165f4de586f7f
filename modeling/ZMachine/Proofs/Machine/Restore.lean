/-
# Going back to a snapshot

A snapshot that is taken at one moment of a story can be restored at any later one, out of the undo
history or out of a save file.  Either way the machine goes on after the saving instruction with the
saved stack and the saved dynamic memory; what belongs to the session stays.

* `HistoryAccount.accounted_afterAll` : which snapshots an undo history holds;
* `Plays` : a machine plays the story of an image, as all do that a host can bring about from it
  (`Reachable.plays`);
* `Recovers` : the memory after a restore, byte by byte;
* `restoreSnapshot_snapshot` : what a restore does, and that both ways agree.
-/
import ZMachine.Proofs.Instruction.BlockCache
import ZMachine.Proofs.Machine.Lasting
import ZMachine.Proofs.Memory
import ZMachine.Proofs.Save.RoundTrip

namespace ZMachine

open Memory (SameImage)

/-! ## The undo history -/

/-- What a story does to its undo history. -/
inductive HistoryEdit where
  | push (s : Snapshot)
  | pop
  deriving DecidableEq

/-- An undo history and an account of it. -/
structure HistoryAccount where
  history : History
  /-- The snapshots that were pushed and not popped since, the newest first. -/
  unpopped : List Snapshot := []
  /-- The most of them that there were at one time. -/
  peak : Nat := 0
  deriving DecidableEq

namespace HistoryAccount

/-- The account after an edit; a pop of an empty history does nothing. -/
def after (a : HistoryAccount) : HistoryEdit → HistoryAccount
  | .push s =>
      { history := (a.history.push s).2
        unpopped := s :: a.unpopped
        peak := max a.peak (a.unpopped.length + 1) }
  | .pop =>
      match a.history.pop? with
      | some (_, history) => { a with history, unpopped := a.unpopped.tail }
      | none => a

/-- The account after any number of edits. -/
def afterAll (a : HistoryAccount) (edits : List HistoryEdit) : HistoryAccount :=
  edits.foldl after a

/-- The history holds the snapshots that are not popped, without the oldest ones: as many have been
dropped as there ever were too many. -/
structure Accounted (limit : Nat) (a : HistoryAccount) : Prop where
  limit_eq : a.history.limit = limit
  entries_eq : a.history.entries = a.unpopped.take (a.unpopped.length - (a.peak - limit))
  length_le : a.unpopped.length ≤ a.peak
  dropped_le : a.peak - limit ≤ a.unpopped.length

variable {limit : Nat} {a : HistoryAccount}

theorem Accounted.push (h : a.Accounted limit) (s : Snapshot) :
    (a.after (.push s)).Accounted limit := by
  obtain ⟨hlimit, hentries, hlength, hdropped⟩ := h
  unfold after History.push
  by_cases hzero : limit = 0
  · -- nothing is ever kept
    have hnone : a.history.entries = [] := by
      simp [hentries, show a.peak - limit = a.unpopped.length by omega]
    refine ⟨?_, ?_, Nat.le_max_right _ _, ?_⟩
    · simp [hlimit, hzero]
    · have hall : a.unpopped.length + 1 - max a.peak (a.unpopped.length + 1) = 0 := by omega
      simp [hlimit, hzero, hnone, hall]
    · simp only [List.length_cons]
      omega
  · have hkept : min limit (a.unpopped.length - (a.peak - limit) + 1)
        = a.unpopped.length + 1 - (max a.peak (a.unpopped.length + 1) - limit) := by omega
    refine ⟨?_, ?_, ?_, ?_⟩
    · simp [hlimit, hzero]
    · simp only [hlimit, hzero, ↓reduceIte, hentries, List.length_cons, ← hkept]
      rw [← List.take_succ_cons, List.take_take]
    · exact Nat.le_max_right _ _
    · simp only [List.length_cons]
      omega

theorem Accounted.pop (h : a.Accounted limit) : (a.after .pop).Accounted limit := by
  obtain ⟨hlimit, hentries, hlength, hdropped⟩ := h
  unfold after History.pop?
  cases hkept : a.history.entries with
  | nil => exact ⟨hlimit, hentries, hlength, hdropped⟩
  | cons s older =>
      -- the newest snapshot of the history is the newest that is not popped
      rw [hkept] at hentries
      obtain ⟨count, hcount⟩ : ∃ count, a.unpopped.length - (a.peak - limit) = count + 1 := by
        refine Nat.exists_eq_succ_of_ne_zero fun hzero => ?_
        rw [hzero] at hentries
        cases hentries
      cases hunpopped : a.unpopped with
      | nil => simp [hunpopped] at hcount
      | cons newest rest =>
          rw [hunpopped, ← hunpopped, hcount, hunpopped, List.take_succ_cons] at hentries
          simp only [hunpopped, List.length_cons] at hcount hlength
          refine ⟨hlimit, ?_, ?_, ?_⟩
          · simp only [List.tail_cons, (List.cons.inj hentries).2]
            congr 1
            omega
          · simp only [List.tail_cons]
            omega
          · simp only [List.tail_cons]
            omega

theorem Accounted.afterAll (h : a.Accounted limit) (edits : List HistoryEdit) :
    (a.afterAll edits).Accounted limit := by
  induction edits generalizing a with
  | nil => exact h
  | cons edit edits ih =>
      cases edit with
      | push s => exact ih (h.push s)
      | pop => exact ih h.pop

/-- **Which snapshots a history holds** after any number of pushes and pops. -/
theorem accounted_afterAll (limit : Nat) (edits : List HistoryEdit) :
    (afterAll { history := { limit } } edits).Accounted limit := by
  have hstart : Accounted limit { history := { limit } } := ⟨rfl, by simp, by simp, by simp⟩
  exact hstart.afterAll edits

end HistoryAccount

/-! ## Machines that play one story -/

namespace Machine

/-- A machine plays the story of an image under the options of its host. -/
structure Plays (image : Array UInt8) (config : Config) (m : Machine) : Prop where
  config : m.config = config
  header : Header.parse (Memory.ofImage image) = .ok m.header
  image : SameImage (Memory.ofImage image) m.memory

theorem ofEquipment_plays (image : Array UInt8) (config : Config) :
    OfEquipment (Plays image config) where
  work {m m'} hequipment himage hm := by
    have hconfig : m'.config = m.config := congrArg Equipment.config hequipment
    have hheader : m'.header = m.header := congrArg Equipment.header hequipment
    exact ⟨hconfig.trans hm.config, hheader ▸ hm.header, hm.image.trans himage⟩
  decode _ hm := ⟨hm.config, hm.header, hm.image⟩
  fetchBlock {m} hm := by
    obtain ⟨blocks, codec, hfetch⟩ := fetchBlock_run_snd m
    rw [hfetch]
    exact ⟨hm.config, hm.header, hm.image⟩
  restart hm := ⟨hm.config, hm.header, (lasting_sameImage _).restart hm.image⟩

/-- A machine never plays another story. -/
theorem lasting_plays (image : Array UInt8) (config : Config) : Lasting (Plays image config) :=
  (ofEquipment_plays image config).lasting

theorem plays_load {image : Array UInt8} {config : Config} {m : Machine}
    (h : load image config = .ok m) : Plays image config m := by
  obtain ⟨header, random, hparse, rfl⟩ := load_eq_ok h
  exact ⟨rfl, hparse, sameImage_setUpHeader config header.version (Memory.ofImage image)⟩

/-- **The machines that a host can bring about from an image play its story.** -/
theorem Reachable.plays {image : Array UInt8} {config : Config} {m : Machine}
    (h : Reachable image config m) : Plays image config m :=
  (lasting_plays image config).reachable (fun _ hload => plays_load hload) h

/-- Static memory starts after the header and inside the image. -/
theorem Plays.header_le {image : Array UInt8} {config : Config} {m : Machine}
    (h : Plays image config m) :
    Header.length ≤ m.memory.staticStart ∧ Header.length ≤ m.memory.size := by
  obtain ⟨hsize, hstatic, -⟩ := Header.parse_eq_ok h.header
  rw [h.image.staticStart, h.image.size, Memory.staticStart_ofImage h.header]
  exact ⟨hstatic, hsize⟩

end Machine

/-! ## Memory after a restore -/

/-- Dynamic memory that was saved from one state of a story replaces the one of another. -/
theorem Memory.byteAt_restoreDynamic {m n : Memory} (h : SameImage n m) (a : Nat) :
    (m.restoreDynamic n.dynamic).byteAt a
      = if a < n.staticStart then n.byteAt a else m.byteAt a := by
  have hsize : m.bytes.size = n.bytes.size := h.size
  have hsaved : ∀ d, a < n.staticStart → a < n.bytes.size →
      n.dynamic.toArray.getD a d = n.byteAt a := by
    intro d hstatic ha
    have hlast : a < min n.staticStart n.bytes.size := Nat.lt_min.mpr ⟨hstatic, ha⟩
    simp [dynamic, byteAt, Array.getD, hlast, ha]
  simp only [byteAt, restoreDynamic, Array.getD_eq_getD_getElem?, Array.getElem?_mapIdx,
    h.staticStart]
  by_cases ha : a < n.bytes.size
  · by_cases hstatic : a < n.staticStart
    · have hbyte := hsaved (m.loaded.getD a 0) hstatic ha
      simpa [hstatic, ha, hsize, byteAt, Array.getD_eq_getD_getElem?] using hbyte
    · simp [hstatic, ha, hsize]
  · simp [ha, hsize]

namespace Machine

/-- The header bytes in which a story of a version is told of the machine's abilities. -/
def setUpBytes (version : UInt8) : List Nat :=
  [Field.flags1, Field.interpreterNumber, Field.interpreterVersion, Field.standardRevision,
    Field.standardRevision + 1]
  ++ (if 4 ≤ version then [Field.screenHeight, Field.screenWidth] else [])
  ++ (if 5 ≤ version then [Field.screenWidthUnits, Field.screenWidthUnits + 1,
      Field.screenHeightUnits, Field.screenHeightUnits + 1, Field.fontWidth, Field.fontHeight]
    else [])

/-- They lie in the header, and the printing bits are not among them. -/
theorem setUpBytes_lt {version : UInt8} {a : Nat} (h : a ∈ setUpBytes version) :
    a < Header.length ∧ a ≠ Field.flags2Low := by
  have hall : ∀ b ∈ setUpBytes version, b < Header.length ∧ b ≠ Field.flags2Low := by
    unfold setUpBytes
    split_ifs <;> decide
  exact hall a h

/-- No other byte is touched when the header is set up. -/
theorem byteAt_setUpHeader {version : UInt8} {a : Nat} (h : a ∉ setUpBytes version)
    (config : Config) (m : Memory) : (setUpHeader config version m).byteAt a = m.byteAt a := by
  unfold setUpBytes at h
  simp only [List.mem_append, not_or] at h
  obtain ⟨⟨hall, hfour⟩, hfive⟩ := h
  simp only [List.mem_cons, List.not_mem_nil, or_false, not_or] at hall
  unfold setUpHeader
  split_ifs at hfour hfive ⊢ <;> simp_all [Memory.setWord, Memory.byteAt_setByte_of_ne]

/-- The bytes of the global that a variable code names, if it names one. -/
def globalBytes (h : Header) (code : UInt8) : List Nat :=
  if code ≤ 15 then []
  else [h.globalAddress (code - 16), h.globalAddress (code - 16) + 1]

/-- Memory with a value in the global that a variable code names, if it names one. -/
def withGlobal (h : Header) (code : UInt8) (value : UInt16) (m : Memory) : Memory :=
  if code ≤ 15 then m else m.setWord (h.globalAddress (code - 16)) value

theorem byteAt_withGlobal {h : Header} {code : UInt8} {a : Nat} (ha : a ∉ globalBytes h code)
    (value : UInt16) (m : Memory) : (withGlobal h code value m).byteAt a = m.byteAt a := by
  unfold withGlobal
  unfold globalBytes at ha
  split_ifs at ha ⊢ with hcode
  · rfl
  · simp only [List.mem_cons, List.not_mem_nil, or_false, not_or] at ha
    exact m.byteAt_setWord_of_ne _ value a ha.1 ha.2

/-- A value goes to the stack or to a global. -/
theorem writeVariable_run (m : Machine) (code : UInt8) (value : UInt16) :
    (writeVariable code value).run m
      = (.ok (), { m with
          stack := m.stack.receive (some code) value
          memory := withGlobal m.header code value m.memory }) := by
  unfold writeVariable CallStack.receive withGlobal
  by_cases hzero : code = 0
  · subst hzero
    rfl
  · dsimp only
    rw [if_neg hzero, if_neg hzero]
    show (Except.ok (), m.withNamedVariable code value) = _
    unfold withNamedVariable
    split <;> rfl

/-- From version 4 on a restore delivers its result to the variable that the byte at the saved
place names in the restored memory. -/
theorem restoreSnapshot_run {m : Machine} (hversion : 4 ≤ m.version) (s : Snapshot) :
    (restoreSnapshot s).run m
      = (.ok .jump,
          let memory := (m.withSnapshot s).memory
          { m with
            memory := withGlobal m.header (memory.byteAt s.pc) restoredCode memory
            stack := s.stack.receive (some (memory.byteAt s.pc)) restoredCode
            pc := s.pc + 1
            parked := none }) := by
  have hdeliver : ∀ n : Machine,
      (do
        setPc (s.pc + 1)
        writeVariable (n.memory.byteAt s.pc) restoredCode
        return Flow.jump : Exec Flow).run n
      = (.ok .jump, { n with
          memory := withGlobal n.header (n.memory.byteAt s.pc) restoredCode n.memory
          stack := n.stack.receive (some (n.memory.byteAt s.pc)) restoredCode
          pc := s.pc + 1 }) := by
    intro n
    unfold setPc
    rw [run_modify_bind, run_bind, writeVariable_run]
    rfl
  have hrestored : 4 ≤ (m.withSnapshot s).version := by
    simpa only [version, withSnapshot] using hversion
  unfold restoreSnapshot
  rw [run_modify_bind, run_bind, run_get]
  dsimp only
  rw [if_pos hrestored, hdeliver]
  simp only [withSnapshot]

/-- What is in memory after `e'` has gone back to a snapshot of `e` whose result byte is at `pc` and
whose result went to the variable `code`. -/
structure Recovers (e e' : Machine) (pc : Nat) (code : UInt8) (memory : Memory) : Prop where
  image : SameImage e'.memory memory
  /-- Dynamic memory is the saved one, but for the header's set-up and the delivered result. -/
  saved : ∀ a < e.memory.staticStart, a ∉ setUpBytes e.version → a ≠ Field.flags2Low →
    a ∉ globalBytes e.header code → memory.byteAt a = e.memory.byteAt a
  /-- The printing bits belong to the session. -/
  printing : Field.flags2Low ∉ globalBytes e.header code →
    memory.byteAt Field.flags2Low
      = (e.memory.byteAt Field.flags2Low &&& ~~~0x03) ||| e'.headerPrintingBits
  /-- Static memory is not touched. -/
  static : ∀ a, e.memory.staticStart ≤ a → a ∉ globalBytes e.header code →
    memory.byteAt a = e'.memory.byteAt a
  global : 15 < code → e.header.globalAddress (code - 16) + 1 < e.memory.size →
    memory.wordAt (e.header.globalAddress (code - 16)) = restoredCode
  /-- The variable is read from the saved memory, or from static memory as it is now. -/
  code_saved : pc < e.memory.staticStart → pc ∉ setUpBytes e.version → pc ≠ Field.flags2Low →
    code = e.memory.byteAt pc
  code_static : e.memory.staticStart ≤ pc → code = e'.memory.byteAt pc

section
variable {image : Array UInt8} {config : Config} {e e' : Machine}

theorem Plays.header_eq (he : Plays image config e) (he' : Plays image config e') :
    e'.header = e.header :=
  Except.ok.inj (he'.header.symm.trans he.header)

theorem Plays.sameImage (he : Plays image config e) (he' : Plays image config e') :
    SameImage e.memory e'.memory :=
  ⟨he'.image.loaded.trans he.image.loaded.symm,
    he'.image.staticStart.trans he.image.staticStart.symm⟩

/-- The memory before the result is delivered. -/
theorem byteAt_withSnapshot (he : Plays image config e) (he' : Plays image config e') (pc : Nat)
    {a : Nat} (hsetUp : a ∉ setUpBytes e.version) (hflags : a ≠ Field.flags2Low) :
    (e'.withSnapshot (e.snapshot pc)).memory.byteAt a
      = if a < e.memory.staticStart then e.memory.byteAt a else e'.memory.byteAt a := by
  have hversion : e'.version = e.version := congrArg Header.version (he.header_eq he')
  show (withPrintingBits _ (setUpHeader e'.config e'.version _)).byteAt a = _
  rw [withPrintingBits, Memory.byteAt_setByte_of_ne _ _ _ _ hflags, hversion,
    byteAt_setUpHeader hsetUp]
  exact Memory.byteAt_restoreDynamic (he.sameImage he') a

/-- **What a restore leaves in memory.** -/
theorem recovers_withSnapshot (he : Plays image config e) (he' : Plays image config e')
    (pc : Nat) :
    let memory := (e'.withSnapshot (e.snapshot pc)).memory
    Recovers e e' pc (memory.byteAt pc)
      (withGlobal e'.header (memory.byteAt pc) restoredCode memory) := by
  intro memory
  obtain ⟨hheader, hsize⟩ := he.header_le
  have hflags : Field.flags2Low < Header.length := by decide
  have himage : SameImage e'.memory memory :=
    ((Memory.sameImage_restoreDynamic _ _).trans (sameImage_setUpHeader _ _ _)).trans
      (sameImage_withPrintingBits _ _)
  have hmemory : memory.size = e.memory.size := himage.size.trans (he.sameImage he').size
  -- bytes of static memory are neither set up nor printing bits
  have hstatic : ∀ a, e.memory.staticStart ≤ a → memory.byteAt a = e'.memory.byteAt a := by
    intro a ha
    rw [byteAt_withSnapshot he he' pc (fun hmem => ?_) (by omega), if_neg (by omega)]
    have := (setUpBytes_lt hmem).1
    omega
  have hdynamic : ∀ a < e.memory.staticStart, a ∉ setUpBytes e.version → a ≠ Field.flags2Low →
      memory.byteAt a = e.memory.byteAt a := by
    intro a ha hsetUp hne
    rw [byteAt_withSnapshot he he' pc hsetUp hne, if_pos ha]
  rw [he.header_eq he']
  refine ⟨?_, ?_, ?_, ?_, ?_, hdynamic pc, hstatic pc⟩
  · refine himage.trans ?_
    unfold withGlobal
    split
    · exact SameImage.refl memory
    · exact Memory.sameImage_setWord _ _ _
  · intro a ha hsetUp hne hglobal
    rw [byteAt_withGlobal hglobal]
    exact hdynamic a ha hsetUp hne
  · intro hglobal
    have hrestored : SameImage e.memory (setUpHeader e'.config e'.version
        (e'.memory.restoreDynamic e.memory.dynamic)) :=
      (he.sameImage he').trans
        ((Memory.sameImage_restoreDynamic _ _).trans (sameImage_setUpHeader _ _ _))
    have hsaved : (setUpHeader e'.config e'.version
        (e'.memory.restoreDynamic e.memory.dynamic)).byteAt Field.flags2Low
          = e.memory.byteAt Field.flags2Low := by
      rw [byteAt_setUpHeader fun hmem => (setUpBytes_lt hmem).2 rfl,
        Memory.byteAt_restoreDynamic (he.sameImage he'), if_pos (by omega)]
    rw [byteAt_withGlobal hglobal, ← hsaved]
    apply Memory.byteAt_setByte_self
    show Field.flags2Low < (setUpHeader e'.config e'.version
      (e'.memory.restoreDynamic e.memory.dynamic)).size
    rw [hrestored.size]
    omega
  · intro a ha hglobal
    rw [byteAt_withGlobal hglobal]
    exact hstatic a ha
  · intro hcode hinside
    rw [withGlobal, if_neg (UInt8.not_le.mpr hcode)]
    apply Memory.wordAt_setWord_self
    rw [hmemory]
    exact hinside

/-! ## Both ways back -/

/-- A save file of one state of a story is read back in any other. -/
theorem readSave_saveFile (he : Plays image config e) (he' : Plays image config e') {pc : Nat}
    (hstack : e.stack.Storable) (hpc : pc < 16777216)
    (hsize : (e.saveFile pc).length < 4294967296) :
    e'.readSave (e.saveFile pc) = .ok (e.snapshot pc) := by
  have himage := he.sameImage he'
  have hloaded : e'.loadedDynamic = e.loadedDynamic := by
    rw [loadedDynamic, loadedDynamic, himage.loaded, himage.staticStart]
  have hdynamic : (e.snapshot pc).dynamic.length = e.loadedDynamic.length := by
    simp only [snapshot, Memory.dynamic, loadedDynamic, List.length_take, Array.length_toList,
      e.memory.size_eq]
  have hbody : (Quetzal.container e.header.storyId (e.snapshot pc)
      e.loadedDynamic).bodyBytes.length < 4294967296 :=
    Nat.lt_of_le_of_lt (Container.length_bodyBytes_le_toBytes _) hsize
  rw [readSave, he.header_eq he', hloaded, saveFile, Quetzal.read, Quetzal.write,
    Container.parse_toBytes _ hbody]
  exact Quetzal.ofContainer_container _ _ _ hpc hdynamic hstack

theorem saveUndo_run (m : Machine) (pc : Nat) :
    (saveUndo pc).run m
      = (.ok (if m.undo.limit = 0 then 0xFFFF else 1),
          { m with undo := (m.undo.push (m.snapshot pc)).2 }) := by
  unfold saveUndo History.push
  rw [run_bind, run_get]
  dsimp only
  split <;> rfl

/-- The newest snapshot of the history is taken out of it before it is restored. -/
theorem restoreUndo_run {m : Machine} {s : Snapshot} {older : History}
    (h : m.undo.pop? = some (s, older)) (store : Option UInt8) :
    (restoreUndo store).run m = (restoreSnapshot s).run { m with undo := older } := by
  unfold restoreUndo
  rw [run_bind, run_get]
  dsimp only
  rw [h]
  dsimp only
  rw [run_set_bind]

theorem resumeRestore_run {m : Machine} {data : List UInt8} {s : Snapshot}
    (hreply : m.reply? 0 = some (.bytes data)) (hread : m.readSave data = .ok s)
    (delivery : Delivery) : (resumeRestore delivery).run m = (restoreSnapshot s).run m := by
  unfold resumeRestore
  rw [run_bind, run_get]
  dsimp only
  rw [hreply]
  dsimp only
  rw [hread]

/-- **Undo and file restore reproduce the saved machine and agree with each other.**  Take two
states `e` and `e'` of one story of version 4 or later.  If `e'` goes back to the snapshot of `e`
with its result byte at `pc`, it goes on at `pc + 1` with the saved stack, to which the result has
been delivered, with memory as `Recovers` says and without a parked input, and nothing else of it
changes.  The undo history and a save file both lead there: the history without the snapshot, and
the file if the numbers in it fit their fields.  After any pushes and pops the history holds the
snapshots that are not popped, but for the oldest ones: as many as there ever were too many. -/
theorem restoreSnapshot_snapshot (he : Plays image config e) (he' : Plays image config e')
    (hversion : 4 ≤ e.version) (pc : Nat) :
    ∃ code memory, Recovers e e' pc code memory ∧
      let restored : Machine :=
        { e' with
          memory
          stack := e.stack.receive (some code) restoredCode
          pc := pc + 1
          parked := none }
      (restoreSnapshot (e.snapshot pc)).run e' = (.ok .jump, restored) ∧
      (saveUndo pc).run e
        = (.ok (if e.undo.limit = 0 then 0xFFFF else 1),
            { e with undo := (e.undo.push (e.snapshot pc)).2 }) ∧
      (∀ store older, e'.undo.pop? = some (e.snapshot pc, older) →
        (restoreUndo store).run e' = (.ok .jump, { restored with undo := older })) ∧
      (e.stack.Storable → pc < 16777216 → (e.saveFile pc).length < 4294967296 →
        ∀ delivery, e'.reply? 0 = some (.bytes (e.saveFile pc)) →
          (resumeRestore delivery).run e' = (.ok .jump, restored)) ∧
      ∀ edits : List HistoryEdit,
        let a := HistoryAccount.afterAll { history := { limit := config.undoDepth } } edits
        a.history.entries
          = a.unpopped.take (a.unpopped.length - (a.peak - config.undoDepth)) := by
  have hversion' : 4 ≤ e'.version := by
    rw [version, he.header_eq he']
    exact hversion
  have hrun := restoreSnapshot_run hversion' (e.snapshot pc)
  have hrecovers := recovers_withSnapshot he he' pc
  obtain ⟨memory, hmemory⟩ : ∃ memory, (e'.withSnapshot (e.snapshot pc)).memory = memory :=
    ⟨_, rfl⟩
  rw [hmemory] at hrun hrecovers
  refine ⟨_, _, hrecovers, hrun, saveUndo_run e pc, ?_, ?_, ?_⟩
  · intro store older hpop
    have hrestore := restoreSnapshot_run (m := { e' with undo := older }) hversion' (e.snapshot pc)
    -- the history has no part in the memory that is restored
    have hsame : (withSnapshot { e' with undo := older } (e.snapshot pc)).memory = memory := by
      rw [← hmemory]
      simp only [withSnapshot, version, headerPrintingBits]
    rw [hsame] at hrestore
    exact (restoreUndo_run hpop store).trans hrestore
  · intro hstack hpc hsize delivery hreply
    rw [resumeRestore_run hreply (readSave_saveFile he he' hstack hpc hsize)]
    exact hrun
  · intro edits
    exact (HistoryAccount.accounted_afterAll config.undoDepth edits).entries_eq

end

/-- A story that saves to its undo history with the result for one global, rewrites that variable in
its own code, which is in static memory, and goes back. -/
def rewritingImage : Array UInt8 :=
  (5 :: List.replicate 6 (0 : UInt8) ++ 0x48 :: List.replicate 5 (0 : UInt8) ++
    0x40 :: 0 :: 0x48 :: List.replicate 56 (0 : UInt8) ++
    [0xBE, 0x09, 0xFF, 0x10, 0xE2, 0x57, 0x4B, 0, 0x11, 0xBE, 0x0A, 0xFF, 0x13, 0xBA]).toArray

/-- The machine of that story. -/
def rewritingMachine : Machine :=
  (load rewritingImage { random := .lowest }).toOption.get (by decide +kernel)

theorem load_rewritingImage : load rewritingImage { random := .lowest } = .ok rewritingMachine :=
  eq_ok_of_toOption (Option.some_get _).symm

/-- A machine some time after it has saved: it has written to memory, it has the snapshot in its
history, and its host has replied with the save file. -/
def later (m : Machine) (pc : Nat) : Machine :=
  { m with
    memory := m.memory.setByte 0x43 7
    undo := (m.undo.push (m.snapshot pc)).2
    replies := [.bytes (m.saveFile pc)] }

theorem Plays.later {image : Array UInt8} {config : Config} {m : Machine}
    (h : Plays image config m) (pc : Nat) : Plays image config (m.later pc) :=
  ⟨h.config, h.header, h.image.trans (Memory.sameImage_setByte m.memory 0x43 7)⟩

/-- Both ways lead the machine back. -/
theorem restoreSnapshot_snapshot_later :
    let e := rewritingMachine
    let e' := e.later 0x4B
    Plays rewritingImage { random := .lowest } e ∧
      Plays rewritingImage { random := .lowest } e' ∧ 4 ≤ e.version ∧
      ∃ code memory, Recovers e e' 0x4B code memory ∧
        let restored : Machine :=
          { e' with
            memory
            stack := e.stack.receive (some code) restoredCode
            pc := 0x4C
            parked := none }
        (restoreUndo none).run e' = (.ok .jump, { restored with undo := e.undo }) ∧
        (resumeRestore (.store 0)).run e' = (.ok .jump, restored) := by
  intro e e'
  have he : Plays rewritingImage { random := .lowest } e := plays_load load_rewritingImage
  have hversion : 4 ≤ e.version := by decide +kernel
  have hstack : e.stack.Storable := by decide +kernel
  have hsize : (e.saveFile 0x4B).length < 4294967296 := by decide +kernel
  have hpop : e'.undo.pop? = some (e.snapshot 0x4B, e.undo) := by
    have hundo : e.undo = { limit := 10 } := by decide +kernel
    show (e.undo.push (e.snapshot 0x4B)).2.pop? = _
    rw [hundo]
    rfl
  obtain ⟨code, memory, hrecovers, -, -, hundo, hfile, -⟩ :=
    restoreSnapshot_snapshot he (he.later 0x4B) hversion 0x4B
  exact ⟨he, he.later 0x4B, hversion, code, memory, hrecovers, hundo none e.undo hpop,
    hfile hstack (by decide) hsize (.store 0) rfl⟩

/-- The instruction with which the story rewrites its code. -/
def rewriting : Instruction :=
  (Instruction.read rewritingMachine.codec rewritingMachine.memory 0x4C).toOption.get
    (by decide +kernel)

/-- **The variable is not always the one that the saving instruction names, and dropped snapshots do
not come back.**  The story saves with the result for the first global; after it has rewritten its
code, a restore delivers to the second.  A history of one snapshot that has been pushed to twice is
empty after a pop, although one of the snapshots was never popped. -/
theorem restoreSnapshot_rewritten :
    let e := rewritingMachine
    let e' := ((execute rewriting).run e).2
    let restored := ((restoreSnapshot (e.snapshot 0x4B)).run e').2
    let older : Snapshot := ⟨1, [1], .empty⟩
    let newer : Snapshot := ⟨2, [2], .empty⟩
    let a := HistoryAccount.afterAll { history := { limit := 1 } } [.push older, .push newer, .pop]
    (Instruction.read e.codec e.memory 0x48).map (fun ins => (ins.operandsEnd, ins.store))
        = .ok (0x4B, some 0x10) ∧
      restored.namedVariable 0x10 = 0 ∧ restored.namedVariable 0x11 = restoredCode ∧
      a.unpopped.take 1 = [older] ∧ a.history.entries = [] := by
  refine ⟨?_, ?_, ?_, ?_, ?_⟩ <;> decide +kernel

end Machine
end ZMachine
