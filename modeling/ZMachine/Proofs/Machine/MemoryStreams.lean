/-
# Nested memory streams

While a memory stream is open it takes all text.  Streams nest, so text for an outer stream arrives
before and after an inner one is open.

* `StreamAccount` : the text that each stream should have taken, kept apart from the machine;
* `Separate` : tables that lie inside the image and do not overlap;
* `Recorded`, `Captured` : memory and machine hold what an account says;
* `Captured.act` : one opening, text or closing keeps the machine in step with the account;
* `actAll_captured` : so does every properly nested sequence of them.
-/
import Mathlib.Data.List.Pairwise
import ZMachine.Proofs.Image
import ZMachine.Proofs.Machine.Exec
import ZMachine.Proofs.Memory

namespace ZMachine

/-- One thing that a story does with its memory streams. -/
inductive StreamStep where
  | opens (table : Nat)
  | sends (text : String)
  | closes
  deriving DecidableEq, Repr

/-- How many streams are open after a sequence of steps, if there are never more than sixteen and
none is closed that is not open. -/
def StreamStep.depthAfter (depth : Nat) : List StreamStep → Option Nat
  | [] => some depth
  | .opens _ :: rest => if depth < 16 then depthAfter (depth + 1) rest else none
  | .sends _ :: rest => depthAfter depth rest
  | .closes :: rest => if 0 < depth then depthAfter (depth - 1) rest else none

/-! ## What streams take -/

/-- The table of a stream and the text that was sent while the stream was the innermost one. -/
structure Capture where
  table : Nat
  text : List Char := []
  deriving DecidableEq, Repr

namespace Capture

/-- The address after count and text. -/
def tableEnd (c : Capture) : Nat :=
  c.table + 2 + c.text.length

/-- Count and text of one table do not meet those of the other. -/
def Apart (c d : Capture) : Prop :=
  c.tableEnd ≤ d.table ∨ d.tableEnd ≤ c.table

instance (c d : Capture) : Decidable (c.Apart d) :=
  inferInstanceAs (Decidable (_ ∨ _))

theorem Apart.symm {c d : Capture} (h : c.Apart d) : d.Apart c :=
  Or.symm h

/-- Tables that do not overlap, lie inside an image of the given size and have counts that fit
a word. -/
structure Separate (size : Nat) (captures : List Capture) : Prop where
  apart : captures.Pairwise Apart
  inside : ∀ c ∈ captures, c.tableEnd ≤ size
  counted : ∀ c ∈ captures, c.text.length < 65536

variable {size : Nat} {c : Capture} {captures captures' : List Capture}

theorem Separate.tail (h : Separate size (c :: captures)) : Separate size captures :=
  ⟨(List.pairwise_cons.mp h.apart).2, fun d hd => h.inside d (List.mem_cons_of_mem c hd),
    fun d hd => h.counted d (List.mem_cons_of_mem c hd)⟩

theorem Separate.perm (h : Separate size captures) (hperm : captures.Perm captures') :
    Separate size captures' :=
  ⟨(hperm.pairwise_iff Apart.symm).mp h.apart, fun d hd => h.inside d (hperm.mem_iff.mpr hd),
    fun d hd => h.counted d (hperm.mem_iff.mpr hd)⟩

/-- A table that had taken less text was apart as well. -/
theorem Separate.shrink {more : List Char}
    (h : Separate size ({ c with text := c.text ++ more } :: captures)) :
    Separate size (c :: captures) := by
  have hlonger : c.tableEnd ≤ tableEnd { c with text := c.text ++ more } := by
    simp only [tableEnd, List.length_append]
    omega
  obtain ⟨hapart, hrest⟩ := List.pairwise_cons.mp h.apart
  obtain ⟨hend, hinside⟩ := List.forall_mem_cons.mp h.inside
  obtain ⟨hcount, hcounted⟩ := List.forall_mem_cons.mp h.counted
  refine ⟨List.pairwise_cons.mpr ⟨fun d hd => ?_, hrest⟩,
    List.forall_mem_cons.mpr ⟨by omega, hinside⟩, List.forall_mem_cons.mpr ⟨?_, hcounted⟩⟩
  · rcases hapart d hd with hbefore | hbehind
    · exact Or.inl (by omega)
    · exact Or.inr hbehind
  · simp only [List.length_append] at hcount
    omega

end Capture

/-- The streams that are open, the innermost first, those that have been closed, the latest first,
and the text that was sent while none was open. -/
structure StreamAccount where
  opened : List Capture := []
  closed : List Capture := []
  aloud : String := ""
  deriving DecidableEq, Repr

namespace StreamAccount

/-- The account after a step. -/
def after (a : StreamAccount) : StreamStep → StreamAccount
  | .opens table => { a with opened := { table } :: a.opened }
  | .sends text =>
      match a.opened with
      | [] => { a with aloud := a.aloud ++ text }
      | c :: outer => { a with opened := { c with text := c.text ++ text.toList } :: outer }
  | .closes =>
      match a.opened with
      | [] => a
      | c :: outer => { a with opened := outer, closed := c :: a.closed }

/-- The account after any number of steps. -/
def afterAll (a : StreamAccount) (steps : List StreamStep) : StreamAccount :=
  steps.foldl after a

/-- All streams of an account. -/
def captures (a : StreamAccount) : List Capture :=
  a.opened ++ a.closed

variable {size : Nat} {a : StreamAccount}

/-- Tables only grow, so they were separate before a step if they are after it. -/
theorem separate_of_after {step : StreamStep} (h : Capture.Separate size (a.after step).captures) :
    Capture.Separate size a.captures := by
  obtain ⟨opened, closed, aloud⟩ := a
  cases step with
  | opens table => exact h.tail
  | sends text =>
      cases opened with
      | nil => exact h
      | cons c outer => exact h.shrink
  | closes =>
      cases opened with
      | nil => exact h
      | cons c outer => exact h.perm List.perm_middle

theorem separate_of_afterAll {steps : List StreamStep}
    (h : Capture.Separate size (a.afterAll steps).captures) :
    Capture.Separate size a.captures := by
  induction steps generalizing a with
  | nil => exact h
  | cons step steps ih => exact separate_of_after (ih h)

end StreamAccount

/-! ## Memory in step with an account -/

section Recorded

open Memory (SameImage)

/-- Memory that was `before` when no stream was open holds what an account says.  The tables of open
streams have their text but not yet a count, those of closed ones have both, and nothing else has
changed. -/
structure Recorded (code : Char → UInt8) (before : Memory) (a : StreamAccount)
    (memory : Memory) : Prop where
  image : SameImage before memory
  opened : ∀ c ∈ a.opened, memory.slice (c.table + 2) c.text.length = c.text.map code
  closed : ∀ c ∈ a.closed, (memory.wordAt c.table).toNat = c.text.length ∧
    memory.slice (c.table + 2) c.text.length = c.text.map code
  elsewhere : ∀ b, (∀ c ∈ a.opened, b < c.table + 2 ∨ c.tableEnd ≤ b) →
    (∀ c ∈ a.closed, b < c.table ∨ c.tableEnd ≤ b) → memory.byteAt b = before.byteAt b

/-- Memory changes at most within a table. -/
def ChangesWithin (c : Capture) (m m' : Memory) : Prop :=
  ∀ b, b < c.table ∨ c.tableEnd ≤ b → m'.byteAt b = m.byteAt b

variable {c : Capture} {outer : List Capture} {code : Char → UInt8} {before memory : Memory}
  {a : StreamAccount}

/-- Tables apart from a table within which memory changes are as before. -/
theorem ChangesWithin.apart {d : Capture} {m m' : Memory} (h : ChangesWithin c m m')
    (hapart : c.Apart d) :
    m'.wordAt d.table = m.wordAt d.table ∧
      m'.slice (d.table + 2) d.text.length = m.slice (d.table + 2) d.text.length := by
  have hbyte : ∀ b, d.table ≤ b → b < d.tableEnd → m'.byteAt b = m.byteAt b := by
    intro b hlower hupper
    refine h b ?_
    rcases hapart with hbefore | hbehind
    · right
      omega
    · left
      omega
  unfold Capture.tableEnd at hbyte
  refine ⟨?_, Memory.slice_congr fun b hlower hupper => hbyte b (by omega) (by omega)⟩
  rw [Memory.wordAt, Memory.wordAt, hbyte _ (by omega) (by omega), hbyte _ (by omega) (by omega)]

theorem Recorded.opens (h : Recorded code before a memory) (table : Nat) :
    Recorded code before (a.after (.opens table)) memory where
  image := h.image
  opened := List.forall_mem_cons.mpr ⟨rfl, h.opened⟩
  closed := h.closed
  elsewhere b hopened hclosed := h.elsewhere b (List.forall_mem_cons.mp hopened).2 hclosed

/-- The innermost table changes and has more text or a count; the other tables stay as they are. -/
theorem Recorded.changeWithin {memory' : Memory} (h : Recorded code before a memory)
    (hopened : a.opened = c :: outer) {d : Capture} (hwithin : ChangesWithin d memory memory')
    (hapart : ∀ e ∈ outer ++ a.closed, d.Apart e) :
    (∀ e ∈ outer, memory'.slice (e.table + 2) e.text.length = e.text.map code) ∧
      ∀ e ∈ a.closed, (memory'.wordAt e.table).toNat = e.text.length ∧
        memory'.slice (e.table + 2) e.text.length = e.text.map code := by
  constructor
  · intro e he
    rw [(hwithin.apart (hapart e (List.mem_append_left _ he))).2]
    exact h.opened e (hopened ▸ List.mem_cons_of_mem c he)
  · intro e he
    obtain ⟨hcount, htext⟩ := hwithin.apart (hapart e (List.mem_append_right _ he))
    rw [hcount, htext]
    exact h.closed e he

/-- Text goes behind what is in the innermost table. -/
theorem Recorded.sends (h : Recorded code before a memory) (hopened : a.opened = c :: outer)
    {longer : Capture} {more : List Char} (hlonger : longer = { c with text := c.text ++ more })
    (hseparate : Capture.Separate before.size (longer :: (outer ++ a.closed))) :
    Recorded code before { a with opened := longer :: outer }
      (memory.setBytes (c.table + 2 + c.text.length) (more.map code)) := by
  obtain ⟨hapart, -⟩ := List.pairwise_cons.mp hseparate.apart
  obtain ⟨hinside, -⟩ := List.forall_mem_cons.mp hseparate.inside
  obtain ⟨hinner, -⟩ := List.forall_mem_cons.mp (hopened ▸ h.opened)
  have hcodes : (more.map code).length = more.length := List.length_map _
  have htable : longer.table = c.table := by rw [hlonger]
  have hlength : longer.text.length = c.text.length + more.length := by
    rw [hlonger, List.length_append]
  have hend : longer.tableEnd = c.table + 2 + c.text.length + more.length := by
    rw [Capture.tableEnd, htable, hlength]
    omega
  have hunchanged : ∀ b, b < c.table + 2 + c.text.length ∨ longer.tableEnd ≤ b →
      (memory.setBytes (c.table + 2 + c.text.length) (more.map code)).byteAt b
        = memory.byteAt b := by
    intro b hb
    exact Memory.byteAt_setBytes_of_outside _ _ _ b (by omega)
  obtain ⟨houter, hclosed⟩ := h.changeWithin hopened (fun b hb => hunchanged b (by omega)) hapart
  refine ⟨h.image.trans (Memory.sameImage_setBytes _ _ _),
    List.forall_mem_cons.mpr ⟨?_, houter⟩, hclosed, ?_⟩
  · have hwritten := Memory.slice_setBytes_self memory (c.table + 2 + c.text.length)
      (more.map code) (by rw [h.image.size]; omega)
    rw [htable, hlength, Memory.slice_add, ← hcodes, hwritten, hlonger, List.map_append, ← hinner]
    exact congrArg (· ++ _) (Memory.slice_congr fun b _ hupper => hunchanged b (by omega))
  · intro b hb hbclosed
    obtain ⟨hfirst, hothers⟩ := List.forall_mem_cons.mp hb
    have hbefore : b < c.table + 2 ∨ c.tableEnd ≤ b := by
      unfold Capture.tableEnd
      omega
    rw [← h.elsewhere b (hopened ▸ List.forall_mem_cons.mpr ⟨hbefore, hothers⟩) hbclosed]
    exact hunchanged b (by omega)

/-- A count goes before the text of the innermost table. -/
theorem Recorded.closes (h : Recorded code before a memory) (hopened : a.opened = c :: outer)
    (hseparate : Capture.Separate before.size (c :: (outer ++ a.closed))) :
    Recorded code before { a with opened := outer, closed := c :: a.closed }
      (memory.setWord c.table (UInt16.ofNat c.text.length)) := by
  obtain ⟨hapart, -⟩ := List.pairwise_cons.mp hseparate.apart
  obtain ⟨hinside, -⟩ := List.forall_mem_cons.mp hseparate.inside
  obtain ⟨hcounted, -⟩ := List.forall_mem_cons.mp hseparate.counted
  obtain ⟨hinner, -⟩ := List.forall_mem_cons.mp (hopened ▸ h.opened)
  have hend : c.tableEnd = c.table + 2 + c.text.length := rfl
  have hunchanged : ∀ b, b < c.table ∨ c.table + 2 ≤ b →
      (memory.setWord c.table (UInt16.ofNat c.text.length)).byteAt b = memory.byteAt b := by
    intro b hb
    exact Memory.byteAt_setWord_of_ne _ _ _ b (by omega) (by omega)
  obtain ⟨houter, hclosed⟩ := h.changeWithin hopened (fun b hb => hunchanged b (by omega)) hapart
  refine ⟨h.image.trans (Memory.sameImage_setWord _ _ _), houter,
    List.forall_mem_cons.mpr ⟨⟨?_, ?_⟩, hclosed⟩, ?_⟩
  · rw [Memory.wordAt_setWord_self _ _ _ (by rw [h.image.size]; omega)]
    exact UInt16.toNat_ofNat_of_lt hcounted
  · rw [← hinner]
    exact Memory.slice_congr fun b hlower _ => hunchanged b (by omega)
  · intro b hb hbclosed
    obtain ⟨hfirst, hothers⟩ := List.forall_mem_cons.mp hbclosed
    have hbefore : b < c.table + 2 ∨ c.tableEnd ≤ b := by omega
    rw [← h.elsewhere b (hopened ▸ List.forall_mem_cons.mpr ⟨hbefore, hb⟩) hothers]
    exact hunchanged b (by omega)

end Recorded

namespace Machine

/-! ## Steps -/

/-- What a step does to the machine. -/
def act : StreamStep → Exec Unit
  | .opens table => selectStream 3 table
  | .sends text => emit text
  | .closes => selectStream (-3) 0

/-- A stream is opened unless sixteen are. -/
theorem selectStream_open_run (m : Machine) (table : Nat) :
    (selectStream 3 table).run m
      = if 16 ≤ m.streams.tables.length then (.error (.fault .streamOverflow), m)
        else (.ok (), { m with
          streams := { m.streams with tables := { table } :: m.streams.tables } }) := by
  show (openTable table).run m = _
  unfold openTable
  rw [run_bind, run_get]
  dsimp only
  by_cases hfull : OutputStreams.maxTables ≤ m.streams.tables.length
  · rw [if_pos hfull, if_pos (show 16 ≤ _ from hfull)]
    rfl
  · rw [if_neg hfull, if_neg (show ¬ 16 ≤ _ from hfull)]
    rfl

/-- No stream is closed if none is open. -/
theorem selectStream_close_run_of_nil {m : Machine} (h : m.streams.tables = []) (table : Nat) :
    (selectStream (-3) table).run m = (.error (.fault .streamUnderflow), m) := by
  show closeTable.run m = _
  unfold closeTable
  rw [run_bind, run_get]
  dsimp only
  rw [h]
  rfl

/-- The innermost stream is closed and its count written. -/
theorem selectStream_close_run_of_cons {m : Machine} {stream : MemoryStream}
    {outer : List MemoryStream} (h : m.streams.tables = stream :: outer) (table : Nat) :
    (selectStream (-3) table).run m
      = (.ok (), { m with
          streams := { m.streams with tables := outer }
          memory := m.memory.setWord stream.table (UInt16.ofNat stream.written) }) := by
  show closeTable.run m = _
  unfold closeTable
  rw [run_bind, run_get]
  dsimp only
  rw [h]
  rfl

/-- Text goes to the innermost stream that is open. -/
theorem emitText_of_cons {m : Machine} {stream : MemoryStream} {outer : List MemoryStream}
    (h : m.streams.tables = stream :: outer) (text : String) :
    m.emitText text
      = { m with
          memory := m.memory.setBytes (stream.table + 2 + stream.written)
            (text.toList.map m.codec.zsciiOf)
          streams :=
            { m.streams with
              tables :=
                { stream with written := stream.written + text.toList.length } :: outer } } := by
  unfold emitText
  rw [h]
  simp only [List.length_map]

/-! ## A machine in step with an account -/

/-- An open stream. -/
def streamOf (c : Capture) : MemoryStream where
  table := c.table
  written := c.text.length

/-- A machine that was `m₀` when no stream was open holds what an account says.  Text has gone to
screen and transcript only while no stream was open. -/
structure Captured (m₀ : Machine) (a : StreamAccount) (m : Machine) : Prop where
  rest : m = { m₀ with memory := m.memory, streams := m.streams }
  streams : m.streams =
    { m₀.streams with
      tables := a.opened.map streamOf
      console :=
        if m₀.streams.screen then m₀.streams.console ++ a.aloud else m₀.streams.console
      transcriptText :=
        if m₀.streams.transcript then m₀.streams.transcriptText ++ a.aloud
        else m₀.streams.transcriptText }
  memory : Recorded m₀.codec.zsciiOf m₀.memory a m.memory

variable {m₀ m : Machine} {a : StreamAccount}

/-- Before the first step. -/
theorem captured_refl (h : m.streams.tables = []) : Captured m {} m where
  rest := rfl
  streams := by simp [← h]
  memory := ⟨Memory.SameImage.refl _, by simp, by simp, fun _ _ _ => rfl⟩

theorem Captured.tables_eq (h : Captured m₀ a m) :
    m.streams.tables = a.opened.map streamOf := by
  rw [h.streams]

theorem Captured.codec_eq (h : Captured m₀ a m) : m.codec = m₀.codec := by
  rw [h.rest]

theorem Captured.opens (h : Captured m₀ a m) (hdepth : a.opened.length < 16) (table : Nat) :
    ∃ m', (act (.opens table)).run m = (.ok (), m') ∧ Captured m₀ (a.after (.opens table)) m' := by
  have hroom : ¬ 16 ≤ m.streams.tables.length := by
    rw [h.tables_eq, List.length_map]
    omega
  refine ⟨_, (selectStream_open_run m table).trans (if_neg hroom), ?_, ?_, h.memory.opens table⟩
  · rw [h.rest]
  · rw [h.streams]
    rfl

/-- Text that is sent while no stream is open. -/
theorem Captured.sendsAloud (h : Captured m₀ a m) (hnone : a.opened = []) (text : String) :
    ∃ m', (act (.sends text)).run m = (.ok (), m') ∧ Captured m₀ (a.after (.sends text)) m' := by
  have hafter : a.after (.sends text) = { a with aloud := a.aloud ++ text } := by
    simp [StreamAccount.after, hnone]
  have htables : m.streams.tables = [] := by
    rw [h.tables_eq, hnone]
    rfl
  refine ⟨m.emitText text, rfl, ?_⟩
  rw [hafter]
  unfold emitText
  rw [htables]
  refine ⟨?_, ?_, ⟨h.memory.image, h.memory.opened, h.memory.closed, h.memory.elsewhere⟩⟩
  · rw [h.rest]
  · rw [h.streams]
    dsimp only
    split_ifs <;> simp [String.append_assoc]

/-- Text that is sent while a stream is open. -/
theorem Captured.sendsInto (h : Captured m₀ a m) {c : Capture} {outer : List Capture}
    (hopened : a.opened = c :: outer) (text : String)
    (hseparate : Capture.Separate m₀.memory.size (a.after (.sends text)).captures) :
    ∃ m', (act (.sends text)).run m = (.ok (), m') ∧ Captured m₀ (a.after (.sends text)) m' := by
  obtain ⟨longer, hlonger⟩ : ∃ d : Capture, d = { c with text := c.text ++ text.toList } :=
    ⟨_, rfl⟩
  have hafter : a.after (.sends text) = { a with opened := longer :: outer } := by
    simp [StreamAccount.after, hopened, hlonger]
  have htables : m.streams.tables = streamOf c :: outer.map streamOf := by
    rw [h.tables_eq, hopened]
    rfl
  rw [hafter] at hseparate ⊢
  have hmemory := h.memory.sends hopened hlonger hseparate
  refine ⟨m.emitText text, rfl, ?_⟩
  rw [emitText_of_cons htables, h.codec_eq]
  refine ⟨?_, ?_, hmemory⟩
  · rw [h.rest]
  · rw [h.streams, hlonger]
    simp [streamOf]

theorem Captured.closes (h : Captured m₀ a m) {c : Capture} {outer : List Capture}
    (hopened : a.opened = c :: outer) (hseparate : Capture.Separate m₀.memory.size a.captures) :
    ∃ m', (act .closes).run m = (.ok (), m') ∧ Captured m₀ (a.after .closes) m' := by
  have hafter : a.after .closes = { a with opened := outer, closed := c :: a.closed } := by
    simp [StreamAccount.after, hopened]
  have htables : m.streams.tables = streamOf c :: outer.map streamOf := by
    rw [h.tables_eq, hopened]
    rfl
  rw [StreamAccount.captures, hopened, List.cons_append] at hseparate
  have hmemory := h.memory.closes hopened hseparate
  refine ⟨_, selectStream_close_run_of_cons htables 0, ?_⟩
  rw [hafter]
  refine ⟨?_, ?_, hmemory⟩
  · rw [h.rest]
  · rw [h.streams]

/-- A step that is allowed keeps the machine in step with the account. -/
theorem Captured.act {step : StreamStep} {rest : List StreamStep} {depth : Nat}
    (h : Captured m₀ a m)
    (hnested : StreamStep.depthAfter a.opened.length (step :: rest) = some depth)
    (hseparate : Capture.Separate m₀.memory.size (a.after step).captures) :
    ∃ m', (Machine.act step).run m = (.ok (), m') ∧ Captured m₀ (a.after step) m' ∧
      StreamStep.depthAfter (a.after step).opened.length rest = some depth := by
  cases step with
  | opens table =>
      rw [StreamStep.depthAfter] at hnested
      by_cases hdepth : a.opened.length < 16
      · rw [if_pos hdepth] at hnested
        obtain ⟨m', hrun, hcaptured⟩ := h.opens hdepth table
        exact ⟨m', hrun, hcaptured, hnested⟩
      · rw [if_neg hdepth] at hnested
        contradiction
  | sends text =>
      rw [StreamStep.depthAfter] at hnested
      have hlength : (a.after (.sends text)).opened.length = a.opened.length := by
        rw [StreamAccount.after]
        split
        · rfl
        · simp_all
      rw [hlength]
      rcases hopened : a.opened with _ | ⟨c, outer⟩
      · obtain ⟨m', hrun, hcaptured⟩ := h.sendsAloud hopened text
        exact ⟨m', hrun, hcaptured, hopened ▸ hnested⟩
      · obtain ⟨m', hrun, hcaptured⟩ := h.sendsInto hopened text hseparate
        exact ⟨m', hrun, hcaptured, hopened ▸ hnested⟩
  | closes =>
      rw [StreamStep.depthAfter] at hnested
      rcases hopened : a.opened with _ | ⟨c, outer⟩
      · rw [hopened] at hnested
        contradiction
      · rw [hopened, List.length_cons, if_pos (Nat.succ_pos _)] at hnested
        obtain ⟨m', hrun, hcaptured⟩ := h.closes hopened (StreamAccount.separate_of_after hseparate)
        refine ⟨m', hrun, hcaptured, ?_⟩
        simpa [StreamAccount.after, hopened] using hnested

/-! ## Runs of steps -/

/-- Steps one after the other. -/
def actAll : List StreamStep → Exec Unit
  | [] => pure ()
  | step :: rest => do
      act step
      actAll rest

/-- Steps that are allowed keep the machine in step with the account. -/
theorem Captured.actAll {steps : List StreamStep} {depth : Nat} (h : Captured m₀ a m)
    (hnested : StreamStep.depthAfter a.opened.length steps = some depth)
    (hseparate : Capture.Separate m₀.memory.size (a.afterAll steps).captures) :
    ∃ m', (Machine.actAll steps).run m = (.ok (), m') ∧ Captured m₀ (a.afterAll steps) m' ∧
      (a.afterAll steps).opened.length = depth := by
  induction steps generalizing a m with
  | nil => exact ⟨m, rfl, h, Option.some.inj hnested⟩
  | cons step rest ih =>
      -- tables only grow: what is separate at the end was separate after this step
      have hlater : Capture.Separate m₀.memory.size ((a.after step).afterAll rest).captures :=
        hseparate
      obtain ⟨m₁, hrun, hcaptured, hrest⟩ :=
        h.act hnested (StreamAccount.separate_of_afterAll hlater)
      obtain ⟨m₂, hruns, hfinal⟩ := ih hcaptured hrest hseparate
      refine ⟨m₂, ?_, hfinal⟩
      rw [Machine.actAll, run_bind, hrun]
      exact hruns

/-- Streams that are opened and closed in turn, with text in between, take the text that is sent
while they are the innermost one.  The tables are any that do not overlap and lie in the image.  A
seventeenth stream is not opened, and none is closed if none is open.  A beginning of such a
sequence is one too, so this says what each table holds after each closing. -/
theorem actAll_captured (m : Machine) (hnone : m.streams.tables = []) (steps : List StreamStep)
    (depth : Nat) (hnested : StreamStep.depthAfter 0 steps = some depth)
    (hseparate : Capture.Separate m.memory.size (({} : StreamAccount).afterAll steps).captures) :
    ∃ m', (actAll steps).run m = (.ok (), m') ∧
      Captured m (({} : StreamAccount).afterAll steps) m' ∧
      (depth = 16 → ∀ table,
        (selectStream 3 table).run m' = (.error (.fault .streamOverflow), m')) ∧
      (depth = 0 → ∀ table,
        (selectStream (-3) table).run m' = (.error (.fault .streamUnderflow), m')) := by
  obtain ⟨m', hrun, hcaptured, hdepth⟩ := (captured_refl hnone).actAll hnested hseparate
  have hlength : m'.streams.tables.length = depth := by
    rw [hcaptured.tables_eq, List.length_map, hdepth]
  refine ⟨m', hrun, hcaptured, ?_, ?_⟩
  · rintro hfull table
    rw [selectStream_open_run, if_pos (by omega)]
  · rintro hnone' table
    exact selectStream_close_run_of_nil (List.eq_nil_of_length_eq_zero (by omega)) table

/-- A story of version 5 with room for tables behind its header. -/
def roomyImage : Array UInt8 :=
  (5 :: List.replicate 14 (0 : UInt8) ++ 0x50 :: List.replicate 64 (0 : UInt8)).toArray

/-- The machine of that story. -/
def roomyMachine : Machine :=
  (load roomyImage { random := .lowest }).toOption.get (by decide +kernel)

/-- A stream that is opened, given text and closed while another one is open. -/
def nestedSteps : List StreamStep :=
  [.opens 0x40, .sends "a", .opens 0x48, .sends "bc", .closes, .sends "d", .closes]

/-- The outer stream has the text from before and after the inner one. -/
theorem actAll_captured_nested :
    ∃ m', (actAll nestedSteps).run roomyMachine = (.ok (), m') ∧
      (m'.memory.wordAt 0x40).toNat = 2 ∧ m'.memory.slice 0x42 2 = [0x61, 0x64] ∧
      (m'.memory.wordAt 0x48).toNat = 2 ∧ m'.memory.slice 0x4A 2 = [0x62, 0x63] ∧
      (selectStream (-3) 0).run m' = (.error (.fault .streamUnderflow), m') := by
  have hseparate : Capture.Separate roomyMachine.memory.size
      (({} : StreamAccount).afterAll nestedSteps).captures :=
    ⟨by decide +kernel, by decide +kernel, by decide +kernel⟩
  obtain ⟨m', hrun, hcaptured, -, hnone⟩ :=
    actAll_captured roomyMachine rfl nestedSteps 0 (by decide) hseparate
  obtain ⟨houter, houterText⟩ := hcaptured.memory.closed ⟨0x40, ['a', 'd']⟩ (by decide)
  obtain ⟨hinner, hinnerText⟩ := hcaptured.memory.closed ⟨0x48, ['b', 'c']⟩ (by decide)
  exact ⟨m', hrun, houter, houterText.trans (by decide +kernel), hinner,
    hinnerText.trans (by decide +kernel), hnone rfl 0⟩

end Machine
end ZMachine
