/-
# Parse buffers

What tokenising a line leaves in a parse buffer.  Words are looked up while their slots are being
written, so this takes a dictionary whose entries lie elsewhere.

* `Dictionary.compared` : the addresses whose bytes a look-up compares with its key;
* `Dictionary.lookup_congr` : a look-up depends on no other bytes;
* `SlotFilled` : what a slot holds after its word has been looked up;
* `writeTokens_slot` : every slot is filled from memory as it was, but for the slots before;
* `tokenise_fills` : count and slots of the parse buffer, and that nothing else changes.
-/
import Mathlib.Tactic.SplitIfs
import ZMachine.Proofs.Dictionary.Words
import ZMachine.Proofs.Image
import ZMachine.Proofs.Memory

namespace ZMachine

/-! ## The bytes that a look-up compares -/

namespace Dictionary

variable {m n : Memory} {key : List UInt8}

/-- The addresses that a comparison with a key reads, up to the first byte that differs. -/
def comparedAt (m : Memory) (address : Nat) : List UInt8 → List Nat
  | [] => []
  | b :: key => address :: if m.byteAt address = b then comparedAt m (address + 1) key else []

/-- The addresses that a search by halving reads. -/
def comparedHalving (d : Dictionary) (m : Memory) (key : List UInt8) (low high : Nat) :
    List Nat :=
  if low < high then
    let middle := low + (high - low) / 2
    comparedAt m (d.entry middle) key ++
      match compareAt m (d.entry middle) key with
      | .eq => []
      | .lt => comparedHalving d m key (middle + 1) high
      | .gt => comparedHalving d m key low middle
  else []
termination_by high - low

/-- The addresses that trying entries one after another reads. -/
def comparedTrying (m : Memory) (key : List UInt8) : List Nat → List Nat
  | [] => []
  | e :: rest =>
      comparedAt m e key ++ if compareAt m e key = .eq then [] else comparedTrying m key rest

/-- The addresses whose bytes a look-up compares with its key. -/
def compared (d : Dictionary) (m : Memory) (key : List UInt8) : List Nat :=
  if d.entryLength = 0 then []
  else if d.sorted then d.comparedHalving m key 0 d.entryCount
  else comparedTrying m key ((List.range d.entryCount).map d.entry)

theorem compareAt_congr {address : Nat}
    (h : ∀ a ∈ comparedAt m address key, n.byteAt a = m.byteAt a) :
    compareAt n address key = compareAt m address key := by
  induction key generalizing address with
  | nil => rfl
  | cons b key ih =>
      obtain ⟨hfirst, hrest⟩ := List.forall_mem_cons.mp h
      rw [compareAt, compareAt, hfirst]
      by_cases heq : m.byteAt address = b
      · rw [if_pos heq] at hrest
        rw [ih hrest]
      · -- the comparison is decided here and does not look further
        have hne : compare (m.byteAt address) b ≠ .eq := by
          intro hcompare
          exact heq (Std.LawfulEqCmp.eq_of_compare hcompare)
        cases hcompare : compare (m.byteAt address) b with
        | lt => rfl
        | eq => exact absurd hcompare hne
        | gt => rfl

/-- A search by halving compares the entry in the middle and goes on in one half. -/
theorem binarySearch_step (d : Dictionary) (m : Memory) (key : List UInt8) {low high : Nat}
    (hlt : low < high) :
    d.binarySearch m key low high
      = match compareAt m (d.entry (low + (high - low) / 2)) key with
        | .eq => d.entry (low + (high - low) / 2)
        | .lt => d.binarySearch m key (low + (high - low) / 2 + 1) high
        | .gt => d.binarySearch m key low (low + (high - low) / 2) :=
  (binarySearch.eq_def d m key low high).trans (if_pos hlt)

theorem binarySearch_congr {d : Dictionary} {low high : Nat}
    (h : ∀ a ∈ d.comparedHalving m key low high, n.byteAt a = m.byteAt a) :
    d.binarySearch n key low high = d.binarySearch m key low high := by
  fun_induction binarySearch d m key low high with
  | case1 low high hlt middle heq =>
      rw [comparedHalving, if_pos hlt] at h
      obtain ⟨hmiddle, -⟩ := List.forall_mem_append.mp h
      rw [binarySearch_step d n key hlt, compareAt_congr hmiddle, heq]
  | case2 low high hlt middle heq ih =>
      rw [comparedHalving, if_pos hlt] at h
      obtain ⟨hmiddle, hhalf⟩ := List.forall_mem_append.mp h
      rw [heq] at hhalf
      rw [binarySearch_step d n key hlt, compareAt_congr hmiddle, heq]
      exact ih hhalf
  | case3 low high hlt middle heq ih =>
      rw [comparedHalving, if_pos hlt] at h
      obtain ⟨hmiddle, hhalf⟩ := List.forall_mem_append.mp h
      rw [heq] at hhalf
      rw [binarySearch_step d n key hlt, compareAt_congr hmiddle, heq]
      exact ih hhalf
  | case4 low high hle => rw [binarySearch, if_neg hle]

theorem find?_compareAt_congr {entries : List Nat}
    (h : ∀ a ∈ comparedTrying m key entries, n.byteAt a = m.byteAt a) :
    (entries.find? fun e => compareAt n e key == .eq)
      = entries.find? fun e => compareAt m e key == .eq := by
  induction entries with
  | nil => rfl
  | cons e rest ih =>
      obtain ⟨hfirst, hrest⟩ := List.forall_mem_append.mp h
      rw [List.find?_cons, List.find?_cons, compareAt_congr hfirst]
      by_cases heq : compareAt m e key = .eq
      · simp [heq]
      · rw [if_neg heq] at hrest
        rw [ih hrest]

/-- A look-up depends only on the bytes that it compares. -/
theorem lookup_congr {d : Dictionary} (h : ∀ a ∈ d.compared m key, n.byteAt a = m.byteAt a) :
    d.lookup n key = d.lookup m key := by
  unfold compared at h
  unfold lookup
  split_ifs at h ⊢
  · rfl
  · exact binarySearch_congr h
  · rw [linearSearch, linearSearch, find?_compareAt_congr h]

end Dictionary

/-! ## Slots -/

section
variable {skipUnknown : Bool} {found offset slot b : Nat} {t : Token} {m m' : Memory}

/-- Memory after the word `t`, which was `found` in the dictionary, has been written to a slot. -/
def fillSlot (skipUnknown : Bool) (found offset : Nat) (t : Token) (slot : Nat) (m : Memory) :
    Memory :=
  if skipUnknown && found == 0 then m
  else
    ((m.setWord slot (UInt16.ofNat found)).setByte (slot + 2) (UInt8.ofNat t.length)).setByte
      (slot + 3) (UInt8.ofNat (t.position + offset))

/-- What a slot of a parse buffer holds in `m'` after its word has been looked up: entry, length and
position of the word, or what it held in `m` if the word is unknown and such words are skipped. -/
def SlotFilled (skipUnknown : Bool) (found offset : Nat) (t : Token) (slot : Nat)
    (m m' : Memory) : Prop :=
  if skipUnknown = true ∧ found = 0 then m'.slice slot 4 = m.slice slot 4
  else
    m'.wordAt slot = UInt16.ofNat found ∧
      m'.byteAt (slot + 2) = UInt8.ofNat t.length ∧
      m'.byteAt (slot + 3) = UInt8.ofNat (t.position + offset)

theorem size_fillSlot : (fillSlot skipUnknown found offset t slot m).size = m.size := by
  unfold fillSlot
  split
  · rfl
  · simp

theorem byteAt_fillSlot_of_outside (h : b < slot ∨ slot + 4 ≤ b) :
    (fillSlot skipUnknown found offset t slot m).byteAt b = m.byteAt b := by
  unfold fillSlot
  split
  · rfl
  · rw [Memory.byteAt_setByte_of_ne _ _ _ _ (by omega),
      Memory.byteAt_setByte_of_ne _ _ _ _ (by omega),
      Memory.byteAt_setWord_of_ne _ _ _ _ (by omega) (by omega)]

theorem slotFilled_fillSlot (h : slot + 4 ≤ m.size) :
    SlotFilled skipUnknown found offset t slot m
      (fillSlot skipUnknown found offset t slot m) := by
  unfold SlotFilled fillSlot
  by_cases hskip : skipUnknown = true ∧ found = 0
  · simp [hskip]
  · have hkept : ¬ (skipUnknown && found == 0) = true := by simpa using hskip
    rw [if_neg hskip, if_neg hkept]
    refine ⟨?_, ?_, ?_⟩
    · refine (Memory.wordAt_congr ?_ ?_).trans (Memory.wordAt_setWord_self m slot _ (by omega))
      · rw [Memory.byteAt_setByte_of_ne _ _ _ _ (by omega),
          Memory.byteAt_setByte_of_ne _ _ _ _ (by omega)]
      · rw [Memory.byteAt_setByte_of_ne _ _ _ _ (by omega),
          Memory.byteAt_setByte_of_ne _ _ _ _ (by omega)]
    · rw [Memory.byteAt_setByte_of_ne _ _ _ _ (by omega),
        Memory.byteAt_setByte_self _ _ _ (by rw [Memory.size_setWord]; omega)]
    · exact Memory.byteAt_setByte_self _ _ _
        (by rw [Memory.size_setByte, Memory.size_setWord]; omega)

/-- Only the bytes of the slot matter. -/
theorem SlotFilled.congr {n n' : Memory} (h : SlotFilled skipUnknown found offset t slot n n')
    (hbefore : ∀ b, slot ≤ b → b < slot + 4 → n.byteAt b = m.byteAt b)
    (hafter : ∀ b, slot ≤ b → b < slot + 4 → m'.byteAt b = n'.byteAt b) :
    SlotFilled skipUnknown found offset t slot m m' := by
  unfold SlotFilled at h ⊢
  split_ifs at h ⊢
  · rw [Memory.slice_congr hafter, h, Memory.slice_congr hbefore]
  · rw [Memory.wordAt_congr (hafter _ (by omega) (by omega)) (hafter _ (by omega) (by omega)),
      hafter _ (by omega) (by omega), hafter _ (by omega) (by omega)]
    exact h

/-- The numbers in a slot are length and position of the word, reduced to a byte. -/
theorem SlotFilled.fields (h : SlotFilled skipUnknown found offset t slot m m') :
    skipUnknown = true ∧ m'.slice slot 4 = m.slice slot 4 ∨
      (m'.byteAt (slot + 2)).toNat = t.length % 256 ∧
        (m'.byteAt (slot + 3)).toNat = (t.position + offset) % 256 := by
  unfold SlotFilled at h
  split at h
  · rename_i hskip
    exact Or.inl ⟨hskip.1, h⟩
  · obtain ⟨-, hlength, hposition⟩ := h
    rw [hlength, hposition]
    exact Or.inr ⟨UInt8.toNat_ofNat', UInt8.toNat_ofNat'⟩

end

/-! ## Writing words to consecutive slots -/

section
variable {cs : Text.Charset} {d : Dictionary} {line : List UInt8} {offset : Nat}
  {skipUnknown : Bool}

theorem writeTokens_cons (m : Memory) (slot : Nat) (t : Token) (rest : List Token) :
    writeTokens cs d line offset skipUnknown m slot (t :: rest)
      = writeTokens cs d line offset skipUnknown
          (fillSlot skipUnknown (d.lookup m (cs.encodeZscii (t.of line))) offset t slot m)
          (slot + 4) rest := rfl

/-- Words change only their slots. -/
theorem byteAt_writeTokens_of_outside {tokens : List Token} {m : Memory} {slot b : Nat}
    (h : b < slot ∨ slot + 4 * tokens.length ≤ b) :
    (writeTokens cs d line offset skipUnknown m slot tokens).byteAt b = m.byteAt b := by
  induction tokens generalizing m slot with
  | nil => rfl
  | cons t rest ih =>
      rw [List.length_cons] at h
      rw [writeTokens_cons, ih (by omega), byteAt_fillSlot_of_outside (by omega)]

variable (cs d line offset skipUnknown) in
/-- **Every slot is filled**, from a memory in which at most the slots before it have changed. -/
theorem writeTokens_slot {tokens : List Token} {m : Memory} {slot : Nat}
    (hinside : slot + 4 * tokens.length ≤ m.size) {i : Nat} {t : Token}
    (ht : tokens[i]? = some t) :
    ∃ mᵢ : Memory, (∀ b, b < slot ∨ slot + 4 * i ≤ b → mᵢ.byteAt b = m.byteAt b) ∧
      SlotFilled skipUnknown (d.lookup mᵢ (cs.encodeZscii (t.of line))) offset t (slot + 4 * i) m
        (writeTokens cs d line offset skipUnknown m slot tokens) := by
  induction tokens generalizing m slot i with
  | nil => cases ht
  | cons first rest ih =>
      rw [List.length_cons] at hinside
      rw [writeTokens_cons]
      cases i with
      | zero =>
          obtain rfl : first = t := Option.some.inj ht
          refine ⟨m, fun b _ => rfl, (slotFilled_fillSlot (by omega)).congr (fun b _ _ => rfl) ?_⟩
          intro b _ hb
          exact byteAt_writeTokens_of_outside (Or.inl (by omega))
      | succ i =>
          rw [List.getElem?_cons_succ] at ht
          have hrest : slot + 4 + 4 * rest.length ≤ (fillSlot skipUnknown
              (d.lookup m (cs.encodeZscii (first.of line))) offset first slot m).size := by
            rw [size_fillSlot]
            omega
          obtain ⟨mᵢ, hkept, hfilled⟩ := ih hrest ht
          rw [show slot + 4 + 4 * i = slot + 4 * (i + 1) by omega] at hkept hfilled
          refine ⟨mᵢ, ?_, hfilled.congr ?_ fun b _ _ => rfl⟩
          · intro b hb
            rw [hkept b (by omega), byteAt_fillSlot_of_outside (by omega)]
          · intro b hb _
            exact byteAt_fillSlot_of_outside (by omega)

end

/-! ## The parse buffer -/

section
variable (cs : Text.Charset) (m : Memory) (textBuffer parseBuffer dictionary : Nat)
  (skipUnknown : Bool)

/-- The words of the line in a text buffer. -/
def lineTokens : List Token :=
  Token.split (Dictionary.read m dictionary).isSeparator (typedLine m cs.version textBuffer).1

/-- The words for which a parse buffer has slots. -/
def recordedTokens : List Token :=
  (lineTokens cs m textBuffer dictionary).take (m.byteAt parseBuffer).toNat

/-- The form in which a word of the line in a text buffer is looked up. -/
def wordKey (t : Token) : List UInt8 :=
  cs.encodeZscii (t.of (typedLine m cs.version textBuffer).1)

theorem tokenise_eq :
    tokenise cs m textBuffer parseBuffer dictionary skipUnknown
      = (writeTokens cs (Dictionary.read m dictionary) (typedLine m cs.version textBuffer).1
          (typedLine m cs.version textBuffer).2 skipUnknown m (parseBuffer + 2)
          (recordedTokens cs m textBuffer parseBuffer dictionary)).setByte (parseBuffer + 1)
        (UInt8.ofNat (recordedTokens cs m textBuffer parseBuffer dictionary).length) := rfl

theorem typedLine_snd (version : UInt8) :
    (typedLine m version textBuffer).2 = if version < 5 then 1 else 2 := by
  unfold typedLine
  split <;> rfl

theorem length_recordedTokens :
    (recordedTokens cs m textBuffer parseBuffer dictionary).length
      = min (m.byteAt parseBuffer).toNat (lineTokens cs m textBuffer dictionary).length :=
  List.length_take

variable {cs m textBuffer parseBuffer dictionary skipUnknown}

/-- Recorded words are not empty and lie in the line. -/
theorem bounds_of_mem_recordedTokens {t : Token}
    (ht : t ∈ recordedTokens cs m textBuffer parseBuffer dictionary) :
    0 < t.length ∧ t.position + t.length ≤ (typedLine m cs.version textBuffer).1.length :=
  Token.bounds_of_mem_split (List.mem_of_mem_take ht)

/-- The count fits its byte, for it is not above the first byte of the buffer. -/
theorem length_recordedTokens_lt :
    (recordedTokens cs m textBuffer parseBuffer dictionary).length < 256 := by
  have hmax := (m.byteAt parseBuffer).toNat_lt
  rw [length_recordedTokens]
  omega

/-- Tokenising changes only the count and the slots. -/
theorem byteAt_tokenise_of_outside {b : Nat} (hcount : b ≠ parseBuffer + 1)
    (hslots : b < parseBuffer + 2 ∨ parseBuffer + 2
      + 4 * (recordedTokens cs m textBuffer parseBuffer dictionary).length ≤ b) :
    (tokenise cs m textBuffer parseBuffer dictionary skipUnknown).byteAt b = m.byteAt b := by
  rw [tokenise_eq, Memory.byteAt_setByte_of_ne _ _ _ _ hcount, byteAt_writeTokens_of_outside hslots]

theorem byteAt_tokenise_count (h : parseBuffer + 1 < m.size) :
    ((tokenise cs m textBuffer parseBuffer dictionary skipUnknown).byteAt (parseBuffer + 1)).toNat
      = (recordedTokens cs m textBuffer parseBuffer dictionary).length := by
  rw [tokenise_eq, Memory.byteAt_setByte_self _ _ _
    (by rw [(sameImage_writeTokens cs _ _ _ _ m _ _).size]; exact h)]
  exact UInt8.toNat_ofNat_of_lt length_recordedTokens_lt

variable (skipUnknown) in
/-- Every slot is filled, from a memory in which at most the slots before it have changed. -/
theorem tokenise_slot (hinside : parseBuffer + 2
      + 4 * (recordedTokens cs m textBuffer parseBuffer dictionary).length ≤ m.size)
    {i : Nat} {t : Token}
    (ht : (recordedTokens cs m textBuffer parseBuffer dictionary)[i]? = some t) :
    ∃ mᵢ : Memory,
      (∀ b, b < parseBuffer + 2 ∨ parseBuffer + 2 + 4 * i ≤ b → mᵢ.byteAt b = m.byteAt b) ∧
      SlotFilled skipUnknown
        ((Dictionary.read m dictionary).lookup mᵢ (wordKey cs m textBuffer t))
        (if cs.version < 5 then 1 else 2) t (parseBuffer + 2 + 4 * i) m
        (tokenise cs m textBuffer parseBuffer dictionary skipUnknown) := by
  obtain ⟨mᵢ, hkept, hfilled⟩ := writeTokens_slot cs (Dictionary.read m dictionary)
    (typedLine m cs.version textBuffer).1 (typedLine m cs.version textBuffer).2 skipUnknown
    hinside ht
  rw [typedLine_snd] at hfilled
  refine ⟨mᵢ, hkept, hfilled.congr (fun b _ _ => rfl) ?_⟩
  intro b hb _
  rw [tokenise_eq, typedLine_snd]
  exact Memory.byteAt_setByte_of_ne _ _ _ _ (by omega)

end

/-- **Tokenising fills the parse buffer exactly.**  The words of the line for which there is room
are counted, and the slot of each has its entry, length and position, unless the word is unknown and
such words are skipped.  No other byte changes.  The entries are those of the dictionary as it was,
if the bytes that the look-ups compare lie outside the parse buffer. -/
theorem tokenise_fills (cs : Text.Charset) (m : Memory)
    (textBuffer parseBuffer dictionary : Nat) (skipUnknown : Bool) :
    let d := Dictionary.read m dictionary
    let words := lineTokens cs m textBuffer dictionary
    let room := (m.byteAt parseBuffer).toNat
    let m' := tokenise cs m textBuffer parseBuffer dictionary skipUnknown
    parseBuffer + 2 + 4 * room ≤ m.size →
    (∀ t ∈ words.take room, ∀ a ∈ d.compared m (wordKey cs m textBuffer t),
      a < parseBuffer ∨ parseBuffer + 2 + 4 * room ≤ a) →
    (m'.byteAt (parseBuffer + 1)).toNat = min room words.length ∧
      (∀ i t, i < room → words[i]? = some t →
        SlotFilled skipUnknown (d.lookup m (wordKey cs m textBuffer t))
          (if cs.version < 5 then 1 else 2) t (parseBuffer + 2 + 4 * i) m m') ∧
      ∀ b, b ≠ parseBuffer + 1 →
        (b < parseBuffer + 2 ∨ parseBuffer + 2 + 4 * min room words.length ≤ b) →
        m'.byteAt b = m.byteAt b := by
  intro d words room m' hinside hapart
  have hlength := length_recordedTokens cs m textBuffer parseBuffer dictionary
  refine ⟨?_, ?_, ?_⟩
  · rw [← hlength]
    exact byteAt_tokenise_count (by omega)
  · intro i t hi ht
    have hrecorded : (recordedTokens cs m textBuffer parseBuffer dictionary)[i]? = some t := by
      rw [recordedTokens, List.getElem?_take_of_lt hi]
      exact ht
    obtain ⟨mᵢ, hkept, hfilled⟩ := tokenise_slot skipUnknown (by omega) hrecorded
    rwa [Dictionary.lookup_congr] at hfilled
    intro a ha
    have houtside := hapart t (List.mem_of_getElem? hrecorded) a ha
    exact hkept a (by omega)
  · intro b hcount hslots
    rw [← hlength] at hslots
    exact byteAt_tokenise_of_outside hcount hslots

/-- The tables of a story of version 5 that brings none of its own. -/
def plainCharset : Text.Charset where
  version := 5
  alphabets := .standard 5
  extra := Zscii.standardExtra

/-- The line `get lamp,lamp` in a text buffer, a parse buffer with two slots, of which the first is
not empty, and a dictionary in no order that has the word `lamp` only. -/
def lampMemory : Memory :=
  .ofImage #[20, 13, 103, 101, 116, 32, 108, 97, 109, 112, 44, 108, 97, 109, 112, 0,
    2, 0, 0xAA, 0xAA, 0xAA, 0xAA, 0, 0, 0, 0,
    1, 44, 6, 0xFF, 0xFF, 68, 210, 84, 165, 148, 165]

/-- The unknown word keeps its slot, and what follows the second word has none. -/
theorem tokenise_fills_lamp :
    let d := Dictionary.read lampMemory 26
    let words := lineTokens plainCharset lampMemory 0 26
    let m' := tokenise plainCharset lampMemory 0 16 26 true
    words = [⟨0, 3⟩, ⟨4, 4⟩, ⟨8, 1⟩, ⟨9, 4⟩] ∧
      (∀ t ∈ words.take 2, ∀ a ∈ d.compared lampMemory (wordKey plainCharset lampMemory 0 t),
        a < 16 ∨ 26 ≤ a) ∧
      (m'.byteAt 17).toNat = 2 ∧ m'.slice 18 4 = [0xAA, 0xAA, 0xAA, 0xAA] ∧
      m'.wordAt 22 = 31 ∧ m'.byteAt 24 = 4 ∧ m'.byteAt 25 = 6 := by
  intro d words m'
  have hwords : words = [⟨0, 3⟩, ⟨4, 4⟩, ⟨8, 1⟩, ⟨9, 4⟩] := by decide +kernel
  have happart : ∀ t ∈ words.take 2,
      ∀ a ∈ d.compared lampMemory (wordKey plainCharset lampMemory 0 t), a < 16 ∨ 26 ≤ a := by
    decide +kernel
  obtain ⟨hcount, hslots, -⟩ :=
    tokenise_fills plainCharset lampMemory 0 16 26 true (by decide) happart
  have hget : d.lookup lampMemory (wordKey plainCharset lampMemory 0 ⟨0, 3⟩) = 0 := by
    decide +kernel
  have hlamp : d.lookup lampMemory (wordKey plainCharset lampMemory 0 ⟨4, 4⟩) = 31 := by
    decide +kernel
  have hfirst := hslots 0 ⟨0, 3⟩ (by decide) (congrArg (·[0]?) hwords)
  have hsecond := hslots 1 ⟨4, 4⟩ (by decide) (congrArg (·[1]?) hwords)
  rw [show Dictionary.lookup _ _ _ = 0 from hget, SlotFilled, if_pos ⟨rfl, rfl⟩] at hfirst
  rw [show Dictionary.lookup _ _ _ = 31 from hlamp, SlotFilled, if_neg (by decide)] at hsecond
  refine ⟨hwords, happart, ?_, hfirst, hsecond⟩
  rw [hcount]
  exact congrArg (fun words => min 2 (List.length words)) hwords

end ZMachine
