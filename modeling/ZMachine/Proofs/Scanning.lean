/-
# Scans of story data

Three loops go through story data that nothing has checked: over the words of a string, over the
records of a property table, and over the keys that may end a line.  None of them counts its passes.
A string goes no further than the image.  The other two do not look where the image ends, and end all
the same: there are only zeros past it, and a property record, however damaged its size byte is,
takes two bytes or more.

* `ObjectTable.searchPass`, `ObjectTable.ends_search` : the loop of a property search;
* `Machine.keyPass`, `Machine.ends_keys` : the loop over the keys that may end a line;
* `scans_end` : all three loops end on any bytes.
-/
import ZMachine.Machine.Input
import ZMachine.Proofs.Object.PropertyWrites
import ZMachine.Proofs.Text.Scanning

namespace ZMachine

/-! ## The records of a property table -/

namespace ObjectTable

/-- A property search on its way through a table. -/
structure RecordScan where
  /-- The address of the record that comes next. -/
  address : Nat
  /-- The record before it was that of the `previous` number. -/
  passed : Bool
  deriving DecidableEq, Repr

/-- The search of an object's table from the start. -/
def scanStart (t : ObjectTable) (m : Memory) (object : UInt16) (previous : Option UInt16) :
    RecordScan where
  address := t.firstRecord m object
  passed := previous == some 0

/-- One pass looks at one record. -/
def searchPass (t : ObjectTable) (m : Memory) (wanted previous : Option UInt16) (s : RecordScan) :
    Pass RecordScan PropertySearch :=
  let r := t.recordAt m s.address
  if r.number = 0 then .done (t.searchRecords wanted previous s.passed [])
  else if wanted = some r.number then .done (.found r)
  else if wanted.any (r.number < ·) then .done (t.defaultProperty (wanted.getD 0))
  else if previous.isSome && s.passed then .done (.found r)
  else if previous.any (r.number < ·) then .done .missing
  else .again ⟨r.data + r.length, previous == some r.number⟩

section
variable {t : ObjectTable} {m : Memory} {wanted previous : Option UInt16} {s s' : RecordScan}
  {found : PropertySearch}

/-- Going on leads past a record that the search is not about. -/
theorem searchPass_again (h : t.searchPass m wanted previous s = .again s') :
    t.recordNumber m s.address ≠ 0 ∧
      s'.address = (t.recordAt m s.address).data + (t.recordAt m s.address).length ∧
      ∀ rest, t.searchRecords wanted previous s.passed (t.recordAt m s.address :: rest) =
        t.searchRecords wanted previous s'.passed rest := by
  unfold searchPass at h
  dsimp only at h
  split_ifs at h with hend hfound hbelow hafter hmissing
  cases h
  refine ⟨hend, rfl, fun rest => ?_⟩
  rw [searchRecords, if_neg hfound, if_neg hbelow, if_neg hafter, if_neg hmissing]

/-- The search ends with what the list of the records gives. -/
theorem searchPass_done (h : t.searchPass m wanted previous s = .done found) :
    found = t.searchRecords wanted previous s.passed (t.records m s.address) := by
  unfold searchPass at h
  dsimp only at h
  split_ifs at h with hend hfound hbelow hafter hmissing <;> cases h
  · rw [records, dif_pos (show t.recordNumber m s.address = 0 from hend)]
  all_goals rw [records_of_recordNumber_ne_zero hend, searchRecords]
  · rw [if_pos hfound]
  · rw [if_neg hfound, if_pos hbelow]
  · rw [if_neg hfound, if_neg hbelow, if_pos hafter]
  · rw [if_neg hfound, if_neg hbelow, if_neg hafter, if_pos hmissing]

end

/-- **A property search ends**: each of its passes but the last takes two bytes or more of the
image. -/
theorem ends_search (t : ObjectTable) (m : Memory) (wanted previous : Option UInt16)
    (s : RecordScan) :
    ∃ n ≤ (m.size - s.address + 1) / 2 + 1, Loop.Ends (t.searchPass m wanted previous) n s
      (t.searchRecords wanted previous s.passed (t.records m s.address)) := by
  refine Loop.ends_of_measure _ (fun s => (m.size - s.address + 1) / 2)
    (fun s => t.searchRecords wanted previous s.passed (t.records m s.address))
    (fun s s' h => ?_) (fun s found h => searchPass_done h) s
  obtain ⟨hrecord, haddress, hrecords⟩ := searchPass_again h
  constructor
  · have hinside := t.lt_size_of_recordNumber_ne_zero m s.address hrecord
    have hhead := t.lt_data_recordAt m s.address
    have hdata : 0 < (t.recordAt m s.address).length := t.dataLength_pos m s.address
    omega
  · rw [records_of_recordNumber_ne_zero hrecord, hrecords, haddress]

end ObjectTable

/-! ## The keys that end a line -/

namespace Machine

/-- The keys found so far, and the address of the byte that comes next. -/
structure KeyScan where
  address : Nat
  keys : List UInt8
  deriving DecidableEq, Repr

/-- One pass looks at one byte; a zero ends the table. -/
def keyPass (m : Memory) (s : KeyScan) : Pass KeyScan (List UInt8) :=
  let b := m.byteAt s.address
  if b = 0 then .done s.keys
  else .again ⟨s.address + 1, if isFunctionKey b then s.keys ++ [b] else s.keys⟩

/-- **The table of keys ends**, with the image at the latest. -/
theorem ends_keys (m : Memory) (s : KeyScan) :
    ∃ n ≤ m.size - s.address + 1,
      Loop.Ends (keyPass m) n s (s.keys ++ (bytesToZero m s.address).filter isFunctionKey) := by
  refine Loop.ends_of_measure _ (fun s => m.size - s.address)
    (fun s => s.keys ++ (bytesToZero m s.address).filter isFunctionKey)
    (fun s s' h => ?_) (fun s found h => ?_) s
  · unfold keyPass at h
    dsimp only at h
    split_ifs at h with hend hkey <;> cases h
    all_goals
      have hinside := m.lt_size_of_byteAt_ne_zero s.address hend
      refine ⟨by dsimp only; omega, ?_⟩
      rw [bytesToZero.eq_def m s.address, dif_neg hend]
    · rw [List.filter_cons_of_pos hkey, List.append_assoc]
      rfl
    · rw [List.filter_cons_of_neg hkey]
  · unfold keyPass at h
    dsimp only at h
    split_ifs at h with hend
    cases h
    rw [bytesToZero, dif_pos hend]
    exact (List.append_nil s.keys).symm

theorem terminators_eq (m : Machine) :
    m.terminators =
      returnKey ::
        if m.version < 5 ∨ m.memory.pointerAt Field.terminators = 0 then []
        else (bytesToZero m.memory (m.memory.pointerAt Field.terminators)).filter isFunctionKey := by
  unfold terminators
  dsimp only
  split <;> rfl

end Machine

/-! ## Every scan -/

/-- **Every scan of story data ends**, on any bytes.

The loop that reads a string ends with it, after at most as many passes as the image allows and with
at most one string that waits for an abbreviation.  The string ends with the first of its words that
has the stop bit or that the image ends with, which is the same one for every codec.  The loop of a
property search ends for any object and query, and the loop over the keys that end a line wherever
their table lies; what they end with is what the search and the input then give. -/
theorem scans_end (m : Memory) :
    (∀ address, ∃ k, Text.StringEndsAt m (address + 2 * k) ∧
      (∀ j < k, ¬ Text.StringEndsAt m (address + 2 * j)) ∧
      ∀ c : Text.Codec,
        (∃ n ≤ (4 * m.size + 5) ^ 2,
          Loop.Ends (c.scanPass m) n ⟨.start m true address, []⟩ (c.read m address)) ∧
        (c.read m address).2 = address + 2 * k + 2 ∧
        ∀ s, Loop.Reaches (c.scanPass m) ⟨.start m true address, []⟩ s → s.waiting.length ≤ 1) ∧
    (∀ (t : ObjectTable) (object : UInt16) (wanted previous : Option UInt16),
      ∃ n ≤ (m.size + 1) / 2 + 1, ∃ found,
        Loop.Ends (t.searchPass m wanted previous) n (t.scanStart m object previous) found ∧
        t.search m object wanted previous = if object = 0 then .missing else found) ∧
    ∀ machine : Machine, ∃ n ≤ m.size + 1, ∃ keys,
      Loop.Ends (Machine.keyPass m) n ⟨m.pointerAt Field.terminators, []⟩ keys ∧
      { machine with memory := m }.terminators =
        Machine.returnKey ::
          if machine.version < 5 ∨ m.pointerAt Field.terminators = 0 then [] else keys := by
  refine ⟨fun address => ?_, fun t object wanted previous => ?_, fun machine => ?_⟩
  · obtain ⟨k, hends, hbefore, hend⟩ := Text.packedWords_end m address
    exact ⟨k, hends, hbefore, fun c =>
      ⟨c.ends_scan m address, hend, fun s => c.waiting_le_one m address⟩⟩
  · obtain ⟨n, hn, hends⟩ := t.ends_search m wanted previous (t.scanStart m object previous)
    exact ⟨n, by omega, _, hends, rfl⟩
  · obtain ⟨n, hn, hends⟩ := Machine.ends_keys m ⟨m.pointerAt Field.terminators, []⟩
    exact ⟨n, by omega, _, hends, Machine.terminators_eq { machine with memory := m }⟩

end ZMachine
