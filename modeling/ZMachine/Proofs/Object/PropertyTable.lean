/-
# Property tables

How property tables are written, and that looking up properties serves exactly what is in them.

* `RecordHead` : number and length of a record in the two layouts;
* `PropertyRecord`, `PropertyList` : a record and a table as they are written;
* `PropertyList.placed` : the records of a table with the addresses of their data;
* `records_eq_place` : these are what reading the table gives;
* `Serves` : searching, addresses, lengths and succession agree with a list of records;
* `serves_placed` : they do for the records of every written table.
-/
import ZMachine.Object.Property
import ZMachine.Proofs.Text.DictionaryWord

namespace ZMachine

/-! ## How tables are written -/

/-- How the number and the length of a record are written.  In the wide layout lengths one and two
have a short head and a long one; bit 6 is of no account in either byte of a long head. -/
inductive RecordHead : Bool → Nat → Nat → List UInt8 → Prop
  | narrow {number length : Nat} (hnumber : 1 ≤ number ∧ number ≤ 31)
      (hlength : 1 ≤ length ∧ length ≤ 8) :
      RecordHead false number length [UInt8.ofNat (32 * (length - 1) + number)]
  | short {number : Nat} (hnumber : 1 ≤ number ∧ number ≤ 63) (double : Bool) :
      RecordHead true number (1 + double.toNat) [UInt8.ofNat (0x40 * double.toNat + number)]
  | long {number length : Nat} (hnumber : 1 ≤ number ∧ number ≤ 63)
      (hlength : 1 ≤ length ∧ length ≤ 64) (spare spare' : Bool) :
      RecordHead true number length
        [UInt8.ofNat (0x80 + 0x40 * spare.toNat + number),
          UInt8.ofNat (0x80 + 0x40 * spare'.toNat + length % 64)]

/-- A property record as it is written. -/
structure PropertyRecord (wide : Bool) where
  number : Nat
  head : List UInt8
  data : List UInt8
  heading : RecordHead wide number data.length head

namespace PropertyRecord

variable {wide : Bool}

/-- The bytes of a record. -/
def bytes (r : PropertyRecord wide) : List UInt8 :=
  r.head ++ r.data

/-- The property that a record at an address stands for. -/
def propertyAt (r : PropertyRecord wide) (address : Nat) : Property where
  number := UInt16.ofNat r.number
  data := address + r.head.length
  length := r.data.length
  owned := true

/-- The properties of records that follow one another from an address on. -/
def place (address : Nat) : List (PropertyRecord wide) → List Property
  | [] => []
  | r :: rest => r.propertyAt address :: place (address + r.bytes.length) rest

end PropertyRecord

/-- A property table as it is written: a short name and records with descending numbers. -/
structure PropertyList (wide : Bool) where
  /-- The packed text of the short name. -/
  name : List UInt16
  records : List (PropertyRecord wide)
  name_le : name.length ≤ 255
  descending : records.Pairwise fun r s => s.number < r.number

namespace PropertyList

variable {wide : Bool}

/-- The bytes of the records and the zero after them. -/
def recordBytes (records : List (PropertyRecord wide)) : List UInt8 :=
  records.flatMap PropertyRecord.bytes ++ [0]

/-- The bytes of a table. -/
def bytes (l : PropertyList wide) : List UInt8 :=
  UInt8.ofNat l.name.length :: (Text.bytesOfWords l.name ++ recordBytes l.records)

/-- The properties of a table at an address. -/
def placed (l : PropertyList wide) (table : Nat) : List Property :=
  PropertyRecord.place (table + 1 + 2 * l.name.length) l.records

end PropertyList

/-! ## Reading a written table -/

theorem RecordHead.number_bounds {wide : Bool} {number length : Nat} {head : List UInt8}
    (h : RecordHead wide number length head) : 1 ≤ number ∧ number ≤ 63 := by
  cases h with
  | narrow hnumber => omega
  | short hnumber => exact hnumber
  | long hnumber => exact hnumber

theorem PropertyRecord.toNat_number_propertyAt {wide : Bool} (r : PropertyRecord wide)
    (address : Nat) : (r.propertyAt address).number.toNat = r.number := by
  have hbounds := r.heading.number_bounds
  exact UInt16.toNat_ofNat_of_lt (show r.number < 65536 by omega)

theorem PropertyRecord.number_propertyAt_ne_zero {wide : Bool} (r : PropertyRecord wide)
    (address : Nat) : (r.propertyAt address).number ≠ 0 := by
  intro hzero
  have hbounds := r.heading.number_bounds
  have hnumber := r.toNat_number_propertyAt address
  rw [hzero, UInt16.toNat_zero] at hnumber
  omega

namespace ObjectTable

variable {t : ObjectTable} {m : Memory} {a number length : Nat} {head : List UInt8}

/-- The length from the long form's second byte, where 64 is written as zero. -/
theorem longLength_of_toNat {size : UInt8} {spare : Bool} (hlength : 1 ≤ length ∧ length ≤ 64)
    (hsize : size.toNat = 0x80 + 0x40 * spare.toNat + length % 64) : longLength size = length := by
  have hrest : size.toNat % 64 = length % 64 := by omega
  unfold longLength
  split <;> omega

/-- The record at an address by the number of its first byte. -/
theorem recordAt_wide (base : Nat) :
    recordAt ⟨base, true⟩ m a =
      { number := UInt16.ofNat ((m.byteAt a).toNat % 64)
        data := a + if 0x80 ≤ (m.byteAt a).toNat then 2 else 1
        length :=
          if 0x80 ≤ (m.byteAt a).toNat then longLength (m.byteAt (a + 1))
          else if 0x40 ≤ (m.byteAt a).toNat then 2
          else 1
        owned := true } := by
  simp [recordAt, recordNumber, headLength, dataLength, UInt8.le_iff_toNat_le]

/-- The length before an address by the number of the byte there. -/
theorem propLength_wide (base : Nat) :
    propLength ⟨base, true⟩ m (a + 1) =
      if 0x80 ≤ (m.byteAt a).toNat then longLength (m.byteAt a)
      else if 0x40 ≤ (m.byteAt a).toNat then 2
      else 1 := by
  simp [propLength, UInt8.le_iff_toNat_le]

/-- A written head is read, from its start and from the data behind it. -/
theorem recordAt_of_head (h : RecordHead t.wide number length head) (hholds : m.Holds a head) :
    t.recordAt m a = ⟨UInt16.ofNat number, a + head.length, length, true⟩ ∧
      t.propLength m (a + head.length) = length := by
  obtain ⟨base, wide⟩ := t
  cases h with
  | narrow hnumber hlength =>
      have hbyte := toNat_byteAt_of_eq_ofNat (Memory.holds_cons_iff.mp hholds).1 (by omega)
      have h₀ : (m.byteAt a).toNat % 32 = number := by omega
      have h₁ : (m.byteAt a).toNat / 32 + 1 = length := by omega
      constructor
      · simp [recordAt, recordNumber, headLength, dataLength, h₀, h₁]
      · simpa [propLength] using h₁
  | short hnumber double =>
      have hbit := double.toNat_le
      have hbyte := toNat_byteAt_of_eq_ofNat (Memory.holds_cons_iff.mp hholds).1 (by omega)
      have hmod : (0x40 * double.toNat + number) % 64 = number := by omega
      have hlength : (if 0x40 ≤ 0x40 * double.toNat + number then 2 else 1) = 1 + double.toNat := by
        split <;> omega
      constructor
      · rw [recordAt_wide, hbyte, hmod, if_neg (by omega), if_neg (by omega), hlength]
        rfl
      · rw [List.length_singleton, propLength_wide, hbyte, if_neg (by omega), hlength]
  | long hnumber hlength spare spare' =>
      have hbit := spare.toNat_le
      have hbit' := spare'.toNat_le
      obtain ⟨hfirst, hrest⟩ := Memory.holds_cons_iff.mp hholds
      have hbyte := toNat_byteAt_of_eq_ofNat hfirst (by omega)
      have hsize := toNat_byteAt_of_eq_ofNat (Memory.holds_cons_iff.mp hrest).1 (by omega)
      have hmod : (0x80 + 0x40 * spare.toNat + number) % 64 = number := by omega
      have hlong := longLength_of_toNat hlength hsize
      constructor
      · rw [recordAt_wide, hbyte, hmod, if_pos (by omega), if_pos (by omega), hlong]
        rfl
      · show propLength _ m (a + 1 + 1) = length
        rw [propLength_wide, if_pos (by omega), hlong]

/-- The zero after the records ends the table. -/
theorem records_of_byteAt_eq_zero (h : m.byteAt a = 0) : t.records m a = [] := by
  have hnumber : t.recordNumber m a = 0 := by simp [recordNumber, h]
  rw [records, dif_pos hnumber]

/-- A written record is the first that is found at its address. -/
theorem records_of_holds (r : PropertyRecord t.wide) (hholds : m.Holds a r.head) :
    t.records m a = r.propertyAt a :: t.records m (a + r.bytes.length) := by
  obtain ⟨hrecord, -⟩ := recordAt_of_head r.heading hholds
  have hread : t.recordAt m a = r.propertyAt a := hrecord
  have hnumber : t.recordNumber m a ≠ 0 := by
    have heq : t.recordNumber m a = (r.propertyAt a).number := congrArg Property.number hread
    rw [heq]
    exact r.number_propertyAt_ne_zero a
  rw [records, dif_neg hnumber]
  dsimp only
  rw [hread, PropertyRecord.bytes, List.length_append, ← Nat.add_assoc]
  rfl

/-- The head of the first record lies at the start of the records, the others follow it. -/
theorem holds_of_recordBytes_cons {wide : Bool} {r : PropertyRecord wide}
    {rest : List (PropertyRecord wide)}
    (hholds : m.Holds a (PropertyList.recordBytes (r :: rest))) :
    m.Holds a r.head ∧ m.Holds (a + r.bytes.length) (PropertyList.recordBytes rest) := by
  have hsplit : PropertyList.recordBytes (r :: rest)
      = r.bytes ++ PropertyList.recordBytes rest := by
    simp [PropertyList.recordBytes]
  rw [hsplit] at hholds
  obtain ⟨hfirst, hrest⟩ := Memory.holds_append_iff.mp hholds
  exact ⟨(Memory.holds_append_iff.mp hfirst).1, hrest⟩

/-- **Reading a written table gives its records.** -/
theorem records_eq_place (l : List (PropertyRecord t.wide))
    (hholds : m.Holds a (PropertyList.recordBytes l)) :
    t.records m a = PropertyRecord.place a l := by
  induction l generalizing a with
  | nil => exact records_of_byteAt_eq_zero (Memory.holds_cons_iff.mp hholds).1
  | cons r rest ih =>
      obtain ⟨hhead, hrest⟩ := holds_of_recordBytes_cons hholds
      rw [records_of_holds r hhead, ih hrest, PropertyRecord.place]

/-- Every property of a written table comes from a record whose head lies before its data. -/
theorem exists_record_of_mem_place {wide : Bool} {l : List (PropertyRecord wide)}
    (hholds : m.Holds a (PropertyList.recordBytes l)) {p : Property}
    (hp : p ∈ PropertyRecord.place a l) :
    ∃ r ∈ l, ∃ b, p = r.propertyAt b ∧ m.Holds b r.head := by
  induction l generalizing a with
  | nil => cases hp
  | cons r rest ih =>
      obtain ⟨hhead, hrest⟩ := holds_of_recordBytes_cons hholds
      rcases List.mem_cons.mp hp with rfl | hp
      · exact ⟨r, List.mem_cons_self, a, rfl, hhead⟩
      · obtain ⟨s, hs, hplaced⟩ := ih hrest hp
        exact ⟨s, List.mem_cons_of_mem r hs, hplaced⟩

theorem pairwise_place {wide : Bool} {l : List (PropertyRecord wide)}
    (hholds : m.Holds a (PropertyList.recordBytes l))
    (hl : l.Pairwise fun r s => s.number < r.number) :
    (PropertyRecord.place a l).Pairwise fun r s => s.number < r.number := by
  induction l generalizing a with
  | nil => exact List.Pairwise.nil
  | cons r rest ih =>
      obtain ⟨-, hrest⟩ := holds_of_recordBytes_cons hholds
      obtain ⟨hbelow, hl⟩ := List.pairwise_cons.mp hl
      refine List.pairwise_cons.mpr ⟨fun p hp => ?_, ih hrest hl⟩
      obtain ⟨s, hs, b, rfl, -⟩ := exists_record_of_mem_place hrest hp
      rw [UInt16.lt_iff_toNat_lt, s.toNat_number_propertyAt, r.toNat_number_propertyAt]
      exact hbelow s hs

/-! ## Searching records in descending order -/

section
variable {rs : List Property} {wanted : UInt16}

/-- A record that is listed is found. -/
theorem searchRecords_of_mem {r : Property} (hrs : rs.Pairwise fun r s => s.number < r.number)
    (hr : r ∈ rs) (seen : Bool) : t.searchRecords (some r.number) none seen rs = .found r := by
  induction rs generalizing seen with
  | nil => cases hr
  | cons x rest ih =>
      obtain ⟨hbelow, hrest⟩ := List.pairwise_cons.mp hrs
      unfold searchRecords
      rcases List.mem_cons.mp hr with rfl | hr
      · exact if_pos rfl
      · have hlt : r.number < x.number := hbelow r hr
        have hne : some r.number ≠ some x.number := by
          intro heq
          rw [Option.some.inj heq] at hlt
          exact UInt16.lt_irrefl _ hlt
        have hnot : ¬ (some r.number).any (x.number < ·) := by
          simpa using UInt16.le_of_lt hlt
        rw [if_neg hne, if_neg hnot]
        exact ih hrest hr _

/-- For a number that is not listed the default is found, whether the search ends early or not. -/
theorem searchRecords_of_not_mem (hwanted : wanted ∉ rs.map Property.number) (seen : Bool) :
    t.searchRecords (some wanted) none seen rs = t.defaultProperty wanted := by
  induction rs generalizing seen with
  | nil => rfl
  | cons x rest ih =>
      rw [List.map_cons, List.mem_cons, not_or] at hwanted
      obtain ⟨hne, hrest⟩ := hwanted
      unfold searchRecords
      rw [if_neg fun heq => hne (Option.some.inj heq)]
      split
      · rfl
      · exact ih hrest _

/-- What a search for the record after another finds if these records are left. -/
def following : List Property → PropertySearch
  | [] => .last
  | r :: _ => .found r

theorem searchRecords_seen (previous : UInt16) :
    t.searchRecords none (some previous) true rs = following rs := by
  cases rs <;> rfl

/-- A record with another number is passed, unless it shows that the number is not listed. -/
theorem searchRecords_pass {x : Property} (hne : wanted ≠ x.number) :
    t.searchRecords none (some wanted) false (x :: rs)
      = if x.number < wanted then .missing else t.searchRecords none (some wanted) false rs := by
  have hseen : (some wanted == some x.number) = false := by simpa using hne
  rw [searchRecords, hseen]
  simp

/-- After a listed record comes the next one. -/
theorem searchRecords_after {before after : List Property} {r : Property}
    (hrs : (before ++ r :: after).Pairwise fun r s => s.number < r.number) :
    t.searchRecords none (some r.number) false (before ++ r :: after) = following after := by
  induction before with
  | nil =>
      rw [List.nil_append, searchRecords, ← searchRecords_seen (t := t) r.number]
      simp
  | cons x before ih =>
      rw [List.cons_append] at hrs ⊢
      obtain ⟨hbelow, hrest⟩ := List.pairwise_cons.mp hrs
      have hlt : r.number < x.number :=
        hbelow r (List.mem_append_right before List.mem_cons_self)
      have hne : r.number ≠ x.number := UInt16.ne_of_lt hlt
      rw [searchRecords_pass hne, if_neg (UInt16.lt_asymm hlt), ih hrest]

/-- No record comes after a number that is not listed. -/
theorem searchRecords_missing (hwanted : wanted ∉ rs.map Property.number) :
    t.searchRecords none (some wanted) false rs = .missing := by
  induction rs with
  | nil => rfl
  | cons x rest ih =>
      rw [List.map_cons, List.mem_cons, not_or] at hwanted
      rw [searchRecords_pass hwanted.1, ih hwanted.2, ite_self]

end

/-! ## What is served -/

/-- Looking up the properties of an object serves exactly these records, in their order. -/
structure Serves (t : ObjectTable) (m : Memory) (object : UInt16) (listed : List Property) :
    Prop where
  /-- A listed record is found. -/
  found : ∀ r ∈ listed, t.search m object (some r.number) none = .found r
  /-- For any other number it is the entry in the table of defaults. -/
  absent : ∀ number, number ≠ 0 → number ∉ listed.map Property.number →
    t.search m object (some number) none = .default
      { number, data := t.base + (number.toNat - 1) * 2, length := 2, owned := false }
  /-- Only listed records have an address. -/
  address : ∀ number,
    t.propAddress m object number ≠ 0 ↔ number ∈ listed.map Property.number
  /-- Their lengths are found behind their addresses. -/
  length : ∀ r ∈ listed, t.propLength m (t.propAddress m object r.number) = r.length
  /-- From zero on, each number leads to the next one and the last to zero. -/
  next : (0 :: (listed.map Property.number ++ [0])).IsChain fun number following =>
    t.nextProp m object number = .ok following
  /-- Nothing comes after a number that is not listed. -/
  noNext : ∀ number, t.nextProp m object number = .error (.noNextProperty object number) ↔
    number ≠ 0 ∧ number ∉ listed.map Property.number

/-- The records that are read from the property table of an object, in proper form. -/
structure Listing (t : ObjectTable) (m : Memory) (object : UInt16) (listed : List Property) :
    Prop where
  object_ne_zero : object ≠ 0
  records_eq : t.records m (t.firstRecord m object) = listed
  descending : listed.Pairwise fun r s => s.number < r.number
  number_ne_zero : ∀ r ∈ listed, r.number ≠ 0
  data_ne_zero : ∀ r ∈ listed, r.data ≠ 0
  propLength_eq : ∀ r ∈ listed, t.propLength m r.data = r.length

namespace Listing

variable {object number : UInt16} {listed : List Property}

theorem search_eq (h : t.Listing m object listed) (wanted previous : Option UInt16) :
    t.search m object wanted previous
      = t.searchRecords wanted previous (previous == some 0) listed := by
  rw [search, if_neg h.object_ne_zero, h.records_eq]

theorem search_of_mem (h : t.Listing m object listed) {r : Property} (hr : r ∈ listed) :
    t.search m object (some r.number) none = .found r := by
  rw [h.search_eq]
  exact searchRecords_of_mem h.descending hr _

theorem search_of_not_mem (h : t.Listing m object listed)
    (hnumber : number ∉ listed.map Property.number) :
    t.search m object (some number) none = t.defaultProperty number := by
  rw [h.search_eq]
  exact searchRecords_of_not_mem hnumber _

theorem propAddress_of_mem (h : t.Listing m object listed) {r : Property} (hr : r ∈ listed) :
    t.propAddress m object r.number = r.data := by
  rw [propAddress, h.search_of_mem hr]

theorem propAddress_ne_zero_iff (h : t.Listing m object listed) :
    t.propAddress m object number ≠ 0 ↔ number ∈ listed.map Property.number := by
  constructor
  · intro haddress
    by_contra hnumber
    apply haddress
    rw [propAddress, h.search_of_not_mem hnumber]
    by_cases hzero : number = 0
    · simp [defaultProperty, hzero]
    · simp [defaultProperty, hzero]
  · intro hnumber
    obtain ⟨r, hr, rfl⟩ := List.mem_map.mp hnumber
    rw [h.propAddress_of_mem hr]
    exact h.data_ne_zero r hr

/-- The number of the first of some records, zero if there are none. -/
def firstNumber : List Property → UInt16
  | [] => 0
  | r :: _ => r.number

theorem nextProp_of_following (h : t.Listing m object listed) {after : List Property}
    (hsearch : t.search m object none (some number) = following after) :
    t.nextProp m object number = .ok (firstNumber after) := by
  rw [nextProp, if_neg h.object_ne_zero, hsearch]
  cases after <;> rfl

theorem nextProp_zero (h : t.Listing m object listed) :
    t.nextProp m object 0 = .ok (firstNumber listed) := by
  apply h.nextProp_of_following
  rw [h.search_eq]
  exact searchRecords_seen 0

theorem nextProp_after (h : t.Listing m object listed) {before after : List Property} {r : Property}
    (hlisted : listed = before ++ r :: after) :
    t.nextProp m object r.number = .ok (firstNumber after) := by
  have hr : r ∈ listed := hlisted ▸ List.mem_append_right before List.mem_cons_self
  have hseen : (some r.number == some 0) = false := by simpa using h.number_ne_zero r hr
  apply h.nextProp_of_following
  rw [h.search_eq, hseen, hlisted]
  exact searchRecords_after (hlisted ▸ h.descending)

theorem nextProp_of_not_mem (h : t.Listing m object listed) (hzero : number ≠ 0)
    (hnumber : number ∉ listed.map Property.number) :
    t.nextProp m object number = .error (.noNextProperty object number) := by
  have hseen : (some number == some 0) = false := by simpa using hzero
  rw [nextProp, if_neg h.object_ne_zero, h.search_eq, hseen, searchRecords_missing hnumber]

/-- Numbers are enumerated from any place of the table on. -/
theorem isChain_nextProp (h : t.Listing m object listed) {before after : List Property}
    (hlisted : listed = before ++ after)
    (hnext : t.nextProp m object number = .ok (firstNumber after)) :
    (number :: (after.map Property.number ++ [0])).IsChain fun number following =>
      t.nextProp m object number = .ok following := by
  induction after generalizing before number with
  | nil => exact .cons_cons hnext (.singleton 0)
  | cons r after ih =>
      have hmoved : listed = (before ++ [r]) ++ after := by
        rw [hlisted, List.append_assoc, List.singleton_append]
      exact .cons_cons hnext (ih hmoved (h.nextProp_after hlisted))

theorem nextProp_eq_error_iff (h : t.Listing m object listed) :
    t.nextProp m object number = .error (.noNextProperty object number) ↔
      number ≠ 0 ∧ number ∉ listed.map Property.number := by
  constructor
  · intro herror
    constructor
    · rintro rfl
      rw [h.nextProp_zero] at herror
      cases herror
    · intro hnumber
      obtain ⟨r, hr, rfl⟩ := List.mem_map.mp hnumber
      obtain ⟨before, after, hlisted⟩ := List.append_of_mem hr
      rw [h.nextProp_after hlisted] at herror
      cases herror
  · rintro ⟨hzero, hnumber⟩
    exact h.nextProp_of_not_mem hzero hnumber

end Listing

/-- A written table is read in proper form. -/
theorem listing_placed {object : UInt16} (hobject : object ≠ 0) (l : PropertyList t.wide)
    (hholds : m.Holds (t.propertyTable m object) l.bytes) :
    t.Listing m object (l.placed (t.propertyTable m object)) := by
  obtain ⟨hname, hrest⟩ := Memory.holds_cons_iff.mp hholds
  obtain ⟨-, hrecords⟩ := Memory.holds_append_iff.mp hrest
  have hlength := toNat_byteAt_of_eq_ofNat hname (Nat.lt_succ_of_le l.name_le)
  rw [Text.length_bytesOfWords] at hrecords
  have hfirst : t.firstRecord m object
      = t.propertyTable m object + 1 + 2 * l.name.length := by
    rw [firstRecord, hlength, Nat.mul_comm]
  have hrecord : ∀ p ∈ l.placed (t.propertyTable m object),
      ∃ r : PropertyRecord t.wide, ∃ b, p = r.propertyAt b ∧ m.Holds b r.head := by
    intro p hp
    obtain ⟨r, -, hr⟩ := exists_record_of_mem_place hrecords hp
    exact ⟨r, hr⟩
  refine ⟨hobject, ?_, pairwise_place hrecords l.descending, ?_, ?_, ?_⟩
  · rw [hfirst]
    exact records_eq_place l.records hrecords
  · intro p hp
    obtain ⟨r, b, rfl, -⟩ := hrecord p hp
    exact r.number_propertyAt_ne_zero b
  · intro p hp
    obtain ⟨r, b, rfl, hhead⟩ := hrecord p hp
    have hdata := t.lt_data_recordAt m b
    rw [(recordAt_of_head r.heading hhead).1] at hdata
    exact Nat.ne_of_gt (Nat.zero_lt_of_lt hdata)
  · intro p hp
    obtain ⟨r, b, rfl, hhead⟩ := hrecord p hp
    exact (recordAt_of_head r.heading hhead).2

/-- **Property lookup is exact.**  Whatever an object's table lists, in either layout and after a
short name of any length, is what searching, addresses, lengths and succession serve. -/
theorem serves_placed (t : ObjectTable) (m : Memory) (object : UInt16) (hobject : object ≠ 0)
    (l : PropertyList t.wide) (hholds : m.Holds (t.propertyTable m object) l.bytes) :
    t.Serves m object (l.placed (t.propertyTable m object)) := by
  have hlisting := listing_placed hobject l hholds
  refine ⟨fun r hr => hlisting.search_of_mem hr, ?_,
    fun number => hlisting.propAddress_ne_zero_iff, ?_,
    hlisting.isChain_nextProp (List.nil_append _).symm hlisting.nextProp_zero,
    fun number => hlisting.nextProp_eq_error_iff⟩
  · intro number hzero hnumber
    rw [hlisting.search_of_not_mem hnumber, defaultProperty, if_neg hzero]
  · intro r hr
    rw [hlisting.propAddress_of_mem hr]
    exact hlisting.propLength_eq r hr

/-- A table with a record of 64 bytes, one with a short head and one with a long head for its
single byte. -/
def crowdedList : PropertyList true where
  name := [0x94A5]
  records :=
    [{ number := 40
       head := [0xE8, 0x80]
       data := List.replicate 64 7
       heading := .long (by decide) (by decide) true false },
     { number := 39
       head := [0x67]
       data := [1, 2]
       heading := .short (by decide) true },
     { number := 3
       head := [0x83, 0xC1]
       data := [9]
       heading := .long (by decide) (by decide) false true }]
  name_le := by decide
  descending := by decide

/-- A story whose first object has that table at `0x90`. -/
def crowdedStory : Memory :=
  .ofImage (List.replicate 138 0 ++ [0, 0x90, 0, 0, 0, 0] ++ crowdedList.bytes).toArray

theorem serves_placed_crowded :
    let t : ObjectTable := ⟨0, true⟩
    crowdedStory.Holds (t.propertyTable crowdedStory 1) crowdedList.bytes ∧
      t.search crowdedStory 1 (some 40) none = .found ⟨40, 0x95, 64, true⟩ ∧
      t.search crowdedStory 1 (some 38) none = .default ⟨38, 74, 2, false⟩ ∧
      t.propLength crowdedStory (t.propAddress crowdedStory 1 40) = 64 ∧
      t.nextProp crowdedStory 1 39 = .ok 3 ∧
      t.nextProp crowdedStory 1 38 = .error (.noNextProperty 1 38) := by
  intro t
  have hholds : crowdedStory.Holds (t.propertyTable crowdedStory 1) crowdedList.bytes := by
    unfold Memory.Holds
    decide +kernel
  have htable : t.propertyTable crowdedStory 1 = 0x90 := by decide +kernel
  have hserves := serves_placed t crowdedStory 1 (by decide) crowdedList hholds
  rw [htable] at hserves
  have hmem : ⟨40, 0x95, 64, true⟩ ∈ crowdedList.placed 0x90 := by decide +kernel
  refine ⟨hholds, hserves.found _ hmem, hserves.absent 38 (by decide) (by decide),
    hserves.length _ hmem, ?_, (hserves.noNext 38).mpr (by decide)⟩
  have hnumbers : (crowdedList.placed 0x90).map Property.number = [40, 39, 3] := by decide +kernel
  have hnext := hserves.next
  rw [hnumbers] at hnext
  simp only [List.cons_append, List.isChain_cons_cons] at hnext
  exact hnext.2.2.1

end ObjectTable
end ZMachine
