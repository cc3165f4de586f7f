/-
# Writing properties

Overwriting a property changes the bytes of its data and no others, or changes nothing.  Reading it
back walks the table again: every byte that the walk reads, the length of the short name and the
heads of the records up to the one it looks for, lies before the data, so only a write over the
pointer to the table could lead it elsewhere.

* `Owns` : an object has a record of a property;
* `search_congr` : a record is found again if the bytes before its data are the same;
* `Overwritten` : what a memory is after a property has been overwritten;
* `putProp_writes_or_refuses` : every outcome of overwriting a property.
-/
import ZMachine.Proofs.Image
import ZMachine.Proofs.Memory
import ZMachine.Proofs.Machine.Exec
import ZMachine.Proofs.Object.PropertyTable

namespace ZMachine

open Memory (SameImage)

namespace ObjectTable

variable {t : ObjectTable} {m m' : Memory} {object number : UInt16} {p : Property}

/-! ## Records that are found -/

/-- A record of the object's own table is found for a property. -/
structure Owns (t : ObjectTable) (m : Memory) (object number : UInt16) (p : Property) : Prop where
  found : t.search m object (some number) none = .found p
  owned : p.owned = true
  number : p.number = number

theorem Owns.unique {q : Property} (h : t.Owns m object number p) (h' : t.Owns m object number q) :
    p = q :=
  PropertySearch.found.inj (h.found.symm.trans h'.found)

/-- What is found is one of the records, with the number that was looked for. -/
theorem mem_of_searchRecords_eq_found {rs : List Property} {seen : Bool}
    (h : t.searchRecords (some number) none seen rs = .found p) : p ∈ rs ∧ p.number = number := by
  have hdefault : t.defaultProperty number ≠ .found p := by
    unfold defaultProperty
    split <;> nofun
  induction rs generalizing seen with
  | nil => exact absurd h hdefault
  | cons r rest ih =>
    unfold searchRecords at h
    by_cases hr : some number = some r.number
    · rw [if_pos hr] at h
      cases h
      exact ⟨List.mem_cons_self, (Option.some.inj hr).symm⟩
    · rw [if_neg hr] at h
      split at h
      · exact absurd h hdefault
      · obtain ⟨hmem, hnumber⟩ := ih h
        exact ⟨List.mem_cons_of_mem r hmem, hnumber⟩

theorem longLength_pos (size : UInt8) : 0 < longLength size := by
  unfold longLength
  split <;> omega

/-- No record is without data. -/
theorem dataLength_pos (t : ObjectTable) (m : Memory) (a : Nat) : 0 < t.dataLength m a := by
  unfold dataLength
  dsimp only
  split_ifs
  · exact longLength_pos _
  all_goals omega

/-- A record, and the records after its data. -/
theorem records_of_recordNumber_ne_zero {a : Nat} (h : t.recordNumber m a ≠ 0) :
    t.records m a =
      t.recordAt m a :: t.records m ((t.recordAt m a).data + (t.recordAt m a).length) := by
  rw [records, dif_neg h]

/-- Every record is read somewhere in the table. -/
theorem exists_recordAt_of_mem_records {a : Nat} (h : p ∈ t.records m a) :
    ∃ b, a ≤ b ∧ p = t.recordAt m b := by
  induction a using records.induct t m with
  | case1 a hend =>
    rw [records, dif_pos hend] at h
    cases h
  | case2 a hrecord r ih =>
    rw [records_of_recordNumber_ne_zero hrecord] at h
    obtain rfl | hrest := List.mem_cons.mp h
    · exact ⟨a, Nat.le_refl a, rfl⟩
    · obtain ⟨b, hle, hb⟩ := ih hrest
      have hdata : a < r.data := t.lt_data_recordAt m a
      exact ⟨b, by omega, hb⟩

/-- No data lies before that of the first record. -/
theorem data_recordAt_le_of_mem_records {a : Nat} (h : p ∈ t.records m a) :
    (t.recordAt m a).data ≤ p.data := by
  unfold records at h
  split at h
  · cases h
  · obtain rfl | hrest := List.mem_cons.mp h
    · exact Nat.le_refl _
    · obtain ⟨b, hle, rfl⟩ := exists_recordAt_of_mem_records hrest
      have hdata := t.lt_data_recordAt m b
      omega

/-- What a search finds is a record of the object's own table. -/
theorem exists_recordAt_of_search_eq_found
    (h : t.search m object (some number) none = .found p) :
    p.number = number ∧ ∃ a, t.firstRecord m object ≤ a ∧ p = t.recordAt m a := by
  unfold search at h
  split at h
  · cases h
  · obtain ⟨hmem, hnumber⟩ := mem_of_searchRecords_eq_found h
    exact ⟨hnumber, exists_recordAt_of_mem_records hmem⟩

theorem owns_iff : t.Owns m object number p ↔ t.search m object (some number) none = .found p := by
  refine ⟨Owns.found, fun h => ?_⟩
  obtain ⟨hnumber, a, -, rfl⟩ := exists_recordAt_of_search_eq_found h
  exact ⟨h, rfl, hnumber⟩

theorem Owns.length_pos (h : t.Owns m object number p) : 0 < p.length := by
  obtain ⟨-, a, -, rfl⟩ := exists_recordAt_of_search_eq_found h.found
  exact t.dataLength_pos m a

/-- The table begins before the data of its records. -/
theorem Owns.propertyTable_lt_data (h : t.Owns m object number p) :
    t.propertyTable m object < p.data := by
  obtain ⟨-, a, hle, rfl⟩ := exists_recordAt_of_search_eq_found h.found
  have hdata := t.lt_data_recordAt m a
  unfold firstRecord at hle
  dsimp only at hle
  omega

/-! ## What a search reads -/

/-- Only the bytes of its head matter to a record. -/
theorem recordAt_congr {a : Nat}
    (hbelow : ∀ b, b < (t.recordAt m a).data → m'.byteAt b = m.byteAt b) :
    t.recordAt m' a = t.recordAt m a := by
  have hfirst : m'.byteAt a = m.byteAt a := hbelow a (t.lt_data_recordAt m a)
  unfold recordAt recordNumber headLength dataLength
  rw [hfirst]
  by_cases hlong : t.wide ∧ 0x80 ≤ m.byteAt a
  · have hsecond : m'.byteAt (a + 1) = m.byteAt (a + 1) := by
      apply hbelow
      simp only [recordAt, headLength, if_pos hlong]
      omega
    rw [hsecond]
  · -- a short head has no second byte
    by_cases hwide : t.wide
    · simp only [if_neg fun hsize => hlong ⟨hwide, hsize⟩]
    · simp only [if_neg hwide]

/-- A record is found again if all bytes before its data are the same. -/
theorem searchRecords_congr {a : Nat} {seen : Bool}
    (hfound : t.searchRecords (some number) none seen (t.records m a) = .found p)
    (hbelow : ∀ b, b < p.data → m'.byteAt b = m.byteAt b) :
    t.searchRecords (some number) none seen (t.records m' a) = .found p := by
  induction a using records.induct t m generalizing seen
  case case1 a hend =>
    have hmem := (mem_of_searchRecords_eq_found hfound).1
    rw [records, dif_pos hend] at hmem
    cases hmem
  case case2 a hrecord r ih =>
    have hle := data_recordAt_le_of_mem_records (mem_of_searchRecords_eq_found hfound).1
    have hsame : t.recordAt m' a = t.recordAt m a :=
      recordAt_congr fun b hb => hbelow b (Nat.lt_of_lt_of_le hb hle)
    have hrecord' : t.recordNumber m' a ≠ 0 := by
      have hnumber : t.recordNumber m' a = t.recordNumber m a := congrArg Property.number hsame
      rwa [hnumber]
    rw [records_of_recordNumber_ne_zero hrecord, searchRecords] at hfound
    rw [records_of_recordNumber_ne_zero hrecord', hsame, searchRecords]
    by_cases hwanted : some number = some (t.recordAt m a).number
    · rw [if_pos hwanted] at hfound ⊢
      exact hfound
    · rw [if_neg hwanted] at hfound ⊢
      by_cases hpassed : (some number).any ((t.recordAt m a).number < ·)
      · rw [if_pos hpassed] at hfound ⊢
        exact hfound
      · rw [if_neg hpassed] at hfound ⊢
        exact ih hfound

/-- The address of the pointer to an object's property table. -/
def tablePointer (t : ObjectTable) (object : UInt16) : Nat :=
  t.entry object + if t.wide then 12 else 7

/-- An object still has a record if the bytes before its data and the pointer to the table are the
same. -/
theorem Owns.congr (h : t.Owns m object number p)
    (hbelow : ∀ b, b < p.data → m'.byteAt b = m.byteAt b)
    (hpointer : m'.wordAt (t.tablePointer object) = m.wordAt (t.tablePointer object)) :
    t.Owns m' object number p := by
  have htable : t.propertyTable m' object = t.propertyTable m object := by
    unfold propertyTable Memory.pointerAt
    split
    · rfl
    · exact congrArg UInt16.toNat hpointer
  have hfirst : t.firstRecord m' object = t.firstRecord m object := by
    unfold firstRecord
    rw [htable]
    dsimp only
    rw [hbelow _ h.propertyTable_lt_data]
  have hfound := h.found
  refine ⟨?_, h.owned, h.number⟩
  unfold search at hfound ⊢
  split at hfound
  · cases hfound
  · rename_i hobject
    rw [if_neg hobject, hfirst]
    exact searchRecords_congr hfound hbelow

/-! ## Overwriting -/

/-- A memory is another one with a value in the data of a record and nothing else changed. -/
structure Overwritten (t : ObjectTable) (m m' : Memory) (object number value : UInt16)
    (p : Property) : Prop where
  image : SameImage m m'
  outside : ∀ a, a < p.data ∨ p.data + p.length ≤ a → m'.byteAt a = m.byteAt a
  /-- The value is read back from data in the image that do not overlap the pointer to the table. -/
  readBack : p.data + p.length ≤ m.size →
    p.data + p.length ≤ t.tablePointer object ∨ t.tablePointer object + 2 ≤ p.data →
    t.getProp m' object number = if p.length = 2 then value else value % 0x100

/-- After a write to the data of a record its value is what the data hold. -/
theorem Owns.getProp_eq_valueOf (h : t.Owns m object number p)
    (houtside : ∀ a, a < p.data ∨ p.data + p.length ≤ a → m'.byteAt a = m.byteAt a)
    (hpointer : p.data + p.length ≤ t.tablePointer object ∨ t.tablePointer object + 2 ≤ p.data) :
    t.getProp m' object number = valueOf m' p := by
  have hpos := h.length_pos
  have h' : t.Owns m' object number p := by
    refine h.congr (fun b hb => houtside b (.inl hb)) (Memory.wordAt_congr ?_ ?_)
    · exact houtside _ (by omega)
    · exact houtside _ (by omega)
  rw [getProp, h'.found]

theorem toUInt16_low (w : UInt16) : (Word.low w).toUInt16 = w % 0x100 := by
  apply UInt16.toNat_inj.mp
  rw [UInt8.toNat_toUInt16, Word.toNat_low, UInt16.toNat_mod]
  rfl

/-- A byte in the data of a record of length 1. -/
theorem Owns.overwritten_setByte (h : t.Owns m object number p) (hlength : p.length = 1)
    (value : UInt16) :
    t.Overwritten m (m.setByte p.data (Word.low value)) object number value p := by
  have houtside : ∀ a, a < p.data ∨ p.data + p.length ≤ a →
      (m.setByte p.data (Word.low value)).byteAt a = m.byteAt a :=
    fun a ha => Memory.byteAt_setByte_of_ne m _ _ a (by omega)
  refine ⟨Memory.sameImage_setByte m _ _, houtside, fun hsize hpointer => ?_⟩
  rw [h.getProp_eq_valueOf houtside hpointer, valueOf, if_pos hlength, if_neg (by omega),
    Memory.byteAt_setByte_self m _ _ (by omega), toUInt16_low]

/-- A word in the data of a record of length 2. -/
theorem Owns.overwritten_setWord (h : t.Owns m object number p) (hlength : p.length = 2)
    (value : UInt16) :
    t.Overwritten m (m.setWord p.data value) object number value p := by
  have houtside : ∀ a, a < p.data ∨ p.data + p.length ≤ a →
      (m.setWord p.data value).byteAt a = m.byteAt a :=
    fun a ha => Memory.byteAt_setWord_of_ne m _ _ a (by omega) (by omega)
  refine ⟨Memory.sameImage_setWord m _ _, houtside, fun hsize hpointer => ?_⟩
  rw [h.getProp_eq_valueOf houtside hpointer, valueOf, if_neg (by omega), if_pos hlength,
    Memory.wordAt_setWord_self m _ _ (by omega)]

/-- Overwriting a property that the object has. -/
theorem Owns.putProp_eq (h : t.Owns m object number p) (hobject : object ≠ 0) (value : UInt16) :
    t.putProp m object number value =
      if p.length = 1 then .ok (m.setByte p.data (Word.low value))
      else if p.length = 2 then .ok (m.setWord p.data value)
      else .error (.badPropertyLength object number p.length) := by
  rw [putProp, if_neg hobject, h.found]

/-- Overwriting a property that the object does not have. -/
theorem putProp_of_not_owns (h : ∀ p, ¬ t.Owns m object number p) (hobject : object ≠ 0)
    (value : UInt16) :
    t.putProp m object number value = .error (.noSuchProperty object number) := by
  rw [putProp, if_neg hobject]
  split
  · rename_i p hfound
    exact absurd (owns_iff.mpr hfound) (h p)
  · rfl

/-- The instruction leaves the machine with the new memory, or with the fault and as it was. -/
theorem run_executeWith_putProp {ins : Instruction} (h : ins.op = .putProp) (s : Machine)
    (value : UInt16) :
    (Machine.executeWith ins [object, number, value]).run s =
      match s.objects.putProp s.memory object number value with
      | .ok memory => (.ok .next, { s with memory })
      | .error f => (.error (.fault f), s) := by
  unfold Machine.executeWith
  rw [h]
  dsimp only
  rw [Machine.run_bind, Machine.run_get]
  simp only [List.getD_cons_zero, List.getD_cons_succ]
  cases s.objects.putProp s.memory object number value <;> rfl

/-- The three outcomes of overwriting a property of an object. -/
theorem putProp_cases (t : ObjectTable) (m : Memory) {object : UInt16} (hobject : object ≠ 0)
    (number value : UInt16) :
    (∃ p m', t.Owns m object number p ∧ (p.length = 1 ∨ p.length = 2) ∧
      t.putProp m object number value = .ok m' ∧ t.Overwritten m m' object number value p) ∨
    (∃ p, t.Owns m object number p ∧ 2 < p.length ∧
      t.putProp m object number value = .error (.badPropertyLength object number p.length)) ∨
    ((∀ p, ¬ t.Owns m object number p) ∧
      t.putProp m object number value = .error (.noSuchProperty object number)) := by
  by_cases howns : ∃ p, t.Owns m object number p
  · obtain ⟨p, hp⟩ := howns
    have hpos := hp.length_pos
    rw [hp.putProp_eq hobject value]
    by_cases hone : p.length = 1
    · rw [if_pos hone]
      exact .inl ⟨p, _, hp, .inl hone, rfl, hp.overwritten_setByte hone value⟩
    rw [if_neg hone]
    by_cases htwo : p.length = 2
    · rw [if_pos htwo]
      exact .inl ⟨p, _, hp, .inr htwo, rfl, hp.overwritten_setWord htwo value⟩
    · rw [if_neg htwo]
      exact .inr (.inl ⟨p, hp, by omega, rfl⟩)
  · have hnone : ∀ p, ¬ t.Owns m object number p := fun p hp => howns ⟨p, hp⟩
    exact .inr (.inr ⟨hnone, putProp_of_not_owns hnone hobject value⟩)

/-- **Overwriting a property writes its data or nothing.**  For an object it succeeds exactly if the
object has a record of one or two bytes for the property.  Then only the data of this record
change, and what was written is read back from them.  Otherwise there is no such property or it is
longer, and the fault that says so leaves the machine as it was. -/
theorem putProp_writes_or_refuses (t : ObjectTable) (m : Memory) (object number value : UInt16)
    (hobject : object ≠ 0) :
    ((∃ m', t.putProp m object number value = .ok m') ↔
      ∃ p, t.Owns m object number p ∧ (p.length = 1 ∨ p.length = 2)) ∧
    (∀ p m', t.Owns m object number p → t.putProp m object number value = .ok m' →
      t.Overwritten m m' object number value p) ∧
    ((∀ p, ¬ t.Owns m object number p) →
      t.putProp m object number value = .error (.noSuchProperty object number)) ∧
    (∀ p, t.Owns m object number p → 2 < p.length →
      t.putProp m object number value = .error (.badPropertyLength object number p.length)) ∧
    ∀ (ins : Instruction) (s : Machine) (f : Fault), ins.op = .putProp →
      s.objects.putProp s.memory object number value = .error f →
      (Machine.executeWith ins [object, number, value]).run s = (.error (.fault f), s) := by
  have hfails : ∀ (ins : Instruction) (s : Machine) (f : Fault), ins.op = .putProp →
      s.objects.putProp s.memory object number value = .error f →
      (Machine.executeWith ins [object, number, value]).run s = (.error (.fault f), s) := by
    intro ins s f hop hput
    rw [run_executeWith_putProp hop, hput]
  obtain ⟨p, m', hp, hlength, hput, hover⟩ | ⟨p, hp, hlong, hput⟩ | ⟨hnone, hput⟩ :=
    putProp_cases t m hobject number value
  · refine ⟨⟨fun _ => ⟨p, hp, hlength⟩, fun _ => ⟨m', hput⟩⟩, ?_, fun hnone => absurd hp (hnone p),
      ?_, hfails⟩
    · intro q n hq hn
      obtain rfl := hp.unique hq
      obtain rfl : m' = n := Except.ok.inj (hput.symm.trans hn)
      exact hover
    · intro q hq hlong
      obtain rfl := hp.unique hq
      omega
  · have hfault : ∀ n, t.putProp m object number value ≠ .ok n := fun n => by rw [hput]; nofun
    refine ⟨⟨fun ⟨n, hn⟩ => absurd hn (hfault n), ?_⟩, fun _ n _ hn => absurd hn (hfault n),
      fun hnone => absurd hp (hnone p), ?_, hfails⟩
    · rintro ⟨q, hq, hlength⟩
      obtain rfl := hp.unique hq
      omega
    · intro q hq _
      obtain rfl := hp.unique hq
      exact hput
  · have hfault : ∀ n, t.putProp m object number value ≠ .ok n := fun n => by rw [hput]; nofun
    exact ⟨⟨fun ⟨n, hn⟩ => absurd hn (hfault n), fun ⟨q, hq, _⟩ => absurd hq (hnone q)⟩,
      fun q _ hq _ => absurd hq (hnone q), fun _ => hput, fun q hq _ => absurd hq (hnone q), hfails⟩

/-- A word and a byte are overwritten and read back; properties that are missing or long are not. -/
theorem putProp_writes_or_refuses_crowded :
    let t : ObjectTable := ⟨0, true⟩
    (1 : UInt16) ≠ 0 ∧
      (∃ m', t.putProp crowdedStory 1 39 0xBEEF = .ok m' ∧ t.getProp m' 1 39 = 0xBEEF) ∧
      (∃ m', t.putProp crowdedStory 1 3 0x1FF = .ok m' ∧ t.getProp m' 1 3 = 0xFF) ∧
      t.putProp crowdedStory 1 38 7 = .error (.noSuchProperty 1 38) ∧
      t.putProp crowdedStory 1 40 7 = .error (.badPropertyLength 1 40 64) := by
  intro t
  have htable : t.propertyTable crowdedStory 1 = 0x90 := by decide +kernel
  have hlisting : t.Listing crowdedStory 1 (crowdedList.placed 0x90) := by
    have hholds : crowdedStory.Holds (t.propertyTable crowdedStory 1) crowdedList.bytes := by
      unfold Memory.Holds
      decide +kernel
    have hlisting := listing_placed (t := t) (by decide : (1 : UInt16) ≠ 0) crowdedList hholds
    rwa [htable] at hlisting
  have hplaced : crowdedList.placed 0x90 =
      [⟨40, 0x95, 64, true⟩, ⟨39, 0xD6, 2, true⟩, ⟨3, 0xDA, 1, true⟩] := by decide +kernel
  have howns : ∀ p ∈ crowdedList.placed 0x90, t.Owns crowdedStory 1 p.number p :=
    fun p hp => owns_iff.mpr (hlisting.search_of_mem hp)
  rw [hplaced] at howns
  have h₄₀ := howns ⟨40, 0x95, 64, true⟩ (by decide)
  have h₃₉ := howns ⟨39, 0xD6, 2, true⟩ (by decide)
  have h₃ := howns ⟨3, 0xDA, 1, true⟩ (by decide)
  have hnone : ∀ p, ¬ t.Owns crowdedStory 1 38 p := by
    intro p hp
    have hfound := hp.found
    rw [hlisting.search_of_not_mem (by rw [hplaced]; decide)] at hfound
    cases hfound
  have hword := putProp_writes_or_refuses t crowdedStory 1 39 0xBEEF (by decide)
  have hbyte := putProp_writes_or_refuses t crowdedStory 1 3 0x1FF (by decide)
  obtain ⟨m₁, hput₁⟩ := hword.1.mpr ⟨_, h₃₉, .inr rfl⟩
  obtain ⟨m₂, hput₂⟩ := hbyte.1.mpr ⟨_, h₃, .inl rfl⟩
  have hsize : crowdedStory.size = 0xDC := by decide +kernel
  refine ⟨by decide, ⟨m₁, hput₁, ?_⟩, ⟨m₂, hput₂, ?_⟩,
    (putProp_writes_or_refuses t crowdedStory 1 38 7 (by decide)).2.2.1 hnone,
    (putProp_writes_or_refuses t crowdedStory 1 40 7 (by decide)).2.2.2.1 _ h₄₀ (by decide)⟩
  · exact (hword.2.1 _ m₁ h₃₉ hput₁).readBack (by rw [hsize]; decide) (.inr (by decide))
  · exact (hbyte.2.1 _ m₂ h₃ hput₂).readBack (by rw [hsize]; decide) (.inr (by decide))

end ObjectTable
end ZMachine
