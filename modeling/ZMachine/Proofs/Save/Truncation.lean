/-
# Broken off save files

A save file that is broken off anywhere is refused.  Reading a container does not see to that by
itself: a length that claims more than there is counts as all there is, a few bytes at the end that
are no chunk are left over, and a last chunk without its padding is taken as it is.

* `parseChunks_take_chunkBytes` : what the front part of one chunk is read as;
* `parseChunks_take` : the front part of some chunks is refused, or read as fewer chunks, unless
  only the padding of the last one is missing;
* `even_length_stackBytes` : the last chunk of a save file, the one of the stacks, has no padding;
* `read_take_write` : so a chunk that every save file must have is missing or broken off.
-/
import ZMachine.Proofs.Save.RoundTrip

namespace ZMachine

namespace Save

/-- Nothing can be cut off that is longer than the list. -/
theorem split?_of_length_lt {α : Type} {l : List α} {n : Nat} (h : l.length < n) :
    split? n l = none := by
  cases hsplit : split? n l with
  | none => rfl
  | some p =>
      obtain ⟨rfl, hlength⟩ := (split?_eq_some_iff n l p.1 p.2).mp hsplit
      rw [List.length_append] at h
      omega

end Save

/-! ## Chunks -/

namespace Container

/-- Fewer than eight bytes hold no chunk. -/
theorem parseChunks_of_length_lt {bytes : List UInt8} (h : bytes.length < 8) :
    parseChunks bytes = .ok [] := by
  rw [parseChunks]
  rintro i₀ i₁ i₂ i₃ l₀ l₁ l₂ l₃ rest rfl
  simp only [List.length_cons] at h
  omega

/-- **The front part of a written chunk** is left over if it is less than the head of the chunk,
refused if the data is broken off, and read as the chunk if only the padding is missing. -/
theorem parseChunks_take_chunkBytes (c : Chunk) (h : c.data.length < 4294967296) {k : Nat}
    (hk : k < (chunkBytes c).length) :
    parseChunks ((chunkBytes c).take k)
      = if k < 8 then .ok []
        else if k < 8 + c.data.length then
          .error (.truncatedChunk c.id.text c.data.length (k - 8))
        else .ok [c] := by
  by_cases hhead : k < 8
  · rw [if_pos hhead]
    apply parseChunks_of_length_lt
    rw [List.length_take]
    omega
  · rw [if_neg hhead]
    obtain ⟨a, b, d, e, hid⟩ := Tag.exists_eq c.id
    have hnumber := Save.number_bytes32 c.data.length h
    have hbytes : (chunkBytes c).take k
        = a :: b :: d :: e :: UInt8.ofNat (c.data.length / 16777216)
          :: UInt8.ofNat (c.data.length / 65536) :: UInt8.ofNat (c.data.length / 256)
          :: UInt8.ofNat c.data.length :: (c.data ++ padding c.data).take (k - 8) := by
      obtain ⟨j, rfl⟩ : ∃ j, k = j + 8 := ⟨k - 8, by omega⟩
      simp [chunkBytes, hid, Save.bytes32]
    simp only [Save.bytes32] at hnumber
    rw [length_chunkBytes] at hk
    rw [hbytes, parseChunks]
    simp only [hnumber]
    by_cases hdata : k < 8 + c.data.length
    · have hcut : ((c.data ++ padding c.data).take (k - 8)).length = k - 8 := by
        rw [List.length_take, length_append_padding]
        omega
      rw [if_pos hdata, Save.split?_of_length_lt (by omega), hcut, hid]
    · -- all of the data is there, so only the padding can be missing
      have hall : k - 8 = c.data.length := by
        omega
      have hrest : parseChunks (c.data.drop (c.data.length + c.data.length % 2)) = .ok [] := by
        apply parseChunks_of_length_lt
        rw [List.length_drop]
        omega
      have hsplit := Save.split?_append c.data []
      rw [List.append_nil] at hsplit
      rw [if_neg hdata, hall, List.take_left, hsplit]
      simp only [hrest]
      rw [← hid]

/-- **The front part of written chunks** is refused, or it is read as fewer chunks; only where the
last chunk has a padding may that be all that is missing. -/
theorem parseChunks_take (chunks : List Chunk) (h : ∀ c ∈ chunks, c.data.length < 4294967296)
    {k : Nat} (hk : k < (chunks.flatMap chunkBytes).length) {read : List Chunk}
    (hread : parseChunks ((chunks.flatMap chunkBytes).take k) = .ok read) :
    ∃ lost, chunks = read ++ lost ∧
      (lost = [] → ∃ c, chunks.getLast? = some c ∧ c.data.length % 2 = 1) := by
  induction chunks generalizing k read with
  | nil => cases hk
  | cons c chunks ih =>
      have hc := h c List.mem_cons_self
      have hchunks : ∀ c' ∈ chunks, c'.data.length < 4294967296 :=
        fun c' hc' => h c' (List.mem_cons_of_mem c hc')
      rw [List.flatMap_cons] at hk hread
      rw [List.length_append] at hk
      by_cases hcut : k < (chunkBytes c).length
      · -- the break is in the first chunk
        rw [List.take_append_of_le_length (by omega), parseChunks_take_chunkBytes c hc hcut] at hread
        rw [length_chunkBytes] at hcut
        split at hread
        · cases hread
          exact ⟨c :: chunks, rfl, nofun⟩
        split at hread
        · cases hread
        · cases hread
          refine ⟨chunks, rfl, ?_⟩
          rintro rfl
          exact ⟨c, rfl, by omega⟩
      · -- the first chunk is whole and the break is behind it
        obtain ⟨j, rfl⟩ : ∃ j, k = (chunkBytes c).length + j :=
          ⟨k - (chunkBytes c).length, by omega⟩
        rw [List.take_length_add_append, parseChunks_chunkBytes_append c _ hc] at hread
        cases hrest : parseChunks ((chunks.flatMap chunkBytes).take j) with
        | error e =>
            rw [hrest] at hread
            cases hread
        | ok rest =>
            rw [hrest] at hread
            cases hread
            obtain ⟨lost, hlost, hpadding⟩ := ih hchunks (by omega) hrest
            refine ⟨lost, by rw [hlost]; rfl, fun hnone => ?_⟩
            obtain ⟨c', hlast, hodd⟩ := hpadding hnone
            refine ⟨c', ?_, hodd⟩
            rw [List.getLast?_cons, hlast]
            rfl

/-! ## Whole containers -/

/-- Fewer than twelve bytes are no container. -/
theorem parse_of_length_lt {bytes : List UInt8} (h : bytes.length < 12) :
    parse bytes = .error .notContainer := by
  unfold parse
  split
  · simp only [List.length_cons] at h
    omega
  · rfl

/-- **The front part of a written container** is refused, or it is read as fewer chunks, if the data
of the last chunk needs no padding. -/
theorem parse_take_toBytes (f : Container) (h : f.bodyBytes.length < 4294967296)
    (heven : ∀ c, f.chunks.getLast? = some c → c.data.length % 2 = 0) {k : Nat}
    (hk : k < f.toBytes.length) {read : Container} (hread : parse (f.toBytes.take k) = .ok read) :
    ∃ lost, lost ≠ [] ∧ f.chunks = read.chunks ++ lost := by
  have hhead : ¬ k < 12 := by
    intro hlt
    rw [parse_of_length_lt (by rw [List.length_take]; omega)] at hread
    cases hread
  obtain ⟨j, rfl⟩ : ∃ j, k = j + 12 := ⟨k - 12, by omega⟩
  obtain ⟨a, b, c, d, htype⟩ := Tag.exists_eq f.type
  have hbody : f.bodyBytes.length = (f.chunks.flatMap chunkBytes).length + 4 := by
    rw [bodyBytes, List.length_append, Vector.length_toList, Nat.add_comm]
  have hlength : f.toBytes.length = 4 + 4 + f.bodyBytes.length := by
    rw [toBytes, List.length_append, List.length_append, Vector.length_toList]
    rfl
  have hj : j < (f.chunks.flatMap chunkBytes).length := by
    omega
  have hnumber := Save.number_bytes32 f.bodyBytes.length h
  have hbytes : f.toBytes.take (j + 12)
      = 70 :: 79 :: 82 :: 77 :: UInt8.ofNat (f.bodyBytes.length / 16777216)
        :: UInt8.ofNat (f.bodyBytes.length / 65536) :: UInt8.ofNat (f.bodyBytes.length / 256)
        :: UInt8.ofNat f.bodyBytes.length :: a :: b :: c :: d
        :: (f.chunks.flatMap chunkBytes).take j := by
    rw [toBytes]
    nth_rewrite 2 [bodyBytes]
    simp [formTag, Save.bytes32, htype]
  -- the length that the container claims is more than there is, so all there is counts
  have hall : ((f.chunks.flatMap chunkBytes).take j).take (f.bodyBytes.length - 4)
      = (f.chunks.flatMap chunkBytes).take j := by
    apply List.take_of_length_le
    rw [List.length_take]
    omega
  simp only [Save.bytes32] at hnumber
  rw [hbytes, parse, if_pos (by rfl)] at hread
  simp only [hnumber, hall] at hread
  cases hchunks : parseChunks ((f.chunks.flatMap chunkBytes).take j) with
  | error e =>
      rw [hchunks] at hread
      cases hread
  | ok chunks =>
      rw [hchunks] at hread
      cases hread
      have hlengths : ∀ c ∈ f.chunks, c.data.length < 4294967296 :=
        fun c hc => Nat.lt_of_le_of_lt (length_data_le_bodyBytes f c hc) h
      obtain ⟨lost, hlost, hpadding⟩ := parseChunks_take f.chunks hlengths hj hchunks
      refine ⟨lost, fun hnone => ?_, hlost⟩
      obtain ⟨last, hlast, hodd⟩ := hpadding hnone
      have := heven last hlast
      omega

end Container

/-! ## Save files -/

namespace Save

/-- Words take an even number of bytes. -/
theorem length_flatMap_bytes16 (words : List UInt16) :
    (words.flatMap bytes16).length = 2 * words.length := by
  induction words with
  | nil => rfl
  | cons w words ih =>
      rw [List.flatMap_cons, List.length_append, ih, List.length_cons]
      show 2 + 2 * words.length = _
      omega

/-- So does a record. -/
theorem FrameRecord.length_toBytes (r : FrameRecord) :
    r.toBytes.length = 2 * (4 + r.locals.length + r.entries.length) := by
  simp only [toBytes, List.length_append, length_flatMap_bytes16]
  show 3 + 3 + 2 + _ + _ = _
  omega

/-- **The stacks of a save file take an even number of bytes**, so their chunk has no padding. -/
theorem even_length_stackBytes (s : CallStack) : (stackBytes s).length % 2 = 0 := by
  have hrecords : ∀ records : List FrameRecord,
      (records.flatMap FrameRecord.toBytes).length % 2 = 0 := by
    intro records
    induction records with
    | nil => rfl
    | cons r records ih =>
        rw [List.flatMap_cons, List.length_append, r.length_toBytes]
        omega
  exact hrecords (stackRecords s)

end Save

namespace Quetzal

/-- The chunk of stacks is the last one of a save file, so it is among those that are lost. -/
theorem find?_stacksTag_of_append {id : StoryId} {s : Snapshot} {loaded : List UInt8}
    {f : Container} {lost : List Chunk} (hlost : lost ≠ [])
    (h : (container id s loaded).chunks = f.chunks ++ lost) : f.find? stacksTag = none := by
  have hkept : f.chunks ++ lost.dropLast = (container id s loaded).chunks.dropLast := by
    rw [h, List.dropLast_append_of_ne_nil hlost]
  have hnone : f.chunks.find? (fun c => c.id = stacksTag) = none := by
    rw [List.find?_eq_none]
    intro c hc
    have hmem : c ∈ (container id s loaded).chunks.dropLast :=
      hkept ▸ List.mem_append_left lost.dropLast hc
    have hid : c.id = headTag ∨ c.id = compressedTag := by
      rcases List.mem_pair.mp hmem with rfl | rfl
      · exact Or.inl rfl
      · exact Or.inr rfl
    rcases hid with hid | hid <;> rw [hid] <;> decide
  rw [Container.find?, hnone]
  rfl

/-- Without a chunk of stacks a container is no save file. -/
theorem ofContainer_of_find?_stacksTag_eq_none {f : Container} (h : f.find? stacksTag = none)
    (id : StoryId) (loaded : List UInt8) : ∃ e, ofContainer f id loaded = .error e := by
  cases hread : ofContainer f id loaded with
  | error e => exact ⟨e, rfl⟩
  | ok s =>
      obtain ⟨-, -, -, frames, hframes, -⟩ := ofContainer_eq_ok_iff.mp hread
      rw [h] at hframes
      cases hframes

/-- **A save file that is broken off is refused**, wherever the break is and whatever story reads
it. -/
theorem read_take_write (id : StoryId) (s : Snapshot) (loaded : List UInt8)
    (hsize : (write id s loaded).length < 4294967296) {k : Nat}
    (hk : k < (write id s loaded).length) (reader : StoryId) (memory : List UInt8) :
    ∃ e, read ((write id s loaded).take k) reader memory = .error e := by
  have hbody : (container id s loaded).bodyBytes.length < 4294967296 :=
    Nat.lt_of_le_of_lt (Container.length_bodyBytes_le_toBytes _) hsize
  have heven : ∀ c, (container id s loaded).chunks.getLast? = some c → c.data.length % 2 = 0 := by
    rintro c ⟨⟩
    exact Save.even_length_stackBytes s.stack
  unfold read
  cases hparse : Container.parse ((write id s loaded).take k) with
  | error e => exact ⟨e, rfl⟩
  | ok f =>
      obtain ⟨lost, hlost, hchunks⟩ := Container.parse_take_toBytes _ hbody heven hk hparse
      exact ofContainer_of_find?_stacksTag_eq_none (find?_stacksTag_of_append hlost hchunks)
        reader memory

/-- The save file of the nested snapshot, without its last byte and with half a chunk of memory. -/
theorem read_take_write_nestedSnapshot :
    (write sampleId nestedSnapshot (List.replicate 303 0)).length = 96 ∧
      (∃ e, read ((write sampleId nestedSnapshot (List.replicate 303 0)).take 95) sampleId
        (List.replicate 303 0) = .error e) ∧
      ∃ e, read ((write sampleId nestedSnapshot (List.replicate 303 0)).take 44) sampleId
        (List.replicate 303 0) = .error e := by
  have hlength : (write sampleId nestedSnapshot (List.replicate 303 0)).length = 96 := by
    decide +kernel
  exact ⟨hlength, read_take_write _ _ _ (by omega) (by omega) _ _,
    read_take_write _ _ _ (by omega) (by omega) _ _⟩

end Quetzal
end ZMachine
