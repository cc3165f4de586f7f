/-
# Reading back a container

Writing a container and reading the bytes gives the container back, whatever its chunks hold, as
long as every length fits its four bytes.  Bytes that were not written here may have a wrong length,
a padding that is not zero or is missing, or more bytes at the end; written again, they are as they
should be.

* `parseChunks_chunkBytes_append` : one written chunk is read as that chunk, its padding included;
* `parse_toBytes` : a written container is read as itself;
* `length_toBytes_le_of_parse` : a container takes at most one byte more than what it was read from;
* `toBytes_normalises` : so it is read as itself from then on.
-/
import Mathlib.Data.List.Basic
import ZMachine.Save.Container

namespace ZMachine

/-! ## Tags -/

/-- A tag is its four bytes. -/
theorem Tag.exists_eq (t : Tag) : ∃ a b c d, t = #v[a, b, c, d] := by
  refine ⟨t[0], t[1], t[2], t[3], ?_⟩
  apply Vector.ext
  intro i hi
  match i, hi with
  | 0, _ => rfl
  | 1, _ => rfl
  | 2, _ => rfl
  | 3, _ => rfl

namespace Save

/-- Cutting an append at the length of its left part gives the two parts. -/
theorem split?_append {α : Type} (front rest : List α) :
    split? front.length (front ++ rest) = some (front, rest) :=
  (split?_eq_some_iff _ _ _ _).mpr ⟨rfl, rfl⟩

end Save

namespace Container

/-! ## Chunks -/

/-- The data of a chunk and its padding take an even number of bytes. -/
theorem length_append_padding (data : List UInt8) :
    (data ++ padding data).length = data.length + data.length % 2 := by
  unfold padding
  split
  · rename_i hodd
    rw [List.length_append, List.length_singleton, hodd]
  · rename_i heven
    rw [List.append_nil]
    omega

/-- A written chunk takes eight bytes more than its padded data. -/
theorem length_chunkBytes (c : Chunk) :
    (chunkBytes c).length = 8 + c.data.length + c.data.length % 2 := by
  have hpad := length_append_padding c.data
  rw [chunkBytes, List.append_assoc _ c.data, List.length_append, hpad]
  simp [Save.bytes32]
  omega

/-- A written chunk is read back, whatever follows it. -/
theorem parseChunks_chunkBytes_append (c : Chunk) (rest : List UInt8)
    (h : c.data.length < 4294967296) :
    parseChunks (chunkBytes c ++ rest)
      = match parseChunks rest with
        | .error e => .error e
        | .ok chunks => .ok (c :: chunks) := by
  obtain ⟨a, b, d, e, hid⟩ := Tag.exists_eq c.id
  have hnumber := Save.number_bytes32 c.data.length h
  have hsplit := Save.split?_append c.data (padding c.data ++ rest)
  have hdrop : (c.data ++ (padding c.data ++ rest)).drop (c.data.length + c.data.length % 2)
      = rest := by
    rw [← List.append_assoc, ← length_append_padding, List.drop_left]
  have hbytes : chunkBytes c ++ rest
      = a :: b :: d :: e :: UInt8.ofNat (c.data.length / 16777216)
        :: UInt8.ofNat (c.data.length / 65536) :: UInt8.ofNat (c.data.length / 256)
        :: UInt8.ofNat c.data.length :: (c.data ++ (padding c.data ++ rest)) := by
    simp [chunkBytes, hid, Save.bytes32]
  rw [hbytes, parseChunks]
  simp only [Save.bytes32] at hnumber
  simp only [hnumber, hsplit, hdrop]
  rewrite [← hid]
  rfl

/-- Written chunks are read back. -/
theorem parseChunks_flatMap_chunkBytes (chunks : List Chunk)
    (h : ∀ c ∈ chunks, c.data.length < 4294967296) :
    parseChunks (chunks.flatMap chunkBytes) = .ok chunks := by
  induction chunks with
  | nil =>
      rw [List.flatMap_nil, parseChunks]
      intro _ _ _ _ _ _ _ _ _ hbytes
      cases hbytes
  | cons c chunks ih =>
      have hc := h c List.mem_cons_self
      have hchunks := ih fun c' hc' => h c' (List.mem_cons_of_mem c hc')
      rw [List.flatMap_cons, parseChunks_chunkBytes_append c _ hc, hchunks]

/-! ## Whole containers -/

/-- The data of a chunk is shorter than the body of its container. -/
theorem length_data_le_bodyBytes (f : Container) (c : Chunk) (hc : c ∈ f.chunks) :
    c.data.length ≤ f.bodyBytes.length := by
  have hsub : (chunkBytes c).length ≤ (f.chunks.flatMap chunkBytes).length :=
    (List.sublist_flatten_of_mem (List.mem_map_of_mem hc)).length_le
  rw [length_chunkBytes] at hsub
  rw [bodyBytes, List.length_append]
  omega

/-- A file is eight bytes longer than its body. -/
theorem length_toBytes (f : Container) : f.toBytes.length = f.bodyBytes.length + 8 := by
  rw [toBytes, List.length_append, Nat.add_comm]
  rfl

theorem length_bodyBytes (f : Container) :
    f.bodyBytes.length = (f.chunks.flatMap chunkBytes).length + 4 := by
  rw [bodyBytes, List.length_append, Vector.length_toList, Nat.add_comm]

theorem length_bodyBytes_le_toBytes (f : Container) : f.bodyBytes.length ≤ f.toBytes.length := by
  rw [length_toBytes]
  omega

/-- **A written container is read back**, if its size fits the length field. -/
theorem parse_toBytes (f : Container) (h : f.bodyBytes.length < 4294967296) :
    parse f.toBytes = .ok f := by
  obtain ⟨a, b, c, d, htype⟩ := Tag.exists_eq f.type
  have hnumber := Save.number_bytes32 f.bodyBytes.length h
  have hchunks := parseChunks_flatMap_chunkBytes f.chunks fun c hc =>
    Nat.lt_of_le_of_lt (length_data_le_bodyBytes f c hc) h
  have hlength : f.bodyBytes.length - 4 = (f.chunks.flatMap chunkBytes).length := by
    rw [length_bodyBytes, Nat.add_sub_cancel]
  have hbytes : f.toBytes
      = 70 :: 79 :: 82 :: 77 :: UInt8.ofNat (f.bodyBytes.length / 16777216)
        :: UInt8.ofNat (f.bodyBytes.length / 65536) :: UInt8.ofNat (f.bodyBytes.length / 256)
        :: UInt8.ofNat f.bodyBytes.length :: a :: b :: c :: d
        :: f.chunks.flatMap chunkBytes := by
    rw [toBytes]
    nth_rewrite 2 [bodyBytes]
    simp [formTag, Save.bytes32, htype]
  simp only [Save.bytes32] at hnumber
  rw [hbytes, parse]
  simp only [hnumber, hlength, List.take_length, hchunks]
  rw [if_pos (by rfl), ← htype]

/-! ## Bytes that were not written here -/

/-- Chunks take no more bytes than what they were read from, but for the padding of the last one,
which may have been missing. -/
theorem length_flatMap_chunkBytes_le {body : List UInt8} {chunks : List Chunk}
    (h : parseChunks body = .ok chunks) :
    (chunks.flatMap chunkBytes).length ≤ body.length + body.length % 2 := by
  fun_induction parseChunks body generalizing chunks with
  | case1 => cases h
  | case2 => cases h
  | case3 i₀ i₁ i₂ i₃ l₀ l₁ l₂ l₃ rest id length data after hsplit chunks' hrest =>
      rename_i ih
      obtain ⟨hdata, hlength⟩ := (Save.split?_eq_some_iff _ _ _ _).mp hsplit
      have hinside := congrArg List.length hdata
      have hchunks := ih hrest
      cases h
      rw [List.length_append] at hinside
      rw [List.length_drop] at hchunks
      -- only a last chunk of odd length can lack its padding, and then the body is odd as well
      simp only [List.flatMap_cons, List.length_append, length_chunkBytes, List.length_cons]
      omega
  | case4 =>
      cases h
      exact Nat.zero_le _

theorem length_toBytes_le_of_parse {bytes : List UInt8} {f : Container} (h : parse bytes = .ok f) :
    f.toBytes.length ≤ bytes.length + bytes.length % 2 := by
  unfold parse at h
  split at h
  · rename_i f₀ f₁ f₂ f₃ l₀ l₁ l₂ l₃ t₀ t₁ t₂ t₃ rest
    split at h
    · split at h
      · cases h
      · rename_i chunks hchunks
        have hlength := length_flatMap_chunkBytes_le hchunks
        cases h
        rw [List.length_take] at hlength
        rw [length_toBytes, length_bodyBytes]
        simp only [List.length_cons]
        omega
    · cases h
  · cases h

/-- **Containers are read back, and bytes are normalised.**  A written container is read as itself,
if its file fits the length field.  Whatever bytes are read as a container, the container is read
back from its own bytes, of which there is at most one more. -/
theorem toBytes_normalises :
    (∀ f : Container, f.toBytes.length < 4294967296 → parse f.toBytes = .ok f) ∧
      ∀ (bytes : List UInt8) (f : Container), bytes.length < 4294967296 - 1 →
        parse bytes = .ok f →
        parse f.toBytes = .ok f ∧ f.toBytes.length ≤ bytes.length + bytes.length % 2 := by
  have hwritten : ∀ f : Container, f.toBytes.length < 4294967296 → parse f.toBytes = .ok f :=
    fun f h => parse_toBytes f (Nat.lt_of_le_of_lt f.length_bodyBytes_le_toBytes h)
  refine ⟨hwritten, fun bytes f hbytes hparse => ?_⟩
  have hlength := length_toBytes_le_of_parse hparse
  exact ⟨hwritten f (by omega), hlength⟩

/-- A file whose length claims too much, with two chunks of one id.  The padding of the first is not
zero and that of the second is missing. -/
def looseBytes : List UInt8 :=
  [70, 79, 82, 77, 0, 0, 1, 0, 65, 73, 70, 70, 65, 66, 67, 68, 0, 0, 0, 1, 7, 9,
    65, 66, 67, 68, 0, 0, 0, 3, 4, 5, 6]

/-- The container in it. -/
def looseContainer : Container where
  type := #v[65, 73, 70, 70]
  chunks := [⟨#v[65, 66, 67, 68], [7]⟩, ⟨#v[65, 66, 67, 68], [4, 5, 6]⟩]

/-- The container is read from both, the loose file and the file it is written to. -/
theorem toBytes_normalises_loose :
    looseBytes.length < 4294967296 - 1 ∧ parse looseBytes = .ok looseContainer ∧
      looseContainer.toBytes.length < 4294967296 ∧ looseContainer.toBytes ≠ looseBytes ∧
      parse looseContainer.toBytes = .ok looseContainer := by
  have hlength : looseBytes.length < 4294967296 - 1 := by decide
  have hparse : parse looseBytes = .ok looseContainer := by decide +kernel
  have hwritten : looseContainer.toBytes.length < 4294967296 := by decide
  obtain ⟨hback, -⟩ := toBytes_normalises.2 looseBytes looseContainer hlength hparse
  exact ⟨hlength, hparse, hwritten, by decide, hback⟩

end Container
end ZMachine
