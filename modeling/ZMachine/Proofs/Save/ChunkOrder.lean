/-
# Save files of other programs

A save file need not be laid out as one written here.  Its chunks may stand in any order, chunks
with ids that nobody here knows may stand between them, and memory may be stored plain.  What
counts is that the four ids that reading looks for name the place, the stacks and one form of
the memory: then the snapshot is read back.

* `find?_eq_some_of_unique` : where one chunk has an id, that chunk is found, wherever it stands;
* `HoldsSnapshot` : the chunks that reading looks for are those of a snapshot, in any order;
* `read_of_holdsSnapshot` : a file with such chunks is read as that snapshot.
-/
import ZMachine.Proofs.Save.RoundTrip
import ZMachine.Proofs.Save.Container

namespace ZMachine

/-! ## Finding a chunk -/

namespace Container

/-- **The chunk with an id is found** wherever it stands, if it is the only one with that id. -/
theorem find?_eq_some_of_unique {f : Container} {c : Chunk} (hmem : c ∈ f.chunks)
    (hunique : ∀ c' ∈ f.chunks, c'.id = c.id → c' = c) : f.find? c.id = some c.data := by
  have hfound : (f.chunks.find? fun c' => c'.id = c.id).isSome :=
    List.find?_isSome.mpr ⟨c, hmem, decide_eq_true rfl⟩
  obtain ⟨c', hc'⟩ := Option.isSome_iff_exists.mp hfound
  have hid : c'.id = c.id := by simpa using List.find?_some hc'
  have heq := hunique c' (List.mem_of_find?_eq_some hc') hid
  rw [find?, hc', heq, Option.map_some]

/-- No chunk is found with an id that no chunk has. -/
theorem find?_eq_none_of_forall_ne {f : Container} {id : Tag}
    (h : ∀ c ∈ f.chunks, c.id ≠ id) : f.find? id = none := by
  have hnone : (f.chunks.find? fun c => c.id = id) = none :=
    List.find?_eq_none.mpr fun c hc hid => h c hc (of_decide_eq_true hid)
  rw [find?, hnone, Option.map_none]

end Container

namespace Quetzal

/-! ## Files that hold a snapshot -/

/-- The ids that reading looks for. -/
def readTags : List Tag := [headTag, compressedTag, plainTag, stacksTag]

/-- The chunk that names the story and the place. -/
def headChunk (id : StoryId) (s : Snapshot) : Chunk :=
  ⟨headTag, headBytes id s.pc⟩

/-- The two chunks that memory can be stored in. -/
def memoryChunks (s : Snapshot) (loaded : List UInt8) : List Chunk :=
  [⟨compressedTag, Save.compress s.dynamic loaded⟩, ⟨plainTag, s.dynamic⟩]

/-- The chunk of the stacks. -/
def stacksChunk (s : Snapshot) : Chunk :=
  ⟨stacksTag, Save.stackBytes s.stack⟩

/-- A container of the right type, in which the chunks that reading looks for are one head, one
form of the memory and one chunk of stacks, all of the same snapshot.  Their order and all other
chunks are free. -/
structure HoldsSnapshot (id : StoryId) (s : Snapshot) (loaded : List UInt8)
    (f : Container) : Prop where
  type_eq : f.type = formType
  perm : ∃ memory ∈ memoryChunks s loaded,
    (f.chunks.filter fun c => c.id ∈ readTags).Perm [headChunk id s, memory, stacksChunk s]

variable {id : StoryId} {s : Snapshot} {loaded : List UInt8} {f : Container} {memory : Chunk}

/-- A chunk that reading looks for is one of the three. -/
theorem mem_chunks_iff
    (hperm : (f.chunks.filter fun c => c.id ∈ readTags).Perm
      [headChunk id s, memory, stacksChunk s])
    {c : Chunk} (hc : c.id ∈ readTags) :
    c ∈ f.chunks ↔ c = headChunk id s ∨ c = memory ∨ c = stacksChunk s := by
  have hmem := hperm.mem_iff (a := c)
  simpa [hc] using hmem

/-- The three chunks of a snapshot have three different ids, which tell them apart. -/
theorem eq_of_id_eq (hmemory : memory ∈ memoryChunks s loaded) {c c' : Chunk}
    (hc : c = headChunk id s ∨ c = memory ∨ c = stacksChunk s)
    (hc' : c' = headChunk id s ∨ c' = memory ∨ c' = stacksChunk s) (hid : c'.id = c.id) :
    c' = c := by
  have hids : memory.id ≠ headTag ∧ memory.id ≠ stacksTag := by
    rcases List.mem_pair.mp hmemory with rfl | rfl
    · exact (by decide : compressedTag ≠ headTag ∧ compressedTag ≠ stacksTag)
    · exact (by decide : plainTag ≠ headTag ∧ plainTag ≠ stacksTag)
  have hends : headTag ≠ stacksTag := by decide
  rcases hc with rfl | rfl | rfl <;> rcases hc' with rfl | rfl | rfl
  · rfl
  · exact absurd hid hids.1
  · exact absurd hid.symm hends
  · exact absurd hid.symm hids.1
  · rfl
  · exact absurd hid.symm hids.2
  · exact absurd hid hends
  · exact absurd hid hids.2
  · rfl

/-- Each of the three chunks of a snapshot is found by its id. -/
theorem find?_of_perm (hmemory : memory ∈ memoryChunks s loaded)
    (hperm : (f.chunks.filter fun c => c.id ∈ readTags).Perm
      [headChunk id s, memory, stacksChunk s])
    {c : Chunk} (hc : c = headChunk id s ∨ c = memory ∨ c = stacksChunk s) {tag : Tag}
    (htag : tag ∈ readTags) (hid : c.id = tag) : f.find? tag = some c.data := by
  subst hid
  refine Container.find?_eq_some_of_unique ((mem_chunks_iff hperm htag).mpr hc) ?_
  intro c' hc' hid
  have hamong := (mem_chunks_iff hperm (hid ▸ htag)).mp hc'
  exact eq_of_id_eq hmemory hc hamong hid

/-- **Both forms of the memory are read as the memory.**  Where it is plain there is no compressed
chunk, which would have been preferred. -/
theorem readMemory_of_perm (hdynamic : s.dynamic.length = loaded.length)
    (hmemory : memory ∈ memoryChunks s loaded)
    (hperm : (f.chunks.filter fun c => c.id ∈ readTags).Perm
      [headChunk id s, memory, stacksChunk s]) :
    readMemory f loaded = .ok s.dynamic := by
  have hfind {tag : Tag} (htag : tag ∈ readTags) (hid : memory.id = tag) :=
    find?_of_perm hmemory hperm (Or.inr (Or.inl rfl)) htag hid
  rcases List.mem_pair.mp hmemory with rfl | rfl
  · have hcompressed : f.find? compressedTag = some _ := hfind (by decide) rfl
    rw [readMemory, hcompressed]
    exact Save.decompress_compress s.dynamic loaded hdynamic
  · have hplain : f.find? plainTag = some _ := hfind (by decide) rfl
    have hnone : f.find? compressedTag = none := by
      have hread : compressedTag ∈ readTags := by decide
      refine Container.find?_eq_none_of_forall_ne fun c hc hid => ?_
      have hamong := (mem_chunks_iff hperm (hid ▸ hread)).mp hc
      rcases hamong with rfl | rfl | rfl
      · exact absurd hid (by decide : headTag ≠ compressedTag)
      · exact absurd hid (by decide : plainTag ≠ compressedTag)
      · exact absurd hid (by decide : stacksTag ≠ compressedTag)
    rw [readMemory, hnone, hplain]
    exact if_pos hdynamic

/-- **A snapshot is read from whatever holds it.**  For the story that wrote it, each file with the
chunks of a snapshot is read as that snapshot, in whatever order they stand, whatever chunks of
other ids stand between them and whether the memory is compressed or plain. -/
theorem read_of_holdsSnapshot (id : StoryId) (s : Snapshot) (loaded : List UInt8) (f : Container)
    (hpc : s.pc < 16777216) (hdynamic : s.dynamic.length = loaded.length)
    (hstack : s.stack.Storable) (hholds : HoldsSnapshot id s loaded f)
    (hsize : f.toBytes.length < 4294967296) :
    read f.toBytes id loaded = .ok s := by
  obtain ⟨memory, hmemory, hperm⟩ := hholds.perm
  have hparse := f.parse_toBytes (Nat.lt_of_le_of_lt f.length_bodyBytes_le_toBytes hsize)
  have hhead : f.find? headTag = some (headBytes id s.pc) :=
    find?_of_perm hmemory hperm (Or.inl rfl) (by decide) rfl
  have hstacks : f.find? stacksTag = some (Save.stackBytes s.stack) :=
    find?_of_perm hmemory hperm (Or.inr (Or.inr rfl)) (by decide) rfl
  have hdynamicRead := readMemory_of_perm hdynamic hmemory hperm
  have hsnapshot : ofContainer f id loaded = .ok s :=
    ofContainer_eq_ok_iff.mpr ⟨hholds.type_eq, ⟨_, hhead, readHead_headBytes id s.pc hpc⟩,
      hdynamicRead, _, hstacks, Save.readStacks_stackBytes s.stack hstack⟩
  rw [read, hparse]
  exact hsnapshot

/-- The nested snapshot behind a title, with plain memory, its chunks in the opposite order and an
author between them. -/
def foreignContainer : Container where
  type := formType
  chunks :=
    [⟨#v[78, 65, 77, 69], [116, 119, 111]⟩, stacksChunk nestedSnapshot,
      ⟨plainTag, nestedSnapshot.dynamic⟩, ⟨#v[65, 85, 84, 72], [109, 101]⟩,
      headChunk sampleId nestedSnapshot]

/-- The nested snapshot is read from it. -/
theorem read_foreignContainer :
    HoldsSnapshot sampleId nestedSnapshot (List.replicate 303 0) foreignContainer ∧
      read foreignContainer.toBytes sampleId (List.replicate 303 0) = .ok nestedSnapshot := by
  have hfilter : (foreignContainer.chunks.filter fun c => c.id ∈ readTags)
      = [stacksChunk nestedSnapshot, ⟨plainTag, nestedSnapshot.dynamic⟩,
        headChunk sampleId nestedSnapshot] := by rfl
  have hholds : HoldsSnapshot sampleId nestedSnapshot (List.replicate 303 0) foreignContainer := by
    refine ⟨rfl, ⟨plainTag, nestedSnapshot.dynamic⟩, List.mem_cons_of_mem _ List.mem_cons_self, ?_⟩
    rw [hfilter]
    exact List.reverse_perm [headChunk sampleId nestedSnapshot, ⟨plainTag, nestedSnapshot.dynamic⟩,
      stacksChunk nestedSnapshot]
  have hdynamic : nestedSnapshot.dynamic.length = (List.replicate 303 (0 : UInt8)).length := by
    decide +kernel
  exact ⟨hholds, read_of_holdsSnapshot sampleId nestedSnapshot _ foreignContainer (by decide)
    hdynamic (by decide) hholds (by decide +kernel)⟩

end Quetzal
end ZMachine
