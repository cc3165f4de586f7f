/-
# The block cache under writes

Blocks that start in static memory are kept, and their texts may come from the string cache, which
keeps strings as well.  A story that writes below static memory cannot make either of them wrong,
except for texts with abbreviations that it has rewritten.

* `Text.Codec.Recalls` : texts that were read earlier and end where they end now;
* `Fetching.Faithful` : the caches hold what decoding would give now;
* `Fetching.Faithful.write` and `Fetching.Faithful.fetch` : neither a write nor a fetch breaks that;
* `Fetching.fetch_afterAll` : so a fetch gives what decoding without caches gives.
-/
import ZMachine.Proofs.Instruction.Texts

namespace ZMachine

open Memory (AgreeFrom)
open Text (packedWords)

/-- A header that could be read is read from an image that holds a whole one, and static memory
starts after it. -/
theorem Header.parse_eq_ok {m : Memory} {h : Header} (hparse : Header.parse m = .ok h) :
    Header.length ≤ m.size ∧ Header.length ≤ h.staticStart ∧ h = Header.fields m := by
  simp only [Header.parse, bind, Except.bind, pure, Except.pure, throw, throwThe,
    MonadExceptOf.throw] at hparse
  split at hparse
  · cases hparse
  split at hparse
  · cases hparse
  split at hparse
  · cases hparse
  split at hparse
  · cases hparse
  · rename_i hsize _ _ hstatic
    cases hparse
    exact ⟨by omega, Nat.le_of_not_lt fun hlt => hstatic (Or.inl hlt), rfl⟩

/-- Memory and header say alike where static memory starts. -/
theorem Memory.staticStart_ofImage {image : Array UInt8} {h : Header}
    (hparse : Header.parse (Memory.ofImage image) = .ok h) :
    (Memory.ofImage image).staticStart = h.staticStart := by
  obtain ⟨hsize, -, rfl⟩ := Header.parse_eq_ok hparse
  have himage : 0x10 ≤ image.size := Nat.le_trans (by decide) hsize
  show (if 0x10 ≤ image.size then _ else _) = _
  rw [if_pos himage]
  rfl

/-! ## Texts that were read earlier -/

namespace Text.Codec

/-- Texts that were read earlier.  From an address on each ends where the string there ends now; if
`exact` holds, each is the string there now. -/
structure Recalls (c : Codec) (m : Memory) (start : Nat) (exact : Prop)
    (texts : Nat → String × Nat) : Prop where
  ends : ∀ a, start ≤ a → (texts a).2 = (c.read m a).2
  texts : exact → ∀ a, start ≤ a → texts a = c.read m a

section
variable {c : Codec} {m : Memory} {start : Nat} {exact : Prop} {texts : Nat → String × Nat}

theorem recalls_read (c : Codec) (m : Memory) (start : Nat) (exact : Prop) :
    c.Recalls m start exact (c.read m) :=
  ⟨fun _ _ => rfl, fun _ _ _ => rfl⟩

/-- A write further down leaves the ends right, and the texts unless it touches abbreviations. -/
theorem Recalls.write (h : c.Recalls m start exact texts) {a : Nat} (ha : a < start) (v : UInt8) :
    c.Recalls (m.setByte a v) start (exact ∧ ¬ c.AbbreviationByte m a) texts := by
  have hwords : ∀ b, start ≤ b → packedWords (m.setByte a v) b = packedWords m b := fun b hb =>
    packedWords_of_agreeFrom (Memory.agreeFrom_setByte ha m v) hb
  constructor
  · intro b hb
    rw [h.ends b hb, read, read, hwords b hb]
  · rintro ⟨hexact, hspared⟩ b hb
    rw [h.texts hexact b hb]
    exact (read_congr (sameAbbreviations_setByte hspared v) (hwords b hb)).symm

/-- With such texts a block is the one that is read now, but for the texts. -/
theorem Recalls.map_withoutTexts (h : c.Recalls m start exact texts) (version : UInt8) {pc : Nat}
    (hpc : start ≤ pc) :
    (Block.readWith texts version m pc).map Block.withoutTexts
      = (Block.readWith (c.read m) version m pc).map Block.withoutTexts := by
  have hends : ∀ a, start ≤ a → Block.endsOf texts a = Block.endsOf (c.read m) a := by
    intro a ha
    rw [Block.endsOf, Block.endsOf, h.ends a ha]
  have habove : ∀ a, start ≤ a → start ≤ (Block.endsOf (c.read m) a).2 := by
    intro a ha
    have := add_two_le_packedWords m a
    show start ≤ (packedWords m a).2
    omega
  rw [Block.readWith_withoutTexts, Block.readWith_withoutTexts (c.read m),
    Block.readWith_congr (AgreeFrom.refl start m) hends habove version hpc]

/-- If they are exact, the texts are right as well. -/
theorem Recalls.readWith_eq (h : c.Recalls m start exact texts) (hexact : exact) (version : UInt8)
    {pc : Nat} (hpc : start ≤ pc) :
    Block.readWith texts version m pc = Block.readWith (c.read m) version m pc := by
  have habove : ∀ a, start ≤ a → start ≤ (c.read m a).2 := by
    intro a ha
    have := add_two_le_packedWords m a
    show start ≤ (packedWords m a).2
    omega
  exact Block.readWith_congr (AgreeFrom.refl start m) (h.texts hexact) habove version hpc

end

/-- Without strings in the cache one sees what memory holds. -/
theorem look_of_empty {c : Codec} (h : c.cache = ∅) (m : Memory) : c.look m = c.read m := by
  funext a
  apply look_of_getElem?_eq_none
  rw [h]
  exact Std.HashMap.getElem?_empty

end Text.Codec

/-! ## Fetches and writes -/

namespace BlockCache

variable {b : BlockCache} {pc : Nat}

/-- A block that is kept is not decoded again. -/
theorem fetch_of_some {block : Block} (h : b.blocks[pc]? = some block) (c : Text.Codec)
    (m : Memory) : b.fetch c m pc = .ok (block, b, c) := by
  rw [fetch, h]

/-- Any other block is decoded, and kept if it starts in static memory. -/
theorem fetch_of_none (h : b.blocks[pc]? = none) (c : Text.Codec) (m : Memory) :
    b.fetch c m pc = (Block.decode c m pc).map fun decoded =>
      (decoded.1,
        { blocks := if m.staticStart ≤ pc then b.blocks.insert pc decoded.1 else b.blocks
          decoded := b.decoded + 1 },
        decoded.2) := by
  rw [fetch, h]
  cases Block.decode c m pc <;> rfl

end BlockCache

open Text (Codec)

/-- A memory, the blocks fetched from it and the codec that reads its strings. -/
structure Fetching where
  memory : Memory
  blocks : BlockCache
  codec : Codec

/-- What may happen to them: a block is fetched, or a byte is written. -/
inductive BlockAccess where
  | fetch (pc : Nat)
  | write (address : Nat) (value : UInt8)

/-- An access writes nothing from an address on. -/
def BlockAccess.WritesBelow (start : Nat) : BlockAccess → Prop
  | .fetch _ => True
  | .write address _ => address < start

namespace Fetching

/-- The story with nothing decoded yet. -/
def fresh (m : Memory) (h : Header) : Fetching where
  memory := m
  blocks := {}
  codec := .ofStory m h

/-- The block that a fetch gives. -/
def fetched (s : Fetching) (pc : Nat) : Except Fault Block :=
  (s.blocks.fetch s.codec s.memory pc).map (·.1)

/-- What an access leaves behind; a fetch that fails changes nothing. -/
def after (s : Fetching) : BlockAccess → Fetching
  | .fetch pc =>
      match s.blocks.fetch s.codec s.memory pc with
      | .ok (_, blocks, codec) => { s with blocks, codec }
      | .error _ => s
  | .write address value => { s with memory := s.memory.setByte address value }

/-- What any number of accesses leaves behind. -/
def afterAll (s : Fetching) (accesses : List BlockAccess) : Fetching :=
  accesses.foldl after s

/-- No access writes to the abbreviation table or to an abbreviation string. -/
def SparesAbbreviations : Fetching → List BlockAccess → Prop
  | _, [] => True
  | s, .fetch pc :: rest => SparesAbbreviations (s.after (.fetch pc)) rest
  | s, .write address value :: rest =>
      ¬ s.codec.AbbreviationByte s.memory address ∧
        SparesAbbreviations (s.after (.write address value)) rest

theorem memory_after_fetch (s : Fetching) (pc : Nat) :
    (s.after (.fetch pc)).memory = s.memory := by
  unfold after
  dsimp only
  split <;> rfl

/-- The caches hold what is in static memory: each string and each block there is what reading it
now gives, but for texts with abbreviations, and for those too if `exact` holds. -/
structure Faithful (c₀ : Codec) (s : Fetching) (exact : Prop) : Prop where
  tables : s.codec = { c₀ with cache := s.codec.cache }
  aligned : s.memory.staticStart = c₀.staticStart
  static : ∀ a found, s.codec.cache[a]? = some found → c₀.staticStart ≤ a
  strings : c₀.Recalls s.memory c₀.staticStart exact (s.codec.look s.memory)
  blocks : ∀ pc block, s.blocks.blocks[pc]? = some block → c₀.staticStart ≤ pc ∧
    ∃ texts, c₀.Recalls s.memory c₀.staticStart exact texts ∧
      Block.readWith texts c₀.charset.version s.memory pc = .ok block

section
variable {c₀ : Codec} {s : Fetching} {exact : Prop}

/-- The codec reads what the fresh one reads. -/
theorem Faithful.read_eq (h : Faithful c₀ s exact) : s.codec.read = c₀.read := by
  rw [h.tables]
  rfl

/-- Strings in dynamic memory are not kept, so the texts that are seen are right everywhere. -/
theorem Faithful.recalls_look (h : Faithful c₀ s exact) :
    c₀.Recalls s.memory 0 exact (s.codec.look s.memory) := by
  have hdynamic : ∀ a, ¬ c₀.staticStart ≤ a → s.codec.look s.memory a = c₀.read s.memory a := by
    intro a ha
    rw [Text.Codec.look_of_getElem?_eq_none, h.read_eq]
    cases hfound : s.codec.cache[a]? with
    | none => rfl
    | some found => exact absurd (h.static a found hfound) ha
  constructor
  · intro a _
    by_cases ha : c₀.staticStart ≤ a
    · exact h.strings.ends a ha
    · rw [hdynamic a ha]
  · intro hexact a _
    by_cases ha : c₀.staticStart ≤ a
    · exact h.strings.texts hexact a ha
    · exact hdynamic a ha

/-- **A fetch gives the block that is read with texts from earlier.** -/
theorem Faithful.fetched_eq (h : Faithful c₀ s exact) (pc : Nat) :
    ∃ start texts, start ≤ pc ∧ c₀.Recalls s.memory start exact texts ∧
      s.fetched pc = Block.readWith texts c₀.charset.version s.memory pc := by
  cases hkept : s.blocks.blocks[pc]? with
  | some block =>
      obtain ⟨hpc, texts, hrecalls, hblock⟩ := h.blocks pc block hkept
      refine ⟨c₀.staticStart, texts, hpc, hrecalls, ?_⟩
      rw [hblock, fetched, BlockCache.fetch_of_some hkept]
      rfl
  | none =>
      have hdecode := Block.decode_map_fst s.codec s.memory pc
      have hversion : s.codec.charset.version = c₀.charset.version := by rw [h.tables]
      refine ⟨0, s.codec.look s.memory, Nat.zero_le pc, h.recalls_look, ?_⟩
      rw [← hversion, ← hdecode, fetched, BlockCache.fetch_of_none hkept]
      cases Block.decode s.codec s.memory pc <;> rfl

/-- A write below static memory. -/
theorem Faithful.write (h : Faithful c₀ s exact) {a : Nat} (ha : a < c₀.staticStart) (v : UInt8) :
    Faithful c₀ (s.after (.write a v)) (exact ∧ ¬ c₀.AbbreviationByte s.memory a) := by
  have hagree := Memory.agreeFrom_setByte ha s.memory v
  refine ⟨h.tables, h.aligned, h.static, ?_, ?_⟩
  · -- a string that is kept is recalled, and any other is read afresh
    have hrecalls := h.strings.write ha v
    have hsame : ∀ b, s.codec.look (s.memory.setByte a v) b = s.codec.look s.memory b ∨
        s.codec.look (s.memory.setByte a v) b = c₀.read (s.memory.setByte a v) b := by
      intro b
      cases hfound : s.codec.cache[b]? with
      | none =>
          right
          rw [Text.Codec.look_of_getElem?_eq_none hfound, h.read_eq]
      | some found =>
          left
          rw [Text.Codec.look_of_getElem?_eq_some hfound, Text.Codec.look_of_getElem?_eq_some hfound]
    constructor
    · intro b hb
      rcases hsame b with hb' | hb'
      · exact (congrArg Prod.snd hb').trans (hrecalls.ends b hb)
      · exact congrArg Prod.snd hb'
    · intro hexact b hb
      rcases hsame b with hb' | hb'
      · exact hb'.trans (hrecalls.texts hexact b hb)
      · exact hb'
  · intro pc block hkept
    obtain ⟨hpc, texts, hrecalls, hblock⟩ := h.blocks pc block hkept
    have habove : ∀ b, c₀.staticStart ≤ b → c₀.staticStart ≤ (texts b).2 := by
      intro b hb
      have := Text.add_two_le_packedWords s.memory b
      rw [hrecalls.ends b hb]
      show c₀.staticStart ≤ (packedWords s.memory b).2
      omega
    refine ⟨hpc, texts, hrecalls.write ha v, ?_⟩
    rw [← hblock]
    exact Block.readWith_congr hagree (fun _ _ => rfl) habove _ hpc

/-- Decoding a string leaves what is seen in the memory as it is. -/
theorem Faithful.decode (h : Faithful c₀ s exact) (a : Nat) :
    Faithful c₀ { s with codec := (s.codec.decode s.memory a).2 } exact := by
  refine ⟨?_, h.aligned, ?_, ?_, h.blocks⟩
  · show (s.codec.decode s.memory a).2 = _
    rw [Text.Codec.decode_snd, h.tables]
  · intro b found hfound
    have hstatic : s.codec.staticStart = c₀.staticStart := by rw [h.tables]
    dsimp only at hfound
    rw [Text.Codec.getElem?_cache_decode] at hfound
    split at hfound
    · rename_i hb
      rw [hb.1, ← hstatic]
      exact hb.2
    · exact h.static b found hfound
  · show c₀.Recalls s.memory c₀.staticStart exact ((s.codec.decode s.memory a).2.look s.memory)
    rw [Text.Codec.look_decode]
    exact h.strings

/-- A block that is kept as well. -/
theorem Faithful.insert (h : Faithful c₀ s exact) {pc : Nat} {block : Block}
    (hpc : c₀.staticStart ≤ pc) {texts : Nat → String × Nat}
    (htexts : c₀.Recalls s.memory c₀.staticStart exact texts)
    (hblock : Block.readWith texts c₀.charset.version s.memory pc = .ok block) (decoded : Nat) :
    Faithful c₀ { s with blocks := { blocks := s.blocks.blocks.insert pc block, decoded } }
      exact := by
  refine ⟨h.tables, h.aligned, h.static, h.strings, ?_⟩
  intro pc' block' hkept
  dsimp only at hkept
  rw [Std.HashMap.getElem?_insert] at hkept
  split at hkept
  · rename_i hsame
    cases eq_of_beq hsame
    cases hkept
    exact ⟨hpc, texts, htexts, hblock⟩
  · exact h.blocks pc' block' hkept

/-- A fetch: the strings of the block are decoded, and it is kept if it starts in static memory. -/
theorem Faithful.fetch (h : Faithful c₀ s exact) (pc : Nat) :
    Faithful c₀ (s.after (.fetch pc)) exact := by
  unfold after
  cases hkept : s.blocks.blocks[pc]? with
  | some block =>
      dsimp only
      rw [BlockCache.fetch_of_some hkept]
      exact h
  | none =>
      dsimp only
      rw [BlockCache.fetch_of_none hkept]
      have hread := Block.decode_map_fst s.codec s.memory pc
      cases hdecode : Block.decode s.codec s.memory pc with
      | error fault => exact h
      | ok decoded =>
          obtain ⟨block, codec⟩ := decoded
          have hcodec : Faithful c₀ { s with codec } exact :=
            Block.decode_snd_induction (P := fun c => Faithful c₀ { s with codec := c } exact)
              (fun c a hc => hc.decode a) hdecode h
          have hversion : s.codec.charset.version = c₀.charset.version := by rw [h.tables]
          have hblock : Block.readWith (s.codec.look s.memory) c₀.charset.version s.memory pc
              = .ok block := by
            rw [hdecode, hversion] at hread
            exact hread.symm
          dsimp only [Except.map]
          split
          · rename_i hstatic
            exact hcodec.insert (h.aligned ▸ hstatic) h.strings hblock _
          · exact ⟨hcodec.tables, hcodec.aligned, hcodec.static, hcodec.strings, h.blocks⟩

/-- Nothing is decoded yet. -/
theorem faithful_fresh {m : Memory} {h : Header} (haligned : m.staticStart = h.staticStart) :
    Faithful (Codec.ofStory m h) (fresh m h) True := by
  have hempty : ∀ a, (Codec.ofStory m h).cache[a]? = none := fun a => Std.HashMap.getElem?_empty
  refine ⟨rfl, haligned, fun a found hfound => ?_, ?_, fun pc block hkept => ?_⟩
  · have hnone := hempty a
    rw [show (Codec.ofStory m h).cache[a]? = some found from hfound] at hnone
    cases hnone
  · show (Codec.ofStory m h).Recalls m _ True ((Codec.ofStory m h).look m)
    rw [Text.Codec.look_of_empty rfl]
    exact Text.Codec.recalls_read _ _ _ _
  · have hnone : (fresh m h).blocks.blocks[pc]? = none := Std.HashMap.getElem?_empty
    rw [hkept] at hnone
    cases hnone

/-- A weaker promise of exactness. -/
theorem Faithful.mono {exact' : Prop} (h : Faithful c₀ s exact) (himp : exact' → exact) :
    Faithful c₀ s exact' := by
  have hrecalls : ∀ texts, c₀.Recalls s.memory c₀.staticStart exact texts →
      c₀.Recalls s.memory c₀.staticStart exact' texts :=
    fun _ ht => ⟨ht.ends, fun hexact => ht.texts (himp hexact)⟩
  refine ⟨h.tables, h.aligned, h.static, hrecalls _ h.strings, fun pc block hkept => ?_⟩
  obtain ⟨hpc, texts, ht, hblock⟩ := h.blocks pc block hkept
  exact ⟨hpc, texts, hrecalls texts ht, hblock⟩

/-- **Any fetches and writes below static memory leave the caches faithful**, and exact if they
spare the abbreviations. -/
theorem Faithful.afterAll {accesses : List BlockAccess} (h : Faithful c₀ s exact)
    (hwrites : ∀ access ∈ accesses, access.WritesBelow c₀.staticStart) :
    Faithful c₀ (s.afterAll accesses) (exact ∧ SparesAbbreviations s accesses) := by
  induction accesses generalizing s exact with
  | nil => exact h.mono And.left
  | cons access rest ih =>
      have hrest : ∀ x ∈ rest, x.WritesBelow c₀.staticStart :=
        fun x hx => hwrites x (List.mem_cons_of_mem _ hx)
      cases access with
      | fetch pc => exact ih (h.fetch pc) hrest
      | write a v =>
          have hbelow : a < c₀.staticStart := hwrites (.write a v) List.mem_cons_self
          have htouched : s.codec.AbbreviationByte s.memory a ↔ c₀.AbbreviationByte s.memory a := by
            rw [h.tables]
            exact Iff.rfl
          refine (ih (h.write hbelow v) hrest).mono ?_
          rintro ⟨hexact, hspared, hspares⟩
          exact ⟨⟨hexact, fun ha => hspared (htouched.2 ha)⟩, hspares⟩

end

/-- **The block cache is transparent.**  Take a story with nothing decoded yet, and any fetches and
writes below its static memory.  Then a fetch succeeds or fails as decoding with empty caches does
in memory as it stands, with the same fault, and gives a block with the same instructions but for
their texts; the texts are the same as well if none of the writes touched the abbreviation table or
an abbreviation string.  All blocks that are kept start in static memory. -/
theorem fetch_afterAll {image : Array UInt8} {h : Header}
    (hparse : Header.parse (Memory.ofImage image) = .ok h) (accesses : List BlockAccess)
    (hwrites : ∀ access ∈ accesses, access.WritesBelow h.staticStart) (pc : Nat) :
    let s := (fresh (Memory.ofImage image) h).afterAll accesses
    let decoded := (Block.decode (Codec.ofStory (Memory.ofImage image) h) s.memory pc).map (·.1)
    (s.fetched pc).map Block.withoutTexts = decoded.map Block.withoutTexts ∧
      (SparesAbbreviations (fresh (Memory.ofImage image) h) accesses → s.fetched pc = decoded) ∧
      ∀ (address : Nat) (block : Block), s.blocks.blocks[address]? = some block →
        h.staticStart ≤ block.start := by
  intro s decoded
  have hfaithful := (faithful_fresh (Memory.staticStart_ofImage hparse)).afterAll hwrites
  have hdecoded : decoded = Block.readWith
      ((Codec.ofStory (Memory.ofImage image) h).read s.memory) h.version s.memory pc := by
    show Except.map Prod.fst _ = _
    rw [Block.decode_map_fst, Text.Codec.look_of_empty rfl]
    rfl
  obtain ⟨start, texts, hpc, hrecalls, hfetched⟩ := hfaithful.fetched_eq pc
  refine ⟨?_, fun hspares => ?_, fun address block hkept => ?_⟩
  · rw [hfetched, hdecoded]
    exact hrecalls.map_withoutTexts _ hpc
  · rw [hfetched, hdecoded]
    exact hrecalls.readWith_eq ⟨trivial, hspares⟩ _ hpc
  · obtain ⟨haddress, texts', -, hblock⟩ := hfaithful.blocks address block hkept
    rw [Block.start_of_readWith hblock]
    exact haddress

open Text.Reading in
/-- A block with an abbreviated text is fetched, a byte that belongs to no abbreviation is written,
and the block is fetched again. -/
theorem fetch_afterAll_spared :
    let accesses : List BlockAccess := [.fetch 0x88, .write 0x84 7]
    let s := (fresh abbreviatedStory abbreviatedHeader).afterAll accesses
    Header.parse (Memory.ofImage abbreviatedImage) = .ok abbreviatedHeader ∧
      (∀ access ∈ accesses, access.WritesBelow abbreviatedHeader.staticStart) ∧
      SparesAbbreviations (fresh abbreviatedStory abbreviatedHeader) accesses ∧
      s.fetched 0x88 = (Block.decode (Codec.ofStory abbreviatedStory abbreviatedHeader)
        s.memory 0x88).map (·.1) := by
  have hfaithful : Faithful (Codec.ofStory abbreviatedStory abbreviatedHeader)
      (fresh abbreviatedStory abbreviatedHeader) True :=
    faithful_fresh (Memory.staticStart_ofImage parse_abbreviatedStory)
  have hwrites : ∀ access ∈ [BlockAccess.fetch 0x88, .write 0x84 7],
      access.WritesBelow abbreviatedHeader.staticStart := by
    have hbelow : 0x84 < abbreviatedHeader.staticStart := by decide +kernel
    simpa [BlockAccess.WritesBelow] using hbelow
  have hspares : SparesAbbreviations (fresh abbreviatedStory abbreviatedHeader)
      [.fetch 0x88, .write 0x84 7] := by
    refine ⟨?_, trivial⟩
    rw [(hfaithful.fetch 0x88).tables, memory_after_fetch]
    exact not_abbreviationByte_abbreviatedStory
  exact ⟨parse_abbreviatedStory, hwrites, hspares,
    (fetch_afterAll parse_abbreviatedStory _ hwrites 0x88).2.1 hspares⟩

end Fetching
end ZMachine
