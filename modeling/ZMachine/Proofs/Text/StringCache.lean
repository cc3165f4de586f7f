/-
# What the string cache remembers

Decoding keeps the strings that start in static memory and never reads them again.  Between two
decodes a story may write below static memory, so a string that is kept is the string as it was at
its first decode.  That is the string as it is now if the abbreviations have been left alone; they
may themselves lie below static memory, and then a kept string goes stale.

* `Codec.decode_fst`, `Codec.getElem?_cache_decode` : what one decode gives and keeps;
* `Codec.look_decode` : what one decode gives is not changed by another one in the same memory;
* `Reading.decode_afterAll` : after any decodes and writes, the answer is the string as it was first
  seen;
* `Reading.decode_afterAll_fresh` : when that is the string as it stands;
* `Reading.decode_staleReading` : a string that has gone stale.
-/
import ZMachine.Proofs.Text.Locality

namespace ZMachine

/-- A result that is there is the result. -/
theorem eq_ok_of_toOption {ε α : Type} {x : Except ε α} {a : α} (h : x.toOption = some a) :
    x = .ok a := by
  cases x with
  | error e => cases h
  | ok b => exact congrArg Except.ok (Option.some.inj h)

namespace Text

open Memory (AgreeFrom)

namespace Codec

/-! ## One decode -/

/-- A string comes from the cache if it is there. -/
theorem decode_fst (c : Codec) (m : Memory) (a : Nat) :
    (c.decode m a).1 = (c.cache[a]?).getD (c.read m a) := by
  unfold decode
  split
  · rename_i found hfound
    rw [hfound]
    rfl
  · rename_i hnone
    rw [hnone]
    dsimp only
    split <;> rfl

/-- Decoding changes nothing in a codec but its cache. -/
theorem decode_snd (c : Codec) (m : Memory) (a : Nat) :
    (c.decode m a).2 = { c with cache := (c.decode m a).2.cache } := by
  unfold decode
  split
  · rfl
  · dsimp only
    split <;> rfl

/-- A string in static memory is in the cache afterwards, and nothing else changes. -/
theorem getElem?_cache_decode (c : Codec) (m : Memory) (a b : Nat) :
    (c.decode m a).2.cache[b]?
      = if b = a ∧ c.staticStart ≤ a then some (c.decode m a).1 else c.cache[b]? := by
  unfold decode
  cases hfound : c.cache[a]? with
  | some found =>
      dsimp only
      split
      · rename_i hb
        rw [hb.1, hfound]
      · rfl
  | none =>
      dsimp only
      by_cases hstatic : c.staticStart ≤ a
      · rw [if_pos hstatic, Std.HashMap.getElem?_insert]
        by_cases hb : b = a
        · rw [if_pos (by simp [hb]), if_pos ⟨hb, hstatic⟩]
        · rw [if_neg (by simpa using Ne.symm hb), if_neg (fun h => hb h.1)]
      · rw [if_neg hstatic, if_neg (fun h => hstatic h.2)]

/-- The string that decoding gives. -/
def look (c : Codec) (m : Memory) (a : Nat) : String × Nat :=
  (c.decode m a).1

theorem look_eq (c : Codec) (m : Memory) (a : Nat) :
    c.look m a = (c.cache[a]?).getD (c.read m a) :=
  c.decode_fst m a

theorem look_of_getElem?_eq_none {c : Codec} {a : Nat} (h : c.cache[a]? = none) (m : Memory) :
    c.look m a = c.read m a := by
  rw [look_eq, h, Option.getD_none]

theorem look_of_getElem?_eq_some {c : Codec} {a : Nat} {found : String × Nat}
    (h : c.cache[a]? = some found) (m : Memory) : c.look m a = found := by
  rw [look_eq, h, Option.getD_some]

/-- Decoding a string does not change what is seen in the same memory. -/
theorem look_decode (c : Codec) (m : Memory) (a : Nat) : (c.decode m a).2.look m = c.look m := by
  have hread : (c.decode m a).2.read = c.read := by
    rw [decode_snd]
    rfl
  funext b
  rw [look_eq, look_eq, hread, getElem?_cache_decode]
  split
  · rename_i hb
    rw [hb.1, Option.getD_some, decode_fst]
  · rfl

end Codec

/-! ## Decodes and writes -/

/-- A memory and the codec that reads its strings. -/
structure Reading where
  memory : Memory
  codec : Codec

/-- What may happen to them: a string is decoded, or a byte is written. -/
inductive StringAccess where
  | decode (address : Nat)
  | write (address : Nat) (value : UInt8)
  deriving DecidableEq

/-- An access writes nothing from an address on. -/
def StringAccess.WritesBelow (start : Nat) : StringAccess → Prop
  | .decode _ => True
  | .write address _ => address < start

namespace Reading

/-- The story with no string decoded yet. -/
def fresh (m : Memory) (h : Header) : Reading where
  memory := m
  codec := .ofStory m h

/-- What an access leaves behind. -/
def after (r : Reading) : StringAccess → Reading
  | .decode address => { r with codec := (r.codec.decode r.memory address).2 }
  | .write address value => { r with memory := r.memory.setByte address value }

/-- What any number of accesses leaves behind. -/
def afterAll (r : Reading) (accesses : List StringAccess) : Reading :=
  accesses.foldl after r

/-- The memory at the first access that keeps the string at an address, or at the end. -/
def firstSeen (address : Nat) : Reading → List StringAccess → Memory
  | r, [] => r.memory
  | r, access :: rest =>
      if access = .decode address ∧ r.codec.staticStart ≤ address then r.memory
      else firstSeen address (r.after access) rest

/-- No access writes to the abbreviation table or to an abbreviation string. -/
def SparesAbbreviations : Reading → List StringAccess → Prop
  | _, [] => True
  | r, .decode address :: rest => SparesAbbreviations (r.after (.decode address)) rest
  | r, .write address value :: rest =>
      ¬ r.codec.AbbreviationByte r.memory address ∧
        SparesAbbreviations (r.after (.write address value)) rest

theorem afterAll_cons (r : Reading) (access : StringAccess) (rest : List StringAccess) :
    r.afterAll (access :: rest) = (r.after access).afterAll rest := rfl

/-- An access leaves the tables of the codec alone. -/
theorem codec_after (r : Reading) (access : StringAccess) :
    (r.after access).codec = { r.codec with cache := (r.after access).codec.cache } := by
  cases access with
  | decode address => exact r.codec.decode_snd r.memory address
  | write address value => rfl

theorem codec_afterAll (r : Reading) (accesses : List StringAccess) :
    (r.afterAll accesses).codec = { r.codec with cache := (r.afterAll accesses).codec.cache } := by
  induction accesses generalizing r with
  | nil => rfl
  | cons access rest ih =>
      rw [afterAll_cons, ih, codec_after]

theorem read_afterAll (r : Reading) (accesses : List StringAccess) :
    (r.afterAll accesses).codec.read = r.codec.read := by
  rw [codec_afterAll]
  rfl

/-- **The answer is the string as it was first seen**, unless it was in the cache before. -/
theorem decode_afterAll (r : Reading) (accesses : List StringAccess) (a : Nat) :
    ((r.afterAll accesses).codec.decode (r.afterAll accesses).memory a).1
      = (r.codec.cache[a]?).getD (r.codec.read (firstSeen a r accesses) a) := by
  induction accesses generalizing r with
  | nil => exact Codec.decode_fst r.codec r.memory a
  | cons access rest ih =>
      have hread : (r.after access).codec.read = r.codec.read := by
        rw [codec_after]
        rfl
      rw [afterAll_cons, ih, hread, firstSeen]
      split
      · rename_i hfirst
        obtain ⟨rfl, hstatic⟩ := hfirst
        show ((r.codec.decode r.memory a).2.cache[a]?).getD _ = _
        rw [Codec.getElem?_cache_decode, if_pos ⟨rfl, hstatic⟩, Codec.decode_fst, Option.getD_some]
      · rename_i hfirst
        cases access with
        | write address value => rfl
        | decode address =>
            show ((r.codec.decode r.memory address).2.cache[a]?).getD _ = _
            rw [Codec.getElem?_cache_decode, if_neg]
            rintro ⟨rfl, hstatic⟩
            exact hfirst ⟨rfl, hstatic⟩

/-- The answer in a story with no string decoded before. -/
theorem decode_afterAll_fst (m : Memory) (h : Header) (accesses : List StringAccess) (a : Nat) :
    (((fresh m h).afterAll accesses).codec.decode ((fresh m h).afterAll accesses).memory a).1
      = (fresh m h).codec.read (firstSeen a (fresh m h) accesses) a := by
  have hempty : (fresh m h).codec.cache[a]? = none := Std.HashMap.getElem?_empty
  rw [decode_afterAll, hempty, Option.getD_none]

/-! ## What stays the same -/

/-- Writes below an address are not seen from there on. -/
theorem agreeFrom_afterAll {start : Nat} (r : Reading) {accesses : List StringAccess}
    (h : ∀ access ∈ accesses, access.WritesBelow start) :
    AgreeFrom start r.memory (r.afterAll accesses).memory := by
  induction accesses generalizing r with
  | nil => exact AgreeFrom.refl start r.memory
  | cons access rest ih =>
      have hfirst : AgreeFrom start r.memory (r.after access).memory := by
        cases access with
        | decode address => exact AgreeFrom.refl start r.memory
        | write address value =>
            exact Memory.agreeFrom_setByte (h (.write address value) List.mem_cons_self) _ _
      exact hfirst.trans (ih (r.after access) fun x hx => h x (List.mem_cons_of_mem _ hx))

theorem sameAbbreviations_of_codec_eq {c c' : Codec} (h : c' = { c with cache := c'.cache })
    {m m' : Memory} (hsame : c'.SameAbbreviations m m') : c.SameAbbreviations m m' := by
  rw [h] at hsame
  exact ⟨hsame.size, hsame.byteAt⟩

/-- Accesses that spare the abbreviations leave them the same. -/
theorem sameAbbreviations_afterAll (r : Reading) {accesses : List StringAccess}
    (h : SparesAbbreviations r accesses) :
    r.codec.SameAbbreviations r.memory (r.afterAll accesses).memory := by
  induction accesses generalizing r with
  | nil => exact Codec.SameAbbreviations.refl _ _
  | cons access rest ih =>
      cases access with
      | decode address =>
          exact sameAbbreviations_of_codec_eq (codec_after r _) (ih (r.after _) h)
      | write address value =>
          exact (Codec.sameAbbreviations_setByte h.1 value).trans (ih (r.after _) h.2)

/-- Where a string was first seen, the words of the string are the ones at the end. -/
theorem packedWords_firstSeen {r : Reading} {accesses : List StringAccess}
    (h : ∀ access ∈ accesses, access.WritesBelow r.codec.staticStart) (a : Nat) :
    packedWords (r.afterAll accesses).memory a = packedWords (firstSeen a r accesses) a := by
  induction accesses generalizing r with
  | nil => rfl
  | cons access rest ih =>
      rw [firstSeen]
      split
      · -- the string is in static memory, so no later write is among its words
        rename_i hfirst
        exact packedWords_of_agreeFrom (agreeFrom_afterAll r h) hfirst.2
      · apply ih
        rw [codec_after]
        exact fun x hx => h x (List.mem_cons_of_mem _ hx)

/-- If the abbreviations are spared, so are they since then. -/
theorem sameAbbreviations_firstSeen {r : Reading} {accesses : List StringAccess}
    (h : SparesAbbreviations r accesses) (a : Nat) :
    r.codec.SameAbbreviations (firstSeen a r accesses) (r.afterAll accesses).memory := by
  induction accesses generalizing r with
  | nil => exact Codec.SameAbbreviations.refl _ _
  | cons access rest ih =>
      rw [firstSeen]
      split
      · exact sameAbbreviations_afterAll r h
      · have hrest : SparesAbbreviations (r.after access) rest := by
          cases access with
          | decode address => exact h
          | write address value => exact h.2
        exact sameAbbreviations_of_codec_eq (codec_after r access) (ih hrest)

/-- Below static memory a string is first seen at the end. -/
theorem firstSeen_of_lt {r : Reading} {a : Nat} (h : a < r.codec.staticStart)
    (accesses : List StringAccess) : firstSeen a r accesses = (r.afterAll accesses).memory := by
  induction accesses generalizing r with
  | nil => rfl
  | cons access rest ih =>
      rw [firstSeen, if_neg (by omega)]
      apply ih
      rw [codec_after]
      exact h

/-! ## When the cache is transparent -/

/-- **What the cache remembers.**  Take a story whose strings have not been decoded yet, and any
decodes and writes below its static memory after which the string at an address is decoded.  The
answer is the string as it was when it was first kept.  Its end address is always the one that
reading memory as it stands gives, and so is its text if it starts below static memory or if none of
the writes touched the abbreviation table or an abbreviation string. -/
theorem decode_afterAll_fresh (m : Memory) (h : Header) (accesses : List StringAccess)
    (hwrites : ∀ access ∈ accesses, access.WritesBelow h.staticStart) (a : Nat) :
    let r := (fresh m h).afterAll accesses
    (r.codec.decode r.memory a).1 = r.codec.read (firstSeen a (fresh m h) accesses) a ∧
      (r.codec.decode r.memory a).1.2 = (r.codec.read r.memory a).2 ∧
      (a < h.staticStart ∨ SparesAbbreviations (fresh m h) accesses →
        (r.codec.decode r.memory a).1 = r.codec.read r.memory a) := by
  intro r
  have hread : r.codec.read = (fresh m h).codec.read := read_afterAll _ _
  have hdecode : (r.codec.decode r.memory a).1
      = (fresh m h).codec.read (firstSeen a (fresh m h) accesses) a := decode_afterAll_fst m h _ a
  have hwords : packedWords r.memory a = packedWords (firstSeen a (fresh m h) accesses) a :=
    packedWords_firstSeen hwrites a
  have hend : ((fresh m h).codec.read (firstSeen a (fresh m h) accesses) a).2
      = ((fresh m h).codec.read r.memory a).2 := by
    rw [Codec.read, Codec.read, hwords]
  rw [hread, hdecode]
  refine ⟨rfl, hend, ?_⟩
  rintro (hdynamic | hspares)
  · rw [firstSeen_of_lt hdynamic]
  · exact (Codec.read_congr (sameAbbreviations_firstSeen hspares a) hwords).symm

/-- A story of version 2 whose abbreviations lie in dynamic memory.  All of them are `the`, from
`0x80` on; static memory starts at `0x88` with an instruction that prints an abbreviation, the text
of which is the string at `0x89`. -/
def abbreviatedImage : Array UInt8 :=
  (2 :: List.replicate 14 (0 : UInt8) ++ 0x88 :: List.replicate 9 (0 : UInt8) ++
    0x40 :: List.replicate 38 (0 : UInt8) ++ (List.replicate 32 [(0 : UInt8), 0x40]).flatten ++
    [0xE5, 0xAA, 0, 0, 0, 0, 0, 0] ++ [0xB2, 0x84, 0x05, 0xB0, 0, 0, 0, 0]).toArray

/-- Its memory. -/
def abbreviatedStory : Memory :=
  Memory.ofImage abbreviatedImage

/-- Its header. -/
def abbreviatedHeader : Header :=
  Header.fields abbreviatedStory

theorem parse_abbreviatedStory : Header.parse abbreviatedStory = .ok abbreviatedHeader :=
  eq_ok_of_toOption (by decide +kernel)

/-- The byte after the abbreviation belongs to none of them. -/
theorem not_abbreviationByte_abbreviatedStory :
    ¬ (fresh abbreviatedStory abbreviatedHeader).codec.AbbreviationByte abbreviatedStory 0x84 := by
  have htable : (fresh abbreviatedStory abbreviatedHeader).codec.abbreviations = 0x40 := by
    decide +kernel
  have hcount : (fresh abbreviatedStory abbreviatedHeader).codec.charset.abbreviationCount = 32 :=
    by decide +kernel
  have hentries : ∀ i < 32, abbreviatedStory.pointerAt (0x40 + i * 2) = 0x40 := by decide +kernel
  have hend : (packedWords abbreviatedStory 0x80).2 = 0x82 := by decide +kernel
  rintro ⟨i, hi, hentry | hstring⟩
  · omega
  · rw [Codec.abbreviationStart, htable, hentries i (by omega), hend] at hstring
    omega

/-- A byte that belongs to no abbreviation is written, and the kept string is still right. -/
theorem decode_afterAll_fresh_spared :
    let r := (fresh abbreviatedStory abbreviatedHeader).afterAll [.decode 0x89, .write 0x84 7]
    (∀ access ∈ [StringAccess.decode 0x89, .write 0x84 7],
        access.WritesBelow abbreviatedHeader.staticStart) ∧
      SparesAbbreviations (fresh abbreviatedStory abbreviatedHeader)
        [.decode 0x89, .write 0x84 7] ∧
      (r.codec.decode r.memory 0x89).1 = r.codec.read r.memory 0x89 := by
  have hwrites : ∀ access ∈ [StringAccess.decode 0x89, .write 0x84 7],
      access.WritesBelow abbreviatedHeader.staticStart := by
    have hbelow : 0x84 < abbreviatedHeader.staticStart := by decide +kernel
    simpa [StringAccess.WritesBelow] using hbelow
  have hspares : SparesAbbreviations (fresh abbreviatedStory abbreviatedHeader)
      [.decode 0x89, .write 0x84 7] := by
    refine ⟨?_, trivial⟩
    rw [codec_after]
    exact not_abbreviationByte_abbreviatedStory
  exact ⟨hwrites, hspares, (decode_afterAll_fresh _ _ _ hwrites 0x89).2.2 (Or.inr hspares)⟩

/-- **A kept string goes stale.**  The last letter of the abbreviation is rewritten below static
memory after the string was decoded: the answer is still the old text, and no longer the one that
memory holds. -/
theorem decode_staleReading :
    let r := (fresh abbreviatedStory abbreviatedHeader).afterAll [.decode 0x89, .write 0x81 0xA6]
    Header.parse abbreviatedStory = .ok abbreviatedHeader ∧
      0x81 < abbreviatedHeader.staticStart ∧
      (r.codec.decode r.memory 0x89).1 = ("the", 0x8B) ∧
      r.codec.read r.memory 0x89 = ("tha", 0x8B) := by
  intro r
  have hkept : (fresh abbreviatedStory abbreviatedHeader).codec.read abbreviatedStory 0x89
      = ("the", 0x8B) := by decide +kernel
  have hnow : (fresh abbreviatedStory abbreviatedHeader).codec.read
      (abbreviatedStory.setByte 0x81 0xA6) 0x89 = ("tha", 0x8B) := by decide +kernel
  have hstatic : (fresh abbreviatedStory abbreviatedHeader).codec.staticStart ≤ 0x89 := by
    decide +kernel
  have hanswer : (r.codec.decode r.memory 0x89).1
      = (fresh abbreviatedStory abbreviatedHeader).codec.read abbreviatedStory 0x89 := by
    rw [decode_afterAll_fst, firstSeen, if_pos ⟨rfl, hstatic⟩]
    rfl
  have hmemory : r.memory = abbreviatedStory.setByte 0x81 0xA6 := rfl
  refine ⟨parse_abbreviatedStory, by decide +kernel, hanswer.trans hkept, ?_⟩
  rw [read_afterAll, hmemory]
  exact hnow

end Reading
end Text
end ZMachine
