/-
# Where static memory starts

Memory, header and codec of a machine each know where static memory starts.  Nothing that machine
and host do makes them differ, and the strings that the codec keeps always end after they start.

* `Bounded` : the three agree, and kept strings end after they start;
* `lasting_bounded` : nothing breaks that;
* `Reachable.bounded` : so it is true of all machines that a host can bring about, and at any moment
  of their runs.
-/
import ZMachine.Proofs.Instruction.BlockCache
import ZMachine.Proofs.Machine.Lasting

namespace ZMachine

open Memory (SameImage)

namespace Text.Codec

/-- The strings in the cache end after they start. -/
def EndsAfterStart (c : Codec) : Prop :=
  ∀ (a : Nat) (found : String × Nat), c.cache[a]? = some found → a < found.2

/-- So do all strings that are seen through it. -/
theorem EndsAfterStart.lt_look {c : Codec} (h : c.EndsAfterStart) (m : Memory) (a : Nat) :
    a < (c.look m a).2 := by
  cases hfound : c.cache[a]? with
  | none =>
      have hend := add_two_le_packedWords m a
      rw [look_of_getElem?_eq_none hfound]
      show a < (packedWords m a).2
      omega
  | some found =>
      rw [look_of_getElem?_eq_some hfound]
      exact h a found hfound

theorem EndsAfterStart.decode {c : Codec} (h : c.EndsAfterStart) (m : Memory) (a : Nat) :
    (c.decode m a).2.EndsAfterStart := by
  intro b found hfound
  rw [getElem?_cache_decode] at hfound
  split at hfound
  · rename_i hb
    cases hfound
    rw [hb.1]
    exact h.lt_look m a
  · exact h b found hfound

theorem endsAfterStart_ofStory (m : Memory) (h : Header) : (ofStory m h).EndsAfterStart := by
  intro a found hfound
  have hnone : (ofStory m h).cache[a]? = none := Std.HashMap.getElem?_empty
  rw [hfound] at hnone
  cases hnone

end Text.Codec

namespace Machine

/-- Header, codec and memory agree on where static memory starts, and the strings in the cache end
after they start. -/
structure Bounded (m : Machine) : Prop where
  header : m.header.staticStart = m.memory.staticStart
  codec : m.codec.staticStart = m.memory.staticStart
  ends : m.codec.EndsAfterStart

/-! ## Where equipment and image change -/

/-- Decoding strings does not matter. -/
theorem Bounded.withCodec {m : Machine} (h : m.Bounded) {codec : Text.Codec}
    (hstatic : codec.staticStart = m.codec.staticStart) (hends : codec.EndsAfterStart) :
    Bounded { m with codec } :=
  ⟨h.header, hstatic.trans h.codec, hends⟩

theorem Bounded.decode {m : Machine} (h : m.Bounded) (a : Nat) :
    Bounded { m with codec := (m.codec.decode m.memory a).2 } := by
  apply h.withCodec
  · rw [Text.Codec.decode_snd]
  · exact h.ends.decode m.memory a

/-- Fetching a block changes the codec by decoding strings. -/
theorem fetchBlock_codec_induction {m : Machine} {P : Text.Codec → Prop}
    (hdecode : ∀ c a, P c → P (c.decode m.memory a).2) (hm : P m.codec) :
    P (fetchBlock.run m).2.codec := by
  rw [fetchBlock_run]
  cases hkept : m.blocks.blocks[m.pc]? with
  | some block =>
      rw [BlockCache.fetch_of_some hkept]
      exact hm
  | none =>
      rw [BlockCache.fetch_of_none hkept]
      cases hblock : Block.decode m.codec m.memory m.pc with
      | error fault => exact hm
      | ok decoded => exact Block.decode_snd_induction hdecode hblock hm

theorem Bounded.fetchBlock {m : Machine} (hm : m.Bounded) : (fetchBlock.run m).2.Bounded := by
  have hcodec := fetchBlock_codec_induction
    (P := fun c => c.staticStart = m.codec.staticStart ∧ c.EndsAfterStart)
    (fun c a hc => ⟨by rw [Text.Codec.decode_snd]; exact hc.1, hc.2.decode m.memory a⟩)
    ⟨rfl, hm.ends⟩
  obtain ⟨blocks, codec, hfetch⟩ := fetchBlock_run_snd m
  rw [hfetch] at hcodec ⊢
  have hbounded := hm.withCodec hcodec.1 hcodec.2
  exact ⟨hbounded.header, hbounded.codec, hbounded.ends⟩

theorem Bounded.restart {m : Machine} (hm : m.Bounded) : m.restart.Bounded := by
  have himage : SameImage m.memory m.restart.memory :=
    (lasting_sameImage m.memory).restart (SameImage.refl m.memory)
  have hstatic : m.restart.memory.staticStart = m.header.staticStart :=
    himage.staticStart.trans hm.header.symm
  exact ⟨hstatic.symm, hstatic.symm, Text.Codec.endsAfterStart_ofStory _ _⟩

theorem ofEquipment_bounded : OfEquipment Bounded where
  work {m m'} hequipment himage hm := by
    have hheader : m'.header = m.header := congrArg Equipment.header hequipment
    have hcodec : m'.codec = m.codec := congrArg Equipment.codec hequipment
    refine ⟨?_, ?_, ?_⟩
    · rw [hheader, himage.staticStart, hm.header]
    · rw [hcodec, himage.staticStart, hm.codec]
    · rw [hcodec]
      exact hm.ends
  decode a hm := hm.decode a
  fetchBlock hm := hm.fetchBlock
  restart hm := hm.restart

/-- **Nothing breaks the agreement.** -/
theorem lasting_bounded : Lasting Bounded :=
  ofEquipment_bounded.lasting

theorem bounded_load {image : Array UInt8} {config : Config} {m : Machine}
    (h : load image config = .ok m) : m.Bounded := by
  obtain ⟨header, random, hparse, rfl⟩ := load_eq_ok h
  have himage := sameImage_setUpHeader config header.version (Memory.ofImage image)
  have hstatic : (setUpHeader config header.version (Memory.ofImage image)).staticStart
      = header.staticStart := himage.staticStart.trans (Memory.staticStart_ofImage hparse)
  exact ⟨hstatic.symm, hstatic.symm, Text.Codec.endsAfterStart_ofStory _ _⟩

/-- **Header, codec and memory agree in all machines that a host can bring about.** -/
theorem Reachable.bounded {image : Array UInt8} {config : Config} {m : Machine}
    (h : Reachable image config m) : m.Bounded :=
  lasting_bounded.reachable (fun _ hload => bounded_load hload) h

end Machine

namespace Moment

open Machine

theorem bounded_begin {m : Machine} (hm : m.Bounded) : (begin m).machine.Bounded :=
  lasting_bounded.begin hm

theorem Leads.bounded {μ ν : Moment} (h : Leads μ ν) (hμ : μ.machine.Bounded) :
    ν.machine.Bounded :=
  lasting_bounded.leads h hμ

end Moment
end ZMachine
