/-
# The instruction format

How instructions are written, and that the decoder reads them back.

* `Heading` : opcode number and operand kinds in the six forms;
* `Operand.bytes`, `BranchCode.bytes` : operands and branch data;
* `InstructionCode` : an instruction as it is written, with what its opcode asks for;
* `DecodesTo` : the decoded instruction that belongs to it;
* `decode_bytes` : that is the one which the decoder finds.
-/
import ZMachine.Instruction.Decode
import ZMachine.Proofs.Text.DictionaryWord

namespace ZMachine

/-! ## Operand kinds -/

namespace OperandKind

/-- The two type bits of a kind. -/
def bits : OperandKind → Nat
  | large => 0
  | small => 1
  | var => 2

/-- The type bits at a place of a type byte; three says that there is no operand. -/
def bitsAt (kinds : List OperandKind) (place : Nat) : Nat :=
  (kinds[place]?).elim 3 bits

/-- The type byte of up to four operands. -/
def typeByte (kinds : List OperandKind) : UInt8 :=
  UInt8.ofNat (bitsAt kinds 0 * 64 + bitsAt kinds 1 * 16 + bitsAt kinds 2 * 4 + bitsAt kinds 3)

/-- The bit of a kind in the long form, which has bytes and variables only. -/
def longBit : OperandKind → Nat
  | var => 1
  | _ => 0

theorem bits_lt (kind : OperandKind) : kind.bits < 3 := by
  cases kind <;> decide

theorem ofBits?_bits (kind : OperandKind) : ofBits? kind.bits = some kind := by
  cases kind <;> rfl

theorem bitsAt_lt (kinds : List OperandKind) (place : Nat) : bitsAt kinds place < 4 := by
  unfold bitsAt
  cases kinds[place]? with
  | none => exact Nat.lt_succ_self 3
  | some kind => exact Nat.lt_succ_of_lt kind.bits_lt

theorem ofBits?_bitsAt (kinds : List OperandKind) (place : Nat) :
    ofBits? (bitsAt kinds place) = kinds[place]? := by
  unfold bitsAt
  cases kinds[place]? with
  | none => rfl
  | some kind => exact ofBits?_bits kind

/-- The four places of a type byte hold the kinds up to the first omitted one. -/
theorem leading_places {kinds : List OperandKind} (h : kinds.length ≤ 4) :
    leading [kinds[0]?, kinds[1]?, kinds[2]?, kinds[3]?] = kinds := by
  match kinds, h with
  | [], _ => rfl
  | [_], _ => rfl
  | [_, _], _ => rfl
  | [_, _, _], _ => rfl
  | [_, _, _, _], _ => rfl

/-- A type byte lists its kinds. -/
theorem ofTypes_typeByte {kinds : List OperandKind} (h : kinds.length ≤ 4) :
    ofTypes (typeByte kinds) = kinds := by
  have h₀ := bitsAt_lt kinds 0
  have h₁ := bitsAt_lt kinds 1
  have h₂ := bitsAt_lt kinds 2
  have h₃ := bitsAt_lt kinds 3
  have hbyte : (typeByte kinds).toNat
      = bitsAt kinds 0 * 64 + bitsAt kinds 1 * 16 + bitsAt kinds 2 * 4 + bitsAt kinds 3 :=
    UInt8.toNat_ofNat_of_lt (show _ < 256 by omega)
  have e₀ : (typeByte kinds).toNat / 64 % 4 = bitsAt kinds 0 := by omega
  have e₁ : (typeByte kinds).toNat / 16 % 4 = bitsAt kinds 1 := by omega
  have e₂ : (typeByte kinds).toNat / 4 % 4 = bitsAt kinds 2 := by omega
  have e₃ : (typeByte kinds).toNat / 1 % 4 = bitsAt kinds 3 := by omega
  have hplaces : [64, 16, 4, 1].map (fun unit => ofBits? ((typeByte kinds).toNat / unit % 4))
      = [kinds[0]?, kinds[1]?, kinds[2]?, kinds[3]?] := by
    simp only [List.map_cons, List.map_nil, e₀, e₁, e₂, e₃, ofBits?_bitsAt]
  rw [ofTypes, hplaces, leading_places h]

/-- Two type bytes list up to eight kinds. -/
theorem ofTypePair_typeByte {kinds : List OperandKind} (h : kinds.length ≤ 8) :
    ofTypePair (typeByte (kinds.take 4)) (typeByte (kinds.drop 4)) = kinds := by
  have hfirst : ofTypes (typeByte (kinds.take 4)) = kinds.take 4 :=
    ofTypes_typeByte (List.length_take_le 4 kinds)
  have hsecond : ofTypes (typeByte (kinds.drop 4)) = kinds.drop 4 :=
    ofTypes_typeByte (by rw [List.length_drop]; omega)
  rw [ofTypePair, hfirst, hsecond, List.length_take]
  split
  · exact List.take_append_drop 4 kinds
  · exact List.take_of_length_le (by omega)

theorem ofLongBit_longBit {kind : OperandKind} (h : kind ≠ .large) :
    ofLongBit (kind.longBit = 1) = kind := by
  cases kind with
  | large => contradiction
  | small => rfl
  | var => rfl

end OperandKind

/-! ## Forms -/

open OperandKind in
/-- How an opcode number and the kinds of its operands are written.  Up to 31, numbers have a long
form and a variable one. -/
inductive Heading (version : UInt8) : Nat → List OperandKind → List UInt8 → Prop
  | long {number : Nat} {first second : OperandKind} (hnumber : 1 ≤ number ∧ number < 32)
      (hfirst : first ≠ .large) (hsecond : second ≠ .large) :
      Heading version number [first, second]
        [UInt8.ofNat (first.longBit * 64 + second.longBit * 32 + number)]
  | short {number : Nat} (kind : OperandKind) (hnumber : 128 ≤ number ∧ number < 144) :
      Heading version number [kind] [UInt8.ofNat (0x80 + kind.bits * 16 + (number - 128))]
  | bare {number : Nat} (hnumber : 176 ≤ number ∧ number < 192) :
      Heading version number [] [UInt8.ofNat number]
  | varyingTwo {number : Nat} {kinds : List OperandKind} (hnumber : 1 ≤ number ∧ number < 32)
      (hkinds : kinds.length ≤ 4) :
      Heading version number kinds [UInt8.ofNat (0xC0 + number), typeByte kinds]
  | varying {number : Nat} {kinds : List OperandKind} (hnumber : 224 ≤ number ∧ number < 256)
      (hsingle : number ≠ 236 ∧ number ≠ 250) (hkinds : kinds.length ≤ 4) :
      Heading version number kinds [UInt8.ofNat number, typeByte kinds]
  | paired {number : Nat} {kinds : List OperandKind} (hnumber : number = 236 ∨ number = 250)
      (hkinds : kinds.length ≤ 8) :
      Heading version number kinds
        [UInt8.ofNat number, typeByte (kinds.take 4), typeByte (kinds.drop 4)]
  | extended {kinds : List OperandKind} (hversion : 5 ≤ version) (code : UInt8)
      (hkinds : kinds.length ≤ 4) :
      Heading version (1000 + code.toNat) kinds [0xBE, code, typeByte kinds]

/-- No version has an opcode of the number that marks the extended form. -/
theorem Op.lookup?_marker (version : UInt8) : Op.lookup? version 190 = none := by
  unfold lookup?
  split
  · rfl
  · split <;> rfl

namespace Form

variable {version : UInt8} {m : Memory} {a number : Nat}

/-- The form by the number of the first byte. -/
theorem read_of_toNat {n : Nat} (hbyte : (m.byteAt a).toNat = n) :
    read version m a
      = if n = 0xBE ∧ 5 ≤ version then extended m a
        else if 0xC0 ≤ n then varying m a
        else if 0x80 ≤ n then short (m.byteAt a) a
        else long (m.byteAt a) a := by
  have hmarker : m.byteAt a = 0xBE ↔ n = 0xBE := by
    rw [← UInt8.toNat_inj, hbyte]
    rfl
  have hvarying : 0xC0 ≤ m.byteAt a ↔ 0xC0 ≤ n := by
    rw [UInt8.le_iff_toNat_le, hbyte]
    rfl
  have hshort : 0x80 ≤ m.byteAt a ↔ 0x80 ≤ n := by
    rw [UInt8.le_iff_toNat_le, hbyte]
    rfl
  unfold read
  simp only [hmarker, hvarying, hshort]

theorem read_long {first second : OperandKind} (hnumber : number < 32) (hfirst : first ≠ .large)
    (hsecond : second ≠ .large)
    (hbyte : (m.byteAt a).toNat = first.longBit * 64 + second.longBit * 32 + number) :
    read version m a = { number, kinds := [first, second], operandsStart := a + 1 } := by
  have hbit : first.longBit < 2 := by cases first <;> decide
  have hbit' : second.longBit < 2 := by cases second <;> decide
  have h₀ : (m.byteAt a).toNat % 32 = number := by omega
  have h₁ : (m.byteAt a).toNat / 64 % 2 = first.longBit := by omega
  have h₂ : (m.byteAt a).toNat / 32 % 2 = second.longBit := by omega
  rw [read_of_toNat hbyte, if_neg (by omega), if_neg (by omega), if_neg (by omega), long, h₀, h₁,
    h₂, OperandKind.ofLongBit_longBit hfirst, OperandKind.ofLongBit_longBit hsecond]

theorem read_short {kind : OperandKind} (hnumber : 128 ≤ number ∧ number < 144)
    (hbyte : (m.byteAt a).toNat = 0x80 + kind.bits * 16 + (number - 128)) :
    read version m a = { number, kinds := [kind], operandsStart := a + 1 } := by
  have hbits := kind.bits_lt
  have h₀ : (m.byteAt a).toNat / 16 % 4 = kind.bits := by omega
  have h₁ : 128 + (m.byteAt a).toNat % 16 = number := by omega
  rw [read_of_toNat hbyte, if_neg (by omega), if_neg (by omega), if_pos (by omega), short, h₀,
    OperandKind.ofBits?_bits, h₁]

theorem read_bare (hnumber : 176 ≤ number ∧ number < 192) (hmarker : number ≠ 190)
    (hbyte : (m.byteAt a).toNat = number) :
    read version m a = { number, kinds := [], operandsStart := a + 1 } := by
  have h₀ : (m.byteAt a).toNat / 16 % 4 = 3 := by omega
  have h₁ : 176 + (m.byteAt a).toNat % 16 = number := by omega
  rw [read_of_toNat hbyte, if_neg (by omega), if_neg (by omega), if_pos (by omega), short, h₀, h₁]
  rfl

/-- The variable form by the number that its first byte stands for. -/
theorem read_varying (hbyte : 0xC0 ≤ (m.byteAt a).toNat)
    (hnumber : (if (m.byteAt a).toNat / 32 % 2 = 0 then (m.byteAt a).toNat % 32
      else (m.byteAt a).toNat) = number) :
    read version m a
      = if number = 236 ∨ number = 250 then
          { number
            kinds := OperandKind.ofTypePair (m.byteAt (a + 1)) (m.byteAt (a + 2))
            operandsStart := a + 3 }
        else
          { number, kinds := OperandKind.ofTypes (m.byteAt (a + 1)), operandsStart := a + 2 } := by
  have hpair : hasTypePair number = true ↔ number = 236 ∨ number = 250 := by
    simp [hasTypePair]
  rw [read_of_toNat rfl, if_neg (by omega), if_pos hbyte, varying]
  simp only [hnumber, hpair]

theorem read_extended (hversion : 5 ≤ version) (hbyte : m.byteAt a = 0xBE) :
    read version m a = extended m a := by
  rw [read, if_pos ⟨hbyte, hversion⟩]

end Form

namespace Heading

variable {version : UInt8} {number : Nat} {kinds : List OperandKind} {head : List UInt8}

/-- A heading is read back. -/
theorem form_eq (h : Heading version number kinds head) (hmarker : number ≠ 190) {m : Memory}
    {a : Nat} (hholds : m.Holds a head) :
    Form.read version m a = { number, kinds, operandsStart := a + head.length } := by
  cases h with
  | @long _ first second hnumber hfirst hsecond =>
      obtain ⟨hbyte, -⟩ := Memory.holds_cons_iff.mp hholds
      have hbit : first.longBit < 2 := by cases first <;> decide
      have hbit' : second.longBit < 2 := by cases second <;> decide
      exact Form.read_long hnumber.2 hfirst hsecond (toNat_byteAt_of_eq_ofNat hbyte (by omega))
  | short kind hnumber =>
      obtain ⟨hbyte, -⟩ := Memory.holds_cons_iff.mp hholds
      have hbits := kind.bits_lt
      exact Form.read_short hnumber (toNat_byteAt_of_eq_ofNat hbyte (by omega))
  | bare hnumber =>
      obtain ⟨hbyte, -⟩ := Memory.holds_cons_iff.mp hholds
      exact Form.read_bare hnumber hmarker (toNat_byteAt_of_eq_ofNat hbyte (by omega))
  | varyingTwo hnumber hkinds =>
      obtain ⟨hbyte, hrest⟩ := Memory.holds_cons_iff.mp hholds
      obtain ⟨htypes, -⟩ := Memory.holds_cons_iff.mp hrest
      have hn := toNat_byteAt_of_eq_ofNat hbyte (by omega)
      have htwo : (0xC0 + number) % 32 = number := by omega
      rw [Form.read_varying (by omega) (by rw [hn, if_pos (by omega), htwo]), if_neg (by omega),
        htypes, OperandKind.ofTypes_typeByte hkinds]
      rfl
  | varying hnumber hsingle hkinds =>
      obtain ⟨hbyte, hrest⟩ := Memory.holds_cons_iff.mp hholds
      obtain ⟨htypes, -⟩ := Memory.holds_cons_iff.mp hrest
      have hn := toNat_byteAt_of_eq_ofNat hbyte (by omega)
      rw [Form.read_varying (by omega) (by rw [hn, if_neg (by omega)]), if_neg (by omega),
        htypes, OperandKind.ofTypes_typeByte hkinds]
      rfl
  | paired hnumber hkinds =>
      obtain ⟨hbyte, hrest⟩ := Memory.holds_cons_iff.mp hholds
      obtain ⟨hfirst, hrest⟩ := Memory.holds_cons_iff.mp hrest
      obtain ⟨hsecond, -⟩ := Memory.holds_cons_iff.mp hrest
      have hn := toNat_byteAt_of_eq_ofNat hbyte (by omega)
      rw [Form.read_varying (by omega) (by rw [hn, if_neg (by omega)]), if_pos hnumber,
        hfirst, hsecond, OperandKind.ofTypePair_typeByte hkinds]
      rfl
  | extended hversion code hkinds =>
      obtain ⟨hbyte, hrest⟩ := Memory.holds_cons_iff.mp hholds
      obtain ⟨hcode, hrest⟩ := Memory.holds_cons_iff.mp hrest
      obtain ⟨htypes, -⟩ := Memory.holds_cons_iff.mp hrest
      rw [Form.read_extended hversion hbyte, Form.extended, hcode, htypes,
        OperandKind.ofTypes_typeByte hkinds]
      rfl

/-- No heading starts with a zero. -/
theorem head_eq (h : Heading version number kinds head) :
    ∃ n rest, 0 < n ∧ n < 256 ∧ head = UInt8.ofNat n :: rest := by
  cases h with
  | @long _ first second hnumber =>
      have hbit : first.longBit < 2 := by cases first <;> decide
      have hbit' : second.longBit < 2 := by cases second <;> decide
      exact ⟨_, _, by omega, by omega, rfl⟩
  | short kind hnumber =>
      have hbits := kind.bits_lt
      exact ⟨_, _, by omega, by omega, rfl⟩
  | bare hnumber => exact ⟨number, [], by omega, by omega, rfl⟩
  | varyingTwo hnumber => exact ⟨0xC0 + number, _, by omega, by omega, rfl⟩
  | varying hnumber => exact ⟨number, _, by omega, by omega, rfl⟩
  | paired hnumber => exact ⟨number, _, by omega, by omega, rfl⟩
  | extended => exact ⟨0xBE, _, by omega, by omega, rfl⟩

theorem byteAt_ne_zero (h : Heading version number kinds head) {m : Memory} {a : Nat}
    (hholds : m.Holds a head) : m.byteAt a ≠ 0 := by
  obtain ⟨n, rest, hpositive, hn, rfl⟩ := h.head_eq
  have hbyte := toNat_byteAt_of_eq_ofNat (Memory.holds_cons_iff.mp hholds).1 hn
  intro hzero
  rw [hzero, UInt8.toNat_zero] at hbyte
  omega

end Heading

/-! ## Operands and branches -/

namespace Operand

/-- How an operand is written. -/
def kind : Operand → OperandKind
  | large _ => .large
  | small _ => .small
  | var _ => .var

/-- The bytes of an operand. -/
def bytes : Operand → List UInt8
  | large value => [Word.high value, Word.low value]
  | small value => [value]
  | var code => [code]

theorem read_kind (operand : Operand) {m : Memory} {a : Nat} (hholds : m.Holds a operand.bytes) :
    read m a operand.kind = (operand, a + operand.bytes.length) := by
  cases operand with
  | large value =>
      obtain ⟨hhigh, hrest⟩ := Memory.holds_cons_iff.mp hholds
      obtain ⟨hlow, -⟩ := Memory.holds_cons_iff.mp hrest
      have hword : m.wordAt a = value := by
        rw [Memory.wordAt, hhigh, hlow, Word.ofBytes_high_low]
      rw [kind, read, hword]
      rfl
  | small value =>
      rw [kind, read, (Memory.holds_cons_iff.mp hholds).1]
      rfl
  | var code =>
      rw [kind, read, (Memory.holds_cons_iff.mp hholds).1]
      rfl

/-- Operands are read back in order. -/
theorem readAll_kinds (operands : List Operand) {m : Memory} {a : Nat}
    (hholds : m.Holds a (operands.flatMap bytes)) :
    readAll m a (operands.map kind) = (operands, a + (operands.flatMap bytes).length) := by
  induction operands generalizing a with
  | nil => rfl
  | cons operand operands ih =>
      obtain ⟨hfirst, hrest⟩ := Memory.holds_append_iff.mp hholds
      rw [List.map_cons, readAll, read_kind operand hfirst]
      dsimp only
      rw [ih hrest, List.flatMap_cons, List.length_append, Nat.add_assoc]

end Operand

/-- A branch offset in one byte or in two. -/
inductive BranchOffset where
  | near (offset : Fin 64)
  | far (offset : Int) (range : -0x2000 ≤ offset ∧ offset < 0x2000)

/-- The number that an offset stands for. -/
def BranchOffset.value : BranchOffset → Int
  | near offset => offset.val
  | far offset _ => offset

/-- Branch data as it is written. -/
structure BranchCode where
  onTrue : Bool
  offset : BranchOffset

/-- Where an offset leads from the end of the branch data: out of the routine, or on by two less
than the offset but not below zero. -/
inductive Branch.LeadsTo (after : Nat) : Int → BranchTarget → Prop
  | returnFalse : LeadsTo after 0 .returnFalse
  | returnTrue : LeadsTo after 1 .returnTrue
  | address {offset : Int} {target : Nat} (hfalse : offset ≠ 0) (htrue : offset ≠ 1)
      (htarget : (target : Int) = max 0 (after + offset - 2)) :
      LeadsTo after offset (.address target)

theorem Branch.leadsTo_targetOf (after : Nat) (offset : Int) :
    LeadsTo after offset (targetOf after offset) := by
  unfold targetOf
  split
  · subst offset
    exact .returnFalse
  split
  · subst offset
    exact .returnTrue
  · exact .address ‹_› ‹_› (by omega)

namespace BranchCode

/-- The branch that belongs to branch data which ends before an address. -/
def DecodesTo (after : Nat) (written : BranchCode) (found : Branch) : Prop :=
  found.onTrue = written.onTrue ∧ Branch.LeadsTo after written.offset.value found.target

/-- The top bit of branch data, by the outcome that is branched on. -/
def senseBit (onTrue : Bool) : Nat :=
  if onTrue then 0x80 else 0

/-- The bytes of branch data.  The bit after the top one says that the offset is in this byte. -/
def bytes (b : BranchCode) : List UInt8 :=
  match b.offset with
  | .near offset => [UInt8.ofNat (senseBit b.onTrue + 0x40 + offset)]
  | .far offset _ =>
      let raw := (offset % 0x4000).toNat
      [UInt8.ofNat (senseBit b.onTrue + raw / 256), UInt8.ofNat (raw % 256)]

theorem senseBit_le (onTrue : Bool) : senseBit onTrue ≤ 0x80 := by
  cases onTrue <;> decide

/-- The parts of the first byte. -/
theorem parts_of_toNat {byte : UInt8} {onTrue : Bool} {low : Nat}
    (hbyte : byte.toNat = senseBit onTrue + low) (hlow : low < 0x80) :
    decide (0x80 ≤ byte) = onTrue ∧ byte.toNat / 64 % 2 = low / 64 ∧
      byte.toNat % 64 = low % 64 := by
  have hsense : 0x80 ≤ byte ↔ 0x80 ≤ senseBit onTrue + low := by
    rw [UInt8.le_iff_toNat_le, hbyte]
    rfl
  rw [hbyte]
  cases onTrue with
  | false =>
      simp only [senseBit, Bool.false_eq_true, if_false] at hsense ⊢
      exact ⟨by simp [hsense]; omega, by omega, by omega⟩
  | true =>
      simp only [senseBit, if_true] at hsense ⊢
      exact ⟨by simp [hsense], by omega, by omega⟩

/-- Fourteen bits in two's complement. -/
theorem signed14_emod {offset : Int} (h : -0x2000 ≤ offset ∧ offset < 0x2000) :
    Branch.signed14 (offset % 0x4000).toNat = offset := by
  unfold Branch.signed14
  split <;> omega

/-- Branch data is read back. -/
theorem read_bytes (b : BranchCode) {m : Memory} {a : Nat} (hholds : m.Holds a b.bytes) :
    Branch.read m a
      = ({ onTrue := b.onTrue
           target := Branch.targetOf (a + b.bytes.length) b.offset.value },
        a + b.bytes.length) := by
  obtain ⟨onTrue, offset⟩ := b
  have hsense := senseBit_le onTrue
  cases offset with
  | near offset =>
      obtain ⟨hbyte, -⟩ := Memory.holds_cons_iff.mp hholds
      have hlt := offset.isLt
      have hn := toNat_byteAt_of_eq_ofNat hbyte (by dsimp only; omega)
      obtain ⟨honTrue, hnear, hlow⟩ := parts_of_toNat (hn.trans (Nat.add_assoc _ _ _)) (by omega)
      have hone : (0x40 + offset.val) / 64 = 1 := by omega
      have hrest : (0x40 + offset.val) % 64 = offset.val := by omega
      rw [Branch.read]
      dsimp only
      rw [if_pos (hnear.trans hone), honTrue, hlow, hrest]
      rfl
  | far offset range =>
      obtain ⟨hbyte, hholds⟩ := Memory.holds_cons_iff.mp hholds
      obtain ⟨hbyte', -⟩ := Memory.holds_cons_iff.mp hholds
      have hraw : (offset % 0x4000).toNat < 0x4000 := by omega
      have hn := toNat_byteAt_of_eq_ofNat hbyte (by dsimp only; omega)
      have hn' := toNat_byteAt_of_eq_ofNat hbyte' (by omega)
      obtain ⟨honTrue, hfar, hlow⟩ := parts_of_toNat hn (by omega)
      have hzero : (offset % 0x4000).toNat / 256 / 64 ≠ 1 := by omega
      have hoffset : (offset % 0x4000).toNat / 256 % 64 * 256 + (offset % 0x4000).toNat % 256
          = (offset % 0x4000).toNat := by omega
      rw [Branch.read]
      dsimp only
      rw [if_neg (by rw [hfar]; exact hzero), honTrue, hlow, hn', hoffset, signed14_emod range]
      rfl

end BranchCode

/-! ## Instructions -/

/-- An instruction as it is written for a version: an opcode that the version has, in a form that
takes its operands, and what the opcode asks for after them. -/
structure InstructionCode (version : UInt8) where
  number : Nat
  op : Op
  operands : List Operand
  /-- The bytes before the operands. -/
  head : List UInt8
  store : Option UInt8
  branch : Option BranchCode
  /-- The words of the packed text. -/
  text : Option (List UInt16)
  known : Op.lookup? version number = some op
  heading : Heading version number (operands.map Operand.kind) head
  stores : store.isSome = op.stores version
  branches : branch.isSome = op.branches version
  hasText : text.isSome = op.hasText
  stopped : ∀ words ∈ text, Text.Stopped words

namespace InstructionCode

variable {version : UInt8}

/-- The bytes of the operands. -/
def operandBytes (code : InstructionCode version) : List UInt8 :=
  code.operands.flatMap Operand.bytes

/-- The bytes of the branch data. -/
def branchBytes (code : InstructionCode version) : List UInt8 :=
  (code.branch.map BranchCode.bytes).getD []

/-- The bytes of the text. -/
def textBytes (code : InstructionCode version) : List UInt8 :=
  (code.text.map Text.bytesOfWords).getD []

/-- The bytes up to the text. -/
def bodyBytes (code : InstructionCode version) : List UInt8 :=
  code.head ++ (code.operandBytes ++ (code.store.toList ++ code.branchBytes))

/-- The bytes of an instruction. -/
def bytes (code : InstructionCode version) : List UInt8 :=
  code.bodyBytes ++ code.textBytes

/-- The decoded instruction that belongs to one that is written from `start` on.  Its text is what
the codec makes of the words. -/
structure DecodesTo (code : InstructionCode version) (c : Text.Codec) (m : Memory) (start : Nat)
    (ins : Instruction) : Prop where
  address : ins.address = start
  op : ins.op = code.op
  number : ins.number = code.number
  operands : ins.operands = code.operands
  operandsEnd : ins.operandsEnd = start + code.head.length + code.operandBytes.length
  store : ins.store = code.store
  branch : Option.Rel (BranchCode.DecodesTo (start + code.bodyBytes.length)) code.branch ins.branch
  text : ins.text = code.text.map fun words => String.ofList
    (Text.Reader.render c.charset (c.abbreviation m) {} (words.flatMap Text.codesOfWord))
  next : ins.next = start + code.bytes.length

variable {m : Memory} {a : Nat}

theorem readStore_eq {store : Option UInt8} {present : Bool} (hpresent : store.isSome = present)
    (hholds : m.Holds a store.toList) :
    Instruction.readStore m a present = (store, a + store.toList.length) := by
  subst present
  cases store with
  | none => rfl
  | some code =>
      have hbyte : m.byteAt a = code := (Memory.holds_cons_iff.mp hholds).1
      show (some (m.byteAt a), a + 1) = _
      rw [hbyte]
      rfl

theorem readBranch_eq (code : InstructionCode version) (hholds : m.Holds a code.branchBytes) :
    ∃ found, Instruction.readBranch m a (code.op.branches version)
        = (found, a + code.branchBytes.length) ∧
      Option.Rel (BranchCode.DecodesTo (a + code.branchBytes.length)) code.branch found := by
  rw [← code.branches]
  unfold branchBytes at *
  cases hbranch : code.branch with
  | none => exact ⟨none, rfl, .none⟩
  | some b =>
      rw [hbranch] at hholds
      refine ⟨some (Branch.read m a).1, ?_, .some ?_⟩
      · show (some (Branch.read m a).1, (Branch.read m a).2) = _
        rw [b.read_bytes hholds]
        rfl
      · rw [b.read_bytes hholds]
        exact ⟨rfl, Branch.leadsTo_targetOf _ _⟩

/-- Up to its text an instruction is read back. -/
theorem decodeBody_eq (code : InstructionCode version) (hholds : m.Holds a code.bodyBytes)
    (hinside : a < m.size) :
    ∃ found, Option.Rel (BranchCode.DecodesTo (a + code.bodyBytes.length)) code.branch found ∧
      Instruction.decodeBody version m a = .ok
        { address := a
          op := code.op
          number := code.number
          operands := code.operands
          operandsEnd := a + code.head.length + code.operandBytes.length
          store := code.store
          branch := found
          text := none
          next := a + code.bodyBytes.length } := by
  obtain ⟨hhead, hrest⟩ := Memory.holds_append_iff.mp hholds
  obtain ⟨hoperands, hrest⟩ := Memory.holds_append_iff.mp hrest
  obtain ⟨hstore, hbranch⟩ := Memory.holds_append_iff.mp hrest
  -- the marker of the extended form is no number of its own
  have hmarker : code.number ≠ 190 := by
    intro hnumber
    have hknown := code.known
    rw [hnumber, Op.lookup?_marker] at hknown
    cases hknown
  have hend : a + code.bodyBytes.length = a + code.head.length + code.operandBytes.length
      + code.store.toList.length + code.branchBytes.length := by
    simp only [bodyBytes, List.length_append]
    omega
  have hoperands' : Operand.readAll m (a + code.head.length) (code.operands.map Operand.kind)
      = (code.operands, a + code.head.length + code.operandBytes.length) :=
    Operand.readAll_kinds code.operands hoperands
  obtain ⟨found, hread, hfound⟩ := code.readBranch_eq hbranch
  rw [← hend] at hread hfound
  refine ⟨found, hfound, ?_⟩
  rw [Instruction.decodeBody, if_neg (by omega), if_neg (code.heading.byteAt_ne_zero hhead),
    code.heading.form_eq hmarker hhead]
  dsimp only
  rw [code.known]
  dsimp only
  rw [hoperands']
  dsimp only
  rw [readStore_eq code.stores hstore]
  dsimp only
  rw [hread]

/-- Text is read back by a codec that remembers nothing at its address. -/
theorem decodeText_eq {words : List UInt16} (hstopped : Text.Stopped words) (c : Text.Codec)
    (hcache : c.cache[a]? = none) (hholds : m.Holds a (Text.bytesOfWords words))
    (hinside : a + (Text.bytesOfWords words).length ≤ m.size) :
    (c.decode m a).1
      = (String.ofList
          (Text.Reader.render c.charset (c.abbreviation m) {} (words.flatMap Text.codesOfWord)),
        a + (Text.bytesOfWords words).length) := by
  rw [Text.Codec.decode_fst, hcache, Option.getD_none, Text.Codec.read, Text.Codec.textAt,
    hstopped.packedWords_eq hholds hinside]

/-- An instruction in memory is read back. -/
theorem decode_eq (c : Text.Codec) (code : InstructionCode c.charset.version)
    (hcache : ∀ address : Nat, c.cache[address]? = none) (hholds : m.Holds a code.bytes)
    (hinside : a + code.bytes.length ≤ m.size) :
    ∃ ins c', Instruction.decode c m a = .ok (ins, c') ∧ code.DecodesTo c m a ins := by
  obtain ⟨hbody, htext⟩ := Memory.holds_append_iff.mp hholds
  have hlength : code.bytes.length = code.bodyBytes.length + code.textBytes.length :=
    List.length_append
  -- the body is not empty, so the instruction starts inside the image
  have hstart : a < m.size := by
    obtain ⟨n, rest, -, -, hhead⟩ := code.heading.head_eq
    have hpositive : 0 < code.bodyBytes.length := by simp [bodyBytes, hhead]
    omega
  obtain ⟨found, hfound, hdecode⟩ := code.decodeBody_eq hbody hstart
  rw [Instruction.decode, hdecode]
  dsimp only
  rw [← code.hasText]
  unfold textBytes at hlength htext
  cases hwords : code.text with
  | none =>
      rw [hwords] at hlength
      refine ⟨_, c, rfl, rfl, rfl, rfl, rfl, rfl, rfl, hfound, ?_, ?_⟩
      · rw [hwords]
        rfl
      · rw [hlength]
        rfl
  | some words =>
      rw [hwords] at hlength htext
      have hread := decodeText_eq (code.stopped words hwords) c (hcache _) htext
        (by rw [hlength] at hinside; simpa [Nat.add_assoc] using hinside)
      refine ⟨_, _, rfl, rfl, rfl, rfl, rfl, rfl, rfl, hfound, ?_, ?_⟩
      · rw [hwords]
        exact congrArg (fun text => some (Prod.fst text)) hread
      · rw [hlength, ← Nat.add_assoc]
        exact congrArg Prod.snd hread

/-- **The decoder inverts the instruction format.**  An instruction that is written anywhere inside
the image is found there, by a codec that has no string in its cache. -/
theorem decode_bytes (c : Text.Codec) (hcache : c.cachedStrings = 0)
    (code : InstructionCode c.charset.version) (m : Memory) (a : Nat)
    (hinside : a + code.bytes.length ≤ m.size) :
    ∃ ins c', Instruction.decode c (m.setBytes a code.bytes) a = .ok (ins, c') ∧
      code.DecodesTo c (m.setBytes a code.bytes) a ins := by
  refine decode_eq c code ?_ (Memory.slice_setBytes_self m a code.bytes hinside) ?_
  · intro address
    have hempty : c.cache.isEmpty = true := by
      rw [Std.HashMap.isEmpty_eq_size_eq_zero]
      exact decide_eq_true hcache
    exact Std.HashMap.getElem?_of_isEmpty hempty
  · rw [Memory.size_setBytes]
    exact hinside

/-- An instruction of version 5 that searches a table, stores where it finds the value and branches
back if it does not. -/
def scanningCode : InstructionCode 5 where
  number := 247
  op := .scanTable
  operands := [.large 0x1234, .var 1, .small 5]
  head := [247, 0x27]
  store := some 0x10
  branch := some { onTrue := false, offset := .far (-3) (by decide) }
  text := none
  known := rfl
  heading := .varying (by decide) (by decide) (by decide)
  stores := rfl
  branches := rfl
  hasText := rfl
  stopped := by simp

/-- A story of version 5 with nothing but a header and room for an instruction. -/
def scanningStory : Memory :=
  .ofImage (5 :: List.replicate 0x4F (0 : UInt8)).toArray

/-- The branch leads five bytes back from the end of the instruction. -/
theorem decode_bytes_scanningCode :
    let c := Text.Codec.ofStory scanningStory (Header.fields scanningStory)
    let m := scanningStory.setBytes 0x40 scanningCode.bytes
    c.cachedStrings = 0 ∧ scanningCode.bytes = [247, 0x27, 0x12, 0x34, 1, 5, 0x10, 0x3F, 0xFD] ∧
      ∃ ins c', Instruction.decode c m 0x40 = .ok (ins, c') ∧
        ins.op = .scanTable ∧ ins.operands = scanningCode.operands ∧ ins.operandsEnd = 0x46 ∧
        ins.store = some 0x10 ∧ ins.branch = some ⟨false, .address 0x44⟩ ∧ ins.next = 0x49 := by
  intro c m
  obtain ⟨ins, c', hdecode, hins⟩ := decode_bytes c rfl scanningCode scanningStory 0x40 (by decide)
  have hbranch : ins.branch = some ⟨false, .address 0x44⟩ := by
    have hrel : Option.Rel (BranchCode.DecodesTo 0x49)
        (some { onTrue := false, offset := .far (-3) (by decide) }) ins.branch := hins.branch
    rcases hfound : ins.branch with _ | ⟨onTrue, target⟩
    · rw [hfound] at hrel
      cases hrel
    · rw [hfound] at hrel
      obtain ⟨rfl, hleads⟩ : onTrue = false ∧ Branch.LeadsTo 0x49 (-3) target := by
        cases hrel with
        | some h => exact h
      cases hleads with
      | address _ _ htarget =>
          have hback : _ = 0x44 := Int.ofNat.inj htarget
          rw [hback]
  exact ⟨rfl, by decide, ins, c', hdecode, hins.op, hins.operands, hins.operandsEnd, hins.store,
    hbranch, hins.next⟩

end InstructionCode
end ZMachine
