/-
# Decoded instructions

Facts about the instructions that decoding gives.  The parts of an instruction follow one another
from its address on, so the next instruction starts further up.
-/
import ZMachine.Instruction.Decode

namespace ZMachine

theorem Form.lt_operandsStart (version : UInt8) (m : Memory) (address : Nat) :
    address < (Form.read version m address).operandsStart := by
  unfold Form.read
  dsimp only
  split
  · show address < address + 3
    omega
  split
  · unfold varying
    dsimp only
    split <;> split <;> dsimp only <;> omega
  split
  · unfold short
    split <;> dsimp only <;> omega
  · show address < address + 1
    omega

theorem Operand.le_readAll (m : Memory) (address : Nat) (kinds : List OperandKind) :
    address ≤ (Operand.readAll m address kinds).2 := by
  induction kinds generalizing address with
  | nil => exact Nat.le_refl address
  | cons kind kinds ih =>
      have hread : address ≤ (Operand.read m address kind).2 := by
        cases kind <;> exact Nat.le_add_right _ _
      exact Nat.le_trans hread (ih _)

namespace Instruction

theorem le_readStore (m : Memory) (address : Nat) (present : Bool) :
    address ≤ (readStore m address present).2 := by
  cases present with
  | false => exact Nat.le_refl address
  | true => exact Nat.le_add_right _ _

theorem le_readBranch (m : Memory) (address : Nat) (present : Bool) :
    address ≤ (readBranch m address present).2 := by
  cases present with
  | false => exact Nat.le_refl address
  | true =>
      show address ≤ (Branch.read m address).2
      unfold Branch.read
      dsimp only
      split <;> exact Nat.le_add_right _ _

/-- Up to its text an instruction ends after its address. -/
theorem lt_next_of_decodeBody {version : UInt8} {m : Memory} {address : Nat} {ins : Instruction}
    (h : decodeBody version m address = .ok ins) : address < ins.next := by
  unfold decodeBody at h
  split at h
  · cases h
  split at h
  · cases h
  dsimp only at h
  split at h
  · cases h
  · rename_i op _
    cases h
    have hform := Form.lt_operandsStart version m address
    have hoperands := Operand.le_readAll m (Form.read version m address).operandsStart
      (Form.read version m address).kinds
    have hstore := le_readStore m (Operand.readAll m (Form.read version m address).operandsStart
      (Form.read version m address).kinds).2 (op.stores version)
    have hbranch := le_readBranch m (readStore m (Operand.readAll m
      (Form.read version m address).operandsStart (Form.read version m address).kinds).2
      (op.stores version)).2 (op.branches version)
    dsimp only
    omega

/-- An instruction that decoding gives for some story. -/
def Decoded (ins : Instruction) : Prop :=
  ∃ codec memory address codec', decode codec memory address = .ok (ins, codec')

/-- A decoded instruction without text is followed by a later address than zero. -/
theorem Decoded.next_pos {ins : Instruction} (h : ins.Decoded) (htext : ins.op.hasText = false) :
    0 < ins.next := by
  obtain ⟨codec, memory, address, codec', hdecode⟩ := h
  unfold decode at hdecode
  split at hdecode
  · cases hdecode
  · rename_i body hbody
    split at hdecode
    · rename_i hbodyText
      cases hdecode
      exact absurd hbodyText (by simpa [withText] using htext)
    · cases hdecode
      exact Nat.lt_of_le_of_lt (Nat.zero_le address) (lt_next_of_decodeBody hbody)

end Instruction
end ZMachine
