/-
# Blocks

A block is a run of instructions that ends with the first one whose successor is not known in
advance.  Conditional branches stay inside a block; execution leaves it when one is taken.

Blocks that start in static memory are kept by address.  Blocks in dynamic memory are decoded at
every visit, since the story may have rewritten them.
-/
import ZMachine.Instruction.Decode

namespace ZMachine

/-- A run of instructions. -/
structure Block where
  start : Nat
  instructions : List Instruction
  deriving DecidableEq, Repr

namespace Block

/-- The most instructions that a block can have. -/
def maxLength : Nat := 256

/-- The instructions from an address on, at most `count`, up to the one that ends a block.  An
instruction that cannot be decoded is left out, so its fault shows only if it is reached. -/
def instructionsFrom (m : Memory) : Nat → Text.Codec → Nat → List Instruction × Text.Codec
  | 0, c, _ => ([], c)
  | count + 1, c, address =>
      match Instruction.decode c m address with
      | .error _ => ([], c)
      | .ok (ins, c) =>
          if ins.op.endsBlock then ([ins], c)
          else
            let (rest, c) := instructionsFrom m count c ins.next
            (ins :: rest, c)

/-- The block at an address; its first instruction has to be valid. -/
def decode (c : Text.Codec) (m : Memory) (start : Nat) : Except Fault (Block × Text.Codec) :=
  match Instruction.decode c m start with
  | .error fault => .error fault
  | .ok _ =>
      let (instructions, c) := instructionsFrom m maxLength c start
      .ok ({ start, instructions }, c)

end Block

/-- The blocks decoded from static memory and the number of blocks decoded in all. -/
structure BlockCache where
  blocks : Std.HashMap Nat Block := ∅
  decoded : Nat := 0

namespace BlockCache

/-- The block at an address, decoded if it is not kept yet. -/
def fetch (b : BlockCache) (c : Text.Codec) (m : Memory) (pc : Nat) :
    Except Fault (Block × BlockCache × Text.Codec) :=
  match b.blocks[pc]? with
  | some block => .ok (block, b, c)
  | none =>
    match Block.decode c m pc with
    | .error fault => .error fault
    | .ok (block, c) =>
        let blocks := if m.staticStart ≤ pc then b.blocks.insert pc block else b.blocks
        .ok (block, { blocks, decoded := b.decoded + 1 }, c)

/-- Whether the block at an address is kept. -/
def contains (b : BlockCache) (pc : Nat) : Bool :=
  b.blocks.contains pc

/-- The number of blocks kept. -/
def size (b : BlockCache) : Nat :=
  b.blocks.size

/-- Forgets the blocks but not their number. -/
def clear (b : BlockCache) : BlockCache :=
  { b with blocks := ∅ }

end BlockCache
end ZMachine
