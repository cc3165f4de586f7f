/-
# Machine options

What a host may choose when it loads a story, and where its random numbers come from.
-/
import ZMachine.Random

namespace ZMachine

/-- The options of a machine; the defaults describe an eighty by twenty-four terminal. -/
structure Config where
  /-- How many undo snapshots are kept. -/
  undoDepth : Nat := 10
  /-- How many blocks run before the machine yields to its host. -/
  iterationCap : Nat := 10000
  /-- Screen width in characters. -/
  screenWidth : UInt8 := 80
  /-- Screen height in lines. -/
  screenHeight : UInt8 := 24
  /-- The interpreter number shown to the story. -/
  interpreterNumber : UInt8 := 1
  /-- The interpreter version shown to the story, a letter. -/
  interpreterVersion : UInt8 := 65
  /-- Where random numbers come from. -/
  random : RandomSource
  /-- The first seed of the random generator, unpredictable if there is none. -/
  randomSeed : Option Int := none

end ZMachine
