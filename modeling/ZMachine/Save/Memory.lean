/-
# Memory in save files

Dynamic memory is written as its difference to the loaded image, byte by byte, with runs of zeros
as a zero and the length of the run less one.  A run is at most 256 long, and zeros at the end are
left out.
-/
import ZMachine.Save.Bytes
import ZMachine.Save.Error

namespace ZMachine
namespace Save

/-- The differences of bytes to the loaded ones; past these they differ from zero. -/
def differences : List UInt8 → List UInt8 → List UInt8
  | [], _ => []
  | c :: current, [] => c :: differences current []
  | c :: current, o :: loaded => (c ^^^ o) :: differences current loaded

/-- A run of zeros in pieces of at most 256. -/
def zeroRuns (zeros : Nat) : List UInt8 :=
  if zeros = 0 then []
  else if zeros ≤ 256 then [0, UInt8.ofNat (zeros - 1)]
  else 0 :: 255 :: zeroRuns (zeros - 256)

/-- Differences with their runs of zeros written short, after a run of `zeros` of them. -/
def packDifferences (zeros : Nat) : List UInt8 → List UInt8
  | [] => []
  | d :: rest =>
      if d = 0 then packDifferences (zeros + 1) rest
      else zeroRuns zeros ++ d :: packDifferences 0 rest

/-- Memory as a save file holds it. -/
def compress (current loaded : List UInt8) : List UInt8 :=
  packDifferences 0 (differences current loaded)

/-- The memory that a save file holds.  Bytes that the data does not cover are as loaded; it must
not be broken off inside a run nor cover more than there is. -/
def decompress : List UInt8 → List UInt8 → Except SaveError (List UInt8)
  | [], loaded => .ok loaded
  | b :: data, loaded =>
      if b = 0 then
        match data with
        | [] => .error .memoryOverrun
        | run :: data =>
            match split? (run.toNat + 1) loaded with
            | none => .error .memoryOverrun
            | some (front, loaded) => (decompress data loaded).map (front ++ ·)
      else
        match loaded with
        | [] => .error .memoryOverrun
        | o :: loaded => (decompress data loaded).map ((o ^^^ b) :: ·)

end Save
end ZMachine
