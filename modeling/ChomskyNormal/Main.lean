import ChomskyNormal.CommandLine.Run

/-!
# The program

Reads the input, seeds the choices, and prints the outcome.
-/

namespace ChomskyNormal

def readFault : IO.Error → ReadFault
  | .noFileOrDirectory .. => .missing
  | .inappropriateType .. => .directory
  | e => .failure (toString e)

def readContent (file : Option String) : IO (Except ReadFault ByteArray) := do
  try
    match file with
    | some path => return .ok (← IO.FS.readBinFile path)
    | none => return .ok (← (← IO.getStdin).readBinToEnd)
  catch e => return .error (readFault e)

def randomDraws : IO Draws := do
  let bytes ← IO.getRandomBytes 4
  return ⟨[], bytes.foldl (fun seed byte => seed * 256 + byte.toUInt32) 0⟩

end ChomskyNormal

open ChomskyNormal in
def main (arguments : List String) : IO UInt32 := do
  let outcome ← runProgram readContent Draws.chooser (← randomDraws) arguments
  IO.eprint outcome.stderr
  IO.print outcome.stdout
  return outcome.code.toUInt32
