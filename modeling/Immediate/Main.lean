import Immediate.CommandLine
/-! The program: reads its arguments and the script file, and prints the answer. -/
namespace Immediate

/-- A file's contents, or why it cannot be read. -/
def readFile (name : String) : IO (Except String String) := do
  try return .ok (← IO.FS.readFile name)
  catch
    | .noFileOrDirectory .. => return .error CommandLine.missingFile
    | .permissionDenied .. => return .error "Permission denied (os error 13)"
    | e => return .error (toString e)

/-- The bits of a number, each of them scattered over all. -/
def scatter (n : UInt64) : UInt64 :=
  let n := (n ^^^ (n >>> 30)) * 0xBF58476D1CE4E5B9
  let n := (n ^^^ (n >>> 27)) * 0x94D049BB133111EB
  n ^^^ (n >>> 31)

/-- A world without entities that draws on a seed: every moment has a random number of its own. -/
def World.random (seed : UInt64) : World := fun moment =>
  let bits := moment.foldl (fun bits part => scatter (bits + (part.toUInt64 + 1) * 0x9E3779B97F4A7C15))
    seed
  -- The highest 53 bits, as many as the significand of a number has.
  { Host.detached with randomUnit := .ok (.ofRatio false (bits >>> 11).toNat 1 (-53)) }

/-- The world of the operating system, with a new seed each time the program runs. -/
def systemWorld : IO World := do
  try
    let bytes ← IO.getRandomBytes 8
    return .random (bytes.foldl (fun seed byte => seed <<< 8 ||| byte.toUInt64) 0)
  catch e =>
    let failure : HostFailure := .randomnessUnavailable (toString e)
    return ({ Host.detached with randomUnit := .error (.host failure) } : Host)

end Immediate

open Immediate in
def main (args : List String) : IO UInt32 := do
  let contents ← match CommandLine.scriptFile? args with
    | some file => readFile file
    | none => pure (.ok "")
  let output := CommandLine.answer (← systemWorld) args contents
  IO.print output.stdout
  IO.eprint output.stderr
  return output.exit.toUInt32
