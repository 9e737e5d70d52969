import LuaTree.Command.Outcome

/-!
# Main — the program

Reads the source that the command line names, and writes the outcome.
-/

open LuaTree

/-- The number of an error of the system. Some parts of the system negate it. -/
def systemNumber (n : UInt32) : Nat := if n < 0x80000000 then n.toNat else (0 - n).toNat

/-- An error of the system as an error of reading. -/
def readErrorOf : IO.Error → ReadError
  | .noFileOrDirectory _ n what | .permissionDenied _ n what | .inappropriateType _ n what
  | .invalidArgument _ n what | .resourceExhausted _ n what | .noSuchThing _ n what
  | .otherError n what | .resourceBusy n what | .hardwareFault n what
  | .illegalOperation n what => .ofSystem what (systemNumber n)
  | e => .other e.toString

/-- The bytes of a file or of the standard input. -/
def readOrigin : Origin → IO (Except ReadError ByteArray)
  | .given text => return .ok text.toUTF8
  | .file path => do
    try return .ok (← IO.FS.readBinFile path)
    catch e => return .error (readErrorOf e)
  | .standard => do
    try return .ok (← (← IO.getStdin).readBinToEnd)
    catch e => return .error (readErrorOf e)

def main (arguments : List String) : IO UInt32 := do
  let output ← IO.getStdout
  let errors ← IO.getStderr
  let bytes ← match Origin.ofArguments? arguments with
    | some origin => readOrigin origin
    | none => pure (.ok .empty)
  let terminal := (← output.isTty) && (← errors.isTty)
  match Outcome.ofArguments terminal (fun _ => bytes) arguments with
  | .ok outcome =>
    output.putStr outcome.output
    output.flush
    errors.putStr outcome.errors
    return outcome.code.toUInt32
  | .error _ =>
    errors.putStr "error: the parser has failed\n"
    return 101
