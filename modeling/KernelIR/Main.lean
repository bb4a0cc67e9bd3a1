import KernelIR.CommandLine

/-!
# The program

Reads the source that the arguments name, answers, and writes the answer.
-/

namespace KernelIR

/-- Bytes as text. -/
def decode (bytes : ByteArray) : Except SourceError String :=
  match String.fromUTF8? bytes with
  | some text => .ok text
  | none => .error .notUtf8

def SourceError.ofSystem : IO.Error → SourceError
  | .noFileOrDirectory _ _ _ => .notFound
  | .noSuchThing _ 6 _ => .noDevice
  | .permissionDenied _ _ _ => .accessDenied
  | .inappropriateType _ 21 _ => .isDirectory
  | .inappropriateType _ _ _ => .notDirectory
  | .invalidArgument (some _) _ _ => .nameTooLong
  | e => .other (toString e)

def readInput : IO (Except SourceError String) := do
  let stdin ← IO.getStdin
  try
    return decode (← stdin.readBinToEnd)
  catch e =>
    return .error (.ofSystem e)

def readFile (path : String) : IO (Except SourceError String) := do
  try
    return decode (← IO.FS.readBinFile path)
  catch e =>
    return .error (.ofSystem e)

end KernelIR

def main (args : List String) : IO UInt32 := do
  match ← KernelIR.CommandLine.run KernelIR.readFile KernelIR.readInput args with
  | .error misuse =>
    IO.eprintln (misuse.message?.getD "index out of bounds")
    return 101
  | .ok answer =>
    IO.eprint answer.stderr
    IO.print answer.stdout
    return UInt32.ofNat answer.exit
