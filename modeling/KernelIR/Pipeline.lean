import KernelIR.Slot.Optimize
import KernelIR.Source
import KernelIR.Text.Parse
import KernelIR.Text.Print
import KernelIR.Verifier

/-!
# From text to text

A kernel is parsed into a context of its own and verified; then it is printed in
canonical form, or optimized, verified again and printed.
-/

namespace KernelIR

/-- Why a source is not processed. -/
inductive Error where
  | source (error : SourceError)
  | parse (error : ParseError)
  | verify (error : VerifyError)
  | pass (error : PassError)
deriving DecidableEq

namespace Error

/-- The message of the stage that failed. -/
def inner : Error → String
  | source error => error.message
  | parse error => error.message
  | verify error => error.message
  | pass error => error.message

def message : Error → String
  | source error => "I/O error: " ++ error.message
  | parse error => error.message
  | verify error => "invalid IR: " ++ error.message
  | pass error => "optimization failed: " ++ error.message

end Error

/-- Parses and verifies a kernel. -/
def loadSource (source : List Char) : Edit (Except Error Kernel) := do
  match ← parseKernel source with
  | .error e => return .error (.parse e)
  | .ok kernel =>
    match (← get).verify kernel with
    | .error e => return .error (.verify e)
    | .ok () => return .ok kernel

/-- Decides whether a text is a valid kernel. -/
def verifySource (source : List Char) : Except Misuse (Except Error Unit) := do
  let (loaded, _) ← loadSource source Context.empty
  return loaded.map fun _ => ()

/-- Prints a kernel in canonical form. -/
def printSource (source : List Char) : Except Misuse (Except Error (List Char)) := do
  match ← loadSource source Context.empty with
  | (.error e, _) => return .error e
  | (.ok kernel, c) =>
    let text ← c.printKernel kernel
    return .ok text

/-- An optimized kernel, and what was done to it. -/
structure Optimized where
  text : List Char
  stats : Stats
deriving DecidableEq

/-- What is reported while a kernel is optimized, and the result. -/
structure Report where
  events : List Event
  result : Except Error Optimized

/-- Optimizes a kernel, with the given limit of sweeps or to the end. -/
def optimizeSource (source : List Char) (maxSweeps? : Option Nat) : Except Misuse Report := do
  match ← loadSource source Context.empty with
  | (.error e, _) => return ⟨[], .error e⟩
  | (.ok kernel, c) =>
    let (outcome, c) ← optimizeSlots kernel.body maxSweeps? c
    match outcome.result with
    | .error e => return ⟨outcome.events, .error (.pass e)⟩
    | .ok stats =>
      match c.verify kernel with
      | .error e => return ⟨outcome.events, .error (.verify e)⟩
      | .ok () =>
        let text ← c.printKernel kernel
        return ⟨outcome.events ++ [.optimized kernel.name stats.totalRewrites], .ok ⟨text, stats⟩⟩

end KernelIR
