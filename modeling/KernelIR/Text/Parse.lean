import KernelIR.Text.Grammar
import KernelIR.Text.Resolve

/-!
# Parsing

`parseKernel` reads a kernel into a context : the whole text is read by the grammar first,
and then names are resolved. A text that the grammar refuses leaves the context as it was.

An error in the text is reported with its place in bytes, counted in UTF-8. Errors in
names have no place.
-/

namespace KernelIR

/-- Why a text is not a kernel. -/
inductive ParseError where
  | malformed (offset : Nat) (cause : StopCause)
  | trailing (offset : Nat)
  | unresolved (error : ResolveError)
deriving DecidableEq

namespace ParseError

def offset : ParseError → Nat
  | malformed offset _ => offset
  | trailing offset => offset
  | unresolved _ => 0

def causeText : StopCause → String
  | .unexpected => "None"
  | .overflow false => "Some(ParseIntError \x7b kind: PosOverflow \x7d)"
  | .overflow true => "Some(ParseIntError \x7b kind: NegOverflow \x7d)"

/-- What is wrong, without the place. -/
def detail : ParseError → String
  | malformed _ cause =>
    "parse error: Parsing Error: ContextError \x7b context: [], cause: " ++ causeText cause ++
      " \x7d"
  | trailing _ => "trailing input after kernel"
  | unresolved error => error.message

def message (e : ParseError) : String :=
  s!"parse error at offset {e.offset}: {e.detail}"

end ParseError

/-- The length of a text in bytes. -/
def byteLength : List Char → Nat
  | [] => 0
  | c :: rest => c.utf8Size + byteLength rest

/-- Reads the text of a kernel, which may have layout around it. -/
def readKernel (text : List Char) : Except ParseError (List Char × Draft) :=
  match Scan.kernel (text.length + 1) text with
  | .error stop => .error (.malformed (byteLength text - byteLength stop.rest) stop.cause)
  | .ok (draft, rest) =>
    match Scan.dropLayout false rest with
    | [] => .ok draft
    | trailing => .error (.trailing (byteLength text - byteLength trailing))

/-- Parses a kernel into a context. -/
def parseKernel (text : List Char) : Edit (Except ParseError Kernel) := do
  match readKernel text with
  | .error e => return .error e
  | .ok (name, draft) =>
    match ← (Resolve.block (draft.resolve [])).run with
    | .error e => return .error (.unresolved e)
    | .ok body => return .ok ⟨String.ofList name, body⟩

end KernelIR
