/-!
# Scanning text

A `Scan` reads a value off the front of a text and leaves the rest. One that fails says
where it stopped and why : a word or a character that is not there consumes nothing, and
a sequence stops where its failing part did. An optional part that fails is forgotten,
and so is the part of a list behind the last comma that an item does not follow.

Layout is whitespace and comments. It is skipped where the grammar says so, and nowhere
else.
-/

namespace KernelIR

/-- Why a scan failed. -/
inductive StopCause where
  | unexpected
  /-- An integer is too large, or too small if it is negative. -/
  | overflow (negative : Bool)
deriving DecidableEq

/-- Where a scan failed, by the text that is left, and why. -/
structure Stop where
  rest : List Char
  cause : StopCause
deriving DecidableEq

/-- Reads a value off the front of a text. -/
abbrev Scan (α : Type) := StateT (List Char) (Except Stop) α

namespace Scan

def fail {α : Type} : Scan α := fun text =>
  .error ⟨text, .unexpected⟩

/-- Reads the given word. -/
def word (w : String) : Scan Unit := fun text =>
  match w.toList.isPrefixOf? text with
  | some rest => .ok ((), rest)
  | none => .error ⟨text, .unexpected⟩

/-- Reads one character that passes the test. -/
def char (test : Char → Bool) : Scan Char
  | [] => .error ⟨[], .unexpected⟩
  | c :: rest => if test c then .ok (c, rest) else .error ⟨c :: rest, .unexpected⟩

/-- Reads all characters up to the first that fails the test. -/
def many (test : Char → Bool) : Scan (List Char) := fun text =>
  .ok (text.takeWhile test, text.dropWhile test)

/-- Reads at least one character, up to the first that fails the test. -/
def many1 (test : Char → Bool) : Scan (List Char) := do
  let c ← char test
  let cs ← many test
  return c :: cs

/-- Reads a part that may be absent. -/
def optional {α : Type} (part : Scan α) : Scan (Option α) := fun text =>
  match part text with
  | .ok (a, rest) => .ok (some a, rest)
  | .error _ => .ok (none, text)

/-- Reads the first alternative, or else the second. -/
def either {α : Type} (first second : Scan α) : Scan α := fun text =>
  match first text with
  | .ok r => .ok r
  | .error _ => second text

/-- Reads items that each follow a comma, at most the given number. -/
def followers {α : Type} (item : Scan α) : Nat → Scan (List α)
  | 0 => pure []
  | bound + 1 => do
    match ← optional (do word ","; item) with
    | none => return []
    | some a =>
      let rest ← followers item bound
      return a :: rest

/-- Reads one item or more, with commas between them. -/
def list {α : Type} (item : Scan α) : Scan (List α) := do
  let first ← item
  let text ← get
  let rest ← followers item text.length
  return first :: rest

/-! ## Layout -/

def isBlank (c : Char) : Bool :=
  c == ' ' || c == '\t' || c == '\n' || c == '\x0c' || c == '\r'

/-- What is left of a text after its layout. The flag tells whether the text begins inside
a comment, which ends with the line. -/
def dropLayout : Bool → List Char → List Char
  | _, [] => []
  | true, c :: rest => dropLayout (c != '\n') rest
  | false, '/' :: '/' :: rest => dropLayout true rest
  | false, c :: rest => if isBlank c then dropLayout false rest else c :: rest

/-- Skips whitespace and comments. -/
def layout : Scan Unit := fun text =>
  .ok ((), dropLayout false text)

/-! ## Names -/

def isNameChar (c : Char) : Bool :=
  c.isAlphanum || c == '_'

/-- Reads a word that begins with a letter or an underscore. -/
def ident : Scan (List Char) := do
  let c ← char fun c => c.isAlpha || c == '_'
  let cs ← many isNameChar
  return c :: cs

/-- Reads the name of a value, without its percent sign. -/
def valueRef : Scan (List Char) := do
  word "%"
  many1 isNameChar

/-- Reads the name of a kernel or of a structure, without its sign. -/
def symbol : Scan (List Char) := do
  word "@"
  many1 isNameChar

end Scan

end KernelIR
