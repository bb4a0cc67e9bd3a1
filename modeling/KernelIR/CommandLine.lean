import KernelIR.Pipeline

/-!
# The command line

A command is `opt`, `print` or `verify` with one file, where `-` is the standard input.
Options stand before or behind the file. `-v` may be given everywhere and more than once,
`--max-sweeps` and `--stats` belong to `opt` and are given at most once, and behind `--`
everything is a file. `CommandLine.run` is the whole program, apart from reading the
source and writing the answer.
-/

namespace KernelIR

namespace CommandLine

/-- What is to be done with a source. -/
inductive Command where
  | opt (maxSweeps? : Option Nat) (stats : Bool)
  | print
  | verify
deriving DecidableEq

/-- A command with its file. -/
structure Request where
  verbosity : Nat
  command : Command
  file : String
deriving DecidableEq

/-- The options and the file met so far. -/
structure Options where
  verbosity : Nat
  maxSweeps? : Option Nat
  stats : Bool
  file? : Option String

/-! ## Reading the arguments -/

/-- The number of times an argument such as `-vv` raises the verbosity, if it is of that
form. -/
def verbosity? (arg : String) : Option Nat :=
  if arg = "--verbose" then some 1
  else
    match arg.toList with
    | '-' :: 'v' :: more => if more.all (· == 'v') then some (1 + more.length) else none
    | _ => none

/-- A number of 64 bits, after an optional plus sign. -/
def number? (cs : List Char) : Option Nat :=
  let digits := match cs with
    | '+' :: rest => rest
    | _ => cs
  if digits ≠ [] ∧ digits.all Char.isDigit ∧ ofDigits digits < 0x10000000000000000 then
    some (ofDigits digits)
  else none

/-- Whether an argument is an option, or meant as one. -/
def isOption (arg : String) : Bool :=
  match arg.toList with
  | '-' :: _ :: _ => true
  | _ => false

/-- Takes the file, of which there is one. -/
def Options.withFile? (o : Options) (file : String) : Option Options :=
  if o.file?.isSome ∨ file = "" then none else some { o with file? := some file }

def Options.withLimit? (o : Options) (limit : List Char) : Option Options :=
  if o.maxSweeps?.isSome then none
  else (number? limit).map fun n => { o with maxSweeps? := some n }

def Options.withStats? (o : Options) : Option Options :=
  if o.stats then none else some { o with stats := true }

/-- Reads the arguments of a command. `opt` tells whether the options of `opt` are
allowed. -/
def readOptions (opt : Bool) : List String → Options → Option Options
  | [], o => some o
  | arg :: rest, o =>
    if arg = "--" then rest.foldlM Options.withFile? o
    else if !isOption arg then (o.withFile? arg).bind (readOptions opt rest)
    else if let some n := verbosity? arg then
      readOptions opt rest { o with verbosity := o.verbosity + n }
    else if !opt then none
    else if arg = "--stats" then o.withStats?.bind (readOptions opt rest)
    else if arg = "--max-sweeps" then
      match rest with
      | [] => none
      | value :: rest =>
        if isOption value then none
        else (o.withLimit? value.toList).bind (readOptions opt rest)
    else
      match "--max-sweeps=".toList.isPrefixOf? arg.toList with
      | some value => (o.withLimit? value).bind (readOptions opt rest)
      | none => none

/-- Reads a command and its arguments. -/
def readCommand (verbosity : Nat) (name : String) (args : List String) : Option Request := do
  let o ← readOptions (name = "opt") args ⟨verbosity, none, false, none⟩
  let file ← o.file?
  match name with
  | "opt" => some ⟨o.verbosity, .opt o.maxSweeps? o.stats, file⟩
  | "print" => some ⟨o.verbosity, .print, file⟩
  | "verify" => some ⟨o.verbosity, .verify, file⟩
  | _ => none

/-- Reads all arguments of the program. -/
def readRequest : List String → Nat → Option Request
  | [], _ => none
  | arg :: rest, verbosity =>
    match verbosity? arg with
    | some n => readRequest rest (verbosity + n)
    | none => readCommand verbosity arg rest

/-- Whether a path names the standard input. Parts of a path that change nothing do not
count. -/
def isStandardInput (path : String) : Bool :=
  match path.toList.splitOn '/' with
  | first :: rest => first == ['-'] && rest.all fun part => part == [] || part == ['.']
  | [] => false

/-! ## Answering -/

/-- What the program leaves behind. -/
structure Answer where
  exit : Nat
  stdout : String
  stderr : String
deriving DecidableEq

def lines (texts : List String) : String :=
  String.join (texts.map (· ++ "\n"))

def usage : Answer :=
  ⟨2, "", lines ["usage: opt [--max-sweeps N] [--stats] [-v] FILE", "       print [-v] FILE",
    "       verify [-v] FILE"]⟩

/-- The lines of `--stats`. -/
def statsLines (s : Stats) : List String :=
  [s!"zero-folded loads: {s.zeroFoldedLoads}", s!"forwarded loads:   {s.forwardedLoads}",
    s!"removed stores:    {s.removedStores}", s!"removed atomics:   {s.removedAtomics}",
    s!"removed allocas:   {s.removedAllocas}", s!"sweeps:            {s.sweeps}"] ++
    if s.reachedFixpoint then [] else ["sweep limit reached before fixpoint"]

/-- Whether an event is shown. -/
def isShown (verbosity : Nat) (e : Event) : Bool :=
  match verbosity with
  | 0 => false
  | 1 => e.level != .trace
  | _ => true

/-- An event in one line. -/
def eventLine (e : Event) : String :=
  let fields := e.fields.map fun (name, value) => s!" {name}={value}"
  s!"{e.level.name} {e.message}" ++ String.join fields

def failure (log : List String) (e : Error) : Answer :=
  ⟨1, "", lines (log ++ ["error: " ++ e.message])⟩

/-- Carries out a command on a source. -/
def answer (verbosity : Nat) (source : List Char) : Command → Except Misuse Answer
  | .opt maxSweeps? stats => do
    let report ← optimizeSource source maxSweeps?
    let log := (report.events.filter (isShown verbosity)).map eventLine
    match report.result with
    | .error e => return failure log e
    | .ok optimized =>
      let shown := if stats then statsLines optimized.stats else []
      return ⟨0, String.ofList optimized.text, lines (log ++ shown)⟩
  | .print => do
    match ← printSource source with
    | .error e => return failure [] e
    | .ok text => return ⟨0, String.ofList text, ""⟩
  | .verify => do
    match ← verifySource source with
    | .error e => return failure [] e
    | .ok () => return ⟨0, lines ["ok"], ""⟩

/-- Answers arguments, given how a file or the standard input is read. -/
def run {m : Type → Type} [Monad m] (readFile : String → m (Except SourceError String))
    (readInput : m (Except SourceError String)) (args : List String) :
    m (Except Misuse Answer) := do
  match readRequest args 0 with
  | none => return .ok usage
  | some request =>
    match ← if isStandardInput request.file then readInput else readFile request.file with
    | .error e => return .ok (failure [] (.source e))
    | .ok source => return answer request.verbosity source.toList request.command

end CommandLine

end KernelIR
