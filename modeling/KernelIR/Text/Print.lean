import KernelIR.Context.Misuse
import KernelIR.Kernel
import KernelIR.Tree.Walk

/-!
# Printing

A kernel is printed one statement a line, two spaces deeper for each level of nesting.
Values are named by numbers in the order in which they are printed, so that the text
does not depend on how statements are numbered in the context; a value that has no name
yet is written `%?`.

A constant with equal lanes is written as one literal, and a load of a whole slot by the
slot alone. Constants and loads without lanes have no text.
-/

namespace KernelIR

/-- The name of a value, given the values named so far. -/
def valueName (names : List StmtId) (v : StmtId) : List Char :=
  '%' :: match names.idxOf? v with
    | some n => natText n
    | none => ['?']

/-- Texts with a comma and a space between them. -/
def commaSeparated (texts : List (List Char)) : List Char :=
  List.intercalate [',', ' '] texts

def bracketed (texts : List (List Char)) : List Char :=
  '[' :: commaSeparated texts ++ [']']

/-- The lanes of a constant. -/
def lanesText (lanes : List Constant) : List Char :=
  match lanes with
  | [] => []
  | lane :: _ =>
    if lanes.all (·.agrees lane) then lane.text else bracketed (lanes.map Constant.text)

def SlotLane.text (names : List StmtId) (lane : SlotLane) : List Char :=
  valueName names lane.slot ++ '[' :: natText lane.offset ++ [']']

/-- What a load of the given number of lanes reads. -/
def sourceText (names : List StmtId) (lanes : List SlotLane) (width : Nat) : List Char :=
  match lanes with
  | [] => []
  | lane :: _ =>
    if lanes.length = width ∧ (Kind.load lanes).isRegularLoadOf lane.slot then
      valueName names lane.slot
    else bracketed (lanes.map (SlotLane.text names))

def maskText (names : List StmtId) (word : String) : Option StmtId → List Char
  | none => []
  | some mask => ' ' :: word.toList ++ '(' :: valueName names mask ++ [')']

/-- The text of a statement up to its blocks, and without its result. -/
def Stmt.text (names : List StmtId) (stmt : Stmt) : List Char :=
  let name := valueName names
  match stmt.kind with
  | .alloca => "alloca".toList
  | .const lanes => "const ".toList ++ lanesText lanes
  | .arg index => "arg ".toList ++ natText index
  | .binary op lhs rhs => op.name.toList ++ ' ' :: commaSeparated [name lhs, name rhs]
  | .load lanes =>
    let width := match stmt.type? with
      | some type => type.width
      | none => 1
    "local_load ".toList ++ sourceText names lanes width
  | .store slot value => "local_store ".toList ++ commaSeparated [name slot, name value]
  | .atomic op slot value =>
    "atomic_".toList ++ op.name.toList ++ ' ' :: commaSeparated [name slot, name value]
  | .print value => "print ".toList ++ name value
  | .branch cond trueMask falseMask _ _ =>
    "if ".toList ++ name cond ++ maskText names "true_mask" trueMask ++
      maskText names "false_mask" falseMask
  | .loop mask _ => "while".toList ++ maskText names "mask" mask
  | .leave cond => "while_control ".toList ++ name cond
  | .rangeFor counter lower upper _ =>
    "range_for ".toList ++ name counter ++ " in ".toList ++ name lower ++ "..".toList ++ name upper
  | .structFor counters snode _ =>
    "struct_for ".toList ++ commaSeparated (counters.map name) ++ " in @".toList ++ snode.toList

/-- The result of a statement and the sign of definition, if it has a value. -/
def resultText (names : List StmtId) (id : StmtId) (stmt : Stmt) : List Char :=
  if stmt.kind.hasValue then valueName names id ++ " = ".toList else []

/-- The type of the value, if it has one. -/
def annotationText (stmt : Stmt) : List Char :=
  match stmt.kind.hasValue, stmt.type? with
  | true, some type => " : ".toList ++ type.text
  | _, _ => []

/-- A block in braces in front of `tail`, the closing brace at the given depth. -/
def braced (indent : Nat) (inner : List Char → List Char) (tail : List Char) : List Char :=
  " \x7b\n".toList ++ inner (List.replicate indent ' ' ++ '\x7d' :: tail)

/-- The blocks of a statement in front of `tail`, given the texts of their statements. -/
def blocksText (kind : Kind) (indent : Nat) (first second : List Char → List Char)
    (tail : List Char) : List Char :=
  let otherwise :=
    if kind.secondBlock?.isSome then " else".toList ++ braced indent second tail else tail
  if kind.isContainer then braced indent first otherwise else otherwise

/-- The text of a tree in front of `tail`, given the values named before it. -/
def Tree.render : Tree → Nat → List StmtId → List Char → List Char
  | .nil, _, _, tail => tail
  | .cons id stmt first second rest, indent, names, tail =>
    let names := if stmt.kind.hasValue then names ++ [id] else names
    let namesSecond := names ++ first.values
    let namesRest := namesSecond ++ second.values
    List.replicate indent ' ' ++ resultText names id stmt ++ stmt.text names ++
      blocksText stmt.kind indent (first.render (indent + 2) names)
        (second.render (indent + 2) namesSecond)
        (annotationText stmt ++ '\n' :: rest.render indent namesRest tail)

/-- Whether a statement has a text. -/
def Stmt.isPrintable (stmt : Stmt) : Bool :=
  match stmt.kind with
  | .const lanes => !lanes.isEmpty
  | .load lanes => !lanes.isEmpty
  | _ => true

/-- Refuses a tree with a statement that has no text. -/
def Tree.checkPrintable (t : Tree) : Except Misuse Unit :=
  match t.find fun _ stmt => !stmt.isPrintable with
  | [] => .ok ()
  | s :: _ => .error (.noLanes s)

namespace Context

/-- The text of the statements below a block. Values from outside the block have no name
in it. -/
def printBlock (c : Context) (b : BlockId) : Except Misuse (List Char) := do
  if (c.block? b).isNone then throw .missing
  (c.tree b).checkPrintable
  return (c.tree b).render 0 [] []

/-- The text of a kernel. -/
def printKernel (c : Context) (kernel : Kernel) : Except Misuse (List Char) := do
  if (c.block? kernel.body).isNone then throw .missing
  (c.tree kernel.body).checkPrintable
  return "kernel @".toList ++ kernel.name.toList ++
    braced 0 ((c.tree kernel.body).render 2 []) ['\n']

end Context

end KernelIR
