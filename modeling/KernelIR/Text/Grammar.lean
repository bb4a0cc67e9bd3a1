import KernelIR.Text.Draft
import KernelIR.Text.Literal

/-!
# The grammar

A kernel is a name and a block, a block is statements in braces, and a statement is an
optional result, a keyword, what the keyword asks for, and an optional type. A keyword
that is none of the fixed ones takes two values; it names an atomic operation if it
begins with `atomic_`, and a binary one otherwise.

Blocks are read down to a given depth, and statements up to a given number. Both bounds
are taken from the length of the text, which a text has no means to exceed, since each
block and each statement takes at least one character.
-/

namespace KernelIR

namespace Scan

/-- Reads the name of a result and the sign of definition. -/
def result : Scan ValueName := do
  let name ← valueRef
  layout
  word "="
  layout
  return name

/-- Reads two values with a comma between them. -/
def pair : Scan (ValueName × ValueName) := do
  let a ← valueRef
  layout
  word ","
  layout
  let b ← valueRef
  return (a, b)

/-- Reads an item with layout around it. -/
def spaced {α : Type} (item : Scan α) : Scan α := do
  layout
  let a ← item
  layout
  return a

/-- Reads the lanes of a constant. -/
def constForm : Scan Form :=
  either
    (do
      word "["
      layout
      let lanes ← list (spaced constant)
      layout
      word "]"
      return .lanes lanes)
    (do let lane ← constant; return .splat lane)

/-- Reads one lane of a load. -/
def slotLane : Scan (ValueName × Nat) := do
  layout
  let slot ← valueRef
  word "["
  layout
  let offset ← index
  layout
  word "]"
  layout
  return (slot, offset)

/-- Reads what a load reads, a slot or a list of its elements. -/
def loadForm : Scan Form :=
  either
    (do
      word "["
      let lanes ← list slotLane
      word "]"
      return .loadLanes lanes)
    (do let slot ← valueRef; return .loadSlot slot)

/-- Reads a mask with the given name. -/
def mask (name : String) : Scan ValueName := do
  layout
  word name
  layout
  word "("
  layout
  let value ← valueRef
  layout
  word ")"
  return value

/-- Reads a block behind `else`. -/
def otherwise (block : Scan Draft) : Scan Draft := do
  layout
  word "else"
  layout
  block

/-- Reads what follows a keyword, and the blocks. -/
def form (block : Scan Draft) (keyword : List Char) : Scan (Form × Draft × Draft) := do
  match String.ofList keyword with
  | "alloca" => return (.alloca, .nil, .nil)
  | "const" => return (← constForm, .nil, .nil)
  | "arg" => return (.arg (← index), .nil, .nil)
  | "local_load" => return (← loadForm, .nil, .nil)
  | "local_store" =>
    let (slot, value) ← pair
    return (.store slot value, .nil, .nil)
  | "print" => return (.print (← valueRef), .nil, .nil)
  | "while_control" => return (.leave (← valueRef), .nil, .nil)
  | "if" =>
    let cond ← valueRef
    let trueMask ← optional (mask "true_mask")
    let falseMask ← optional (mask "false_mask")
    layout
    let first ← block
    let second ← optional (otherwise block)
    return (.branch cond trueMask falseMask second.isSome, first, second.getD .nil)
  | "while" =>
    let mask ← optional (mask "mask")
    layout
    let body ← block
    return (.loop mask, body, .nil)
  | "range_for" =>
    let counter ← valueRef
    layout
    word "in"
    layout
    let lower ← valueRef
    word ".."
    let upper ← valueRef
    layout
    let body ← block
    return (.rangeFor counter lower upper, body, .nil)
  | "struct_for" =>
    let counters ← list (spaced valueRef)
    word "in"
    layout
    let snode ← symbol
    layout
    let body ← block
    return (.structFor counters snode, body, .nil)
  | _ =>
    let (a, b) ← pair
    let form := if "atomic_".toList.isPrefixOf keyword then Form.atomic a b else .binary a b
    return (form, .nil, .nil)

/-- Reads a type behind a colon. -/
def annotation : Scan (List Char) := do
  layout
  word ":"
  layout
  ident

/-- Reads a statement and the blocks nested in it. -/
def statement (block : Scan Draft) : Scan (Head × Draft × Draft) := do
  let result? ← optional result
  let keyword ← ident
  layout
  let (form, first, second) ← form block keyword
  let annotation? ← optional annotation
  return (⟨result?, keyword, form, annotation?⟩, first, second)

/-- Reads statements up to a closing brace or the end of the text, at most the given
number. -/
def statements (statement : Scan (Head × Draft × Draft)) : Nat → Scan Draft
  | 0 => fail
  | bound + 1 => do
    layout
    match ← get with
    | [] | '\x7d' :: _ => return .nil
    | _ =>
      let (head, first, second) ← statement
      let rest ← statements statement bound
      return .cons head first second rest

/-- Reads statements in braces, with blocks nested down to the given depth. -/
def block : Nat → Scan Draft
  | 0 => fail
  | depth + 1 => do
    word "\x7b"
    let text ← get
    let body ← statements (statement (block depth)) (text.length + 1)
    word "\x7d"
    return body

/-- Reads a kernel. -/
def kernel (depth : Nat) : Scan (List Char × Draft) := do
  layout
  word "kernel"
  layout
  let name ← symbol
  layout
  let body ← block depth
  return (name, body)

end Scan

end KernelIR
