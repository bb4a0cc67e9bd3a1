import KernelIR.Kernel
import KernelIR.Text.Draft

/-!
# Resolving names

A draft becomes statements of a context. A value name stands for the statement that bound
it earlier in the same block or in an enclosing one; a name may be bound again only where
it is not visible. `Head.shape` decides everything about one statement that does not
depend on its blocks : its type, its operation and its operands. Blocks are made and
filled before the statement that owns them is created.

Resolution stops at the first error, and leaves in the context what it has made so far.
-/

namespace KernelIR

/-- Why a draft is not a kernel. -/
inductive ResolveError where
  | undefinedValue (name : ValueName)
  | duplicateName (name : ValueName)
  | unknownType (name : List Char)
  | unboundValue (keyword : List Char)
  | missingType (keyword : List Char)
  | boundEffect (keyword : List Char) (name : ValueName)
  | typedEffect (keyword : List Char)
  | unknownOperation (keyword : List Char)
  | unknownAtomic (keyword : List Char)
  | loadWidth (lanes : Nat) (type : ValueType)
  | constWidth (lanes : Nat) (type : ValueType)
  | floatInInteger (type : ValueType)
deriving DecidableEq

namespace ResolveError

def message : ResolveError → String
  | undefinedValue name => s!"undefined value '%{String.ofList name}'"
  | duplicateName name => s!"duplicate value name '%{String.ofList name}'"
  | unknownType name => s!"unknown type '{String.ofList name}'"
  | unboundValue keyword =>
    s!"'{String.ofList keyword}' produces a value and must be bound to a name"
  | missingType keyword => s!"'{String.ofList keyword}' requires a type annotation"
  | boundEffect keyword name =>
    s!"'{String.ofList keyword}' does not produce a value; cannot bind '%{String.ofList name}'"
  | typedEffect keyword => s!"'{String.ofList keyword}' does not take a type annotation"
  | unknownOperation keyword => s!"unknown operation '{String.ofList keyword}'"
  | unknownAtomic keyword => s!"unknown atomic operation '{String.ofList keyword}'"
  | loadWidth lanes type =>
    s!"local_load has {lanes} lane(s) but type {String.ofList type.text} has width {type.width}"
  | constWidth lanes type =>
    s!"constant has {lanes} value(s) but type {String.ofList type.text} has width {type.width}"
  | floatInInteger type =>
    s!"float literal in constant of integer type {String.ofList type.text}"

end ResolveError

/-- The visible names, the latest first. -/
abbrev Names := List (ValueName × StmtId)

namespace Names

def find (names : Names) (name : ValueName) : Except ResolveError StmtId :=
  match names.lookup name with
  | some s => .ok s
  | none => .error (.undefinedValue name)

def find? (names : Names) : Option ValueName → Except ResolveError (Option StmtId)
  | none => .ok none
  | some name => do
    let s ← names.find name
    return some s

/-- Makes the result of a statement visible. -/
def bind (names : Names) (s : StmtId) : Option ValueName → Except ResolveError Names
  | none => .ok names
  | some name =>
    if (names.lookup name).isSome then .error (.duplicateName name) else .ok ((name, s) :: names)

end Names

/-! ## One statement -/

/-- The type of a statement. A statement with a value has a result and a type, and any
other has neither. -/
def Head.type? (head : Head) : Except ResolveError (Option ValueType) := do
  let type? ← match head.annotation? with
    | none => pure none
    | some name =>
      match ValueType.ofName? name with
      | some type => pure (some type)
      | none => throw (.unknownType name)
  match head.form.hasValue, head.result?, type? with
  | true, some _, some type => return some type
  | false, none, none => return none
  | true, none, _ => throw (.unboundValue head.keyword)
  | true, some _, none => throw (.missingType head.keyword)
  | false, some name, _ => throw (.boundEffect head.keyword name)
  | false, none, some _ => throw (.typedEffect head.keyword)

/-- A literal as a lane of the given type. An integer may stand for a floating-point
number. -/
def Constant.convert (type : ValueType) : Constant → Except ResolveError Constant
  | int i => .ok (if type.element.isFloat then float (.ofInt i) else int i)
  | float x => if type.element.isFloat then .ok (float x) else .error (.floatInInteger type)

/-- A statement that still lacks its blocks. -/
inductive Shape where
  | plain (kind : Kind)
  | body (kind : BlockId → Kind)
  | branch (kind : BlockId → Option BlockId → Kind) (otherwise : Bool)

/-- The type of a statement that needs one. -/
def Head.required (head : Head) : Option ValueType → Except ResolveError ValueType
  | none => .error (.missingType head.keyword)
  | some type => .ok type

/-- All of a statement of the given type but its blocks. -/
def Head.shapeAt (names : Names) (head : Head) (type? : Option ValueType) :
    Except ResolveError Shape :=
  match head.form with
  | .alloca => return .plain .alloca
  | .splat lane => do
    let type ← head.required type?
    let lane ← lane.convert type
    return .plain (.const (List.replicate type.width lane))
  | .lanes lanes => do
    let type ← head.required type?
    if lanes.length ≠ type.width then throw (.constWidth lanes.length type)
    let lanes ← lanes.mapM (Constant.convert type)
    return .plain (.const lanes)
  | .arg index => return .plain (.arg index)
  | .binary lhs rhs =>
    match BinaryOp.ofName? head.keyword with
    | none => throw (.unknownOperation head.keyword)
    | some op => do
      let lhs ← names.find lhs
      let rhs ← names.find rhs
      return .plain (.binary op lhs rhs)
  | .loadSlot slot => do
    let type ← head.required type?
    let slot ← names.find slot
    return .plain (.load ((List.range type.width).map (⟨slot, ·⟩)))
  | .loadLanes lanes => do
    let type ← head.required type?
    if lanes.length ≠ type.width then throw (.loadWidth lanes.length type)
    let lanes ← lanes.mapM fun (slot, offset) => do
      let slot ← names.find slot
      return ⟨slot, offset⟩
    return .plain (.load lanes)
  | .store slot value => do
    let slot ← names.find slot
    let value ← names.find value
    return .plain (.store slot value)
  | .atomic slot value =>
    match ("atomic_".toList.isPrefixOf? head.keyword).bind AtomicOp.ofName? with
    | none => throw (.unknownAtomic head.keyword)
    | some op => do
      let slot ← names.find slot
      let value ← names.find value
      return .plain (.atomic op slot value)
  | .print value => do
    let value ← names.find value
    return .plain (.print value)
  | .branch cond trueMask falseMask otherwise => do
    let cond ← names.find cond
    let trueMask ← names.find? trueMask
    let falseMask ← names.find? falseMask
    return .branch (fun b d => .branch cond trueMask falseMask (some b) d) otherwise
  | .loop mask => do
    let mask ← names.find? mask
    return .body (.loop mask)
  | .leave cond => do
    let cond ← names.find cond
    return .plain (.leave cond)
  | .rangeFor counter lower upper => do
    let counter ← names.find counter
    let lower ← names.find lower
    let upper ← names.find upper
    return .body (.rangeFor counter lower upper)
  | .structFor counters snode => do
    let counters ← counters.mapM names.find
    return .body (.structFor counters (String.ofList snode))

/-- The type of a statement and all of it but its blocks. -/
def Head.shape (names : Names) (head : Head) : Except ResolveError (Option ValueType × Shape) := do
  let type? ← head.type?
  let shape ← head.shapeAt names type?
  return (type?, shape)

/-! ## Blocks -/

/-- A computation on a context that may meet an error in the draft. -/
abbrev Resolve (α : Type) := ExceptT ResolveError (StateT Context (Except Misuse)) α

/-- Makes a block and fills it. -/
def Resolve.block (fill : BlockId → Resolve Unit) : Resolve BlockId := do
  let b ← Context.createBlock
  fill b
  return b

/-- Appends the statements of a draft to a block. -/
def Draft.resolve : Draft → Names → BlockId → Resolve Unit
  | .nil, _, _ => pure ()
  | .cons head first second rest, names, b => do
    let (type?, shape) ← ExceptT.mk (pure (head.shape names))
    let kind ← match shape with
      | .plain kind => pure kind
      | .body kind => do
        let d ← Resolve.block (first.resolve names)
        pure (kind d)
      | .branch kind otherwise => do
        let d ← Resolve.block (first.resolve names)
        let e ← if otherwise then do
            let e ← Resolve.block (second.resolve names)
            pure (some e)
          else pure none
        pure (kind d e)
    let s ← Context.createStmt kind type?
    Context.push b s
    let names ← ExceptT.mk (pure (names.bind s head.result?))
    rest.resolve names b

end KernelIR
