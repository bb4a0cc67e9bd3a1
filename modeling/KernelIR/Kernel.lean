import KernelIR.Context.Edit

/-!
# Kernels

A kernel is a named tree of statements, given by the block at its root. Several kernels
may share a context.
-/

namespace KernelIR

/-- A name and a root block. -/
structure Kernel where
  name : String
  body : BlockId
deriving DecidableEq

/-- Makes a kernel with an empty body. -/
def Kernel.create (name : String) : Edit Kernel := do
  let body ← Context.createBlock
  return ⟨name, body⟩

end KernelIR
