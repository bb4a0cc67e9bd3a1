/-!
# References

Statements and blocks are named by numbers. Both are counted from zero in the order of
creation, and no number is used twice, so a reference identifies what it names for good.
-/

namespace KernelIR

/-- The number of a statement. -/
structure StmtId where
  index : Nat
deriving DecidableEq

/-- The number of a block. -/
structure BlockId where
  index : Nat
deriving DecidableEq

instance : ToString StmtId := ⟨fun s => s!"stmt{s.index}"⟩

instance : ToString BlockId := ⟨fun b => s!"block{b.index}"⟩

end KernelIR
