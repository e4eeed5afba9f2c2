import Mathlib.Tactic

/-! # Return codes and constants of the memory system -/

namespace Kerneloid.XnuMemory.Types

/-- `kern_return_t`, as far as the memory system uses it. -/
inductive KernReturn
  | success
  | notFound
  | noSpace
  | resourceShortage
  | failure
  | invalidArgument
  deriving DecidableEq

def pageSize : ℕ := 4096

end Kerneloid.XnuMemory.Types
