import DataParallel.Lowering.Layouts
import DataParallel.Lowering.Phases.Blocks
import DataParallel.Lowering.TailCalls
import DataParallel.Lowering.TupleBinds
import DataParallel.Lowering.Wrapper

/-! The lowered form of a module: all steps, in order. -/

namespace DataParallel

/-- A module that is ready to be printed for a target. -/
structure Lowered where
  module : Module
  wrapper : Wrapper
deriving Repr

/-- Lowers a module. The first step that fails decides the error; an entry procedure that is not
defined is found before any step. -/
def Module.lower (module : Module) (registry : Registry) (entry : String) :
    Except LoweringError Lowered :=
  if (module.findProcedure? entry).isNone then throw (.missingEntryPoint entry)
  else do
    let module ← module.assignLayouts.flattenTuples
    let module ← module.backEntry entry
    let module ← module.insertBoundaries registry entry
    let module ← module.loopTailCalls entry
    let (module, wrapper) ← module.wrapEntry entry
    return ⟨module, wrapper⟩

end DataParallel
