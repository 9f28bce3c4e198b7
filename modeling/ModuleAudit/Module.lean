import ModuleAudit.Framework
import ModuleAudit.World

/-!
# Modules

A module that has been put together: what the metadata says about it as a whole, and the registry
that holds its types.
-/

namespace ModuleAudit

/-- A module: its name, the framework it targets, and the registry of its types. -/
structure Module where
  name : String
  framework : Framework
  registry : RegistryId
deriving DecidableEq, Repr

def Module.types (m : Module) (w : World) : List TypeDef := w.types m.registry

end ModuleAudit
