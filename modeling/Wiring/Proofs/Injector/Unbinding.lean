import Mathlib
import Wiring.Proofs.Compile.Defaults
import Wiring.Proofs.Injector.Grounding

/-!
# What becomes of a key without a unit

Where there is no unit of a key that the graph does not bind, and no concrete class for it, an
injector that loads or compiles the unit can only tell that the key is not bound. But the first
missing unit has the whole graph compiled, and if that fails, it fails with what was wrong there.
-/
namespace Wiring

namespace Resolve

open Act

variable {w w' : World} {id : InjectorId} {key : Key} {s : ScriptInjector} {d : DirectInjector}
  {g : Graph} {f : Failure}

end Resolve

end Wiring
