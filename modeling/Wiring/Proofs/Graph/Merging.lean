import Mathlib
import Wiring.Graph.Container
import Wiring.Proofs.Table

/-!
# What graphs bind after they are put together
-/
namespace Wiring

namespace Container

variable {ν : Type} (c other : Container ν) (key : Key)

theorem get?_fill : (c.fill other).get? key = (c.get? key <|> other.get? key) :=
  Table.find?_foldl_putNew _ _ _

theorem get?_override (h : (other.bindings.map Prod.fst).Nodup) :
    (c.override other).get? key = (other.get? key <|> c.get? key) :=
  Table.find?_foldl_put _ _ h

end Container
end Wiring
