import Mathlib.Data.List.Nodup

/-!
# Passes that work on each place by itself

A fold over a table `κ → σ` whose steps compute the new contents of each place from the old
contents of that place is a fold at each place, and if one step at most touches a place, the
place is as that step leaves it.
-/

namespace Pointwise

variable {α κ σ : Type*}

variable {g : σ → α → σ} {xs : List α}

end Pointwise
