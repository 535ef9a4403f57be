import FieldQuery.Failure

/-!
Computations against a host: they change its state and may fail, and a failure
undoes nothing.
-/

namespace FieldQuery

abbrev Run (σ : Type) := ExceptT Failure (StateM σ)

namespace Run

variable {σ α : Type}

def ofExcept (result : Except Failure α) : Run σ α := ExceptT.mk (pure result)

/-- Result and final state of a computation. -/
def exec (action : Run σ α) (state : σ) : Except Failure α × σ := (ExceptT.run action).run state

end Run

end FieldQuery
