/-! # Outcomes of a lookup -/

namespace Bindings

inductive Reason where
  | notFound
  | notVisible
  | ambiguous
  | inheritedHidesEnclosing
  | instanceInStaticContext
  | boundMismatch
  | typeArgumentCount
  | typeArgumentsForRawMethod
  | brokenHierarchy
  deriving DecidableEq, Repr, Inhabited

def Reason.label : Reason → String
  | notFound => "not found"
  | notVisible => "not visible"
  | ambiguous => "ambiguous"
  | inheritedHidesEnclosing => "inherited name hides enclosing name"
  | instanceInStaticContext => "non-static reference in static context"
  | boundMismatch => "parameter bound mismatch"
  | typeArgumentCount => "type parameter arity mismatch"
  | typeArgumentsForRawMethod => "type arguments for raw generic method"
  | brokenHierarchy => "hierarchy has problems"

structure Failure (α : Type) where
  name : String
  reason : Reason
  closest : Option α := none
  deriving DecidableEq, Repr

inductive Resolution (α : Type) where
  | found (value : α)
  | failed (failure : Failure α)
  deriving DecidableEq, Repr

namespace Resolution

variable {α β : Type}

def fail (name : String) (reason : Reason) : Resolution α := failed ⟨name, reason, none⟩

def failNear (name : String) (reason : Reason) (closest : α) : Resolution α := failed ⟨name, reason, some closest⟩

def found? : Resolution α → Option α
  | found value => some value
  | failed _ => none

def foundOrClosest? : Resolution α → Option α
  | found value => some value
  | failed failure => failure.closest

def map (f : α → β) : Resolution α → Resolution β
  | found value => found (f value)
  | failed failure => failed ⟨failure.name, failure.reason, failure.closest.map f⟩

end Resolution

end Bindings
