import Bindings.Constructed
import Bindings.TypeByName

/-! # Erasure -/

namespace Bindings.Query

def maxErasureDepth : Nat := 16

def erasureBound? : TypeInfo → Option TypeId
  | .variable info => info.firstBound <|> info.superclass
  | .capture info => info.upperBounds.head?
  | .wildcard info => if info.kind = .upper then info.bound else none
  | _ => none

def erasureWithin : Nat → TypeId → Query TypeId
  | 0, id => do
    let _ ← resolved id
    objectType
  | depth + 1, id => do
    let id ← resolved id
    let info := (← get).type id
    match info with
    | .base _ | .declared _ | .missing .. | .placeholder .. => return id
    | .parameterized generic _ _ | .raw generic _ => return generic
    | .array leaf dimensions =>
      let leaf ← erasureWithin depth leaf
      Edit.arrayType leaf dimensions
    | .variable _ | .capture _ | .wildcard _ =>
      match erasureBound? info with
      | some bound => erasureWithin depth bound
      | none => objectType

def erasure (id : TypeId) : Query TypeId := erasureWithin (maxErasureDepth + 1) id

def rawErasure (id : TypeId) : Query TypeId := do
  let erased ← erasure id
  let world ← get
  match world.type erased with
  | .declared info => if info.isGeneric then Edit.rawType erased none else return erased
  | .array leaf dimensions =>
    if (world.class? leaf).any (·.isGeneric) then
      let raw ← Edit.rawType leaf none
      Edit.arrayType raw dimensions
    else return erased
  | _ => return erased

end Bindings.Query
