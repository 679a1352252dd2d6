import Bindings.Visibility

/-! # Member types -/

namespace Bindings

inductive Hit (α : Type) where
  | none
  | one (member : α)
  | ambiguous (member : α)
  deriving DecidableEq, Repr

namespace Query

def mergeHits (search : List TypeId → TypeId → Query (Hit TypeId × List TypeId)) :
    List TypeId → Option TypeId → List TypeId → Query (Hit TypeId × List TypeId)
  | visited, found, [] => return ((found.map Hit.one).getD .none, visited)
  | visited, found, id :: rest => do
    let (hit, visited) ← search visited id
    match hit with
    | .none => mergeHits search visited found rest
    | .ambiguous member => return (.ambiguous member, visited)
    | .one member =>
      match found with
      | some earlier =>
        if earlier = member then mergeHits search visited (some member) rest
        else return (.ambiguous earlier, visited)
      | none => mergeHits search visited (some member) rest

def memberTypeFrom (name : String) : Nat → List TypeId → TypeId → Query (Hit TypeId × List TypeId)
  | 0, _, _ => giveUp
  | fuel + 1, visited, id => do
    let some erased := (← get).erasureClass? id | return (.none, visited)
    if visited.contains erased then return (.none, visited)
    match ← directMemberType erased name with
    | some member => return (.one member, erased :: visited)
    | none =>
      let above ← supertypes id
      mergeHits (memberTypeFrom name fuel) (erased :: visited) none above

def memberTypeInHierarchy (id : TypeId) (name : String) : Query (Hit TypeId) := do
  return (← memberTypeFrom name (← fuel) [] id).1

def findMemberType (scope : ScopeId) (receiver : TypeId) (name : String) : Query (Resolution TypeId) := do
  let receiver ← resolved receiver
  if ← hasNoMemberTypes receiver then return .fail name .notFound
  match ← memberTypeInHierarchy receiver name with
  | .none => return .fail name .notFound
  | .ambiguous member => return .failNear name .ambiguous member
  | .one member =>
    if ← canSeeType member scope then return .found member
    else return .failNear name .notVisible member

end Query

end Bindings
