import Bindings.Query

/-! # Walks -/

namespace Bindings

abbrev Arrangement := List TypeId → List TypeId → List TypeId

def Arrangement.breadthFirst : Arrangement := fun next waiting => waiting ++ next

def Arrangement.depthFirst : Arrangement := fun next waiting => next.reverse ++ waiting

/-- The place where a walk ends, because it passes the test or because its visit gives no
neighbours. The number of steps and the places already visited are carried along. -/
def Query.walkFrom (arrange : Arrangement) (goal : TypeId → Query Bool)
    (visit : TypeId → Query (Option (List TypeId))) :
    Nat → List TypeId → List TypeId → Query (Option TypeId)
  | _, _, [] => return none
  | 0, _, _ :: _ => giveUp
  | fuel + 1, visited, current :: waiting => do
    if ← goal current then return some current
    if visited.contains current then walkFrom arrange goal visit fuel visited waiting
    else
      match ← visit current with
      | some next => walkFrom arrange goal visit fuel (current :: visited) (arrange next waiting)
      | none => return some current

def Query.walk (arrange : Arrangement) (goal : TypeId → Query Bool)
    (neighbours : TypeId → Query (List TypeId)) (start : TypeId) : Query (Option TypeId) := do
  walkFrom arrange goal (fun current => some <$> neighbours current) (← fuel) [] [start]

end Bindings
