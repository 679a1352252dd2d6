import Bindings.MethodLookup

/-! # Field lookup -/

namespace Bindings.Query

def fieldInSuperclasses (name : String) : Nat → List TypeId → List TypeId → Option TypeId →
      Query (Option FieldId × List TypeId × List TypeId)
  | _, visited, interfaces, none => return (none, interfaces, visited)
  | 0, _, _, some _ => giveUp
  | fuel + 1, visited, interfaces, some id => do
    let erased := ((← get).erasureClass? id).getD id
    if visited.contains erased then return (none, interfaces, visited)
    let visited := erased :: visited
    match ← declaredField id name with
    | some field => return (some field, interfaces, visited)
    | none =>
      let interfaces := interfaces ++ (← superInterfaces id)
      let superclass ← superclass id
      fieldInSuperclasses name fuel visited interfaces superclass

def declaredFieldOf (world : World) (field : FieldId) : FieldId := (world.field field).base?.getD field

def fieldInInterfaces (name : String) : Nat → List TypeId → Option FieldId → List TypeId → Query (Hit FieldId)
  | _, _, found, [] => return (found.map Hit.one).getD .none
  | 0, _, _, _ :: _ => giveUp
  | fuel + 1, visited, found, id :: waiting => do
    let erased := ((← get).erasureClass? id).getD id
    if visited.contains erased then fieldInInterfaces name fuel visited found waiting
    else
      let visited := erased :: visited
      match ← declaredField id name with
      | some field =>
        let world ← get
        match found with
        | some earlier =>
          if declaredFieldOf world earlier ≠ declaredFieldOf world field then return .ambiguous earlier
          else fieldInInterfaces name fuel visited (some field) waiting
        | none => fieldInInterfaces name fuel visited (some field) waiting
      | none =>
        let above ← superInterfaces id
        fieldInInterfaces name fuel visited found (waiting ++ above)

def fieldInHierarchy (receiver : TypeId) (name : String) : Query (Hit FieldId) := do
  let fuel ← fuel
  if isInterfaceType (← get) receiver then fieldInInterfaces name fuel [] none [receiver]
  else
    let (inClass, interfaces, visited) ← fieldInSuperclasses name fuel [] [] (some receiver)
    let inInterfaces ← fieldInInterfaces name fuel visited none interfaces
    match inClass, inInterfaces with
    | some field, .one _ => return .ambiguous field
    | some field, .none => return .one field
    | _, hit => return hit

def findField (scope : ScopeId) (receiver : TypeId) (name : String) (site : Site) : Query (Resolution FieldId) := do
  let receiver ← lookupReceiver receiver site.position
  match (← get).type receiver with
  | .array .. =>
    if name = WellKnown.arrayLength then return .found (← Edit.arrayLengthField receiver)
    else return .fail name .notFound
  | _ =>
    match ← fieldInHierarchy receiver name with
    | .none => return .fail name (absenceReason (← get) receiver)
    | .ambiguous field => return .failNear name .ambiguous field
    | .one field =>
      let info := (← get).field field
      if ← canSeeMember info.declaring info.modifiers scope (some receiver) then return .found field
      else return .failNear name .notVisible field

end Bindings.Query
