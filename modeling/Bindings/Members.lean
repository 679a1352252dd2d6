import Bindings.MemberViews
import Bindings.SourceMembers

/-! # Members -/

namespace Bindings.Query

def ensureMembers (id : TypeId) : Query Unit := do
  let world ← get
  let some info := world.class? id | return
  if info.isCompiled then completeMembers id
  else if !info.state.membersBuilt && world.isSourceReady id then buildSourceMembers id

def methodsFrom : Nat → TypeId → Query (List MethodId)
  | 0, _ => giveUp
  | fuel + 1, id => do
    let id ← resolved id
    match (← get).type id with
    | .declared _ =>
      ensureMembers id
      return (((← get).class? id).map (·.methods)).getD []
    | .parameterized generic _ _ | .raw generic _ =>
      let methods ← methodsFrom fuel generic
      methods.mapM (methodView id)
    | _ => return []

def methods (id : TypeId) : Query (List MethodId) := do methodsFrom (← fuel) id

def fieldsFrom : Nat → TypeId → Query (List FieldId)
  | 0, _ => giveUp
  | fuel + 1, id => do
    let id ← resolved id
    match (← get).type id with
    | .declared _ =>
      ensureMembers id
      return (((← get).class? id).map (·.fields)).getD []
    | .parameterized generic _ _ | .raw generic _ =>
      let fields ← fieldsFrom fuel generic
      fields.mapM (fieldView id)
    | _ => return []

def fields (id : TypeId) : Query (List FieldId) := do fieldsFrom (← fuel) id

def methodsNamed (id : TypeId) (selector : String) : Query (List MethodId) := do
  let id ← resolved id
  let some erased := (← get).erasureClass? id | return []
  ensureMembers erased
  let world ← get
  let declared := (((world.class? erased).map (·.methods)).getD []).filter fun method =>
    (world.method method).selector == selector
  if erased = id then return declared
  declared.mapM (methodView id)

def declaredField (id : TypeId) (name : String) : Query (Option FieldId) := do
  let declared ← fields id
  let world ← get
  return declared.find? fun field => (world.field field).name == name

end Bindings.Query
