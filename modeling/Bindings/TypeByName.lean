import Bindings.Registry

/-! # Types by name -/

namespace Bindings.Query

def memberOfName (internal : String) : Query (Option TypeId) := do
  let member ← resolved (← Edit.typeOrPlaceholder (.ofInternal internal))
  if ((← get).class? member).isSome then return some member else return none

def completeMemberTypes (id : TypeId) : Query Unit := do
  let some info := (← get).class? id | return
  if !info.state.memberTypesPending then return
  Edit.modifyState id fun state => { state with memberTypesPending := false }
  Edit.modifyStats fun stats => { stats with memberTypeCompletions := stats.memberTypeCompletions + 1 }
  let names := (info.file.map (·.members)).getD []
  let members ← names.filterMapM memberOfName
  Edit.modifyClass id fun info => { info with members := info.members ++ members }

def memberTypes (id : TypeId) : Query (List TypeId) := do
  let id ← resolved id
  let some erased := (← get).erasureClass? id | return []
  if ((← get).class? erased).any (·.isCompiled) then completeMemberTypes erased
  return (((← get).class? erased).map (·.members)).getD []

def directMemberType (enclosing : TypeId) (simple : String) : Query (Option TypeId) := do
  let some erased := (← get).erasureClass? enclosing | return none
  let members ← memberTypes erased
  let world ← get
  return members.find? fun member => (world.class? member).any (·.isNamed simple)

def askForType (name : QName) : Query (Option TypeId) := do
  load name
  let package ← Edit.createPackage name.parent
  match (← get).known? package name.simple with
  | some found => resolvedReal found
  | none =>
    Edit.modifyPackage package (·.addAbsent name.simple)
    return none

def typeInPackage (package : PackageId) (name : QName) : Query (Option TypeId) := do
  let world ← get
  match world.known? package name.simple with
  | some known => resolvedReal known
  | none =>
    if (world.package package).absent.contains name.simple then return none
    askForType name

def typeOfReversed : List String → Query (Option TypeId)
  | [] => return none
  | simple :: outer => do
    let name : QName := ⟨(simple :: outer).reverse⟩
    match ← Edit.getPackage name.parent with
    | some package => typeInPackage package name
    | none =>
      match ← typeOfReversed outer with
      | some enclosing => directMemberType enclosing simple
      | none => return none

def getType (name : QName) : Query (Option TypeId) := typeOfReversed name.segments.reverse

def objectType : Query TypeId := do
  match (← get).object with
  | some object => return object
  | none =>
    match ← getType WellKnown.object with
    | some object =>
      if ((← get).class? object).isNone then throw (.missingFoundation WellKnown.object.dotted)
      modify fun world => { world with object := some object }
      return object
    | none => throw (.missingFoundation WellKnown.object.dotted)

def boxed (base : BaseType) : Query (Option TypeId) :=
  match base.boxName? with
  | some name => getType (.ofDotted name)
  | none => return none

end Bindings.Query
