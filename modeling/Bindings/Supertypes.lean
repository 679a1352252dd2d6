import Bindings.Compiled.Completion
import Bindings.Substitution
import Bindings.Walk

/-! # Supertypes -/

namespace Bindings

def World.sourceStage? (world : World) (id : TypeId) : Option Stage := do
  match (← world.class? id).origin with
  | .source unit _ => some (world.unit unit).stage
  | .compiled => none

def World.isSourceReady (world : World) (id : TypeId) : Bool :=
  (world.sourceStage? id).any fun stage => Stage.importsResolved.rank ≤ stage.rank

namespace Query

def ensureSupertypes (id : TypeId) : Query Unit := do
  let world ← get
  let some info := world.class? id | return
  if info.isCompiled then
    completeSuperclass id
    completeInterfaces id
  else if !info.state.hierarchyBegun && world.isSourceReady id then connect id

def isClassBound (world : World) (bound : TypeId) : Bool :=
  match world.erasureClass? bound with
  | some erased => (world.class? erased).any (!·.isInterface)
  | none => (world.type bound).isVariableLike

def isInterfaceBound (world : World) (bound : TypeId) : Bool :=
  ((world.erasureClass? bound).bind world.class?).any (·.isInterface)

def superclassFrom : Nat → TypeId → Query (Option TypeId)
  | 0, _ => giveUp
  | fuel + 1, id => do
    let id ← resolved id
    let world ← get
    match world.type id with
    | .declared _ =>
      ensureSupertypes id
      (((← get).class? id).bind (·.superclass)).mapM resolved
    | .parameterized generic _ _ =>
      match ← superclassFrom fuel generic with
      | some superclass =>
        let s ← substitutionFor id
        some <$> substitute s superclass
      | none => return none
    | .raw generic _ =>
      match ← superclassFrom fuel generic with
      | some superclass => some <$> rawErasure superclass
      | none => return none
    | .array .. => some <$> objectType
    | .variable info => info.superclass.mapM resolved
    | .capture info =>
      match info.upperBounds.find? (isClassBound world) with
      | some bound => return some bound
      | none => some <$> objectType
    | .wildcard info =>
      match info.kind, info.bound, info.generic with
      | .upper, some bound, none => return some bound
      | _, _, _ => some <$> objectType
    | .base _ | .placeholder .. | .missing .. => return none

def superclass (id : TypeId) : Query (Option TypeId) := do superclassFrom (← fuel) id

def arrayInterfaces : Query (List TypeId) := [WellKnown.cloneable, WellKnown.serializable].filterMapM getType

def superInterfacesFrom : Nat → TypeId → Query (List TypeId)
  | 0, _ => giveUp
  | fuel + 1, id => do
    let id ← resolved id
    let world ← get
    match world.type id with
    | .declared _ =>
      ensureSupertypes id
      ((((← get).class? id).map (·.interfaces)).getD []).mapM resolved
    | .parameterized generic _ _ =>
      let interfaces ← superInterfacesFrom fuel generic
      let s ← substitutionFor id
      interfaces.mapM (substitute s)
    | .raw generic _ =>
      let interfaces ← superInterfacesFrom fuel generic
      interfaces.mapM rawErasure
    | .array .. => arrayInterfaces
    | .variable info => info.interfaces.mapM resolved
    | .capture info => return info.upperBounds.filter (isInterfaceBound world)
    | .wildcard info => return if info.generic.isNone then info.otherBounds else []
    | .base _ | .placeholder .. | .missing .. => return []

def superInterfaces (id : TypeId) : Query (List TypeId) := do superInterfacesFrom (← fuel) id

def supertypes (id : TypeId) : Query (List TypeId) := do
  let superclass ← superclass id
  let interfaces ← superInterfaces id
  return superclass.toList ++ interfaces

/-- The classes of the direct supertypes. Each is taken as it is known right after its list was
made. -/
def superErasures (id : TypeId) : Query (List TypeId) := do
  let superclass ← superclass id
  let first := superclass.bind (← get).erasureClass?
  let interfaces ← superInterfaces id
  let rest := interfaces.filterMap (← get).erasureClass?
  return first.toList ++ rest

def isSubclassOf (sub sup : TypeId) : Query Bool := do
  let world ← get
  match world.erasureClass? sub, world.erasureClass? sup with
  | some sub, some sup =>
    if sub = sup || world.isObject sup then return true
    let found ← walk .depthFirst (fun current => return current == sup) superErasures sub
    return found.isSome
  | _, _ => return false

def hasNoMembersFlag (id : TypeId) : Query Bool := do return ((← get).class? id).any (·.state.noMemberTypes)

def visitForMembers (id : TypeId) : Query (Option (List TypeId)) := do
  if ← hasNoMembersFlag id then return some []
  if (← memberTypes id).isEmpty then some <$> superErasures id else return none

/-- Neither the type nor a supertype of it declares member types. Once this is known of a class for
good, the class remembers it. -/
def hasNoMemberTypes (id : TypeId) : Query Bool := do
  let some erased := (← get).erasureClass? id | return true
  if ← hasNoMembersFlag erased then return true
  let found ← walkFrom .depthFirst (fun _ => return false) visitForMembers (← fuel) [] [erased]
  if found.isSome then return false
  if ((← get).class? erased).any fun info => info.isCompiled || info.state.hierarchyEnded then
    Edit.modifyState erased fun state => { state with noMemberTypes := true }
  return true

end Query

end Bindings
