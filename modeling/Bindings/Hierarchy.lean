import Bindings.Scope.TypeRefs

/-!
# Hierarchies of source classes

The supertypes and type variable bounds of a source class are connected once. While a class waits for a
supertype this is on record; the class that would close a cycle reports it.
-/

namespace Bindings

def World.declaration? (world : World) (id : TypeId) : Option (UnitId × TypeDecl) := do
  match (← world.class? id).origin with
  | .source unit path => return (unit, ← (← world.sources.find? unit).typeAt? path)
  | .compiled => none

def World.waitsFor (world : World) (source : TypeId) : Nat → List TypeId → TypeId → Bool
  | 0, _, _ => false
  | fuel + 1, visited, current =>
    match world.connecting.find? current with
    | none => false
    | some next =>
      if next = source then true
      else if visited.contains next then false
      else waitsFor world source fuel (next :: visited) next

inductive SupertypeSlot where
  | superclass | interface
  deriving DecidableEq, Repr

namespace SupertypeSlot

def objection? (slot : SupertypeSlot) (isInterface isFinal : Bool) : Option ProblemKind :=
  match slot, isInterface, isFinal with
  | .superclass, true, _ => some .superclassMustBeClass
  | .superclass, false, true => some .extendsFinalClass
  | .interface, false, _ => some .superinterfaceMustBeInterface
  | _, _, _ => none

def notClass : SupertypeSlot → ProblemKind
  | .superclass => .superclassMustBeClass
  | .interface => .superinterfaceMustBeInterface

end SupertypeSlot

namespace Query

def markBroken (id : TypeId) : Edit Unit := Edit.modifyState id fun state => { state with hierarchyBroken := true }

/-! ## Cycles -/

def isNestedIn (source : TypeId) : Nat → Option TypeId → Query Bool
  | 0, _ => return false
  | _, none => return false
  | fuel + 1, some outer => do
    let outer ← resolved outer
    if outer = source then return true
    isNestedIn source fuel (((← get).class? outer).bind (·.enclosing))

def connectedSupertypes (id : TypeId) : Query (List TypeId) := do
  if ((← get).class? id).any (·.isConnecting) then return []
  superErasures id

def hierarchyReaches (start target : TypeId) : Query Bool := do
  let found ← walk .depthFirst (fun current => return current == target) connectedSupertypes start
  return found.isSome

def closesCycle (source supertype : TypeId) : Query Bool := do
  if supertype = source then return true
  let outer := ((← get).class? supertype).bind (·.enclosing)
  if ← isNestedIn source World.maxNesting outer then return true
  let world ← get
  let some info := world.class? supertype | return false
  if info.isCompiled then hierarchyReaches supertype source
  else if info.isConnecting then return world.waitsFor source (world.connecting.size + 1) [] supertype
  else
    if !info.state.hierarchyBegun then connect supertype
    hierarchyReaches supertype source

/-! ## Supertypes -/

def refuseSupertype (id : TypeId) (kind : ProblemKind) (display : String) : Query Unit := do
  Edit.report kind [display, (← get).typeName id]
  markBroken id

def checkSupertype (id candidate : TypeId) (display : String) (slot : SupertypeSlot) : Query (Option TypeId) := do
  let world ← get
  let info := world.type candidate
  if info.isMissing then
    markBroken id
    return none
  if info.isVariableLike then
    refuseSupertype id .supertypeIsTypeVariable display
    return none
  let some erased := world.erasureClass? candidate
    | refuseSupertype id slot.notClass display
      return none
  let isInterface := (world.class? erased).any (·.isInterface)
  let isFinal := (world.class? erased).any (·.modifiers.isFinal)
  if let some objection := slot.objection? isInterface isFinal then
    refuseSupertype id objection display
    return none
  modify fun world => { world with connecting := world.connecting.insert id erased }
  if ← closesCycle id erased then
    Edit.report .hierarchyCycle [world.typeName id, display]
    markBroken id
    markBroken erased
    return none
  return some candidate

def doneConnecting (id : TypeId) : Edit Unit :=
  modify fun world => { world with connecting := world.connecting.erase id }

def enumSuperclass (id : TypeId) : Query (Option TypeId) := do
  let some enumClass ← getType WellKnown.enumClass | return none
  let world ← get
  let isGeneric := (world.class? enumClass).any (·.typeVariables.length == 1)
  if isGeneric && world.options.generics then some <$> Edit.parameterizedType enumClass [id] none
  else return some enumClass

def declaredSuperclass (id : TypeId) (scope : ScopeId) (object : TypeId) : Option TypeRef → Query TypeId
  | none => return object
  | some reference => do
    let candidate ← typeOfRefIn scope .supertypeNotFound reference
    return (← checkSupertype id candidate reference.display .superclass).getD object

def superclassOf (id : TypeId) (scope : ScopeId) (decl : TypeDecl) (object : TypeId) : Query (Option TypeId) := do
  if object = id then return none
  match decl.kind with
  | .interface | .annotationType => return some object
  | .enumeration => return some ((← enumSuperclass id).getD object)
  | .ordinary => some <$> declaredSuperclass id scope object decl.superclass

def connectInterfaces (id : TypeId) (scope : ScopeId) (connected : List TypeId) : List TypeRef → Query (List TypeId)
  | [] => return connected
  | reference :: rest => do
    let candidate ← typeOfRefIn scope .supertypeNotFound reference
    match ← checkSupertype id candidate reference.display .interface with
    | none => connectInterfaces id scope connected rest
    | some interface =>
      let world ← get
      let erased := world.erasureClass? interface
      if connected.any fun earlier => world.erasureClass? earlier == erased then
        Edit.report .duplicateSuperinterface [reference.display, world.typeName id]
        connectInterfaces id scope connected rest
      else
        let connected := connected ++ [interface]
        Edit.modifyClass id fun info => { info with interfaces := connected }
        connectInterfaces id scope connected rest

def withAnnotationInterface (kind : ClassKind) (interfaces : List TypeId) : Query (List TypeId) := do
  if kind ≠ .annotationType then return interfaces
  match ← getType WellKnown.annotationInterface with
  | some interface => return if interfaces.contains interface then interfaces else interfaces ++ [interface]
  | none => return interfaces

/-! ## Type variable bounds -/

def resolveBounds (scope : ScopeId) (name : String) (index : Nat) : List TypeRef → Query (Option TypeId × List TypeId)
  | [] => return (none, [])
  | reference :: rest => do
    let bound ← typeOfRef scope reference
    let world ← get
    let (classBound, interface) : Option TypeId × Option TypeId ←
      if (world.type bound).isMissing then pure (none, none)
      else if isInterfaceType world bound then pure (none, some bound)
      else if index = 0 then pure (some bound, none)
      else do
        Edit.report .superinterfaceMustBeInterface [reference.display, name]
        pure (none, none)
    let (later, interfaces) ← resolveBounds scope name (index + 1) rest
    return (classBound <|> later, interface.toList ++ interfaces)

def connectBounds (scope : ScopeId) (params : List TypeParam) (vars : List TypeId) : Query Unit :=
  (params.zip vars).forM fun (param, var) => do
    let (classBound, interfaces) ← resolveBounds scope param.name 0 param.bounds
    setBounds var classBound interfaces

/-! ## Connecting -/

def connectClassBounds (id : TypeId) (scope : ScopeId) (params : List TypeParam) : Query Unit := do
  let some info := (← get).class? id | return
  if info.state.variablesConnected then return
  Edit.modifyState id fun state => { state with variablesConnected := true }
  connectBounds scope params info.typeVariables

def connectContext (id : TypeId) (scope : ScopeId) (unit : UnitId) (decl : TypeDecl)
    (enclosing : Option TypeId) : Query Unit := do
  if ((← get).unit unit).stage.rank < Stage.importsResolved.rank then resolveImports unit
  enclosing.forM connect
  connectClassBounds id scope decl.typeParams

def connectSupertypes (id : TypeId) (scope : ScopeId) (unit : UnitId) (decl : TypeDecl)
    (enclosing : Option TypeId) : Query Unit := do
  connectContext id scope unit decl enclosing
  let object ← objectType
  let superclass ← superclassOf id scope decl object
  Edit.modifyClass id fun info => { info with superclass }
  doneConnecting id
  let interfaces ← connectInterfaces id scope [] decl.interfaces
  doneConnecting id
  let interfaces ← withAnnotationInterface decl.kind interfaces
  let world ← get
  let broken := (superclass.toList ++ interfaces).any fun supertype =>
    ((world.erasureClass? supertype).bind world.class?).any (·.state.hierarchyBroken)
  Edit.modifyClass id fun info => { info with interfaces }
  if broken then markBroken id

def connectDeclared (id : TypeId) (scope : ScopeId) (unit : UnitId) (decl : TypeDecl)
    (enclosing : Option TypeId) : Query Unit := do
  Edit.modifyState id fun state => { state with hierarchyBegun := true }
  connectSupertypes id scope unit decl enclosing
  Edit.modifyState id fun state => { state with hierarchyEnded := true }

def connectHierarchy (id : TypeId) : Query Unit := do
  let world ← get
  let some info := world.class? id | return
  if info.state.hierarchyBegun then return
  match info.scope, world.declaration? id with
  | some scope, some (unit, decl) => connectDeclared id scope unit decl info.enclosing
  | _, _ => return

/-! ## Collisions -/

def collisionFrom : Nat → List TypeId → List (TypeId × TypeId) → List TypeId → Query (Option (TypeId × TypeId))
  | _, _, _, [] => return none
  | 0, _, _, _ :: _ => giveUp
  | fuel + 1, visited, seen, current :: waiting => do
    if visited.contains current then collisionFrom fuel visited seen waiting
    else
      let world ← get
      let generic? := match world.type current with
        | .parameterized generic _ _ | .raw generic _ => some generic
        | _ => none
      let earlier? := generic?.bind (Table.findIn · seen)
      match earlier?.filter (· ≠ current) with
      | some earlier => return some (earlier, current)
      | none =>
        let seen := match generic?, earlier? with
          | some generic, none => seen ++ [(generic, current)]
          | _, _ => seen
        let above ← supertypes current
        collisionFrom fuel (current :: visited) seen (above.reverse ++ waiting)

def checkCollisions (id : TypeId) : Query Unit := do
  let some info := (← get).class? id | return
  if info.state.interfacesChecked || info.state.hierarchyBroken then return
  Edit.modifyState id fun state => { state with interfacesChecked := true }
  match ← collisionFrom (← fuel) [] [] [id] with
  | none => return
  | some (earlier, later) =>
    let world ← get
    Edit.report .superinterfacesCollide
      [world.typeName earlier, world.typeName later, world.typeName id]
    markBroken id

end Query

end Bindings
