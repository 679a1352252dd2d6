import Bindings.FieldLookup

/-!
# Names in scope

A simple name can mean a variable, a type or a package, in this order. A lookup of a member also tells how
many enclosing types lie between the scope and the type that has it.
-/

namespace Bindings

structure Meanings where
  values : Bool := true
  types : Bool := true
  packages : Bool := true
  deriving DecidableEq, Repr, Inhabited

namespace Query

/-! ## Fields -/

def staticField (scope : ScopeId) (name : String) (site : Site) (id : TypeId) : Query (Option FieldId) := do
  match ← findField scope id name site with
  | .found field => return if ((← get).field field).isStatic then some field else none
  | .failed _ => return none

def firstStaticField (scope : ScopeId) (name : String) (site : Site) : List TypeId → Query (Option FieldId)
  | [] => return none
  | id :: rest => do
    match ← staticField scope name site id with
    | some field => return some field
    | none => firstStaticField scope name site rest

def onlyStaticField (scope : ScopeId) (name : String) (site : Site) (found : Option FieldId) :
    List TypeId → Query (Resolution FieldId)
  | [] =>
    match found with
    | some field => return .found field
    | none => return .fail name .notFound
  | id :: rest => do
    match ← staticField scope name site id, found with
    | none, _ => onlyStaticField scope name site found rest
    | some field, none => onlyStaticField scope name site (some field) rest
    | some field, some earlier =>
      if earlier = field then onlyStaticField scope name site found rest
      else return .failNear name .ambiguous earlier

def importedField (unit : UnitId) (scope : ScopeId) (name : String) (site : Site) : Query (Resolution FieldId) := do
  let imports := ((← get).unit unit).imports
  let named := (imports.staticSingle.filter (·.2 == name)).map (·.1)
  match ← firstStaticField scope name site named with
  | some field => return .found field
  | none => onlyStaticField scope name site none imports.staticOnDemand

def confirmInherited (name : String) (hit : FieldId) : List ScopeId → Query (Resolution FieldId)
  | [] => return .found hit
  | id :: outer => do
    match ((← get).scope id).kind with
    | .unit .. => return .found hit
    | .method .. | .block => confirmInherited name hit outer
    | .type type =>
      match ← declaredField type name with
      | some direct =>
        if direct = hit then confirmInherited name hit outer
        else return .failNear name .inheritedHidesEnclosing hit
      | none => confirmInherited name hit outer

def fieldInChain (scope : ScopeId) (name : String) (site : Site) (depth : Nat)
    (isStatic : Bool) : List ScopeId → Query (Resolution FieldId × Nat)
  | [] => return (.fail name .notFound, 0)
  | id :: outer => do
    match ((← get).scope id).kind with
    | .block => fieldInChain scope name site depth isStatic outer
    | .method _ staticMethod _ => fieldInChain scope name site depth (isStatic || staticMethod) outer
    | .unit unit _ => return (← importedField unit scope name site, 0)
    | .type type =>
      match ← findField scope type name site with
      | .found field =>
        let world ← get
        let info := world.field field
        if isStatic && !info.isStatic then return (.failNear name .instanceInStaticContext field, 0)
        if world.erasureClass? info.declaring = some type then return (.found field, depth)
        return (← confirmInherited name field outer, depth)
      | .failed failure =>
        if failure.reason = .notFound ∨ failure.reason = .brokenHierarchy then
          fieldInChain scope name site (depth + 1) ((← get).isStaticType type) outer
        else return (.failed failure, 0)

def resolveField (scope : ScopeId) (name : String) (site : Site) : Query (Resolution FieldId × Nat) := do
  fieldInChain scope name site 0 false ((← get).scopeChain scope)

/-! ## Methods -/

def addStaticMethods (selector : String) (known : List MethodId) (id : TypeId) : Query (List MethodId) := do
  let methods ← collectMethods id selector
  let world ← get
  return methods.foldl
    (fun known method =>
      if (world.method method).isStatic && !known.contains method then known ++ [method]
      else known)
    known

def importedMethod (unit : UnitId) (scope : ScopeId) (selector : String)
    (arguments : List TypeId) (site : Site) : Query (Resolution MethodId) := do
  let imports := ((← get).unit unit).imports
  let named := (imports.staticSingle.filter (·.2 == selector)).map (·.1)
  match ← (named ++ imports.staticOnDemand).foldlM (addStaticMethods selector) [] with
  | [] => return .fail selector .notFound
  | first :: rest =>
    let receiver := ((← get).method first).declaring
    selectMethod scope receiver selector (first :: rest) arguments site

def inStaticContext (world : World) (selector : String) : Resolution MethodId → Resolution MethodId
  | .found method =>
    let info := world.method method
    if info.isStatic || info.isConstructor then .found method
    else .failNear selector .instanceInStaticContext method
  | failed => failed

def methodInChain (scope : ScopeId) (selector : String) (arguments : List TypeId) (site : Site)
    (depth : Nat) (isStatic : Bool) : List ScopeId → Query (Resolution MethodId × Nat)
  | [] => return (.fail selector .notFound, 0)
  | id :: outer => do
    match ((← get).scope id).kind with
    | .block => methodInChain scope selector arguments site depth isStatic outer
    | .method _ staticMethod _ => methodInChain scope selector arguments site depth (isStatic || staticMethod) outer
    | .unit unit _ => return (← importedMethod unit scope selector arguments site, 0)
    | .type type =>
      if (← collectMethods type selector).isEmpty then
        methodInChain scope selector arguments site (depth + 1) ((← get).isStaticType type) outer
      else
        let resolution ← findMethod scope type selector arguments site
        if isStatic then return (inStaticContext (← get) selector resolution, depth)
        return (resolution, depth)

def resolveMethod (scope : ScopeId) (selector : String) (arguments : List TypeId) (site : Site) :
    Query (Resolution MethodId × Nat) := do
  methodInChain scope selector arguments site 0 false ((← get).scopeChain scope)

/-! ## Simple names -/

def variableOfName (scope : ScopeId) (name : String) (site : Site) : Query (Resolution Entity × Nat) := do
  match (← get).findLocal? scope name with
  | some id => return (.found (.localVar id), 0)
  | none =>
    let (resolution, depth) ← resolveField scope name site
    return (resolution.map .field, depth)

def typeOfName (scope : ScopeId) (name : String) : Query (Resolution Entity) := do
  match ← resolveType scope name with
  | .found id => return .found (if ((← get).type id).isVariableLike then .typeVariable id else .type id)
  | .failed failure => return (Resolution.failed failure).map .type

def packageOfName (name : String) : Edit (Resolution Entity) := do
  match ← Edit.getPackage ⟨[name]⟩ with
  | some id => return .found (.package id)
  | none => return .fail name .notFound

def tellingFailure? : Resolution Entity → Option (Failure Entity)
  | .failed failure => if failure.reason = .notFound then none else some failure
  | .found _ => none

def resolveName (scope : ScopeId) (name : String) (meanings : Meanings) (site : Site) :
    Query (Resolution Entity × Nat) := do
  let absent : Resolution Entity := .fail name .notFound
  let (asVariable, depth) ← if meanings.values then variableOfName scope name site else pure (absent, 0)
  if asVariable.found?.isSome then return (asVariable, depth)
  let asType ← if meanings.types then typeOfName scope name else pure absent
  if asType.found?.isSome then return (asType, depth)
  let asPackage ← if meanings.packages then packageOfName name else pure absent
  if asPackage.found?.isSome then return (asPackage, depth)
  match tellingFailure? asVariable <|> tellingFailure? asType with
  | some failure => return (.failed failure, depth)
  | none => return (absent, depth)

end Query

end Bindings
