import Bindings.Bounds
import Bindings.Scope.TypeNames

/-!
# Types of references

What is wrong with a reference is reported: a name without a type gives a missing type, a wrong number of
arguments or a base type as argument gives the raw type.
-/

namespace Bindings.Query

def reportReference (scope : ScopeId) (display : String) (reason : Reason) (missing : ProblemKind) : Query Unit := do
  let kind := match reason with
    | .notVisible => .notVisibleType
    | .ambiguous | .inheritedHidesEnclosing => .ambiguousType
    | _ => missing
  let world ← get
  let owner := ((world.enclosingType? scope).map world.typeName).getD ""
  Edit.report kind (if kind = .supertypeNotFound then [display, owner] else [display])

def withoutArguments (id : TypeId) (vars : List TypeId) (enclosing : Option TypeId) : Edit TypeId :=
  if !vars.isEmpty then Edit.rawType id enclosing
  else
    match enclosing with
    | some outer => Edit.parameterizedType id [] (some outer)
    | none => return id

def checkOrDefer (id : TypeId) : Query Unit := do
  match (← get).deferredChecks with
  | some deferred => modify fun world => { world with deferredChecks := some (deferred ++ [id]) }
  | none => checkArguments id

def enclosingParameterized? (world : World) (current : Option TypeId) (id : TypeId) : Option TypeId :=
  current.filter fun outer =>
    match world.type outer with
    | .parameterized .. => !world.isStaticType id
    | _ => false

def rejectBase (reference : TypeRef) (id : TypeId) : Query (Option TypeId) := do
  if ((← get).base? id).isSome then
    Edit.report .primitiveTypeArgument [reference.display]
    return none
  return some id

mutual

def typeOfRefIn (scope : ScopeId) (missing : ProblemKind) : TypeRef → Query TypeId
  | .base kind => return World.baseType kind
  | .array component dimensions => do
    let component ← typeOfRefIn scope missing component
    if ((← get).type component).isMissing then return component
    Edit.arrayType component dimensions
  | .named segments => do
    let display := TypeRef.segmentText segments
    match ← locateType scope (segments.map (·.name)) with
    | .error failure =>
      reportReference scope display failure.reason missing
      Edit.newMissing (.ofDotted display) failure.reason failure.closest
    | .ok located =>
      match ← applySegments scope display located.types none located.packageSegments segments with
      | some id => return id
      | none => Edit.newMissing (.ofDotted display) .notFound

def applySegments (scope : ScopeId) (display : String) (types : List TypeId)
    (current : Option TypeId) (skip : Nat) : List RefSegment → Query (Option TypeId)
  | [] => return current
  | .segment _ arguments :: rest => do
    match skip, types with
    | skip + 1, types => applySegments scope display types current skip rest
    | 0, [] => return current
    | 0, id :: types =>
      let world ← get
      if (world.type id).isVariableLike then applySegments scope display types (some id) 0 rest
      else
        let enclosing := enclosingParameterized? world current id
        let applied ← applyArguments scope display id enclosing arguments
        applySegments scope display types (some applied) 0 rest

def applyArguments (scope : ScopeId) (display : String) (id : TypeId) (enclosing : Option TypeId) :
    Option (List TypeArg) → Query TypeId
  | none => do
    let world ← get
    if !world.options.generics then return id
    withoutArguments id (((world.class? id).map (·.typeVariables)).getD []) enclosing
  | some arguments => do
    let world ← get
    if !world.options.generics then return id
    let vars := ((world.class? id).map (·.typeVariables)).getD []
    if arguments.isEmpty then withoutArguments id vars enclosing
    else if vars.isEmpty then
      Edit.report .notGeneric [display]
      return id
    else if arguments.length ≠ vars.length then
      Edit.report .typeArgumentCount [display]
      Edit.rawType id enclosing
    else
      match ← argumentsOfRefs scope id 0 arguments with
      | none => Edit.rawType id enclosing
      | some arguments =>
        let applied ← Edit.parameterizedType id arguments enclosing
        checkOrDefer applied
        return applied

def argumentsOfRefs (scope : ScopeId) (generic : TypeId) (rank : Nat) : List TypeArg → Query (Option (List TypeId))
  | [] => return some []
  | argument :: rest => do
    match ← argumentOfRef scope generic rank argument with
    | none => return none
    | some first => return (← argumentsOfRefs scope generic (rank + 1) rest).map (first :: ·)

def argumentOfRef (scope : ScopeId) (generic : TypeId) (rank : Nat) : TypeArg → Query (Option TypeId)
  | .type reference => do
    rejectBase reference (← typeOfRefIn scope .undefinedType reference)
  | .wildcard kind none => some <$> Edit.wildcard (some generic) rank none [] kind
  | .wildcard kind (some reference) => do
    match ← rejectBase reference (← typeOfRefIn scope .undefinedType reference) with
    | none => return none
    | some bound => some <$> Edit.wildcard (some generic) rank (some bound) [] kind

end

def typeOfRef (scope : ScopeId) (reference : TypeRef) : Query TypeId := typeOfRefIn scope .undefinedType reference

end Bindings.Query
