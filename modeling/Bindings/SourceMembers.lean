import Bindings.Hierarchy
import Bindings.Scope.Locals
import Bindings.SourceUnit

/-!
# Members of source classes

A field of a repeated name and a method of a repeated signature are reported and left out. A class without
constructor gets one, and an enum the methods that list and find its values.
-/

namespace Bindings.Query

def fieldModifiers (inInterface : Bool) (modifiers : Modifiers) : Modifiers :=
  if inInterface then modifiers ∪ .publicFlag ∪ .staticFlag ∪ .finalFlag else modifiers

def buildFields (declaring : TypeId) (scope : ScopeId) (info : ClassInfo) (names : List String) :
    List FieldDecl → Query (List FieldId)
  | [] => return []
  | decl :: rest => do
    if names.contains decl.name then
      Edit.report .duplicateField [decl.name, info.name.dotted]
      buildFields declaring scope info names rest
    else
      let type ← typeOfRef scope decl.type
      let modifiers := fieldModifiers info.isInterface decl.modifiers
      let id ← Edit.newField { name := decl.name, modifiers, type, declaring }
      return id :: (← buildFields declaring scope info (decl.name :: names) rest)

def sourceMethodModifiers (options : Options) (inInterface : Bool) (decl : MethodDecl) :
    Modifiers :=
  let modifiers :=
    if inInterface then
      let modifiers := decl.modifiers ∪ .publicFlag
      if modifiers.isStatic then modifiers else modifiers ∪ .abstractFlag
    else decl.modifiers
  let lastIsArray := match decl.params.getLast?.map (·.type) with
    | some (.array ..) => true
    | _ => false
  if lastIsArray && options.varargs then modifiers else modifiers.without .varargsFlag

def buildParam (scope : ScopeId) (param : ParamDecl) : Query TypeId := do
  let type ← typeOfRef scope param.type
  let _ ← Edit.declareArgument scope param.name type
  return type

def buildSourceMethod (declaring : TypeId) (classScope : ScopeId) (inInterface : Bool)
    (decl : MethodDecl) : Query MethodId := do
  let options := (← get).options
  let modifiers := sourceMethodModifiers options inInterface decl
  let id ← Edit.newMethod (bareMethod declaring decl.selector modifiers)
  let typeVariables ←
    if options.generics then Edit.newVariables (.method id) 0 (decl.typeParams.map (·.name))
    else pure []
  let scope ← Edit.newMethodScope classScope (some id) modifiers.isStatic typeVariables
  modify fun world => { world with methodScopes := world.methodScopes.insert id scope }
  connectBounds scope decl.typeParams typeVariables
  let params ← decl.params.mapM (buildParam scope)
  let result ← match decl.result with
    | some reference => typeOfRef scope reference
    | none => pure (World.baseType .void)
  let thrown ← decl.thrown.mapM (typeOfRef scope)
  modify (·.modifyMethod id fun info => { info with params, result, thrown, typeVariables })
  return id

def erasedParams (id : MethodId) : Query (List TypeId) := do ((← get).method id).params.mapM erasure

def isRepeated (selector : String) (erased : List TypeId) (methods : List MethodId) : Query Bool :=
  methods.anyM fun method => do
    if ((← get).method method).selector ≠ selector then return false
    return (← erasedParams method) == erased

def buildMethods (declaring : TypeId) (scope : ScopeId) (info : ClassInfo)
    (built : List MethodId) : List MethodDecl → Query (List MethodId)
  | [] => return built
  | decl :: rest => do
    let id ← buildSourceMethod declaring scope info.isInterface decl
    let erased ← erasedParams id
    if ← isRepeated decl.selector erased built then
      Edit.report .duplicateMethod [(← get).methodName id, info.name.dotted]
      buildMethods declaring scope info built rest
    else buildMethods declaring scope info (built ++ [id]) rest

def defaultConstructor (declaring : TypeId) (info : ClassInfo) (decl : TypeDecl) : Edit (List MethodId) := do
  if info.kind.isInterface || decl.declaresConstructor then return []
  let modifiers := if info.kind = .enumeration then .privateFlag else info.modifiers ∩ Modifiers.access
  let id ← Edit.newMethod
    { bareMethod declaring WellKnown.constructor modifiers with origin := .defaultConstructor }
  return [id]

def enumMethods (declaring : TypeId) (info : ClassInfo) : Query (List MethodId) := do
  if info.kind ≠ .enumeration then return []
  let modifiers : Modifiers := .publicFlag ∪ .staticFlag
  let array ← Edit.arrayType declaring 1
  let values ← Edit.newMethod { bareMethod declaring "values" modifiers with result := array }
  match ← getType WellKnown.string with
  | none => return [values]
  | some string =>
    let valueOf ← Edit.newMethod
      { bareMethod declaring "valueOf" modifiers with result := declaring, params := [string] }
    return [values, valueOf]

def buildDeclaredMembers (id : TypeId) (scope : ScopeId) (info : ClassInfo) (decl : TypeDecl) : Query Unit := do
  Edit.modifyState id fun state => { state with membersBuilt := true }
  if !info.state.hierarchyEnded then connectHierarchy id
  let fields ← buildFields id scope info [] decl.fields
  let methods ← buildMethods id scope info [] decl.methods
  let constructor ← defaultConstructor id info decl
  let ofEnum ← enumMethods id info
  Edit.modifyClass id fun info => { info with fields, methods := methods ++ constructor ++ ofEnum }

def buildSourceMembers (id : TypeId) : Query Unit := do
  let world ← get
  let some info := world.class? id | return
  if info.state.membersBuilt || info.isCompiled then return
  match info.scope, world.declaration? id with
  | some scope, some (_, decl) => buildDeclaredMembers id scope info decl
  | _, _ => return

end Bindings.Query
