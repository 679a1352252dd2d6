import Bindings.Supertypes

/-!
# Source units

Registering a source unit makes its types with their scopes and type variables. A type whose name is taken is
reported and left out, with everything in it.
-/

namespace Bindings

namespace World

def isDuplicate (world : World) (package : PackageId) (enclosing : Option TypeId) (name : String) :
    Bool :=
  match enclosing with
  | some outer =>
    (world.class? outer).any fun info =>
      info.sourceName == name || info.members.any fun member => (world.class? member).any (·.sourceName == name)
  | none => (world.known? package name).any fun known => (world.class? known).isSome

def declaredName (world : World) (package : PackageId) (enclosing : Option TypeId) (name : String) : QName :=
  match enclosing.bind world.class? with
  | some outer => outer.name.child name
  | none => (world.package package).name.child name

def impliedModifiers (outer : Option ClassInfo) (kind : ClassKind) (modifiers : Modifiers) :
    Modifiers :=
  let ofKind : Modifiers := if kind.isInterface then .interfaceFlag ∪ .abstractFlag else .empty
  let ofPlace : Modifiers :=
    match outer with
    | none => .empty
    | some outer =>
      (if outer.isInterface then .publicFlag ∪ .staticFlag else .empty) ∪
        (if kind = .ordinary then .empty else .staticFlag)
  modifiers ∪ ofKind ∪ ofPlace

def typesBelow (world : World) : Nat → List TypeId → List TypeId
  | _, [] => []
  | 0, _ :: _ => []
  | fuel + 1, id :: rest => id :: typesBelow world fuel ((((world.class? id).map (·.members)).getD []) ++ rest)

def unitTypes (world : World) (unit : UnitId) : List TypeId :=
  world.typesBelow (world.types.size + 1) (world.unit unit).types

end World

namespace Edit

structure Place where
  unit : UnitId
  package : PackageId
  scope : ScopeId
  enclosing : Option TypeId
  path : List Nat

def newListedClass (info : ClassInfo) : Edit TypeId := do
  let id ← newType (.declared info)
  if info.enclosing.isNone then registerType info.package info.sourceName id
  return id

def declareVariables (id : TypeId) (typeParams : List TypeParam) : Edit Unit := do
  let typeVariables ←
    if (← get).options.generics then newVariables (.type id) 0 (typeParams.map (·.name))
    else pure []
  modifyClass id fun info => { info with typeVariables }

def newSourceClass (place : Place) (name : String) (kind : ClassKind) (modifiers : Modifiers)
    (typeParams : List TypeParam) : Edit (TypeId × ScopeId) := do
  let world ← get
  let id ← newListedClass
    { name := world.declaredName place.package place.enclosing name
      sourceName := name
      package := place.package
      modifiers := World.impliedModifiers (place.enclosing.bind world.class?) kind modifiers
      kind
      origin := .source place.unit place.path
      enclosing := place.enclosing
      scope := some ⟨world.scopes.size⟩ }
  let scope ← newScope { kind := .type id, parent := some place.scope }
  declareVariables id typeParams
  return (id, scope)

mutual

def buildType (place : Place) : TypeDecl → Edit (Option TypeId)
  | .mk name kind modifiers typeParams _ _ _ _ members => do
    let world ← get
    if world.isDuplicate place.package place.enclosing name then
      report .duplicateType [(world.declaredName place.package place.enclosing name).dotted]
      return none
    let (id, scope) ← newSourceClass place name kind modifiers typeParams
    buildMemberTypes { place with scope, enclosing := some id } id 0 members
    return some id

def buildMemberTypes (place : Place) (id : TypeId) (index : Nat) : List TypeDecl → Edit Unit
  | [] => return
  | decl :: rest => do
    let built ← buildType { place with path := place.path ++ [index] } decl
    if let some member := built then modifyClass id fun info => { info with members := info.members ++ [member] }
    buildMemberTypes place id (index + 1) rest

end

def buildTypes (place : Place) (index : Nat) : List TypeDecl → Edit (List TypeId)
  | [] => return []
  | decl :: rest => do
    let built ← buildType { place with path := [index] } decl
    let types ← buildTypes place (index + 1) rest
    return built.toList ++ types

def buildUnit (source : SourceUnit) : Edit UnitId := do
  let package ← createPackage source.package
  let unit : UnitId := ⟨(← get).units.size⟩
  let scope ← newScope { kind := .unit unit package, parent := none }
  modify fun world =>
    { world with
      units := world.units.push { file := source.file, package, scope }
      sources := world.sources.insert unit source
      pendingUnits := world.pendingUnits ++ [unit] }
  let types ← buildTypes { unit, package, scope, enclosing := none, path := [] } 0 source.types
  modify (·.modifyUnit unit fun info => { info with types })
  return unit

def releaseUnit (unit : UnitId) : Edit Unit := do
  if ((← get).sources.find? unit).isSome then
    modify fun world => { world with sources := world.sources.erase unit }
    modifyStats fun stats => { stats with unitsCompleted := stats.unitsCompleted + 1 }

end Edit

end Bindings
