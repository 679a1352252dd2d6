import Bindings.MemberType
import Bindings.Scope.Imports

/-!
# Type names in scope

A simple type name is looked up from the scope outwards. An inherited member type loses against a different
one that an outer type declares. The unit comes last.
-/

namespace Bindings

def World.namedVariable? (world : World) (vars : List TypeId) (name : String) : Option TypeId :=
  vars.find? fun var => (world.type var).typeVariable?.any (·.name == name)

def World.isStaticType (world : World) (id : TypeId) : Bool :=
  (world.class? id).any fun info => info.modifiers.isStatic || info.isInterface || info.enclosing.isNone

namespace Query

def onDemandType (name : String) : OnDemandImport → Query (Option TypeId)
  | .package package => do getType (((← get).package package).name.child name)
  | .type id => do
    match ← memberTypeInHierarchy id name with
    | .one member => return some member
    | _ => return none

def searchOnDemand (scope : ScopeId) (name : String) (found hidden : Option TypeId) :
    List OnDemandImport → Query (Resolution TypeId)
  | [] =>
    match found, hidden with
    | some id, _ => return .found id
    | none, some id => return .failNear name .notVisible id
    | none, none => return .fail name .notFound
  | first :: rest => do
    match ← onDemandType name first with
    | none => searchOnDemand scope name found hidden rest
    | some candidate =>
      if !(← canSeeType candidate scope) then searchOnDemand scope name found (hidden <|> some candidate) rest
      else
        match found with
        | some earlier =>
          if earlier = candidate then searchOnDemand scope name found hidden rest
          else return .failNear name .ambiguous earlier
        | none => searchOnDemand scope name (some candidate) hidden rest

def resolveTypeInUnit (unit : UnitId) (scope : ScopeId) (name : String) (hidden : Option TypeId) :
    Query (Resolution TypeId) := do
  resolveImports unit
  let world ← get
  let info := world.unit unit
  match info.types.find? fun own => (world.class? own).any (·.sourceName == name) with
  | some own => return .found own
  | none =>
    match info.imports.single.find? name with
    | some imported => return .found imported
    | none =>
      match ← getType ((world.package info.package).name.child name) with
      | some id => return .found id
      | none => searchOnDemand scope name none hidden ((← get).unit unit).imports.onDemand

structure TypeSearch where
  inherited : Option TypeId := none
  hidden : Option TypeId := none

inductive TypeStep where
  | done (resolution : Resolution TypeId)
  | more (search : TypeSearch)

def declaredType (id : TypeId) (name : String) : Query (Option TypeId) := do
  let world ← get
  let vars := ((world.class? id).map (·.typeVariables)).getD []
  match world.namedVariable? vars name with
  | some var => return some var
  | none => directMemberType id name

def searchClass (scope : ScopeId) (name : String) (id : TypeId) (search : TypeSearch) : Query TypeStep := do
  match ← declaredType id name with
  | some direct =>
    match search.inherited with
    | some hit =>
      if hit = direct then return .done (.found direct)
      else return .done (.failNear name .inheritedHidesEnclosing hit)
    | none => return .done (.found direct)
  | none =>
    let connecting := ((← get).class? id).any (·.isConnecting)
    if search.inherited.isSome || connecting then return .more search
    match ← memberTypeInHierarchy id name with
    | .none => return .more search
    | .ambiguous member => return .done (.failNear name .ambiguous member)
    | .one member =>
      if ← canSeeType member scope then return .more { search with inherited := some member }
      else return .more { search with hidden := search.hidden <|> some member }

def searchChain (scope : ScopeId) (name : String) (search : TypeSearch) : List ScopeId → Query (Resolution TypeId)
  | [] =>
    match search.inherited with
    | some hit => return .found hit
    | none => return .fail name .notFound
  | id :: outer => do
    let world ← get
    match (world.scope id).kind with
    | .block => searchChain scope name search outer
    | .method _ _ vars =>
      match search.inherited, world.namedVariable? vars name with
      | none, some var => return .found var
      | _, _ => searchChain scope name search outer
    | .type type =>
      match ← searchClass scope name type search with
      | .done resolution => return resolution
      | .more search => searchChain scope name search outer
    | .unit unit _ =>
      match search.inherited with
      | some hit => return .found hit
      | none => resolveTypeInUnit unit scope name search.hidden

def resolveType (scope : ScopeId) (name : String) : Query (Resolution TypeId) := do
  searchChain scope name {} ((← get).scopeChain scope)

/-! ## Qualified names -/

structure Located where
  packageSegments : Nat
  types : List TypeId

def locateInPackage (scope : ScopeId) (dotted : String) (package : QName) :
    List String → Query (Except (Failure TypeId) (Nat × TypeId × List String))
  | [] => return .error { name := dotted, reason := .notFound }
  | segment :: rest => do
    let candidate := package.child segment
    match ← getType candidate with
    | some id =>
      if ← canSeeType id scope then return .ok (package.segments.length, id, rest)
      else return .error { name := dotted, reason := .notVisible, closest := some id }
    | none =>
      match ← Edit.getPackage candidate with
      | some _ => locateInPackage scope dotted candidate rest
      | none => return .error { name := dotted, reason := .notFound }

def locatedHit (dotted : String) : Hit TypeId → Except (Failure TypeId) TypeId
  | .one member => .ok member
  | .ambiguous member => .error { name := dotted, reason := .ambiguous, closest := some member }
  | .none => .error { name := dotted, reason := .notFound }

def locateMember (dotted : String) (outer : TypeId) (name : String) : Query (Except (Failure TypeId) TypeId) := do
  let world ← get
  let connecting := ((world.erasureClass? outer).bind world.class?).any (·.isConnecting)
  let hit : Hit TypeId ←
    if connecting then pure ((((← directMemberType outer name)).map Hit.one).getD .none)
    else memberTypeInHierarchy outer name
  return locatedHit dotted hit

def locateMembers (scope : ScopeId) (dotted : String) (outer : TypeId) :
    List String → Query (Except (Failure TypeId) (List TypeId))
  | [] => return .ok []
  | segment :: rest => do
    match ← locateMember dotted outer segment with
    | .error failure => return .error failure
    | .ok member =>
      if !(← canSeeType member scope) then
        return .error { name := dotted, reason := .notVisible, closest := some member }
      match ← locateMembers scope dotted member rest with
      | .error failure => return .error failure
      | .ok members => return .ok (member :: members)

def locateHead (scope : ScopeId) (dotted first : String) (rest : List String) :
    Query (Except (Failure TypeId) (Nat × TypeId × List String)) := do
  match ← resolveType scope first with
  | .found id => return .ok (0, id, rest)
  | .failed failure =>
    if failure.reason ≠ .notFound ∨ rest.isEmpty then return .error { failure with name := dotted }
    match ← Edit.getPackage ⟨[first]⟩ with
    | none => return .error { name := dotted, reason := .notFound }
    | some _ => locateInPackage scope dotted ⟨[first]⟩ rest

def locateType (scope : ScopeId) (names : List String) : Query (Except (Failure TypeId) Located) := do
  let dotted := joinSegments "." names
  match names with
  | [] => return .error { name := dotted, reason := .notFound }
  | first :: rest =>
    match ← locateHead scope dotted first rest with
    | .error failure => return .error failure
    | .ok (packageSegments, id, rest) =>
      match ← locateMembers scope dotted id rest with
      | .error failure => return .error failure
      | .ok members => return .ok { packageSegments, types := id :: members }

def resolveQualifiedType (scope : ScopeId) (name : QName) : Query (Resolution TypeId) := do
  match ← locateType scope name.segments with
  | .error failure => return .failed failure
  | .ok located =>
    match located.types.getLast? with
    | some id => return .found id
    | none => return .fail name.dotted .notFound

end Query

end Bindings
