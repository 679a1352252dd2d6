import Bindings.World.Basic

/-! # Scope chains -/

namespace Bindings.World

def scopeChainFrom (world : World) : Nat → ScopeId → List ScopeId
  | 0, _ => []
  | fuel + 1, id =>
    match (world.scope id).parent with
    | some parent => id :: scopeChainFrom world fuel parent
    | none => [id]

def scopeChain (world : World) (id : ScopeId) : List ScopeId := world.scopeChainFrom (world.scopes.size + 1) id

def scopeType? (world : World) (id : ScopeId) : Option TypeId :=
  match (world.scope id).kind with
  | .type type => some type
  | _ => none

def isMethodScope (world : World) (id : ScopeId) : Bool :=
  match (world.scope id).kind with
  | .method .. => true
  | _ => false

def enclosingType? (world : World) (id : ScopeId) : Option TypeId := (world.scopeChain id).findSome? world.scopeType?

def enclosingMethodScope? (world : World) (id : ScopeId) : Option ScopeId :=
  ((world.scopeChain id).takeWhile fun scope => (world.scopeType? scope).isNone).find?
    world.isMethodScope

def unitScope (world : World) (id : ScopeId) : ScopeId := (world.scopeChain id).getLast?.getD id

def scopePackage (world : World) (id : ScopeId) : PackageId :=
  match (world.scope (world.unitScope id)).kind with
  | .unit _ package => package
  | _ => defaultPackage

def scopeUnit? (world : World) (id : ScopeId) : Option UnitId :=
  match (world.scope (world.unitScope id)).kind with
  | .unit unit _ => some unit
  | _ => none

def isStaticContext (world : World) (id : ScopeId) : Bool :=
  match (world.enclosingMethodScope? id).map fun scope => (world.scope scope).kind with
  | some (.method _ isStatic _) => isStatic
  | _ => false

def outermostFrom (world : World) : Nat → TypeId → TypeId
  | 0, id => id
  | fuel + 1, id =>
    match (world.class? id).bind (·.enclosing) with
    | none => id
    | some enclosing =>
      match world.type enclosing with
      | .placeholder _ none => id
      | .placeholder _ (some target) => outermostFrom world fuel target
      | _ => outermostFrom world fuel enclosing

def maxNesting : Nat := 65

def outermostType (world : World) (id : TypeId) : TypeId :=
  world.outermostFrom maxNesting ((world.erasureClass? id).getD id)

end Bindings.World
