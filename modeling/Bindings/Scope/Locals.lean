import Bindings.Query
import Bindings.Scope.Chain

/-! # Local variables -/

namespace Bindings

namespace World

def declaredLocal? (world : World) (scope : Scope) (name : String) : Option LocalId :=
  scope.locals.reverse.find? fun id => (world.localVar id).name == name

def findLocalIn (world : World) (name : String) : List ScopeId → Option LocalId
  | [] => none
  | id :: outer =>
    let scope := world.scope id
    match scope.kind with
    | .method .. => world.declaredLocal? scope name
    | .block => (world.declaredLocal? scope name).or (findLocalIn world name outer)
    | _ => none

def findLocal? (world : World) (scope : ScopeId) (name : String) : Option LocalId :=
  world.findLocalIn name (world.scopeChain scope)

def localWidth (world : World) (info : LocalInfo) : Nat := if (world.base? info.type).any (·.isWide) then 2 else 1

def placeLocals (world : World) (offset : Nat) : List LocalId → Nat × World
  | [] => (offset, world)
  | id :: rest =>
    let info := world.localVar id
    if info.used || info.isArgument then
      let world := world.modifyLocal id fun info => { info with slot := some offset }
      placeLocals world (offset + world.localWidth info) rest
    else placeLocals world offset rest

def placeScopes : Nat → ScopeId → Nat → World → Nat × World
  | 0, _, offset, world => (offset, world)
  | fuel + 1, id, offset, world =>
    let scope := world.scope id
    let (offset, world) := world.placeLocals offset scope.locals
    scope.children.foldl
      (fun (top, world) child =>
        if (world.scope child).isLocal then
          let (end_, world) := placeScopes fuel child offset world
          (max top end_, world)
        else (top, world))
      (offset, world)

def firstSlot (world : World) (scope : ScopeId) : Nat :=
  match (world.scope scope).kind with
  | .method _ false _ => 1
  | _ => 0

end World

namespace Edit

def newMethodScope (parent : ScopeId) (method : Option MethodId) (isStatic : Bool)
    (typeVariables : List TypeId := []) : Edit ScopeId :=
  newScope { kind := .method method isStatic typeVariables, parent := some parent }

def newBlockScope (parent : ScopeId) : Edit ScopeId := newScope { kind := .block, parent := some parent }

def declare (scope : ScopeId) (name : String) (type : TypeId) (modifiers : Modifiers)
    (isArgument : Bool) : Edit LocalId := do
  let world ← get
  if (world.findLocal? scope name).isSome then report .duplicateLocal [name]
  let id : LocalId := ⟨world.locals.size⟩
  modify fun world =>
    { world with
      locals := world.locals.push { name, type, modifiers, scope, isArgument, used := isArgument } }
  modify (·.modifyScope scope fun s => { s with locals := s.locals ++ [id] })
  return id

def declareLocal (scope : ScopeId) (name : String) (type : TypeId) (modifiers : Modifiers) : Edit LocalId :=
  declare scope name type modifiers false

def declareArgument (scope : ScopeId) (name : String) (type : TypeId) : Edit LocalId :=
  declare scope name type .empty true

def markUsed (id : LocalId) : Edit Unit := modify (·.modifyLocal id fun info => { info with used := true })

def placeAllLocals (scope : ScopeId) : Edit Nat := modifyGet fun world =>
  World.placeScopes (world.scopes.size + 1) scope (world.firstSlot scope) world

end Edit

end Bindings
