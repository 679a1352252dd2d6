import Bindings.Scope.Chain
import Bindings.Supertypes

/-! # Visibility -/

namespace Bindings

def World.packageOf? (world : World) (id : TypeId) : Option PackageId :=
  ((world.erasureClass? id).bind world.class?).map (·.package)

def World.isVisibleInPackage (world : World) (id : TypeId) (package : PackageId) : Bool :=
  ((world.erasureClass? id).bind world.class?).all fun info => info.modifiers.isPublic || info.package == package

namespace Query

def receiverAllowed (modifiers : Modifiers) (accessing : TypeId) (receiver : Option TypeId) : Query Bool := do
  match receiver with
  | none => return true
  | some receiver =>
    if modifiers.isStatic then return true
    match (← get).erasureClass? receiver with
    | some erased => isSubclassOf erased accessing
    | none => return true

def protectedAccess (declaring : TypeId) (modifiers : Modifiers) (receiver : Option TypeId) :
    Nat → Option TypeId → Query Bool
  | _, none => return false
  | 0, some _ => giveUp
  | fuel + 1, some accessing => do
    if ← isSubclassOf accessing declaring then if ← receiverAllowed modifiers accessing receiver then return true
    let outer := ((← get).class? accessing).bind (·.enclosing)
    protectedAccess declaring modifiers receiver fuel outer

def canSeeMember (declaring : TypeId) (modifiers : Modifiers) (scope : ScopeId)
    (receiver : Option TypeId) : Query Bool := do
  if modifiers.isPublic then return true
  let declaring ← resolved declaring
  let world ← get
  let some declaringClass := world.erasureClass? declaring | return true
  let accessing := world.enclosingType? scope
  if modifiers.isPrivate then
    return accessing.any fun accessing => world.outermostType accessing == world.outermostType declaringClass
  if world.packageOf? declaringClass == some (world.scopePackage scope) then return true
  if !modifiers.isProtected then return false
  protectedAccess declaringClass modifiers receiver (← fuel) accessing

def canSeeType (id : TypeId) (scope : ScopeId) : Query Bool := do
  let id ← resolved id
  let world ← get
  let leaf := match world.type id with
    | .array leaf _ => leaf
    | _ => id
  let some erased := world.erasureClass? leaf | return true
  let some info := world.class? erased | return true
  match info.enclosing with
  | some enclosing => canSeeMember enclosing info.modifiers scope none
  | none => return info.modifiers.isPublic || world.packageOf? erased == some (world.scopePackage scope)

end Query

end Bindings
