import Bindings.ArrayMembers
import Bindings.Capture
import Bindings.Members
import Bindings.Overload

/-! # Method lookup -/

namespace Bindings.Query

def lookupReceiver (receiver : TypeId) (position : Nat) : Query TypeId := do capture (← resolved receiver) position

structure MethodSearch where
  found : List (MethodId × List TypeId) := []
  visited : List TypeId := []

namespace MethodSearch

def add (search : MethodSearch) (method : MethodId) : Query MethodSearch := do
  let erased ← erasedParams method
  if search.found.any fun known => known.2 == erased then return search
  return { search with found := search.found ++ [(method, erased)] }

def addAll (search : MethodSearch) (methods : List MethodId) : Query MethodSearch := methods.foldlM add search

def visit (search : MethodSearch) (id : TypeId) : MethodSearch := { search with visited := id :: search.visited }

end MethodSearch

def searchSuperclasses (selector : String) :
    Nat → MethodSearch → List TypeId → Option TypeId → Query (MethodSearch × List TypeId)
  | _, search, interfaces, none => return (search, interfaces)
  | 0, _, _, some _ => giveUp
  | fuel + 1, search, interfaces, some id => do
    let some erased := (← get).erasureClass? id | return (search, interfaces)
    if search.visited.contains erased then return (search, interfaces)
    let search ← (search.visit erased).addAll (← methodsNamed id selector)
    let interfaces := interfaces ++ (← superInterfaces id)
    let superclass ← superclass id
    searchSuperclasses selector fuel search interfaces superclass

def searchInterfaces (selector : String) : Nat → MethodSearch → List TypeId → Query MethodSearch
  | _, search, [] => return search
  | 0, _, _ :: _ => giveUp
  | fuel + 1, search, id :: waiting => do
    match (← get).erasureClass? id with
    | none => searchInterfaces selector fuel search waiting
    | some erased =>
      if search.visited.contains erased then searchInterfaces selector fuel search waiting
      else
        let search ← (search.visit erased).addAll (← methodsNamed id selector)
        let above ← superInterfaces id
        searchInterfaces selector fuel search (waiting ++ above)

def searchStart (receiver : TypeId) : Query (Option TypeId × List TypeId) := do
  let world ← get
  match world.type receiver with
  | .variable _ | .capture _ | .wildcard _ =>
    let superclass ← superclass receiver
    let interfaces ← superInterfaces receiver
    return (superclass, interfaces)
  | .array .. => return (some (← objectType), [])
  | _ =>
    if isInterfaceType world receiver then return (none, [receiver])
    else return (some receiver, [])

def searchObject (selector : String) (search : MethodSearch) : Query MethodSearch := do
  let object ← objectType
  if search.visited.contains object then return search
  let methods ← methodsNamed object selector
  let world ← get
  search.addAll (methods.filter fun id => (world.method id).modifiers.isPublic)

def collectMethods (receiver : TypeId) (selector : String) : Query (List MethodId) := do
  let isInterface := isInterfaceType (← get) receiver
  let (start, interfaces) ← searchStart receiver
  let (search, interfaces) ← searchSuperclasses selector (← fuel) {} interfaces start
  let search ← searchInterfaces selector (← fuel) search interfaces
  let search ← if isInterface then searchObject selector search else pure search
  return search.found.map (·.1)

def findMethod (scope : ScopeId) (receiver : TypeId) (selector : String)
    (arguments : List TypeId) (site : Site) : Query (Resolution MethodId) := do
  let receiver ← lookupReceiver receiver site.position
  match (← get).type receiver, selector == WellKnown.arrayClone && arguments.isEmpty with
  | .array .., true => return .found (← Edit.arrayCloneMethod receiver)
  | _, _ =>
    let candidates ← collectMethods receiver selector
    selectMethod scope receiver selector candidates arguments site

def findConstructor (scope : ScopeId) (receiver : TypeId) (arguments : List TypeId)
    (site : Site) : Query (Resolution MethodId) := do
  let receiver ← resolved receiver
  let candidates ← methodsNamed receiver WellKnown.constructor
  selectMethod scope receiver WellKnown.constructor candidates arguments site

end Bindings.Query
