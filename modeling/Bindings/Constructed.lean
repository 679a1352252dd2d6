import Bindings.Placeholder

/-!
# Constructed types

Arrays, parameterized types, raw types and wildcards are made once, and on types of the world only: a request
that names another handle is answered with `void`.
-/

namespace Bindings.Edit

def intern (listed : Caches → List TypeId) (isSame : TypeInfo → Bool)
    (list : TypeId → Caches → Caches) (components : List TypeId) (info : TypeInfo) :
    Edit TypeId := do
  let world ← get
  if components.any fun id => world.types.size ≤ id.index then return World.baseType .void
  match (listed world.caches).find? fun id => isSame (world.type id) with
  | some id =>
    modifyStats fun stats => { stats with cacheHits := stats.cacheHits + 1 }
    return id
  | none =>
    modifyStats fun stats => { stats with cacheMisses := stats.cacheMisses + 1 }
    let id ← newType info
    modify fun world => (world.modifyCaches (list id)).noteReferrers (.type id) components
    return id

def listUnder {κ : Type} [DecidableEq κ] (key : κ) (id : TypeId) (table : Table κ (List TypeId)) :
    Table κ (List TypeId) :=
  table.insert key ((table.find? key).getD [] ++ [id])

def arrayOf (leaf : TypeId) (dimensions : UInt32) : Edit TypeId :=
  intern (fun caches => (caches.arrays.find? leaf).getD [])
    (fun | .array _ d => d == dimensions | _ => false)
    (fun id caches => { caches with arrays := listUnder leaf id caches.arrays })
    [leaf] (.array leaf dimensions)

/-- The array of a component. Dimensions add up, so the leaf of an array is never an array, and
no dimensions at all give the component itself. -/
def arrayType (component : TypeId) (dimensions : UInt32) : Edit TypeId := do
  let (leaf, dimensions) := match (← get).type component with
    | .array leaf inner => (leaf, inner + dimensions)
    | _ => (component, dimensions)
  if dimensions = 0 then return leaf
  arrayOf leaf dimensions

def parameterizedType (generic : TypeId) (arguments : List TypeId) (enclosing : Option TypeId) : Edit TypeId :=
  intern (fun caches => (caches.parameterized.find? generic).getD [])
    (fun | .parameterized _ args outer => args == arguments && outer == enclosing | _ => false)
    (fun id caches => { caches with parameterized := listUnder generic id caches.parameterized })
    (arguments ++ generic :: enclosing.toList) (.parameterized generic arguments enclosing)

def rawType (generic : TypeId) (enclosing : Option TypeId) : Edit TypeId :=
  intern (fun caches => (caches.raw.find? generic).getD [])
    (fun | .raw _ outer => outer == enclosing | _ => false)
    (fun id caches => { caches with raw := listUnder generic id caches.raw })
    (generic :: enclosing.toList) (.raw generic enclosing)

def wildcard (generic : Option TypeId) (rank : Nat) (bound : Option TypeId)
    (otherBounds : List TypeId) (kind : WildcardKind) : Edit TypeId :=
  let bound := if kind = .unbounded then none else bound
  let info : WildcardInfo := { generic, rank, bound, otherBounds, kind }
  intern (fun caches => (caches.wildcards.find? generic).getD [])
    (fun | .wildcard other => { other with generic := generic } == info | _ => false)
    (fun id caches => { caches with wildcards := listUnder generic id caches.wildcards })
    (generic.toList ++ bound.toList ++ otherBounds) (.wildcard info)

end Bindings.Edit

namespace Bindings.World

def instanceCount (world : World) (id : TypeId) : Nat :=
  let count (listed : Option (List TypeId)) : Nat := (listed.getD []).length
  count (world.caches.arrays.find? id) + count (world.caches.parameterized.find? id) +
    count (world.caches.raw.find? id) + count (world.caches.wildcards.find? (some id))

end Bindings.World
